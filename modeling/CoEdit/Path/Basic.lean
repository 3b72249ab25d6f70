/-!
# Paths

A path leads from the root of a document to one of its elements: a step into an array is an index,
a step into an object is a key. The root has the empty path.
-/
namespace CoEdit

/-- One step from an element to a child. -/
inductive Path.Step where
  | index (position : Nat)
  | key (name : String)
  deriving DecidableEq, Repr

/-- The steps from the root, first to last. -/
abbrev Path := List Path.Step

inductive PathError where
  | noParent
  deriving DecidableEq, Repr

def PathError.message : PathError → String
  | .noParent => "the root path has no parent"

namespace Path.Step

def index? : Step → Option Nat
  | .index i => some i
  | .key _ => none

def key? : Step → Option String
  | .index _ => none
  | .key k => some k

/-- The step as a reader sees it: an index in decimal, a key as it is. -/
def text : Step → String
  | .index i => toString i
  | .key k => k

end Path.Step

namespace Path

/-- The path of the element that holds this one. -/
def parent (path : Path) : Except PathError Path :=
  if path = [] then .error .noParent else .ok path.dropLast

/-- Whether `descendant` continues `ancestor` by at least one step. -/
def isAncestorOf (ancestor descendant : Path) : Bool :=
  ancestor.length < descendant.length && ancestor.isPrefixOf descendant

/-- The first step by which `descendant` continues `ancestor`. -/
def stepBelow? (ancestor descendant : Path) : Option Step :=
  if isAncestorOf ancestor descendant then descendant[ancestor.length]? else none

theorem isAncestorOf_iff (ancestor descendant : Path) :
    isAncestorOf ancestor descendant = true ↔ ∃ step rest, descendant = ancestor ++ step :: rest := by
  simp only [isAncestorOf, Bool.and_eq_true, decide_eq_true_eq, List.isPrefixOf_iff_prefix]
  constructor
  · rintro ⟨hlen, rest, rfl⟩
    cases rest with
    | nil => simp at hlen
    | cons step rest => exact ⟨step, rest, rfl⟩
  · rintro ⟨step, rest, rfl⟩
    exact ⟨by simp, ⟨step :: rest, rfl⟩⟩

theorem stepBelow?_append (ancestor : Path) (step : Step) (rest : Path) :
    stepBelow? ancestor (ancestor ++ step :: rest) = some step := by
  have h := (isAncestorOf_iff ancestor (ancestor ++ step :: rest)).2 ⟨step, rest, rfl⟩
  simp [stepBelow?, h]

end Path
end CoEdit
