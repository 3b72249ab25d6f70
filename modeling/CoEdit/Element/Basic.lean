import CoEdit.Entries

/-!
# Elements

A document is a tree of elements. Every element has an id of its own and a content: a scalar, a list
of children, or children under property names. The content is generic in what stands for a child, so
that a whole tree and a single node of it share one type: in a tree a child is an element, in a node
it is the id of one.

`preorder` lists a tree parents first. The ids of a tree, the types met on a walk through it and the
first number that is not finite are all read off that list.
-/
namespace CoEdit

/-- The name by which operations address an element. -/
abbrev ElementId := String

/-- What an element holds, with children of type `α`. -/
inductive Content (α : Type) where
  | null
  | string (text : String)
  | number (value : Float)
  | boolean (value : Bool)
  /-- Milliseconds since the Unix epoch. -/
  | date (millis : Int)
  | array (items : List α)
  | object (props : List (String × α))

/-- The kinds of element that can be edited. -/
inductive Family where
  | array | string | object | number | boolean | date
  deriving DecidableEq, Repr

/-- A tree of elements. -/
inductive Element where
  | mk (id : ElementId) (content : Content Element)

namespace Content

variable {α β : Type}

/-- The short name of the type. -/
def typeName : Content α → String
  | .null => "null"
  | .string _ => "string"
  | .number _ => "number"
  | .boolean _ => "boolean"
  | .date _ => "date"
  | .array _ => "array"
  | .object _ => "object"

/-- The family of edits that fit; none fits `null`. -/
def family? : Content α → Option Family
  | .null => none
  | .string _ => some .string
  | .number _ => some .number
  | .boolean _ => some .boolean
  | .date _ => some .date
  | .array _ => some .array
  | .object _ => some .object

def children : Content α → List α
  | .array items => items
  | .object props => Entries.values props
  | _ => []

/-- The same content with every child replaced, or dropped where `f` has no answer. -/
def filterMap (f : α → Option β) : Content α → Content β
  | .null => .null
  | .string s => .string s
  | .number x => .number x
  | .boolean b => .boolean b
  | .date ms => .date ms
  | .array items => .array (items.filterMap f)
  | .object props => .object (props.filterMap fun p => (f p.2).map (p.1, ·))

/-- The same content with every child replaced. -/
def map (f : α → β) : Content α → Content β
  | .null => .null
  | .string s => .string s
  | .number x => .number x
  | .boolean b => .boolean b
  | .date ms => .date ms
  | .array items => .array (items.map f)
  | .object props => .object (props.map fun p => (p.1, f p.2))

end Content

namespace Element

def id : Element → ElementId
  | .mk id _ => id

def content : Element → Content Element
  | .mk _ content => content

mutual

/-- The elements of the tree, parents first. -/
def preorder : Element → List Element
  | .mk id content => .mk id content :: preorderContent content

def preorderContent : Content Element → List Element
  | .array items => preorderItems items
  | .object props => preorderProps props
  | _ => []

def preorderItems : List Element → List Element
  | [] => []
  | item :: rest => preorder item ++ preorderItems rest

def preorderProps : List (String × Element) → List Element
  | [] => []
  | (_, item) :: rest => preorder item ++ preorderProps rest

end

/-- The ids of the tree, parents first. -/
def ids (element : Element) : List ElementId :=
  element.preorder.map Element.id

/-- The id and type of every element, parents first. -/
def visited (element : Element) : List (ElementId × String) :=
  element.preorder.map fun e => (e.id, e.content.typeName)

/-- The first number of the tree that is not finite. -/
def firstNonFinite? (element : Element) : Option Float :=
  element.preorder.findSome? fun e =>
    match e.content with
    | .number x => if x.isFinite then none else some x
    | _ => none

mutual

/-- Whether two trees hold the same: ids and contents agree, numbers compare as numbers (so the two
zeros agree and a NaN agrees with nothing), and the order of properties does not count. -/
def agrees : Element → Element → Bool
  | .mk i c, .mk j d => i == j && agreesContent c d

def agreesContent : Content Element → Content Element → Bool
  | .null, .null => true
  | .string s, .string t => s == t
  | .number x, .number y => x == y
  | .boolean a, .boolean b => a == b
  | .date m, .date n => m == n
  | .array xs, .array ys => agreesItems xs ys
  | .object ps, .object qs => ps.length == qs.length && agreesProps ps qs
  | _, _ => false

def agreesItems : List Element → List Element → Bool
  | [], [] => true
  | x :: xs, y :: ys => agrees x y && agreesItems xs ys
  | _, _ => false

/-- Every listed property is found in `qs` with a value that agrees. -/
def agreesProps : List (String × Element) → List (String × Element) → Bool
  | [], _ => true
  | (name, x) :: rest, qs =>
      (match Entries.find? name qs with
        | some y => agrees x y
        | none => false) && agreesProps rest qs

end

instance : BEq Element := ⟨agrees⟩

/-- Whether two property lists hold the same, whatever their order. -/
def sameProps (ps qs : List (String × Element)) : Bool :=
  agreesContent (.object ps) (.object qs)

theorem preorder_mk (id : ElementId) (content : Content Element) :
    preorder (.mk id content) = .mk id content :: preorderContent content := by
  simp only [preorder]

theorem preorderItems_eq (items : List Element) :
    preorderItems items = items.flatMap preorder := by
  induction items with
  | nil => simp [preorderItems]
  | cons item rest ih => simp [preorderItems, ih]

theorem preorderProps_eq (props : List (String × Element)) :
    preorderProps props = (Entries.values props).flatMap preorder := by
  induction props with
  | nil => simp [preorderProps, Entries.values]
  | cons p rest ih =>
      rcases p with ⟨name, item⟩
      simpa [preorderProps, Entries.values] using ih

/-- What lies below an element is what its children list, one after the other. -/
theorem preorderContent_eq (content : Content Element) :
    preorderContent content = content.children.flatMap preorder := by
  cases content <;>
    simp [preorderContent, Content.children, preorderItems_eq, preorderProps_eq]

end Element
end CoEdit
