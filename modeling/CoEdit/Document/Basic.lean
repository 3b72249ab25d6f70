import CoEdit.Element.Mint
import CoEdit.Path.Basic
import CoEdit.Change.Kind
import CoEdit.Text.Quoted

/-!
# Documents

A document keeps its elements in an arena: every attached element has a node under its id, with the
id of its parent and a content whose children are ids. An edit finds its target by id, wherever the
element has moved.

Reading a tree out of the arena follows child ids downwards and finding the path of an element
follows parent ids upwards. Neither can pass through more nodes than there are, so the number of
nodes bounds both.
-/
namespace CoEdit

/-- An attached element. -/
structure Node where
  parent : Option ElementId
  content : Content ElementId

/-- The nodes of all attached elements, by id. -/
abbrev Arena := List (ElementId × Node)

/-- A tree of elements under the element `root`. -/
structure Document where
  root : ElementId
  nodes : Arena

/-- Why a document refuses an edit. -/
inductive DocumentError where
  | duplicateId (id : ElementId)
  | typeMismatch (kind : ChangeKind) (id : ElementId) (found : String)
  | indexOutOfBounds (kind : ChangeKind) (id : ElementId) (index length : Nat)
  | propertyNotFound (id : ElementId) (prop : String)
  | propertyExists (id : ElementId) (prop : String)
  | reorderLength (id : ElementId) (order length : Nat)
  deriving DecidableEq

def DocumentError.message : DocumentError → String
  | .duplicateId id => "element " ++ id ++ " appears more than once"
  | .typeMismatch kind id found =>
      kind.name ++ " cannot target element " ++ id ++ ": it is a " ++ found
  | .indexOutOfBounds kind id index length =>
      kind.name ++ " on " ++ id ++ ": index " ++ toString index ++ " out of bounds for length " ++
        toString length
  | .propertyNotFound id prop => "property " ++ Text.quoted prop ++ " does not exist on " ++ id
  | .propertyExists id prop => "property " ++ Text.quoted prop ++ " already exists on " ++ id
  | .reorderLength id order length =>
      "reorder on " ++ id ++ " has " ++ toString order ++ " entries but the array has " ++
        toString length

namespace Element

mutual

/-- The nodes of a tree hung under `parent`, parents first. -/
def placed (parent : Option ElementId) : Element → Arena
  | .mk id content => (id, ⟨parent, content.map Element.id⟩) :: placedContent id content

def placedContent (parent : ElementId) : Content Element → Arena
  | .array items => placedItems parent items
  | .object props => placedProps parent props
  | _ => []

def placedItems (parent : ElementId) : List Element → Arena
  | [] => []
  | item :: rest => placed (some parent) item ++ placedItems parent rest

def placedProps (parent : ElementId) : List (String × Element) → Arena
  | [] => []
  | (_, item) :: rest => placed (some parent) item ++ placedProps parent rest

end

end Element

/-- The first id of a list that is taken already or occurs earlier in the list. -/
def firstClash? (taken : ElementId → Bool) : List ElementId → Option ElementId
  | [] => none
  | id :: rest =>
      if taken id then some id else firstClash? (fun other => taken other || other == id) rest

namespace Arena

/-- The tree under `id`, as deep as `fuel` allows. A child without a node is left out. -/
def read? (nodes : Arena) : Nat → ElementId → Option Element
  | 0, _ => none
  | fuel + 1, id =>
      (Entries.find? id nodes).map fun node => .mk id (node.content.filterMap (read? nodes fuel))

/-- The step from a content to the child `id`. -/
def stepTo? (id : ElementId) : Content ElementId → Option Path.Step
  | .array items => (items.findIdx? (· == id)).map .index
  | .object props => (Entries.keyOf? id props).map .key
  | _ => none

/-- The child that a step leads to. A pointer cannot tell a key of digits from an index, so an index
into an object is looked up as a key. -/
def child? (step : Path.Step) : Content ElementId → Option ElementId
  | .array items => step.index?.bind (items[·]?)
  | .object props => Entries.find? step.text props
  | _ => none

/-- The steps from the root to `id`, put in front of `below`. -/
def climb? (nodes : Arena) : Nat → ElementId → Path → Option Path
  | 0, _, _ => none
  | fuel + 1, id, below => do
      let node ← Entries.find? id nodes
      match node.parent with
      | none => return below
      | some parent => do
          let above ← Entries.find? parent nodes
          let step ← stepTo? id above.content
          climb? nodes fuel parent (step :: below)

end Arena

namespace Document

def contains (doc : Document) (id : ElementId) : Bool :=
  Entries.contains id doc.nodes

/-- The tree under an attached element. -/
def value? (doc : Document) (id : ElementId) : Option Element :=
  Arena.read? doc.nodes doc.nodes.length id

/-- The tree under an element that is taken to be attached; a bare `null` if it is not. -/
def subtree (doc : Document) (id : ElementId) : Element :=
  (doc.value? id).getD (.mk id .null)

/-- The whole tree. -/
def snapshot (doc : Document) : Element :=
  doc.subtree doc.root

def toJson (doc : Document) : Json :=
  doc.snapshot.toJson

/-- The path of an attached element. -/
def pathOf? (doc : Document) (id : ElementId) : Option Path :=
  Arena.climb? doc.nodes doc.nodes.length id []

def resolve? (doc : Document) (path : Path) : Option ElementId :=
  path.foldlM (fun id step => (Entries.find? id doc.nodes).bind fun node =>
    Arena.child? step node.content) doc.root

/-- Refuses values that would make an id occur twice. The ids in `reusable` are about to be free.
Each value is looked at on its own first, then all of them together. -/
def checkFresh (doc : Document) (reusable : List ElementId) (values : List Element) :
    Except DocumentError Unit :=
  let taken (id : ElementId) : Bool := doc.contains id && !reusable.contains id
  let alone := values.findSome? fun value => firstClash? taken value.ids
  let together := firstClash? (fun _ => false) (values.flatMap Element.ids)
  match alone.or together with
  | some id => .error (.duplicateId id)
  | none => .ok ()

/-- The document that holds the tree `root`. -/
def ofElement (root : Element) : Except DocumentError Document := do
  let empty : Document := ⟨root.id, []⟩
  empty.checkFresh [] [root]
  return ⟨root.id, Entries.putAll (root.placed none) []⟩

end Document
end CoEdit
