import CoEdit.Proofs.Document.Shape
import CoEdit.Proofs.Path.Pointer

/-!
# Paths and elements

A path is followed down from the root and the path of an element is found on the way up. Both are walks down
that read steps in one of two ways: a resolved path may name a property by an index, for a pointer cannot tell
it from a key of digits, and the path of an element never does (`Sound.pathOf?_eq_some_iff`). Elements and
their paths therefore correspond one to one, and spelling every step into an object as a key leads from any
path that resolves to the path of its element (`Reachable.addressed`).
-/
namespace CoEdit

/-- The step as it stands in the path of an element: a step into an object is a key. -/
def Path.Step.spelled (step : Path.Step) : Content ElementId → Path.Step
  | .object _ => .key step.text
  | _ => step

namespace Arena

abbrev Reader := Path.Step → Content ElementId → Option ElementId

/-- The child that a step leads to if an index counts for arrays alone. -/
def place? : Reader
  | .index i, .array items => items[i]?
  | .key k, .object props => Entries.find? k props
  | _, _ => none

/-- The element that a path leads to from `top`. -/
def walk? (read : Reader) (nodes : Arena) (top : ElementId) (path : Path) : Option ElementId :=
  path.foldlM (fun id step => (Entries.find? id nodes).bind fun node => read step node.content) top

/-- The path with its steps as they stand in the paths of elements. -/
def spell (nodes : Arena) : ElementId → Path → Path
  | _, [] => []
  | id, step :: rest =>
      match Entries.find? id nodes with
      | none => step :: rest
      | some node =>
          step.spelled node.content ::
            match child? step node.content with
            | none => rest
            | some child => spell nodes child rest

/-- No array has more items than there are indices. -/
def Indexed (nodes : Arena) : Prop :=
  ∀ {id parent items}, Entries.find? id nodes = some ⟨parent, .array items⟩ → items.length ≤ Word.bound

variable {nodes : Arena} {read other : Reader} {top id child : ElementId} {path : Path} {step : Path.Step}
  {content : Content ElementId}

/-! ## Walks -/

theorem walk?_append (front back : Path) : walk? read nodes top (front ++ back) =
    (walk? read nodes top front).bind fun id => walk? read nodes id back :=
  List.foldlM_append

theorem walk?_cons_eq_some : walk? read nodes top (step :: path) = some id ↔
    ∃ node child, Entries.find? top nodes = some node ∧ read step node.content = some child ∧
      walk? read nodes child path = some id := by
  simp only [walk?, List.foldlM_cons, Option.bind_eq_bind, Option.bind_eq_some_iff]
  constructor
  · rintro ⟨child, ⟨node, hnode, hread⟩, hrest⟩
    exact ⟨node, child, hnode, hread, hrest⟩
  · rintro ⟨node, child, hnode, hread, hrest⟩
    exact ⟨child, ⟨node, hnode, hread⟩, hrest⟩

theorem walk?_concat_eq_some : walk? read nodes top (path ++ [step]) = some id ↔
    ∃ parent node, walk? read nodes top path = some parent ∧
      Entries.find? parent nodes = some node ∧ read step node.content = some id := by
  rw [walk?_append, Option.bind_eq_some_iff]
  refine exists_congr fun parent => ?_
  rw [walk?_cons_eq_some]
  constructor
  · rintro ⟨hfront, node, child, hnode, hread, hnil⟩
    cases hnil
    exact ⟨node, hfront, hnode, hread⟩
  · rintro ⟨node, hfront, hnode, hread⟩
    exact ⟨hfront, node, id, hnode, hread, rfl⟩

theorem walk?_map {f : Path.Step → Path.Step}
    (h : ∀ {id node step child}, Entries.find? id nodes = some node → read step node.content = some child →
      other (f step) node.content = some child)
    (hwalk : walk? read nodes top path = some id) : walk? other nodes top (path.map f) = some id := by
  induction path generalizing top with
  | nil => exact hwalk
  | cons step rest ih =>
      obtain ⟨node, child, hnode, hread, hrest⟩ := walk?_cons_eq_some.1 hwalk
      exact walk?_cons_eq_some.2 ⟨node, child, hnode, h hnode hread, ih hrest⟩

/-! ## Reading steps -/

/-- Only children are read. -/
def Reader.Descends (read : Reader) : Prop :=
  ∀ {step content child}, read step content = some child → child ∈ content.children

theorem child?_eq (step : Path.Step) (content : Content ElementId) :
    child? step content = place? (step.spelled content) content := by
  cases content <;> cases step <;> rfl

theorem place?_descends : Reader.Descends place? := by
  intro step content child h
  cases content with
  | array items =>
      cases step with
      | index i => exact List.mem_of_getElem? h
      | key k => cases h
  | object props =>
      cases step with
      | index i => cases h
      | key k => exact List.mem_map.2 ⟨(k, child), Entries.mem_of_find? h, rfl⟩
  | _ => cases step <;> cases h

theorem child?_descends : Reader.Descends child? := by
  intro step content child h
  rw [child?_eq] at h
  exact place?_descends h

theorem child?_of_place? (h : place? step content = some child) : child? step content = some child := by
  cases content <;> cases step <;> first | exact h | cases h

theorem stepTo?_eq_some_iff (hnodup : content.children.Nodup) (hkeyed : content.Keyed) :
    stepTo? child content = some step ↔ place? step content = some child := by
  cases content with
  | array items =>
      cases step with
      | key k => simp [stepTo?, place?]
      | index i =>
          have hindex : stepTo? child (.array items) = some (.index i) ↔
              items.findIdx? (· == child) = some i := by
            simp [stepTo?]
          rw [hindex, List.findIdx?_eq_some_iff_getElem]
          change _ ↔ items[i]? = some child
          rw [List.getElem?_eq_some_iff]
          constructor
          · rintro ⟨hi, heq, -⟩
            exact ⟨hi, eq_of_beq heq⟩
          · rintro ⟨hi, rfl⟩
            refine ⟨hi, beq_self_eq_true _, fun j hj heq => ?_⟩
            have hij := (List.Nodup.getElem_inj_iff hnodup).1 (eq_of_beq heq)
            omega
  | object props =>
      cases step with
      | index i => simp [stepTo?, place?]
      | key k =>
          have hkey : stepTo? child (.object props) = some (.key k) ↔
              ∃ e, props.find? (fun e => e.2 == child) = some e ∧ e.1 = k := by
            simp [stepTo?, Entries.keyOf?]
          rw [hkey]
          change _ ↔ Entries.find? k props = some child
          rw [Entries.find?_iff_mem hkeyed]
          constructor
          · rintro ⟨⟨name, value⟩, hfind, rfl⟩
            have hvalue := List.find?_some hfind
            rw [← eq_of_beq hvalue]
            exact List.mem_of_find?_eq_some hfind
          · intro hmem
            have hsome : (props.find? fun e => e.2 == child).isSome = true :=
              List.find?_isSome.2 ⟨_, hmem, beq_self_eq_true child⟩
            obtain ⟨e, he⟩ := Option.isSome_iff_exists.1 hsome
            have hvalue := List.find?_some he
            have hsame := List.inj_on_of_nodup_map hnodup (List.mem_of_find?_eq_some he) hmem (eq_of_beq hvalue)
            exact ⟨e, he, congrArg Prod.fst hsame⟩
  | _ => cases step <;> simp [stepTo?, place?]

/-- What a step leads to, it still leads to when it was read back from a pointer. -/
theorem child?_reread (hsized : ∀ items, content = .array items → items.length ≤ Word.bound)
    (h : child? step content = some child) : child? step.reread content = some child := by
  cases content with
  | array items =>
      cases step with
      | index i =>
          have hi : i < items.length := (List.getElem?_eq_some_iff.1 h).1
          rw [Path.Step.reread_index (hi.trans_le (hsized items rfl))]
          exact h
      | key k => cases h
  | object props =>
      change Entries.find? step.reread.text props = some child
      rw [Path.Step.text_reread]
      exact h
  | _ => cases h

end Arena

namespace Document
open Arena

variable {doc : Document} {read : Reader} {id other child : ElementId} {path : Path} {step : Path.Step}

/-! ## Walks from the root -/

/-- A walk to an element passes its ancestors and nothing else. -/
theorem Sound.exists_lineage (h : doc.Sound) (hread : read.Descends)
    (hwalk : walk? read doc.nodes doc.root path = some id) :
    ∃ ancestors, Lineage doc.nodes id ancestors ∧ ancestors.length = path.length ∧
      ∀ above ∈ ancestors, ∃ front step back, path = front ++ step :: back ∧
        walk? read doc.nodes doc.root front = some above := by
  induction path using List.reverseRecOn generalizing id with
  | nil =>
      cases hwalk
      obtain ⟨content, hroot⟩ := h.root
      exact ⟨[], .root hroot, rfl, nofun⟩
  | append_singleton path step ih =>
      obtain ⟨parent, node, hfront, hnode, hchild⟩ := walk?_concat_eq_some.1 hwalk
      obtain ⟨ancestors, hlineage, hlength, hpassed⟩ := ih hfront
      refine ⟨parent :: ancestors, h.lineage_child hlineage hnode (hread hchild), ?_, ?_⟩
      · rw [List.length_cons, hlength, List.length_append, List.length_singleton]
      · intro above habove
        rcases List.mem_cons.1 habove with rfl | habove
        · exact ⟨path, step, [], rfl, hfront⟩
        · obtain ⟨front, next, back, rfl, hwalk'⟩ := hpassed above habove
          exact ⟨front, next, back ++ [step], by rw [List.append_assoc, List.cons_append], hwalk'⟩

theorem Sound.length_eq_of_walk? (h : doc.Sound) (hread : read.Descends) {path' : Path}
    (hwalk : walk? read doc.nodes doc.root path = some id)
    (hwalk' : walk? read doc.nodes doc.root path' = some id) : path.length = path'.length := by
  obtain ⟨ancestors, hlineage, hlength, -⟩ := h.exists_lineage hread hwalk
  obtain ⟨ancestors', hlineage', hlength', -⟩ := h.exists_lineage hread hwalk'
  rw [← hlength, ← hlength', hlineage.unique hlineage']

theorem Sound.climb?_of_walk? (h : doc.Sound) (hwalk : walk? place? doc.nodes doc.root path = some id)
    {fuel : Nat} (hfuel : path.length < fuel) (below : Path) :
    climb? doc.nodes fuel id below = some (path ++ below) := by
  induction path using List.reverseRecOn generalizing id fuel below with
  | nil =>
      cases hwalk
      obtain ⟨content, hroot⟩ := h.root
      obtain ⟨fuel, rfl⟩ := Nat.exists_eq_add_one_of_ne_zero (Nat.ne_zero_of_lt hfuel)
      rw [climb?, hroot]
      rfl
  | append_singleton path step ih =>
      obtain ⟨parent, node, hfront, hnode, hchild⟩ := walk?_concat_eq_some.1 hwalk
      obtain ⟨content, hfound⟩ := h.listed hnode (place?_descends hchild)
      obtain ⟨fuel, rfl⟩ := Nat.exists_eq_add_one_of_ne_zero (Nat.ne_zero_of_lt hfuel)
      rw [List.length_append, List.length_singleton, Nat.add_lt_add_iff_right] at hfuel
      have hstep := (stepTo?_eq_some_iff (h.children hnode) (h.keyed hnode)).2 hchild
      rw [List.append_assoc, List.singleton_append, ← ih hfront hfuel (step :: below), climb?, hfound]
      simp only [Option.bind_eq_bind, Option.bind_some, hnode, hstep]

theorem Sound.exists_walk? (h : doc.Sound) (hid : doc.contains id = true) :
    ∃ path, walk? place? doc.nodes doc.root path = some id := by
  obtain ⟨node, hnode⟩ := contains_iff.1 hid
  obtain ⟨ancestors, hlineage⟩ := h.reached hnode
  clear hid hnode
  induction hlineage with
  | root found => exact ⟨[], congrArg some (h.orphan found).symm⟩
  | child found above listed rest ih =>
      obtain ⟨path, hpath⟩ := ih
      obtain ⟨step, hstep⟩ := exists_stepTo? listed
      have hchild := (stepTo?_eq_some_iff (h.children above) (h.keyed above)).1 hstep
      exact ⟨path ++ [step], walk?_concat_eq_some.2 ⟨_, _, hpath, above, hchild⟩⟩

/-- The path of an element is the one that leads to it with an index for arrays alone. -/
theorem Sound.pathOf?_eq_some_iff (h : doc.Sound) :
    doc.pathOf? id = some path ↔ walk? place? doc.nodes doc.root path = some id := by
  have hback {path : Path} (hwalk : walk? place? doc.nodes doc.root path = some id) :
      doc.pathOf? id = some path := by
    obtain ⟨ancestors, hlineage, hlength, -⟩ := h.exists_lineage place?_descends hwalk
    rw [pathOf?, h.climb?_of_walk? hwalk (hlength ▸ hlineage.length_lt), List.append_nil]
  refine ⟨fun hpath => ?_, hback⟩
  have hid : doc.contains id = true := by
    cases hfound : Entries.find? id doc.nodes with
    | some node => exact contains_iff.2 ⟨node, hfound⟩
    | none =>
        rw [pathOf?] at hpath
        cases hlength : doc.nodes.length with
        | zero => simp [hlength, climb?] at hpath
        | succ fuel => simp [hlength, climb?, hfound] at hpath
  obtain ⟨other, hwalk⟩ := h.exists_walk? hid
  rw [hback hwalk] at hpath
  cases hpath
  exact hwalk

/-! ## Elements and their paths -/

theorem Sound.resolve?_of_pathOf? (h : doc.Sound) (hpath : doc.pathOf? id = some path) :
    doc.resolve? path = some id := by
  have hwalk := walk?_map (f := fun step => step) (fun _ hread => child?_of_place? hread)
    (h.pathOf?_eq_some_iff.1 hpath)
  rwa [List.map_id'] at hwalk

theorem resolve?_reread (hsized : doc.nodes.Indexed) (hresolve : doc.resolve? path = some id) :
    doc.resolve? path.reread = some id := by
  rw [Path.reread_eq_map]
  refine walk?_map (fun {_ node _ _} hnode hread => child?_reread (fun items hitems => ?_) hread) hresolve
  rcases node with ⟨parent, content⟩
  cases hitems
  exact hsized hnode

theorem walk?_spell {nodes : Arena} {top : ElementId} (hwalk : walk? child? nodes top path = some id) :
    walk? place? nodes top (spell nodes top path) = some id := by
  induction path generalizing top with
  | nil => exact hwalk
  | cons step rest ih =>
      obtain ⟨node, child, hnode, hread, hrest⟩ := walk?_cons_eq_some.1 hwalk
      rw [spell, hnode]
      dsimp only
      rw [hread]
      exact walk?_cons_eq_some.2 ⟨node, child, hnode, child?_eq step node.content ▸ hread, ih hrest⟩

/-- Elements and their paths correspond. -/
structure Addressed (doc : Document) : Prop where
  /-- Every attached element has a path, and the path leads to it. -/
  path : ∀ {id}, doc.contains id = true →
    ∃ path, doc.pathOf? id = some path ∧ doc.resolve? path = some id
  /-- The path leads to the element also when it was read back from its pointer. -/
  pointer : doc.nodes.Indexed → ∀ {id path}, doc.pathOf? id = some path →
    doc.resolve? (Path.ofPointer path.toPointer) = some id
  /-- The path of the element that some path leads to is that path with a key for every step into an
  object. -/
  resolved : ∀ {id path}, doc.resolve? path = some id →
    doc.pathOf? id = some (spell doc.nodes doc.root path)
  /-- No two elements have the same path. -/
  distinct : ∀ {id other path}, doc.pathOf? id = some path → doc.pathOf? other = some path → id = other

theorem Reachable.addressed (hdoc : doc.Reachable) : doc.Addressed := by
  have h := hdoc.sound
  refine ⟨fun hid => ?_, fun hsized _ _ hpath => ?_, fun hresolve => ?_, fun hpath hpath' => ?_⟩
  · obtain ⟨path, hwalk⟩ := h.exists_walk? hid
    have hpath := h.pathOf?_eq_some_iff.2 hwalk
    exact ⟨path, hpath, h.resolve?_of_pathOf? hpath⟩
  · exact resolve?_reread hsized (h.resolve?_of_pathOf? hpath)
  · exact h.pathOf?_eq_some_iff.2 (walk?_spell hresolve)
  · exact Option.some.inj ((h.resolve?_of_pathOf? hpath).symm.trans (h.resolve?_of_pathOf? hpath'))

/-- A cabinet whose compartments have awkward names: none at all, one with a slash and an escape in it, and
two decimals of which the second is no word. -/
def cabinet : Document where
  root := "cabinet"
  nodes := [
    ("cabinet", ⟨none, .object [("", "blank"), ("a/~1", "drawer"), ("7", "seven"),
      ("18446744073709551616", "far")]⟩),
    ("blank", ⟨some "cabinet", .null⟩),
    ("drawer", ⟨some "cabinet", .array ["slip"]⟩),
    ("slip", ⟨some "drawer", .string "Ab"⟩),
    ("seven", ⟨some "cabinet", .boolean true⟩),
    ("far", ⟨some "cabinet", .boolean false⟩)]

theorem reachable_cabinet : cabinet.Reachable := by
  have hmade : ofElement (.mk "cabinet" (.object [
      ("", .mk "blank" .null),
      ("a/~1", .mk "drawer" (.array [.mk "slip" (.string "Ab")])),
      ("7", .mk "seven" (.boolean true)),
      ("18446744073709551616", .mk "far" (.boolean false))])) = .ok cabinet := rfl
  exact .ofElement (by decide) hmade

theorem indexed_cabinet : cabinet.nodes.Indexed := by
  intro id parent items hfound
  have hmem := Entries.mem_of_find? hfound
  simp only [cabinet, List.mem_cons, Prod.mk.injEq, Node.mk.injEq, Content.array.injEq, reduceCtorEq, and_false,
    List.not_mem_nil, or_false, false_or] at hmem
  obtain ⟨-, -, rfl⟩ := hmem
  decide

theorem addressed_cabinet :
    cabinet.resolve? (Path.ofPointer (Path.toPointer [.key "a/~1", .index 0])) = some "slip" ∧
      cabinet.pathOf? "seven" = some [.key "7"] := by
  have h := Reachable.addressed reachable_cabinet
  have hslip : cabinet.pathOf? "slip" = some [.key "a/~1", .index 0] := rfl
  have hseven : cabinet.resolve? [.index 7] = some "seven" := rfl
  exact ⟨h.pointer indexed_cabinet hslip, h.resolved hseven⟩

end Document
end CoEdit
