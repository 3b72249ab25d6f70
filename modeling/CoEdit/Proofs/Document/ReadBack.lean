import CoEdit.Proofs.Document.Shape
import CoEdit.Proofs.Document.TreeEdit

/-!
# Trees and the documents made of them

A document flattens a tree into an arena, and reading it out builds the tree again. The two are inverse to each
other (`ofElement_readsBack`): a tree makes a document exactly if it repeats no id, and then the document shows
the tree element by element, with properties in their order; otherwise the first repeated id is named. Every
document that comes about holds such a tree, so it can be made anew from what it shows.

That no child is left out when a tree is read out does not need the document to be sound: a tree with fewer ids
than the fuel is read out of every arena that stores it (`Stored.read?_eq`).
-/
namespace CoEdit

/-- The first id of the list that occurred before. -/
def FirstRepeat (ids : List ElementId) (id : ElementId) : Prop :=
  ∃ front back, ids = front ++ id :: back ∧ front.Nodup ∧ id ∈ front

theorem firstClash?_eq_some_iff {taken : ElementId → Bool} {ids : List ElementId} {id : ElementId} :
    firstClash? taken ids = some id ↔ ∃ front back, ids = front ++ id :: back ∧ front.Nodup ∧
      (∀ other ∈ front, taken other = false) ∧ (taken id = true ∨ id ∈ front) := by
  induction ids generalizing taken with
  | nil => simp [firstClash?]
  | cons head rest ih =>
      cases htaken : taken head with
      | true =>
          rw [firstClash?, if_pos htaken, Option.some.injEq]
          constructor
          · rintro rfl
            exact ⟨[], rest, rfl, List.nodup_nil, fun _ h => absurd h List.not_mem_nil, .inl htaken⟩
          · rintro ⟨_ | ⟨other, front⟩, back, hsplit, -, hfree, -⟩
            · exact (List.cons_eq_cons.1 hsplit).1
            · rw [(List.cons_eq_cons.1 hsplit).1, hfree other List.mem_cons_self] at htaken
              cases htaken
      | false =>
          rw [firstClash?, if_neg (by simp [htaken]), ih]
          simp only [Bool.or_eq_false_iff, beq_eq_false_iff_ne, Bool.or_eq_true, beq_iff_eq]
          constructor
          · rintro ⟨front, back, rfl, hnodup, hfree, hclash⟩
            refine ⟨head :: front, back, rfl, ?_, ?_, ?_⟩
            · exact List.nodup_cons.2 ⟨fun hmem => (hfree head hmem).2 rfl, hnodup⟩
            · exact List.forall_mem_cons.2 ⟨htaken, fun other hother => (hfree other hother).1⟩
            · rw [List.mem_cons, ← or_assoc]
              exact hclash
          · rintro ⟨_ | ⟨other, front⟩, back, hsplit, hnodup, hfree, hclash⟩
            · -- an id at the head has nothing before it to clash with
              cases hsplit
              rw [htaken] at hclash
              cases hclash with
              | inl htrue => cases htrue
              | inr hmem => cases hmem
            · cases hsplit
              obtain ⟨hnot, hnodup⟩ := List.nodup_cons.1 hnodup
              refine ⟨front, back, rfl, hnodup, fun other hother => ?_, ?_⟩
              · refine ⟨hfree other (List.mem_cons_of_mem _ hother), ?_⟩
                rintro rfl
                exact hnot hother
              · rwa [List.mem_cons, ← or_assoc] at hclash

theorem firstRepeat_iff {ids : List ElementId} {id : ElementId} :
    FirstRepeat ids id ↔ firstClash? (fun _ => false) ids = some id := by
  rw [firstClash?_eq_some_iff]
  simp [FirstRepeat]

/-! ## Reading out what is stored -/

theorem Content.filterMap_map {α β : Type} {f : α → β} {g : β → Option α} {content : Content α}
    (h : ∀ child ∈ content.children, g (f child) = some child) :
    (content.map f).filterMap g = content := by
  cases content with
  | array items =>
      have hitems : ∀ child ∈ items, (g ∘ f) child = some child := h
      change Content.array ((items.map f).filterMap g) = _
      rw [List.filterMap_map, List.filterMap_congr hitems, List.filterMap_some]
  | object props =>
      have hprops : ∀ p ∈ props, ((fun q : String × β => (g q.2).map (q.1, ·)) ∘
          fun p : String × α => (p.1, f p.2)) p = some p := by
        intro p hp
        rw [Function.comp_apply, h p.2 (List.mem_map_of_mem hp), Option.map_some]
      change Content.object ((props.map fun p => (p.1, f p.2)).filterMap
        fun q => (g q.2).map (q.1, ·)) = _
      rw [List.filterMap_map, List.filterMap_congr hprops, List.filterMap_some]
  | _ => rfl

namespace Element

variable {nodes : Arena} {tree x : Element}

theorem length_ids_child_lt {id : ElementId} {content : Content Element} {child : Element}
    (h : child ∈ content.children) : child.ids.length < (ids (.mk id content)).length := by
  obtain ⟨front, back, hsplit⟩ := List.append_of_mem h
  rw [ids_mk, hsplit]
  simp only [List.flatMap_append, List.flatMap_cons, List.length_cons, List.length_append]
  omega

theorem length_ids_le (h : x ∈ tree.preorder) : x.ids.length ≤ tree.ids.length := by
  induction tree using Element.induction with
  | mk id content ih =>
      rcases mem_preorder_mk.1 h with rfl | ⟨child, hchild, hx⟩
      · exact le_rfl
      · exact (ih child hchild hx).trans (length_ids_child_lt hchild).le

theorem Stored.read?_eq {fuel : Nat} (h : tree.Stored nodes) (hfuel : tree.ids.length ≤ fuel) :
    Arena.read? nodes fuel tree.id = some tree := by
  induction tree using Element.induction generalizing fuel with
  | mk id content ih =>
      obtain ⟨⟨node, hnode, hcontent⟩, hchildren⟩ := stored_mk.1 h
      cases fuel with
      | zero => simp [ids_mk] at hfuel
      | succ fuel =>
          have hread : ∀ child ∈ content.children, Arena.read? nodes fuel child.id = some child :=
            fun child hchild => ih child hchild (hchildren child hchild)
              (Nat.le_of_lt_succ ((length_ids_child_lt hchild).trans_le hfuel))
          change Arena.read? nodes (fuel + 1) id = _
          rw [Arena.read?, hnode, Option.map_some, ← hcontent, Content.filterMap_map hread]

end Element

namespace Document

variable {doc : Document} {tree : Element}

/-- The document shows the tree, as a whole and from each of its elements downwards, and nothing else. -/
structure ShowsTree (doc : Document) (tree : Element) : Prop where
  snapshot : doc.snapshot = tree
  contains_iff : ∀ id, doc.contains id = true ↔ id ∈ tree.ids
  value?_eq : ∀ id, doc.value? id = tree.preorder.find? fun x => x.id == id

/-- The nodes of a tree that repeats no id store the tree. -/
theorem stored_placed (hnodup : tree.ids.Nodup) : tree.Stored (tree.placed none) := by
  intro x hx
  obtain ⟨above, hmem⟩ := Element.exists_mem_placed hx none
  exact ⟨_, (find?_placed hnodup).2 hmem, rfl⟩

/-- A document made of a tree shows the tree. -/
theorem showsTree_ofElement (h : ofElement tree = .ok doc) : doc.ShowsTree tree := by
  obtain ⟨hnodup, rfl⟩ := ofElement_eq_ok_iff.1 h
  have hkeys := Element.keys_placed none tree
  have hlength : (tree.placed none).length = tree.ids.length := by
    rw [← hkeys, Entries.keys, List.length_map]
  have hvalue : ∀ x ∈ tree.preorder,
      value? ⟨tree.id, tree.placed none⟩ x.id = some x := fun x hx =>
    ((stored_placed hnodup).below hx).read?_eq ((Element.length_ids_le hx).trans_eq hlength.symm)
  have hcontains (id : ElementId) :
      contains ⟨tree.id, tree.placed none⟩ id = true ↔ id ∈ tree.ids := by
    rw [← hkeys]
    exact Entries.contains_iff_mem_keys
  refine ⟨?_, hcontains, fun id => ?_⟩
  · change (value? ⟨tree.id, tree.placed none⟩ tree.id).getD _ = tree
    rw [hvalue tree (Element.mem_preorder_self tree), Option.getD_some]
  · by_cases hid : id ∈ tree.ids
    · obtain ⟨x, hx, rfl, hfind⟩ := Element.find?_preorder hid
      rw [hvalue x hx, hfind]
    · rw [value?_of_not_contains (Bool.eq_false_iff.2 (mt (hcontains id).1 hid)), eq_comm,
        List.find?_eq_none]
      intro x hx heq
      exact hid (beq_iff_eq.1 heq ▸ Element.mem_ids_of_mem_preorder hx)

/-- Making a document of a tree and reading a document out are inverse to each other. A tree makes a document
if and only if it repeats no id, and otherwise the first id that occurred before, parents first, is named. The
document shows just that tree. And of what any document that came about shows, a document can be made that
shows the same. -/
theorem ofElement_readsBack :
    (∀ tree : Element, (∃ doc, ofElement tree = .ok doc) ↔ tree.ids.Nodup) ∧
      (∀ (tree : Element) (e : DocumentError), ofElement tree = .error e ↔
        ∃ id, FirstRepeat tree.ids id ∧ e = .duplicateId id) ∧
      (∀ (tree : Element) (doc : Document), ofElement tree = .ok doc → doc.ShowsTree tree) ∧
      ∀ doc : Document, doc.Reachable →
        ∃ copy, ofElement doc.snapshot = .ok copy ∧ copy.ShowsTree doc.snapshot := by
  refine ⟨fun tree => ?_, fun tree e => ?_, fun tree doc => showsTree_ofElement, fun doc hdoc => ?_⟩
  · simp only [ofElement_eq_ok_iff, exists_and_left, exists_eq, and_true]
  · simp only [firstRepeat_iff]
    rw [ofElement_eq]
    cases firstClash? (fun _ => false) tree.ids with
    | none => simp
    | some id => simp [eq_comm]
  · have hmade := ofElement_eq_ok_iff.2 ⟨hdoc.sound.nodup_snapshot, rfl⟩
    exact ⟨_, hmade, showsTree_ofElement hmade⟩

/-- A row in which an id occurs again makes no document, the row without it does and is shown, and so can the
sheet that a refused compound left half edited be made anew. -/
theorem ofElement_readsBack_row :
    (¬∃ doc, ofElement (.mk "row" (.array [.mk "cell" (.string "x"), .mk "row" .null])) = .ok doc) ∧
      ofElement (.mk "row" (.array [.mk "cell" (.string "x"), .mk "row" .null])) =
        .error (.duplicateId "row") ∧
      (∃ doc, ofElement (.mk "row" (.array [.mk "cell" (.string "x")])) = .ok doc ∧
        doc.ShowsTree (.mk "row" (.array [.mk "cell" (.string "x")]))) ∧
      ∃ copy, ofElement (sheet.apply overreach).2.snapshot = .ok copy ∧
        copy.ShowsTree (sheet.apply overreach).2.snapshot := by
  obtain ⟨hmade, hrefused, hshown, hanew⟩ := ofElement_readsBack
  refine ⟨mt (hmade _).1 (by decide), (hrefused _ _).2 ⟨"row", ⟨["row", "cell"], [], ?_⟩, rfl⟩, ?_, ?_⟩
  · decide
  · obtain ⟨doc, hdoc⟩ := (hmade (.mk "row" (.array [.mk "cell" (.string "x")]))).2 (by decide)
    exact ⟨doc, hdoc, hshown _ _ hdoc⟩
  · exact hanew _ (Reachable.apply reachable_sheet regular_overreach)

end Document
end CoEdit
