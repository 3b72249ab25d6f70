import CoEdit.Element.Basic
import Mathlib.Data.List.Forall2
import Mathlib.Data.List.Perm.Subperm

/-!
# What agreement of elements says

Agreement is decided by walking two trees side by side. Here it is said level by level: agreeing trees
have one id, agreeing arrays agree item by item, agreeing objects have as many properties and agree on
each. Every statement about a whole tree goes by `Element.induction`, whose cases are the children of a
content.
-/
namespace CoEdit

namespace Entries

variable {α β : Type}

theorem find?_map (f : α → β) (k : String) (entries : List (String × α)) :
    find? k (entries.map fun p => (p.1, f p.2)) = (find? k entries).map f := by
  induction entries with
  | nil => rfl
  | cons e rest ih =>
      rcases e with ⟨j, v⟩
      by_cases h : j = k <;> simp [find?_cons, h, ih]

theorem mem_of_find? {k : String} {v : α} {entries : List (String × α)}
    (h : find? k entries = some v) : (k, v) ∈ entries := by
  induction entries with
  | nil => cases h
  | cons e rest ih =>
      rcases e with ⟨j, w⟩
      rw [find?_cons] at h
      split at h
      · next hjk =>
          cases h
          simp [hjk]
      · exact List.mem_cons_of_mem _ (ih h)

theorem mem_keys_of_find? {k : String} {v : α} {entries : List (String × α)}
    (h : find? k entries = some v) : k ∈ keys entries :=
  List.mem_map.2 ⟨(k, v), mem_of_find? h, rfl⟩

theorem find?_of_mem {k : String} {v : α} {entries : List (String × α)}
    (hdistinct : Distinct entries) (h : (k, v) ∈ entries) : find? k entries = some v := by
  induction entries with
  | nil => cases h
  | cons e rest ih =>
      rcases e with ⟨j, w⟩
      simp only [Distinct, keys, List.map_cons, List.nodup_cons] at hdistinct
      rcases List.mem_cons.1 h with heq | hmem
      · cases heq
        simp [find?_cons]
      · have hne : j ≠ k := by
          rintro rfl
          exact hdistinct.1 (List.mem_map.2 ⟨_, hmem, rfl⟩)
        rw [find?_cons, if_neg hne]
        exact ih hdistinct.2 hmem

theorem find?_iff_mem {k : String} {v : α} {entries : List (String × α)}
    (hdistinct : Distinct entries) : find? k entries = some v ↔ (k, v) ∈ entries :=
  ⟨mem_of_find?, find?_of_mem hdistinct⟩

end Entries

namespace Content

theorem children_map {α β : Type} (f : α → β) (content : Content α) :
    (content.map f).children = content.children.map f := by
  cases content <;> simp [map, children, Entries.values]

end Content

namespace Element

theorem sizeOf_lt_of_mem_children {id : ElementId} {content : Content Element} {child : Element}
    (h : child ∈ content.children) : sizeOf child < sizeOf (Element.mk id content) := by
  cases content with
  | array items =>
      have hlt := List.sizeOf_lt_of_mem (show child ∈ items from h)
      simp only [mk.sizeOf_spec, Content.array.sizeOf_spec]
      omega
  | object props =>
      obtain ⟨p, hp, rfl⟩ := List.mem_map.1 h
      have hlt := List.sizeOf_lt_of_mem hp
      rcases p with ⟨name, item⟩
      simp only [mk.sizeOf_spec, Content.object.sizeOf_spec, Prod.mk.sizeOf_spec] at hlt ⊢
      omega
  | _ => cases h

theorem induction {motive : Element → Prop}
    (mk : ∀ id content, (∀ child ∈ Content.children content, motive child) →
      motive (.mk id content)) (element : Element) : motive element := by
  rcases element with ⟨id, content⟩
  exact mk id content fun child h => induction mk child
termination_by sizeOf element
decreasing_by exact sizeOf_lt_of_mem_children h

theorem id_eq_of_agrees {x y : Element} (h : (x == y) = true) : x.id = y.id := by
  rcases x with ⟨i, c⟩
  rcases y with ⟨j, d⟩
  change agrees (.mk i c) (.mk j d) = true at h
  simp only [agrees, Bool.and_eq_true, beq_iff_eq] at h
  exact h.1

theorem exists_of_mem_left {α β : Type} {r : α → β → Prop} {xs : List α} {ys : List β}
    (h : List.Forall₂ r xs ys) {x : α} (hx : x ∈ xs) : ∃ y ∈ ys, r x y := by
  induction h with
  | nil => cases hx
  | cons hxy _ ih =>
      rcases List.mem_cons.1 hx with rfl | hx
      · exact ⟨_, List.mem_cons_self, hxy⟩
      · obtain ⟨y, hy, hr⟩ := ih hx
        exact ⟨y, List.mem_cons_of_mem _ hy, hr⟩

theorem exists_of_mem_right {α β : Type} {r : α → β → Prop} {xs : List α} {ys : List β}
    (h : List.Forall₂ r xs ys) {y : β} (hy : y ∈ ys) : ∃ x ∈ xs, r x y :=
  exists_of_mem_left (r := flip r) (List.Forall₂.flip h) hy

theorem forall₂_trans {α : Type} {r : α → α → Prop} (htrans : ∀ a b c, r a b → r b c → r a c)
    {xs ys zs : List α} (h₁ : List.Forall₂ r xs ys) (h₂ : List.Forall₂ r ys zs) :
    List.Forall₂ r xs zs := by
  induction h₁ generalizing zs with
  | nil => exact h₂
  | cons hxy _ ih =>
      cases h₂ with
      | cons hyz hrest => exact .cons (htrans _ _ _ hxy hyz) (ih hrest)

theorem agreesItems_iff (xs ys : List Element) :
    agreesItems xs ys = true ↔ List.Forall₂ (fun x y => agrees x y = true) xs ys := by
  induction xs generalizing ys with
  | nil => cases ys <;> simp [agreesItems]
  | cons x xs ih => cases ys <;> simp [agreesItems, ih]

theorem agreesProps_iff (ps qs : List (String × Element)) :
    agreesProps ps qs = true ↔
      ∀ p ∈ ps, ∃ y, Entries.find? p.1 qs = some y ∧ agrees p.2 y = true := by
  induction ps with
  | nil => simp [agreesProps]
  | cons p rest ih =>
      rcases p with ⟨name, x⟩
      simp only [agreesProps, Bool.and_eq_true, List.forall_mem_cons, ih]
      cases Entries.find? name qs <;> simp

/-- Objects without repeated names agree if and only if they agree under every name. -/
theorem agreesProps_iff_find? {ps qs : List (String × Element)} (hps : Entries.Distinct ps)
    (hqs : Entries.Distinct qs) :
    (ps.length == qs.length && agreesProps ps qs) = true ↔
      ∀ name, Option.Rel (fun x y => agrees x y = true) (Entries.find? name ps)
        (Entries.find? name qs) := by
  rw [Bool.and_eq_true, beq_iff_eq, agreesProps_iff]
  constructor
  · rintro ⟨hlen, hall⟩ name
    have hsub : Entries.keys ps ⊆ Entries.keys qs := by
      intro k hk
      obtain ⟨p, hp, rfl⟩ := List.mem_map.1 hk
      obtain ⟨y, hy, -⟩ := hall p hp
      exact Entries.mem_keys_of_find? hy
    have hperm : (Entries.keys ps).Perm (Entries.keys qs) :=
      (List.subperm_of_subset hps hsub).perm_of_length_le (by simp [Entries.keys, hlen])
    cases hx : Entries.find? name ps with
    | none =>
        have hname := mt hperm.mem_iff.2 ((Entries.find?_eq_none_iff name ps).1 hx)
        rw [(Entries.find?_eq_none_iff name qs).2 hname]
        exact .none
    | some x =>
        obtain ⟨y, hy, hxy⟩ := hall (name, x) (Entries.mem_of_find? hx)
        rw [hy]
        exact .some hxy
  · intro hrel
    have hkeys (name : String) : name ∈ Entries.keys ps ↔ name ∈ Entries.keys qs := by
      have hname := hrel name
      rw [← not_iff_not, ← Entries.find?_eq_none_iff, ← Entries.find?_eq_none_iff]
      generalize Entries.find? name ps = found, Entries.find? name qs = found' at hname ⊢
      cases hname <;> simp
    constructor
    · simpa [Entries.keys] using ((List.perm_ext_iff_of_nodup hps hqs).2 hkeys).length_eq
    · rintro ⟨name, x⟩ hp
      have hname := hrel name
      rw [Entries.find?_of_mem hps hp] at hname
      generalize Entries.find? name qs = found at hname ⊢
      cases hname with
      | some hxy => exact ⟨_, rfl, hxy⟩

theorem map_id_eq_of_agreesItems {xs ys : List Element} (h : agreesItems xs ys = true) :
    xs.map id = ys.map id := by
  rw [agreesItems_iff] at h
  induction h with
  | nil => rfl
  | cons hxy _ ih => rw [List.map_cons, List.map_cons, id_eq_of_agrees hxy, ih]

end Element
end CoEdit
