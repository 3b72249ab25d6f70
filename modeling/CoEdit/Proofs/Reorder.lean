import CoEdit.Position
import CoEdit.Reorder
import Mathlib.Data.List.InsertIdx
import Mathlib.Data.List.NodupEquivFin
import Mathlib.Data.List.Perm.Subperm

/-!
# Legal reorders

By counting, a legal reorder lists every index, so each item has one place in the result. Items are
compared through `map some`, which turns every lookup of a listed index into a value: a reordered list
is then the image of the order itself. The inverse of a legal reorder is legal and takes it back.
-/
namespace CoEdit.Reorder

variable {α : Type} {order : List Nat} {items : List α}

theorem lt_of_mem (h : isPermutation order = true) {i : Nat} (hi : i ∈ order) : i < order.length :=
  ((isPermutation_iff order).1 h).1 i hi

theorem nodup (h : isPermutation order = true) : order.Nodup :=
  ((isPermutation_iff order).1 h).2

theorem perm_range (h : isPermutation order = true) : order.Perm (List.range order.length) := by
  have hsub : order ⊆ List.range order.length := fun i hi => List.mem_range.2 (lt_of_mem h hi)
  exact ((nodup h).subperm hsub).perm_of_length_le (by simp)

theorem mem_of_lt (h : isPermutation order = true) {i : Nat} (hi : i < order.length) : i ∈ order :=
  (perm_range h).mem_iff.2 (List.mem_range.2 hi)

theorem follow_of_lt {p : Nat} (hp : p < order.length) : follow order p = order.idxOf p := by
  simp [follow, hp]

theorem follow_length : follow order order.length = order.length := by
  simp [follow]

theorem follow_lt (h : isPermutation order = true) {p : Nat} (hp : p < order.length) :
    follow order p < order.length := by
  rw [follow_of_lt hp]
  exact List.idxOf_lt_length_of_mem (mem_of_lt h hp)

/-- The place of an item in the result holds the index that the item had. -/
theorem getElem?_follow (h : isPermutation order = true) {p : Nat} (hp : p < order.length) :
    order[follow order p]? = some p := by
  rw [follow_of_lt hp]
  exact List.getElem?_idxOf (mem_of_lt h hp)

theorem follow_injOn (h : isPermutation order = true) {p q : Nat} (hp : p < order.length)
    (hq : q < order.length) (heq : follow order p = follow order q) : p = q := by
  have hfound := getElem?_follow h hp
  rw [heq, getElem?_follow h hq] at hfound
  exact (Option.some.inj hfound).symm

theorem map_some_permute (h : ∀ k ∈ order, k < items.length) :
    (permute order items).map some = order.map (items[·]?) := by
  induction order with
  | nil => rfl
  | cons k rest ih =>
      have hk : k < items.length := h k (by simp)
      have hrest := ih fun j hj => h j (by simp [hj])
      simp only [permute] at hrest
      simp [permute, List.getElem?_eq_getElem hk, hrest]

theorem length_permute (h : ∀ k ∈ order, k < items.length) :
    (permute order items).length = order.length := by
  simpa using congrArg List.length (map_some_permute h)

theorem getElem?_permute (h : ∀ k ∈ order, k < items.length) (k : Nat) :
    (permute order items)[k]? = order[k]?.bind (items[·]?) := by
  have hk := congrArg (·[k]?) (map_some_permute h)
  simp only [List.getElem?_map] at hk
  cases horder : order[k]? with
  | none => simpa [horder] using hk
  | some o =>
      rw [horder] at hk
      obtain ⟨item, hitem, heq⟩ := Option.map_eq_some_iff.1 hk
      rw [hitem, Option.bind_some]
      exact heq

theorem permute_perm (h : isPermutation order = true) (hlen : order.length = items.length) :
    (permute order items).Perm items := by
  have hall : items = permute (List.range order.length) items := by
    apply List.map_injective_iff.2 (Option.some_injective α)
    rw [map_some_permute (by simp [hlen])]
    apply List.ext_getElem?
    intro k
    by_cases hk : k < items.length
    · simp [hlen, hk]
    · simp [hlen, hk]
  nth_rewrite 2 [hall]
  exact (perm_range h).filterMap _

theorem eq_of_map_some {xs ys : List α} (h : xs.map some = ys.map some) : xs = ys :=
  List.map_injective_iff.2 (Option.some_injective α) h

theorem isPermutation_of_nodup (hnodup : order.Nodup) (h : ∀ i ∈ order, i < order.length) :
    isPermutation order = true :=
  (isPermutation_iff order).2 ⟨h, hnodup⟩

/-- Renaming the indices one-to-one among themselves keeps a reorder legal. -/
theorem isPermutation_map {f : Nat → Nat} (h : isPermutation order = true)
    (hlt : ∀ i < order.length, f i < order.length)
    (hinj : ∀ i < order.length, ∀ j < order.length, f i = f j → i = j) :
    isPermutation (order.map f) = true := by
  apply isPermutation_of_nodup
  · exact (List.nodup_map_iff_inj_on (nodup h)).2 fun i hi j hj =>
      hinj i (lt_of_mem h hi) j (lt_of_mem h hj)
  · intro i hi
    obtain ⟨o, ho, rfl⟩ := List.mem_map.1 hi
    simpa using hlt o (lt_of_mem h ho)

/-! ## Inverses -/

/-- The inverse holds, at every index of a legal order, the place where the order lists it. -/
theorem getElem?_inverse_iff (h : isPermutation order = true) {i k : Nat} :
    (inverse order)[i]? = some k ↔ order[k]? = some i := by
  constructor
  · intro hi
    have hlt : i < order.length := by
      rw [← length_inverse order]
      exact (List.getElem?_eq_some_iff.1 hi).1
    rw [getElem?_inverse hlt, Option.some.injEq] at hi
    rw [← hi]
    exact getElem?_follow h hlt
  · intro hk
    have hlt : i < order.length := lt_of_mem h (List.mem_of_getElem? hk)
    rw [getElem?_inverse hlt]
    exact congrArg some <| (List.getElem?_inj (follow_lt h hlt) (nodup h)).1 <|
      (getElem?_follow h hlt).trans hk.symm

/-- The reorder that undoes a reorder is one. -/
theorem isPermutation_inverse (h : isPermutation order = true) :
    isPermutation (inverse order) = true := by
  have hmap : inverse order = (List.range order.length).map (follow order) :=
    List.map_congr_left fun p hp => (follow_of_lt (List.mem_range.1 hp)).symm
  apply isPermutation_of_nodup
  · rw [hmap]
    exact List.Nodup.map_on (fun p hp q hq heq => follow_injOn h (List.mem_range.1 hp)
      (List.mem_range.1 hq) heq) List.nodup_range
  · intro i hi
    rw [hmap] at hi
    obtain ⟨p, hp, rfl⟩ := List.mem_map.1 hi
    rw [length_inverse]
    exact follow_lt h (List.mem_range.1 hp)

/-- The inverse of a reorder gives the list back. -/
theorem permute_inverse (h : isPermutation order = true) (hlen : order.length = items.length) :
    permute (inverse order) (permute order items) = items := by
  have hlt : ∀ k ∈ order, k < items.length := fun k hk => hlen ▸ lt_of_mem h hk
  have hback : ∀ k ∈ inverse order, k < (permute order items).length := by
    intro k hk
    rw [length_permute hlt, ← length_inverse order]
    exact lt_of_mem (isPermutation_inverse h) hk
  apply List.ext_getElem?
  intro k
  rw [getElem?_permute hback]
  by_cases hk : k < order.length
  · rw [getElem?_inverse hk, Option.bind_some, getElem?_permute hlt, getElem?_follow h hk,
      Option.bind_some]
  · rw [List.getElem?_eq_none (by rwa [length_inverse, ← not_lt]), Option.bind_none,
      List.getElem?_eq_none (by omega)]

end CoEdit.Reorder
