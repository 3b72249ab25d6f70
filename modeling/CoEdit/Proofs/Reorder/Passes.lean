import CoEdit.Proofs.Checked.Access
import CoEdit.Proofs.Reorder

/-!
# Checking and inverting a reorder in one pass

A list is checked by ticking its entries off in a table, and inverted by writing places into a table; both go
through the list once and look at no more than one entry at a time. The first pass finds only that no entry is out of
range or repeated, and by counting that makes the list a rearrangement of all indices (`perm_range`). The second
pass then overwrites nothing and leaves no place of its table unwritten (`invert?_eq`).

Together: what is accepted are exactly the rearrangements of the indices, the inverse undoes them, and positions are
followed to where their items went (`reorders_exact`).
-/
namespace CoEdit.Reorder

variable {order : List Nat}

/-! ## Ticking off -/

/-- Ticks entries off in a table, first to last. It fails at the first entry that the table does not have or that
was ticked off before. -/
def tickOff : List Bool → List Nat → Bool
  | _, [] => true
  | ticked, i :: rest =>
      match ticked[i]? with
      | some false => tickOff (ticked.set i true) rest
      | _ => false

theorem tickOff_iff {ticked : List Bool} :
    tickOff ticked order = true ↔ (∀ i ∈ order, ticked[i]? = some false) ∧ order.Nodup := by
  induction order generalizing ticked with
  | nil => simp [tickOff]
  | cons i rest ih =>
      rw [List.forall_mem_cons, List.nodup_cons, tickOff]
      split
      · next hopen =>
          have hlt : i < ticked.length := (List.getElem?_eq_some_iff.1 hopen).1
          have hset (j : Nat) : (ticked.set i true)[j]? = some false ↔
              ticked[j]? = some false ∧ i ≠ j := by
            rw [List.getElem?_set]
            by_cases hij : i = j
            · simp [hij ▸ hlt, hij]
            · simp [hij]
          simp only [ih, hset, hopen, true_and]
          constructor
          · rintro ⟨hrest, hnodup⟩
            exact ⟨fun j hj => (hrest j hj).1, fun hi => (hrest i hi).2 rfl, hnodup⟩
          · rintro ⟨hrest, hi, hnodup⟩
            refine ⟨fun j hj => ⟨hrest j hj, ?_⟩, hnodup⟩
            rintro rfl
            exact hi hj
      · next hshut => exact ⟨nofun, fun h => absurd h.1.1 hshut⟩

/-- Ticking off in a table of as many entries as the list is long tells the legal lists from the others. -/
theorem tickOff_eq_isPermutation (order : List Nat) :
    tickOff (List.replicate order.length false) order = isPermutation order := by
  rw [Bool.eq_iff_iff, tickOff_iff, isPermutation_iff]
  refine and_congr_left fun _ => forall₂_congr fun i _ => ?_
  rw [List.getElem?_eq_some_iff]
  simp

/-- The legal lists are the rearrangements of the indices below their length. -/
theorem isPermutation_iff_perm :
    isPermutation order = true ↔ order.Perm (List.range order.length) := by
  refine ⟨perm_range, fun h => ?_⟩
  refine isPermutation_of_nodup (h.nodup_iff.2 List.nodup_range) fun i hi => ?_
  exact List.mem_range.1 (h.mem_iff.1 hi)

/-! ## Writing places -/

/-- Writes into a table, at the index that each entry names, the place of the entry, counted from `place` on. -/
def writePlaces (table : List Nat) (place : Nat) : List Nat → Option (List Nat)
  | [] => some table
  | i :: rest => do
      let table ← Checked.writeAt i place table
      writePlaces table (place + 1) rest

/-- The inverse of an order, by one pass of writes into a table of zeros. -/
def invert? (order : List Nat) : Option (List Nat) :=
  writePlaces (List.replicate order.length 0) 0 order

theorem exists_writePlaces (table : List Nat) (place : Nat) (hlt : ∀ i ∈ order, i < table.length)
    (hnodup : order.Nodup) : ∃ written, writePlaces table place order = some written ∧ ∀ i,
      written[i]? = if i ∈ order then some (place + order.idxOf i) else table[i]? := by
  induction order generalizing table place with
  | nil => exact ⟨table, rfl, fun i => by simp⟩
  | cons j rest ih =>
      rw [List.forall_mem_cons] at hlt
      obtain ⟨hj, hnodup⟩ := List.nodup_cons.1 hnodup
      obtain ⟨written, hwritten, hentries⟩ := ih (table.set j place) (place + 1)
        (by simpa using hlt.2) hnodup
      refine ⟨written, ?_, fun i => ?_⟩
      · rw [writePlaces, Checked.writeAt_of_lt hlt.1]
        exact hwritten
      · -- the place written first is not written over, since no later entry names its index
        rw [hentries, List.getElem?_set]
        by_cases hij : j = i
        · subst hij
          simp [hj, hlt.1]
        · by_cases hi : i ∈ rest
          · simp only [hi, if_true, List.mem_cons, or_true, List.idxOf_cons_ne _ hij]
            congr 1
            omega
          · simp [hi, hij, Ne.symm hij]

/-- On a legal list the pass stops nowhere and leaves the inverse. -/
theorem invert?_eq (h : isPermutation order = true) : invert? order = some (inverse order) := by
  obtain ⟨written, hwritten, hentries⟩ := exists_writePlaces
    (List.replicate order.length 0) 0 (by simpa using fun i => lt_of_mem h) (nodup h)
  rw [invert?, hwritten]
  congr 1
  apply List.ext_getElem?
  intro i
  rw [hentries]
  by_cases hi : i < order.length
  · rw [if_pos (mem_of_lt h hi), getElem?_inverse hi, follow_of_lt hi, Nat.zero_add]
  · rw [if_neg (mt (lt_of_mem h) hi), List.getElem?_eq_none (by simpa using hi),
      List.getElem?_eq_none (by simpa using hi)]

theorem getElem?_inverse_getD (order : List Nat) (p : Nat) :
    ((inverse order)[p]?).getD p = follow order p := by
  by_cases hp : p < order.length
  · rw [getElem?_inverse hp, Option.getD_some]
  · rw [List.getElem?_eq_none (by simpa using hp), Option.getD_none, follow, if_neg hp]

/-! ## What legal orders do -/

/-- The inverse of a legal order. -/
structure Inverts (order : List Nat) : Prop where
  written : invert? order = some (inverse order)
  legal : isPermutation (inverse order) = true
  back : ∀ k i : Nat, order[k]? = some i → (inverse order)[i]? = some k
  forth : ∀ i k : Nat, (inverse order)[i]? = some k → order[k]? = some i
  restores : ∀ {α : Type} (items : List α), items.length = order.length →
    permute (inverse order) (permute order items) = items

theorem inverts (h : isPermutation order = true) : Inverts order where
  written := invert?_eq h
  legal := isPermutation_inverse h
  back _ _ := (getElem?_inverse_iff h).2
  forth _ _ := (getElem?_inverse_iff h).1
  restores _ hlength := permute_inverse h hlength.symm

/-- The positions `moved` are where the items at `positions` went. -/
structure Follows (order positions moved : List Nat) : Prop where
  length : moved.length = positions.length
  item : ∀ n p : Nat, positions[n]? = some p → p < order.length → ∃ q, moved[n]? = some q ∧
    order[q]? = some p ∧ ∀ {α : Type} (items : List α), items.length = order.length →
      (permute order items)[q]? = items[p]?
  beyond : ∀ n p : Nat, positions[n]? = some p → order.length ≤ p → moved[n]? = some p

theorem follows (h : isPermutation order = true) (positions : List Nat) :
    Follows order positions (positions.map (follow order)) where
  length := List.length_map _
  item n p hp hlt := by
    have hfound := getElem?_follow h hlt
    refine ⟨follow order p, by rw [List.getElem?_map, hp]; rfl, hfound, fun items hlength => ?_⟩
    rw [getElem?_permute (fun k hk => hlength ▸ lt_of_mem h hk), hfound, Option.bind_some]
  beyond n p hp hle := by
    rw [List.getElem?_map, hp, Option.map_some, follow, if_neg (not_lt.2 hle)]

/-- A list is accepted as a reorder exactly if it is a rearrangement of the indices below its length, and ticking
entries off in one pass decides that. The inverse of a reorder is one, has each place of the order at the index that
is listed there, and undoes the reorder. Positions are refused if and only if the list is no reorder; otherwise
each goes along with its item, and one at or past the end stays. -/
theorem reorders_exact :
    (∀ order : List Nat, isPermutation order = true ↔ order.Perm (List.range order.length)) ∧
    (∀ order : List Nat, tickOff (List.replicate order.length false) order = isPermutation order) ∧
    (∀ order : List Nat, isPermutation order = true → Inverts order) ∧
    (∀ order positions : List Nat, followAll? order positions = none ↔
      ¬order.Perm (List.range order.length)) ∧
    ∀ order positions moved : List Nat, followAll? order positions = some moved →
      Follows order positions moved := by
  refine ⟨fun order => isPermutation_iff_perm, tickOff_eq_isPermutation, fun order => inverts,
    fun order positions => ?_, fun order positions moved h => ?_⟩
  · rw [← isPermutation_iff_perm, followAll?]
    split_ifs with hlegal
    · simp [hlegal]
    · simp [hlegal]
  · rw [followAll?] at h
    split_ifs at h with hlegal
    cases h
    exact follows hlegal positions

/-- Three items turned around one place, their three positions and the end. -/
theorem reorders_exact_rotation : isPermutation [2, 0, 1] = true ∧ Inverts [2, 0, 1] ∧
    inverse [2, 0, 1] = [1, 2, 0] ∧ followAll? [2, 0, 1] [0, 1, 2, 3] = some [1, 2, 0, 3] ∧
    Follows [2, 0, 1] [0, 1, 2, 3] [1, 2, 0, 3] ∧ followAll? [1, 1] [0] = none := by
  obtain ⟨-, -, hinverts, hnone, hfollows⟩ := reorders_exact
  exact ⟨by decide, hinverts [2, 0, 1] (by decide), by decide, by decide, hfollows _ _ _ (by decide),
    (hnone [1, 1] [0]).2 (by decide)⟩

end CoEdit.Reorder
