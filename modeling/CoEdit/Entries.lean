/-!
# Ordered entries

A list of keyed values in which the order of the entries is kept and the first entry of a key is
the one that counts. Object properties, JSON members and the element arena are all held this way.
Every writing operation is described through `find?`, so no proof has to walk the list again.
-/
namespace CoEdit.Entries

variable {α : Type}

/-- The value of the first entry for `k`. -/
def find? (k : String) : List (String × α) → Option α
  | [] => none
  | (j, v) :: rest => if j = k then some v else find? k rest

def contains (k : String) (entries : List (String × α)) : Bool :=
  (find? k entries).isSome

def keys (entries : List (String × α)) : List String :=
  entries.map Prod.fst

def values (entries : List (String × α)) : List α :=
  entries.map Prod.snd

/-- Overwrites the first entry for `k` where it stands, or adds one at the end. -/
def put (k : String) (v : α) : List (String × α) → List (String × α)
  | [] => [(k, v)]
  | (j, w) :: rest => if j = k then (k, v) :: rest else (j, w) :: put k v rest

/-- Puts all of `added`, first to last. -/
def putAll (added entries : List (String × α)) : List (String × α) :=
  added.foldl (fun es e => put e.1 e.2 es) entries

/-- Drops every entry whose key is `k`. -/
def erase (k : String) (entries : List (String × α)) : List (String × α) :=
  entries.filter (fun e => e.1 ≠ k)

/-- Drops every entry whose key is listed. -/
def eraseAll (ks : List String) (entries : List (String × α)) : List (String × α) :=
  entries.filter (fun e => e.1 ∉ ks)

/-- The key of the first entry that holds `v`. -/
def keyOf? [BEq α] (v : α) (entries : List (String × α)) : Option String :=
  (entries.find? (fun e => e.2 == v)).map Prod.fst

/-- No key occurs twice. -/
def Distinct (entries : List (String × α)) : Prop :=
  (keys entries).Nodup

instance (entries : List (String × α)) : Decidable (Distinct entries) :=
  inferInstanceAs (Decidable (keys entries).Nodup)

@[simp] theorem find?_nil (k : String) : find? k ([] : List (String × α)) = none := rfl

theorem find?_cons (k j : String) (v : α) (rest : List (String × α)) :
    find? k ((j, v) :: rest) = if j = k then some v else find? k rest := rfl

theorem find?_put (k j : String) (v : α) (entries : List (String × α)) :
    find? j (put k v entries) = if k = j then some v else find? j entries := by
  induction entries with
  | nil => rfl
  | cons e rest ih =>
      rcases e with ⟨i, w⟩
      by_cases hik : i = k
      · subst hik
        by_cases hij : i = j <;> simp [put, find?_cons, hij]
      · by_cases hij : i = j
        · subst hij
          simp [put, find?_cons, hik, Ne.symm hik]
        · simp [put, find?_cons, hik, hij, ih]

theorem find?_eraseAll (ks : List String) (j : String) (entries : List (String × α)) :
    find? j (eraseAll ks entries) = if j ∈ ks then none else find? j entries := by
  induction entries with
  | nil => simp [eraseAll]
  | cons e rest ih =>
      rcases e with ⟨i, w⟩
      have hstep : eraseAll ks ((i, w) :: rest) =
          if i ∈ ks then eraseAll ks rest else (i, w) :: eraseAll ks rest := by
        by_cases hi : i ∈ ks <;> simp [eraseAll, hi]
      by_cases hi : i ∈ ks
      · by_cases hij : i = j
        · subst hij
          simp [hstep, hi, ih]
        · simp [hstep, hi, ih, find?_cons, hij]
      · by_cases hij : i = j
        · subst hij
          simp [hstep, hi, find?_cons]
        · simp [hstep, hi, ih, find?_cons, hij]

theorem find?_erase (k j : String) (entries : List (String × α)) :
    find? j (erase k entries) = if k = j then none else find? j entries := by
  have h := find?_eraseAll [k] j entries
  simp only [List.mem_singleton] at h
  rw [show erase k entries = eraseAll [k] entries by simp [erase, eraseAll]]
  rw [h]
  by_cases hkj : k = j
  · simp [hkj]
  · simp [hkj, Ne.symm hkj]

theorem find?_eq_none_iff (k : String) (entries : List (String × α)) :
    find? k entries = none ↔ k ∉ keys entries := by
  induction entries with
  | nil => simp [keys]
  | cons e rest ih =>
      rcases e with ⟨i, w⟩
      simp only [keys] at ih
      by_cases hik : i = k
      · simp [find?_cons, keys, hik]
      · simp [find?_cons, keys, hik, Ne.symm hik, ih]

theorem find?_append (k : String) (front back : List (String × α)) :
    find? k (front ++ back) = (find? k front).or (find? k back) := by
  induction front with
  | nil => rfl
  | cons e rest ih =>
      rcases e with ⟨i, w⟩
      by_cases hik : i = k
      · simp [find?_cons, hik]
      · simp [find?_cons, hik, ih]

/-- Of several values put under one key the last one counts. -/
theorem find?_putAll (k : String) (added entries : List (String × α)) :
    find? k (putAll added entries) = (find? k added.reverse).or (find? k entries) := by
  induction added generalizing entries with
  | nil => rfl
  | cons e rest ih =>
      rcases e with ⟨i, w⟩
      have hstep : putAll ((i, w) :: rest) entries = putAll rest (put i w entries) := rfl
      rw [hstep, ih, find?_put, List.reverse_cons, find?_append]
      by_cases hik : i = k
      · simp [find?_cons, hik]
      · simp [find?_cons, hik]

theorem distinct_put {entries : List (String × α)} (h : Distinct entries) (k : String) (v : α) :
    Distinct (put k v entries) := by
  induction entries with
  | nil => simp [put, Distinct, keys]
  | cons e rest ih =>
      rcases e with ⟨i, w⟩
      simp only [Distinct, keys, List.map_cons, List.nodup_cons] at h ih
      by_cases hik : i = k
      · subst hik
        simpa [put, Distinct, keys] using h
      · have hmem : i ∉ (put k v rest).map Prod.fst := by
          intro hin
          have hnone : find? i (put k v rest) = none := by
            rw [find?_put, if_neg (Ne.symm hik)]
            exact (find?_eq_none_iff i rest).2 h.1
          exact (find?_eq_none_iff i (put k v rest)).1 hnone hin
        simpa [put, Distinct, keys, hik] using ⟨by simpa using hmem, ih h.2⟩

end CoEdit.Entries
