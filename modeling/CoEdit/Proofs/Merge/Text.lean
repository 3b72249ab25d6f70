import CoEdit.Proofs.Convergence
import CoEdit.Proofs.Merge.Meeting

/-!
# Merged texts

Two insertions or removals of text, made at the same time and reconciled, leave the text that is put together
gap by gap (`Reachable.text_merges`): what the two put in stands at its gap, the first side's in front, unless
the gap lies strictly inside what the other side takes out; and a character stays if neither takes it out. A
removal names the characters that it takes out, and what is left of a removal names them again, as they stand
behind the other change (`truthful_transform`).
-/
namespace CoEdit

namespace Text

/-- The text put together gap by gap: at each gap comes what is put in there, and then the character behind
the gap, unless it is taken out. -/
def weave (piece : Nat → List Char) (gone : Nat → Bool) : List Char → List Char
  | [] => piece 0
  | x :: rest =>
      piece 0 ++ (if gone 0 then [] else [x]) ++
        weave (fun gap => piece (gap + 1)) (fun k => gone (k + 1)) rest

theorem weave_nothing (text : List Char) : weave (fun _ => []) (fun _ => false) text = text := by
  induction text with
  | nil => rfl
  | cons x rest ih => rw [weave, ih]; rfl

theorem weave_insert {piece piece' : Nat → List Char} {gone : Nat → Bool} {put text : List Char}
    {index : Nat} (hindex : index ≤ text.length)
    (hpiece : ∀ gap, piece' gap = if gap = index then put ++ piece gap else piece gap)
    (hbefore : ∀ k < index, piece k = [] ∧ gone k = false) : weave piece' gone text =
      (weave piece gone text).take index ++ put ++ (weave piece gone text).drop index := by
  induction index generalizing text piece piece' gone with
  | zero =>
      have hnext : (fun gap => piece' (gap + 1)) = fun gap => piece (gap + 1) :=
        funext fun gap => (hpiece (gap + 1)).trans (if_neg (Nat.succ_ne_zero gap))
      have hhere : piece' 0 = put ++ piece 0 := (hpiece 0).trans (if_pos rfl)
      cases text with
      | nil => simp [weave, hhere]
      | cons x rest => simp [weave, hhere, hnext]
  | succ index ih =>
      cases text with
      | nil => cases hindex
      | cons x rest =>
          obtain ⟨hnone, hstays⟩ := hbefore 0 (Nat.succ_pos index)
          have hhere : piece' 0 = [] := by rw [hpiece, if_neg (Nat.succ_ne_zero index).symm, hnone]
          have hrest : weave (fun gap => piece' (gap + 1)) (fun k => gone (k + 1)) rest =
              (weave (fun gap => piece (gap + 1)) (fun k => gone (k + 1)) rest).take index ++ put ++
                (weave (fun gap => piece (gap + 1)) (fun k => gone (k + 1)) rest).drop index :=
            ih (Nat.le_of_succ_le_succ hindex)
              (fun gap => by simp only [hpiece, Nat.add_right_cancel_iff])
              fun k hk => hbefore (k + 1) (Nat.succ_lt_succ hk)
          simp [weave, hhere, hnone, hstays, hrest]

theorem weave_remove {piece : Nat → List Char} {gone gone' : Nat → Bool} {text : List Char}
    {start count : Nat} (hstart : start + count ≤ text.length)
    (hgone : ∀ k, gone' k = (decide (start ≤ k ∧ k < start + count) || gone k))
    (hbefore : ∀ k < start + count, piece k = [] ∧ gone k = false) : weave piece gone' text =
      (weave piece gone text).take start ++ (weave piece gone text).drop (start + count) := by
  induction start generalizing text piece gone gone' with
  | zero =>
      induction count generalizing text piece gone gone' with
      | zero =>
          have hsame : gone' = gone := funext fun k => by simp [hgone]
          rw [hsame, List.take_zero, List.nil_append, Nat.zero_add, List.drop_zero]
      | succ count ih =>
          cases text with
          | nil => cases hstart
          | cons x rest =>
              obtain ⟨hnone, hstays⟩ := hbefore 0 (by omega)
              have hrest : weave (fun gap => piece (gap + 1)) (fun k => gone' (k + 1)) rest =
                  (weave (fun gap => piece (gap + 1)) (fun k => gone (k + 1)) rest).take 0 ++
                    (weave (fun gap => piece (gap + 1)) (fun k => gone (k + 1)) rest).drop (0 + count) :=
                ih (by rw [List.length_cons] at hstart; omega) (fun k => by simp [hgone])
                  fun k hk => hbefore (k + 1) (by omega)
              have hhere : gone' 0 = true := by simp [hgone]
              simpa [weave, hnone, hstays, hhere] using hrest
  | succ start ih =>
      cases text with
      | nil => simp at hstart
      | cons x rest =>
          obtain ⟨hnone, hstays⟩ := hbefore 0 (by omega)
          have hshift (k : Nat) : gone' (k + 1) =
              (decide (start ≤ k ∧ k < start + count) || gone (k + 1)) := by
            rw [hgone]
            exact congrArg (· || gone (k + 1)) (decide_eq_decide.2 (by omega))
          have hrest : weave (fun gap => piece (gap + 1)) (fun k => gone' (k + 1)) rest =
              (weave (fun gap => piece (gap + 1)) (fun k => gone (k + 1)) rest).take start ++
                (weave (fun gap => piece (gap + 1)) (fun k => gone (k + 1)) rest).drop
                  (start + count) :=
            ih (by rw [List.length_cons] at hstart; omega) hshift fun k hk => hbefore (k + 1) (by omega)
          have hhere : gone' 0 = false := by simp [hgone, hstays]
          simpa [weave, hnone, hstays, hhere, Nat.add_right_comm] using hrest

end Text

namespace StringChange
open Position

variable {c d : StringChange} {text after after' piece gone : String} {i j : Nat}

/-- The characters that a change puts in at a gap. -/
def puts (gap : Nat) : StringChange → List Char
  | .insert index piece => if gap = index then piece.toList else []
  | _ => []

/-- Whether a change takes out the character at `k`. -/
def takes (k : Nat) : StringChange → Bool
  | .remove index piece => decide (index ≤ k ∧ k < index + piece.length)
  | _ => false

/-- Whether a gap lies strictly inside what a change takes out. -/
def buries (gap : Nat) : StringChange → Bool
  | .remove index piece => decide (index < gap ∧ gap < index + piece.length)
  | _ => false

@[simp] theorem puts_insert (gap : Nat) :
    puts gap (.insert i piece) = if gap = i then piece.toList else [] := rfl

@[simp] theorem puts_remove (gap : Nat) : puts gap (.remove j gone) = [] := rfl

@[simp] theorem takes_insert (k : Nat) : takes k (.insert i piece) = false := rfl

@[simp] theorem takes_remove (k : Nat) :
    takes k (.remove j gone) = decide (j ≤ k ∧ k < j + gone.length) := rfl

@[simp] theorem buries_insert (gap : Nat) : buries gap (.insert i piece) = false := rfl

@[simp] theorem buries_remove (gap : Nat) :
    buries gap (.remove j gone) = decide (j < gap ∧ gap < j + gone.length) := rfl

/-- The text with two insertions or removals worked in. What is put in strictly inside what the other side
takes out is lost with it; at one gap the first side's text stands in front. -/
def merged (c d : StringChange) (text : String) : String :=
  String.ofList <| Text.weave
    (fun gap => (if d.buries gap then [] else c.puts gap) ++ if c.buries gap then [] else d.puts gap)
    (fun k => c.takes k || d.takes k) text.toList

/-- A change does nothing in front of an index. -/
def StartsAt (index : Nat) (c : StringChange) : Prop :=
  ∀ k < index, c.puts k = [] ∧ c.takes k = false

theorem startsAt_insert (h : i ≤ j) : StartsAt i (.insert j piece) :=
  fun _ hk => ⟨if_neg (by omega), rfl⟩

theorem startsAt_remove (h : i ≤ j) : StartsAt i (.remove j piece) :=
  fun _ hk => ⟨rfl, decide_eq_false (by omega)⟩

theorem weave_alone (hc : ∀ next, c ≠ .set next) (h : edit? text c = some after) :
    Text.weave (fun gap => c.puts gap) (fun k => c.takes k) text.toList = after.toList := by
  have hbare := Text.weave_nothing text.toList
  cases c with
  | insert index piece =>
      obtain ⟨hindex, rfl⟩ := Option.ite_some_none_eq_some.1 h
      rw [← String.length_toList] at hindex
      rw [Text.toList_insert]
      conv_rhs => rw [← hbare]
      exact Text.weave_insert hindex (fun gap => by simp) fun _ _ => ⟨rfl, rfl⟩
  | remove index piece =>
      obtain ⟨hindex, rfl⟩ := Option.ite_some_none_eq_some.1 h
      rw [Text.toList_remove]
      conv_rhs => rw [← hbare]
      exact Text.weave_remove (by rwa [String.length_toList]) (fun k => by simp) fun _ _ => ⟨rfl, rfl⟩
  | set next => exact absurd rfl (hc next)

theorem merged_comm (h : ∀ gap, c.puts gap = [] ∨ d.puts gap = []) :
    merged c d text = merged d c text := by
  unfold merged
  congr 2
  · funext gap
    rcases h gap with hnone | hnone <;> simp [hnone]
  · funext k
    exact Bool.or_comm _ _

theorem merged_insert (hi : i ≤ text.length) (hd : ∀ next, d ≠ .set next) (hstarts : StartsAt i d)
    (hopen : d.buries i = false) (h : edit? text d = some after) :
    merged (.insert i piece) d text = Text.insert i piece after := by
  apply String.toList_inj.1
  rw [merged, String.toList_ofList, Text.toList_insert, ← weave_alone hd h]
  refine Text.weave_insert (by rwa [String.length_toList]) (fun gap => ?_) hstarts
  by_cases hgap : gap = i
  · subst hgap
    simp [hopen]
  · simp [hgap]

theorem merged_remove (hi : i + gone.length ≤ text.length) (hd : ∀ next, d ≠ .set next)
    (hstarts : StartsAt (i + gone.length) d) (h : edit? text d = some after) :
    merged (.remove i gone) d text = Text.remove i gone.length after := by
  have hpiece (gap : Nat) : (if d.buries gap then [] else puts gap (.remove i gone)) ++
      (if buries gap (.remove i gone) then [] else d.puts gap) = d.puts gap := by
    by_cases hgap : i < gap ∧ gap < i + gone.length
    · simp [(hstarts gap hgap.2).1]
    · rw [buries_remove, decide_eq_false hgap]
      simp
  apply String.toList_inj.1
  rw [merged, String.toList_ofList, Text.toList_remove, ← weave_alone hd h, funext hpiece]
  exact Text.weave_remove (by rwa [String.length_toList]) (fun k => rfl) hstarts

theorem merged_buried (hji : j < i) (hij : i < j + gone.length)
    (h : edit? text (.remove j gone) = some after) :
    merged (.insert i piece) (.remove j gone) text = after := by
  have hpiece (gap : Nat) : (if buries gap (.remove j gone) then [] else puts gap (.insert i piece)) ++
      (if buries gap (.insert i piece) then [] else puts gap (.remove j gone)) =
        puts gap (.remove j gone) := by
    by_cases hgap : gap = i
    · subst hgap
      simp [hji, hij]
    · simp [hgap]
  apply String.toList_inj.1
  rw [merged, String.toList_ofList, ← weave_alone (by simp) h, funext hpiece]
  rfl

/-- Two removals that overlap. -/
theorem merged_overlap (hij : i < j + gone.length) (hji : j < i + piece.length)
    (hi : i + piece.length ≤ text.length) (hj : j + gone.length ≤ text.length) :
    merged (.remove i piece) (.remove j gone) text =
      Text.remove (min i j) (max (i + piece.length) (j + gone.length) - min i j) text := by
  have hpiece (gap : Nat) : (if buries gap (.remove j gone) then [] else puts gap (.remove i piece)) ++
      (if buries gap (.remove i piece) then [] else puts gap (.remove j gone)) = [] := by simp
  apply String.toList_inj.1
  rw [merged, String.toList_ofList, Text.toList_remove, funext hpiece]
  conv_rhs => rw [← Text.weave_nothing text.toList]
  refine Text.weave_remove (by rw [String.length_toList]; omega) (fun k => ?_) fun _ _ => ⟨rfl, rfl⟩
  rw [Bool.or_false, takes_remove, takes_remove, ← Bool.decide_or]
  exact decide_eq_decide.2 (by omega)

/-! ## Both orders -/

/-- One of the two orders leads to the merged text without any further law. -/
theorem follow_transform_or {outcome outcome' : Outcome StringChange} (hc : ∀ next, c ≠ .set next)
    (hd : ∀ next, d ≠ .set next) (h : edit? text c = some after) (h' : edit? text d = some after')
    (hrule : c.transform d = .ok (outcome, outcome')) :
    outcome'.follow edit? after = some (merged c d text) ∨
      outcome.follow edit? after' = some (merged c d text) := by
  cases c with
  | set next => exact absurd rfl (hc next)
  | insert i s =>
      obtain ⟨hi, rfl⟩ := Option.ite_some_none_eq_some.1 h
      have hlen : (Text.insert i s text).length = _ := Text.length_insert hi
      cases d with
      | set next => exact absurd rfl (hd next)
      | insert j t =>
          obtain ⟨hj, rfl⟩ := Option.ite_some_none_eq_some.1 h'
          have hlen' : (Text.insert j t text).length = _ := Text.length_insert hj
          simp only [transform] at hrule
          split_ifs at hrule with hij
          · cases hrule
            right
            rw [merged_insert hi hd (startsAt_insert hij) rfl h']
            exact edit?_insert (by omega)
          · cases hrule
            left
            rw [merged_comm fun gap => ?_, merged_insert hj hc (startsAt_insert (by omega)) rfl h]
            · exact edit?_insert (by omega)
            · by_cases hgap : gap = i
              · exact .inr (if_neg (by omega))
              · exact .inl (if_neg hgap)
      | remove j t =>
          obtain ⟨hj, rfl⟩ := Option.ite_some_none_eq_some.1 h'
          have hlen' : (Text.remove j t.length text).length = _ := Text.length_remove hj
          simp only [transform, insertRemove] at hrule
          split_ifs at hrule with hij hji
          · cases hrule
            right
            rw [merged_insert hi hd (startsAt_remove hij) (decide_eq_false (by omega)) h']
            exact edit?_insert (by omega)
          · cases hrule
            left
            rw [merged_comm fun _ => .inr rfl, merged_remove hj hc (startsAt_insert hji) h]
            exact edit?_remove (by omega)
          · cases hrule
            right
            rw [merged_buried (by omega) (by omega) h']
            rfl
  | remove i s =>
      obtain ⟨hi, rfl⟩ := Option.ite_some_none_eq_some.1 h
      have hlen : (Text.remove i s.length text).length = _ := Text.length_remove hi
      cases d with
      | set next => exact absurd rfl (hd next)
      | insert j t =>
          obtain ⟨hj, rfl⟩ := Option.ite_some_none_eq_some.1 h'
          have hlen' : (Text.insert j t text).length = _ := Text.length_insert hj
          rw [merged_comm fun _ => .inl rfl]
          simp only [transform, insertRemove] at hrule
          split_ifs at hrule with hij hji
          · cases hrule
            left
            rw [merged_insert hj hc (startsAt_remove hij) (decide_eq_false (by omega)) h]
            exact edit?_insert (by omega)
          · cases hrule
            right
            rw [merged_comm fun _ => .inr rfl, merged_remove hi hd (startsAt_insert hji) h']
            exact edit?_remove (by omega)
          · cases hrule
            left
            rw [merged_buried (by omega) (by omega) h]
            rfl
      | remove j t =>
          obtain ⟨hj, rfl⟩ := Option.ite_some_none_eq_some.1 h'
          have hlen' : (Text.remove j t.length text).length = _ := Text.length_remove hj
          simp only [transform] at hrule
          split_ifs at hrule with hij hji
          · cases hrule
            right
            rw [merged_remove hi hd (startsAt_remove hij) h']
            exact edit?_remove (by omega)
          · cases hrule
            left
            rw [merged_comm fun _ => .inl rfl, merged_remove hj hc (startsAt_remove hji) h]
            exact edit?_remove (by omega)
          · cases hrule
            right
            rw [merged_overlap (by omega) (by omega) hi hj]
            exact follow_shrink (by omega) (by omega) hi hj

/-! ## What removals name -/

/-- A removal names the characters that it takes out. -/
def Truthful (text : String) : StringChange → Prop
  | .remove index gone => Text.slice index gone.length text = gone
  | _ => True

theorem truthful_remove_iff :
    Truthful text (.remove j gone) ↔ ∀ k < gone.length, text.toList[j + k]? = gone.toList[k]? := by
  have hslice (k : Nat) : (Text.slice j gone.length text).toList[k]? =
      if k < gone.length then text.toList[j + k]? else none := by
    rw [Text.toList_slice, List.getElem?_take, List.getElem?_drop]
  constructor
  · intro h k hk
    rw [← if_pos (c := k < gone.length) (t := text.toList[j + k]?) (e := none) hk, ← hslice k]
    exact congrArg (fun s : String => s.toList[k]?) h
  · intro h
    apply Text.ext_getElem?
    intro k
    rw [hslice]
    split_ifs with hk
    · exact h k hk
    · exact (List.getElem?_eq_none (by rw [String.length_toList]; omega)).symm

theorem truthful_insert_of_le (hij : i ≤ j) (hi : i ≤ text.length)
    (h : Truthful text (.remove j gone)) :
    Truthful (Text.insert i piece text) (.remove (j + piece.length) gone) := by
  rw [truthful_remove_iff] at h ⊢
  intro k hk
  rw [Text.getElem?_insert hi, if_neg (by omega), if_neg (by omega), ← h k hk]
  congr 1
  omega

theorem truthful_insert_of_ge (hij : j + gone.length ≤ i) (hi : i ≤ text.length)
    (h : Truthful text (.remove j gone)) :
    Truthful (Text.insert i piece text) (.remove j gone) := by
  rw [truthful_remove_iff] at h ⊢
  intro k hk
  rw [Text.getElem?_insert hi, if_pos (by omega), h k hk]

theorem truthful_insert_inside (hji : j ≤ i) (hij : i ≤ j + gone.length) (hi : i ≤ text.length)
    (h : Truthful text (.remove j gone)) :
    Truthful (Text.insert i piece text) (.remove j (Text.insert (i - j) piece gone)) := by
  have hlen : (Text.insert (i - j) piece gone).length = _ := Text.length_insert (by omega)
  rw [truthful_remove_iff] at h ⊢
  intro k hk
  rw [Text.getElem?_insert hi, Text.getElem?_insert (by omega)]
  split_ifs <;> first | omega | exact h k (by omega) | (congr 1; omega) | skip
  rw [← h (k - piece.length) (by omega)]
  congr 1
  omega

theorem truthful_remove_of_le {count : Nat} (hij : i + count ≤ j) (hi : i ≤ text.length)
    (h : Truthful text (.remove j gone)) :
    Truthful (Text.remove i count text) (.remove (j - count) gone) := by
  rw [truthful_remove_iff] at h ⊢
  intro k hk
  rw [Text.getElem?_remove hi, if_neg (by omega), ← h k hk]
  congr 1
  omega

theorem truthful_remove_of_ge {count : Nat} (hij : j + gone.length ≤ i) (hi : i ≤ text.length)
    (h : Truthful text (.remove j gone)) :
    Truthful (Text.remove i count text) (.remove j gone) := by
  rw [truthful_remove_iff] at h ⊢
  intro k hk
  rw [Text.getElem?_remove hi, if_pos (by omega), h k hk]

theorem getElem?_outside {low high : Nat} (hlow : low - j ≤ gone.length) (k : Nat) :
    (outside j gone low high).toList[k]? =
      if k < low - j then gone.toList[k]? else gone.toList[high - j + (k - (low - j))]? := by
  rw [outside, String.toList_ofList, List.getElem?_append, List.getElem?_take, List.getElem?_drop,
    List.length_take, String.length_toList, Nat.min_eq_left hlow]
  split_ifs <;> rfl

theorem truthful_shrink {count : Nat} (hij : i < j + gone.length) (hji : j < i + count)
    (hi : i + count ≤ text.length) (h : Truthful text (.remove j gone)) :
    (shrink j gone i (i + count)).All (Truthful (Text.remove i count text)) := by
  have hkept := length_outside j gone i (i + count)
  simp only [shrink]
  split_ifs with hnone
  · trivial
  · rw [Outcome.All, truthful_remove_iff]
    rw [truthful_remove_iff] at h
    intro k hk
    rw [Text.getElem?_remove (by omega), getElem?_outside (by omega)]
    split_ifs
    · rw [← h k (by omega)]
      congr 1
      omega
    · omega
    · omega
    · rw [← h _ (by omega)]
      congr 1
      omega

theorem truthful_insertRemove (hi : i ≤ text.length) (h : Truthful text (.remove j gone)) :
    (insertRemove i piece j gone).Keeps (Truthful after) (Truthful (Text.insert i piece text)) := by
  unfold insertRemove
  split_ifs with hij hji
  · rw [afterInsert, if_pos hij]
    exact Reconciled.keeps_both trivial (truthful_insert_of_le hij hi h)
  · exact Reconciled.keeps_both trivial (truthful_insert_of_ge hji hi h)
  · exact Reconciled.keeps_secondOnly (truthful_insert_inside (by omega) (by omega) hi h)

/-- What is left of a removal names the characters that it takes out behind the other change, if both
removals name theirs. -/
theorem truthful_transform (h : edit? text c = some after) (h' : edit? text d = some after')
    (hc : Truthful text c) (hd : Truthful text d) :
    (c.transform d).Keeps (Truthful after') (Truthful after) := by
  cases c with
  | set s =>
      cases d with
      | set t => exact Reconciled.keeps_firstWins trivial
      | _ => exact Reconciled.keeps_firstOnly trivial
  | insert i s =>
      obtain ⟨hi, rfl⟩ := Option.ite_some_none_eq_some.1 h
      cases d with
      | set t => exact Reconciled.keeps_secondOnly trivial
      | insert j t =>
          simp only [transform]
          split_ifs <;> exact Reconciled.keeps_both trivial trivial
      | remove j t => exact truthful_insertRemove hi hd
  | remove i s =>
      obtain ⟨hi, rfl⟩ := Option.ite_some_none_eq_some.1 h
      cases d with
      | set t => exact Reconciled.keeps_secondOnly trivial
      | insert j t =>
          obtain ⟨hj, rfl⟩ := Option.ite_some_none_eq_some.1 h'
          exact (truthful_insertRemove hj hc).swap
      | remove j t =>
          obtain ⟨hj, rfl⟩ := Option.ite_some_none_eq_some.1 h'
          simp only [transform, afterRemove]
          split_ifs with hij hji
          · exact Reconciled.keeps_both (truthful_remove_of_ge hij (by omega) hc)
              (truthful_remove_of_le hij (by omega) hd)
          · exact Reconciled.keeps_both (truthful_remove_of_le hji (by omega) hc)
              (truthful_remove_of_ge hji (by omega) hd)
          · exact (Reconciled.keeps_ok _).2 ⟨truthful_shrink (by omega) (by omega) hj hc,
              truthful_shrink (by omega) (by omega) hi hd⟩

end StringChange

namespace Document
open StringChange

variable {doc first second : Document} {a b : Edit} {c d : StringChange} {text : String}

/-- An edit of a text that still has something to do names, if it removes, the characters of `text` that it
takes out. -/
def Names (text : String) (edit : Edit) : Prop :=
  edit.inert = false → ∀ change, edit.change = .string change → Truthful text change

theorem names_after {outcome : Outcome StringChange} (h : outcome.All (Truthful text)) :
    Names text (a.after (outcome.map .string)) := by
  intro hactive change hchange
  cases outcome with
  | becomes left =>
      cases hchange
      exact h
  | dropped => cases hactive

/-- Two edits of one text that insert or remove can be reconciled, and in either order they leave the text
with both worked in. If the removals name what they take out, so does what is left of them. -/
theorem Reachable.text_merges (hdoc : doc.Reachable) (h : doc.Meet a b first second)
    (ha : a.change = .string c) (hb : b.change = .string d) (hc : ∀ next, c ≠ .set next)
    (hd : ∀ next, d ≠ .set next) (htext : .mk a.target (.string text) ∈ doc.snapshot.preorder) :
    ∃ a' b' after after',
      doc.Merges a b a' b' first second (.string text) (.string (merged c d text))
        (.string (merged c d text)) ∧
      edit? text c = some after ∧ edit? text d = some after' ∧
      (Truthful text c → Truthful text d → Names after' a' ∧ Names after b') := by
  obtain ⟨m⟩ := h.exists_meeting hdoc.sound Facet.string ha hb htext
  obtain ⟨outcome, outcome', joined, hjoins, hleft, hright⟩ := joins_transform m.edit m.edit'
  have hrule := m.rule.symm.trans hjoins
  cases hrule
  have hjoined : merged c d text = joined := by
    rcases follow_transform_or hc hd m.edit m.edit' m.rule with hor | hor
    · exact Option.some.inj (hor.symm.trans hleft)
    · exact Option.some.inj (hor.symm.trans hright)
  have hmerges := m.merges
  rw [show m.merged = merged c d text from Option.some.inj (m.follow.symm.trans (hjoined ▸ hleft)),
    show m.merged' = merged c d text from Option.some.inj (m.follow'.symm.trans (hjoined ▸ hright))]
    at hmerges
  refine ⟨_, _, m.after, m.after', hmerges, m.edit, m.edit', fun htruth htruth' => ?_⟩
  obtain ⟨hfirst, hsecond⟩ := truthful_transform m.edit m.edit' htruth htruth' _ _ m.rule
  exact ⟨names_after hfirst, names_after hsecond⟩

def splitText : Edit :=
  ⟨"text", .string (.insert 1 "x"), false⟩

def clearText : Edit :=
  ⟨"text", .string (.remove 0 "ab"), false⟩

/-- The character that was put in goes with the text, and the removal names it behind the insertion. -/
theorem text_merges_listOfText : ∃ first second a' b',
    listOfText.Merges splitText clearText a' b' first second (.string "ab") (.string "")
      (.string "") ∧ Names "axb" b' := by
  have hmeet : ∃ first second, listOfText.Meet splitText clearText first second :=
    ⟨_, _, rfl, (by decide : splitText.change.Legal).regular,
      (by decide : clearText.change.Legal).regular, by decide, by decide, ⟨_, rfl⟩, ⟨_, rfl⟩⟩
  obtain ⟨first, second, hmeet⟩ := hmeet
  have hmem : .mk "text" (.string "ab") ∈ listOfText.snapshot.preorder := .tail _ (.head _)
  obtain ⟨a', b', after, after', hmerges, hafter, hafter', hnames⟩ :=
    Reachable.text_merges reachable_listOfText hmeet rfl rfl nofun nofun hmem
  cases hafter
  exact ⟨first, second, a', b', hmerges, (hnames trivial rfl).2⟩

end Document
end CoEdit
