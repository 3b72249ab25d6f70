import CoEdit.Path.Pointer

/-!
# Pointers read back

A pointer is read step by step: no slash of a key gets between its segments, so what becomes of a path that
is written and read again is decided by each step alone (`reread_eq_map`). An index comes back as it was, and
so does a key, unless it reads as a number (`Numeral`). What was read once is read the same ever after
(`pointers_faithful`).
-/
namespace CoEdit

/-! ## Replacing -/

namespace Text

/-- The text with every occurrence of `old` replaced, from left to right. -/
def replaceAll (old new : List Char) : List Char → List Char
  | [] => []
  | c :: rest =>
      if old.isPrefixOf (c :: rest) then new ++ replaceAll old new (rest.drop (old.length - 1))
      else c :: replaceAll old new rest
termination_by text => text.length
decreasing_by
  · rw [List.length_drop, List.length_cons]
    omega
  · exact Nat.lt_succ_self _

variable {new rest : List Char} {a b c : Char}

@[simp] theorem replaceAll_nil (old new : List Char) : replaceAll old new [] = [] := by
  rw [replaceAll]

theorem replaceAll_one (a : Char) (new : List Char) (c : Char) (rest : List Char) :
    replaceAll [a] new (c :: rest) =
      if c = a then new ++ replaceAll [a] new rest else c :: replaceAll [a] new rest := by
  rw [replaceAll]
  by_cases h : c = a
  · simp [h]
  · simp [h, Ne.symm h]

theorem replaceAll_two (a b : Char) (new rest : List Char) :
    replaceAll [a, b] new (a :: b :: rest) = new ++ replaceAll [a, b] new rest := by
  rw [replaceAll]
  simp

theorem replaceAll_two_of_ne (h : c = a → rest.head? ≠ some b) :
    replaceAll [a, b] new (c :: rest) = c :: replaceAll [a, b] new rest := by
  have hnot : ¬ ([a, b].isPrefixOf (c :: rest) = true) := by
    rw [List.isPrefixOf_iff_prefix, List.cons_prefix_cons]
    rintro ⟨rfl, tail, rfl⟩
    exact h rfl rfl
  rw [replaceAll, if_neg hnot]

end Text

/-! ## Numbers in decimal -/

namespace Digits

variable {digits : List Char} {n : Nat}

theorem ofDecimal_toDigits (n : Nat) : ofDecimal (Nat.toDigits 10 n) = n :=
  Nat.ofDigitChars_ten_toDigits

theorem digitChar_of_isDigit {c : Char} (h : c.isDigit = true) :
    c.toNat - 48 < 10 ∧ Nat.digitChar (c.toNat - 48) = c := by
  have hbounds : 48 ≤ c.toNat ∧ c.toNat ≤ 57 := by
    simpa [Char.isDigit, UInt32.le_iff_toNat_le] using h
  have hlt : c.toNat - 48 < 10 := by omega
  refine ⟨hlt, Char.toNat_inj.1 ?_⟩
  rw [Nat.toNat_digitChar_of_lt_ten hlt]
  omega

theorem toDigits_ofDigitChars (h : ∀ c ∈ digits, c.isDigit = true) (hn : 0 < n) :
    Nat.toDigits 10 (Nat.ofDigitChars 10 digits n) = Nat.toDigits 10 n ++ digits := by
  induction digits generalizing n with
  | nil => exact (List.append_nil _).symm
  | cons c rest ih =>
      obtain ⟨hlt, hc⟩ := digitChar_of_isDigit (h c List.mem_cons_self)
      have hnext : Nat.toDigits 10 (10 * n + (c.toNat - 48)) = Nat.toDigits 10 n ++ [c] := by
        rw [← Nat.toDigits_append_toDigits (by decide) hn hlt, Nat.toDigits_of_lt_base hlt, hc]
      have hrest := ih (fun d hd => h d (List.mem_cons_of_mem _ hd)) (n := 10 * n + (c.toNat - 48)) (by omega)
      rw [hnext, List.append_assoc, List.singleton_append] at hrest
      exact hrest

theorem eq_zero_of_head?_toDigits (h : (Nat.toDigits 10 n).head? = some '0') : n = 0 := by
  induction n using Nat.strongRecOn with
  | ind n ih =>
      rw [Nat.toDigits_eq_if (by decide)] at h
      split at h
      · next hlt =>
          have hc := congrArg Char.toNat (Option.some.inj h)
          rw [Nat.toNat_digitChar_of_lt_ten hlt] at hc
          exact Nat.add_left_cancel hc
      · next hge =>
          rw [List.head?_append, List.head?_eq_some_head Nat.toDigits_ne_nil, Option.some_or,
            ← List.head?_eq_some_head Nat.toDigits_ne_nil] at h
          have hzero := ih (n / 10) (by omega) h
          omega

end Digits

namespace Path
namespace Pointer

/-! ## Escapes -/

section
open Text

/-- Escaping replaces all tildes and then all slashes. -/
theorem escape_eq_replaceAll (cs : List Char) :
    escape cs = replaceAll ['/'] ['~', '1'] (replaceAll ['~'] ['~', '0'] cs) := by
  induction cs using escape.induct with
  | case1 => simp only [escape, replaceAll_nil]
  | case2 rest ih => simp [escape, replaceAll_one, ih]
  | case3 rest ih => simp [escape, replaceAll_one, ih]
  | case4 c rest hc hs ih =>
      rw [escape.eq_4 c rest hc hs, replaceAll_one, if_neg hc, replaceAll_one, if_neg hs, ih]

/-- Putting the slashes back makes no new escape of a tilde. -/
theorem head?_replaceAll_slash (cs : List Char) :
    (replaceAll ['~', '1'] ['/'] cs).head? = some '0' ↔ cs.head? = some '0' := by
  cases cs with
  | nil => rw [replaceAll_nil]
  | cons c rest =>
      rw [replaceAll]
      split
      · next h =>
          rw [List.isPrefixOf_iff_prefix, List.cons_prefix_cons] at h
          obtain ⟨rfl, -⟩ := h
          simp
      · rw [List.head?_cons, List.head?_cons]

/-- Unescaping puts all slashes and then all tildes back. -/
theorem unescape_eq_replaceAll (cs : List Char) :
    unescape cs = replaceAll ['~', '0'] ['~'] (replaceAll ['~', '1'] ['/'] cs) := by
  induction cs using unescape.induct with
  | case1 => simp only [unescape, replaceAll_nil]
  | case2 rest ih =>
      have hinner : replaceAll ['~', '1'] ['/'] ('~' :: '0' :: rest) =
          '~' :: '0' :: replaceAll ['~', '1'] ['/'] rest := by
        rw [replaceAll_two_of_ne (by simp), replaceAll_two_of_ne (by simp)]
      rw [hinner, replaceAll_two, unescape, ih, List.singleton_append]
  | case3 rest ih =>
      rw [replaceAll_two, List.singleton_append, replaceAll_two_of_ne (by simp), unescape, ih]
  | case4 c rest hc hs ih =>
      rw [unescape.eq_4 c rest hc hs, replaceAll_two_of_ne, replaceAll_two_of_ne, ih]
      · intro htilde hhead
        obtain ⟨tail, rfl⟩ := List.head?_eq_some_iff.1 ((head?_replaceAll_slash rest).1 hhead)
        exact hc tail htilde rfl
      · intro htilde hhead
        obtain ⟨tail, rfl⟩ := List.head?_eq_some_iff.1 hhead
        exact hs tail htilde rfl

end

/-! ## Keys that read as numbers -/

variable {cs : List Char} {name : String}

theorem isCanonicalIndex_iff : isCanonicalIndex cs = true ↔
    cs ≠ [] ∧ (∀ c ∈ cs, c.isDigit = true) ∧ (cs.head? = some '0' → cs = ['0']) := by
  cases cs with
  | nil => simp [isCanonicalIndex]
  | cons c rest =>
      by_cases hc : c = '0'
      · subst hc
        cases rest with
        | nil => simp [isCanonicalIndex]
        | cons d rest => simp [isCanonicalIndex]
      · simp [isCanonicalIndex, hc]

theorem isCanonicalIndex_toDigits (n : Nat) : isCanonicalIndex (Nat.toDigits 10 n) = true := by
  refine isCanonicalIndex_iff.2 ⟨Nat.toDigits_ne_nil, fun c hc => ?_, fun hhead => ?_⟩
  · exact Nat.isDigit_of_mem_toDigits (by decide) (by decide) hc
  · rw [Digits.eq_zero_of_head?_toDigits hhead, Nat.toDigits_zero]

theorem toDigits_ofDecimal (h : isCanonicalIndex cs = true) :
    Nat.toDigits 10 (Digits.ofDecimal cs) = cs := by
  obtain ⟨hne, hdigits, hplain⟩ := isCanonicalIndex_iff.1 h
  cases cs with
  | nil => exact absurd rfl hne
  | cons c rest =>
      by_cases hc : c = '0'
      · rw [hplain (congrArg some hc)]
        rfl
      · obtain ⟨hlt, hchar⟩ := Digits.digitChar_of_isDigit (hdigits c List.mem_cons_self)
        have hpos : 0 < c.toNat - 48 := by
          refine Nat.pos_of_ne_zero fun hzero => hc ?_
          rw [← hchar, hzero]
          rfl
        have hrest := Digits.toDigits_ofDigitChars
          (fun d hd => hdigits d (List.mem_cons_of_mem _ hd)) hpos
        rw [Nat.toDigits_of_lt_base hlt, hchar] at hrest
        have hvalue : Digits.ofDecimal (c :: rest) = Nat.ofDigitChars 10 rest (c.toNat - 48) := by
          rw [Digits.ofDecimal, List.foldl_cons, Nat.mul_zero, Nat.zero_add]
          rfl
        rw [hvalue, hrest, List.singleton_append]

/-- A decimal without needless zeros whose value is a word. -/
structure Numeral (name : String) : Prop where
  nonempty : name.toList ≠ []
  digits : ∀ c ∈ name.toList, c.isDigit = true
  plain : name.toList.head? = some '0' → name.toList = ['0']
  fits : Digits.ofDecimal name.toList < Word.bound

theorem numeral_iff : Numeral name ↔
    isCanonicalIndex name.toList = true ∧ Digits.ofDecimal name.toList < Word.bound := by
  rw [isCanonicalIndex_iff]
  exact ⟨fun h => ⟨⟨h.nonempty, h.digits, h.plain⟩, h.fits⟩, fun h => ⟨h.1.1, h.1.2.1, h.1.2.2, h.2⟩⟩

instance : Decidable (Numeral name) :=
  decidable_of_iff _ numeral_iff.symm

/-! ## Steps and segments -/

theorem unescape_of_not_mem (h : '~' ∉ cs) : unescape cs = cs := by
  induction cs with
  | nil => rfl
  | cons c rest ih =>
      have hc := List.ne_of_not_mem_cons h
      have hrest := List.not_mem_of_not_mem_cons h
      rw [unescape.eq_4, ih hrest]
      · exact fun _ heq _ => hc heq.symm
      · exact fun _ heq _ => hc heq.symm

theorem not_mem_toDigits {c : Char} (h : c.isDigit = false) (n : Nat) : c ∉ Nat.toDigits 10 n := by
  intro hc
  rw [Nat.isDigit_of_mem_toDigits (by decide) (by decide) hc] at h
  cases h

theorem slash_not_mem_segmentOf (step : Step) : '/' ∉ segmentOf step := by
  cases step with
  | index i => exact not_mem_toDigits rfl i
  | key k => exact slash_not_mem_escape k.toList

theorem segments_of_not_mem (h : '/' ∉ cs) : segments cs = [cs] := by
  induction cs with
  | nil => rfl
  | cons c rest ih =>
      have hc := List.ne_of_not_mem_cons h
      have hrest := List.not_mem_of_not_mem_cons h
      rw [segments, if_neg (Ne.symm hc), ih hrest]

theorem segments_append (h : '/' ∉ cs) (rest : List Char) :
    segments (cs ++ '/' :: rest) = cs :: segments rest := by
  induction cs with
  | nil => rfl
  | cons c front ih =>
      have hc := List.ne_of_not_mem_cons h
      have hfront := List.not_mem_of_not_mem_cons h
      rw [List.cons_append, segments, if_neg (Ne.symm hc), ih hfront]

theorem segments_toChars (step : Step) (path : Path) :
    segments (segmentOf step ++ toChars path) = segmentOf step :: path.map segmentOf := by
  induction path generalizing step with
  | nil =>
      change segments (segmentOf step ++ []) = _
      rw [List.append_nil, segments_of_not_mem (slash_not_mem_segmentOf step), List.map_nil]
  | cons next path ih =>
      have hchars : toChars (next :: path) = '/' :: (segmentOf next ++ toChars path) := rfl
      rw [hchars, segments_append (slash_not_mem_segmentOf step), ih next, List.map_cons]

end Pointer

/-- The step that is read where `step` was written. -/
def Step.reread (step : Step) : Step :=
  Pointer.stepOf (Pointer.unescape (Pointer.segmentOf step))

/-- The path that is read where `path` was written. -/
def reread (path : Path) : Path :=
  ofPointer path.toPointer

open Pointer

variable {cs : List Char} {path : Path} {step : Step} {name : String} {i : Nat}

theorem reread_eq_map (path : Path) : path.reread = path.map Step.reread := by
  rw [reread, toPointer, ofPointer, String.toList_ofList]
  cases path with
  | nil => rfl
  | cons step path =>
      have hchars : toChars (step :: path) = '/' :: (segmentOf step ++ toChars path) := rfl
      rw [hchars, ofChars, segments_toChars, ← List.map_cons, List.map_map]
      rfl

theorem Step.unescape_segmentOf_index (i : Nat) : unescape (segmentOf (.index i)) = Nat.toDigits 10 i :=
  unescape_of_not_mem (not_mem_toDigits rfl i)

theorem Step.reread_index (h : i < Word.bound) : (Step.index i).reread = .index i := by
  rw [reread, Step.unescape_segmentOf_index, stepOf, isCanonicalIndex_toDigits, Digits.ofDecimal_toDigits,
    decide_eq_true h, Bool.and_self, if_pos rfl]

theorem Step.reread_key (name : String) : (Step.key name).reread = stepOf name.toList := by
  rw [reread, segmentOf, unescape_escape]

theorem Step.text_stepOf (cs : List Char) : (stepOf cs).text = String.ofList cs := by
  unfold stepOf
  split
  · next h =>
      rw [text, Nat.toString_eq_ofList_toDigits, toDigits_ofDecimal (Bool.and_eq_true_iff.1 h).1]
  · rfl

theorem Step.text_reread (step : Step) : step.reread.text = step.text := by
  cases step with
  | index i => rw [reread, Step.unescape_segmentOf_index, text_stepOf, text, Nat.toString_eq_ofList_toDigits]
  | key k => rw [Step.reread_key, text_stepOf, String.ofList_toList, text]

/-- A key comes back unless it reads as a number. -/
theorem Step.reread_key_eq_iff : (Step.key name).reread = .key name ↔ ¬Numeral name := by
  have hread : (isCanonicalIndex name.toList && decide (Digits.ofDecimal name.toList < Word.bound)) = true ↔
      Numeral name := by
    rw [Bool.and_eq_true, decide_eq_true_eq, numeral_iff]
  rw [Step.reread_key, stepOf, String.ofList_toList]
  by_cases h : Numeral name
  · rw [if_pos (hread.2 h)]
    exact ⟨nofun, fun hnot => absurd h hnot⟩
  · rw [if_neg (mt hread.1 h)]
    exact ⟨fun _ => h, fun _ => rfl⟩

theorem Step.reread_stepOf (cs : List Char) : (stepOf cs).reread = stepOf cs := by
  by_cases h : (isCanonicalIndex cs && decide (Digits.ofDecimal cs < Word.bound)) = true
  · rw [stepOf, if_pos h]
    exact Step.reread_index (of_decide_eq_true (Bool.and_eq_true_iff.1 h).2)
  · rw [stepOf, if_neg h, Step.reread_key, String.toList_ofList, stepOf, if_neg h]

theorem reread_ofPointer (pointer : String) : (ofPointer pointer).reread = ofPointer pointer := by
  have hfixed : ∀ step ∈ ofPointer pointer, step.reread = step := by
    intro step hstep
    have hread : ∃ cs, step = stepOf cs := by
      unfold ofPointer ofChars at hstep
      split at hstep
      · cases hstep
      all_goals
        obtain ⟨segment, -, rfl⟩ := List.mem_map.1 hstep
        exact ⟨_, rfl⟩
    obtain ⟨cs, rfl⟩ := hread
    exact Step.reread_stepOf cs
  rw [reread_eq_map, List.map_congr_left hfixed, List.map_id']

/-- A path comes back if and only if every key does. -/
theorem reread_eq_iff (h : ∀ i, .index i ∈ path → i < Word.bound) :
    path.reread = path ↔ ∀ name, .key name ∈ path → ¬Numeral name := by
  have hsteps : path.reread = path ↔ ∀ step ∈ path, step.reread = step := by
    rw [reread_eq_map]
    exact ⟨fun heq step hstep => List.map_inj_left.1 (heq.trans path.map_id.symm) step hstep,
      fun hall => (List.map_congr_left hall).trans path.map_id'⟩
  rw [hsteps]
  constructor
  · exact fun hall name hname => Step.reread_key_eq_iff.1 (hall _ hname)
  · intro hkeys step hstep
    cases step with
    | index i => exact Step.reread_index (h i hstep)
    | key name => exact Step.reread_key_eq_iff.2 (hkeys name hstep)

/-- A path whose indices are words comes back from its pointer if and only if none of its keys reads as a
number. Whatever was read from a text comes back from its pointer. Escaping and unescaping are each two
replacements of all occurrences, one after the other, and unescaping takes escaping back. -/
theorem pointers_faithful :
    (∀ path : Path, (∀ i, .index i ∈ path → i < Word.bound) →
      (ofPointer path.toPointer = path ↔ ∀ name, .key name ∈ path → ¬Numeral name)) ∧
    (∀ pointer : String, ofPointer (ofPointer pointer).toPointer = ofPointer pointer) ∧
    ∀ cs : List Char,
      escape cs = Text.replaceAll ['/'] ['~', '1'] (Text.replaceAll ['~'] ['~', '0'] cs) ∧
      unescape cs = Text.replaceAll ['~', '0'] ['~'] (Text.replaceAll ['~', '1'] ['/'] cs) ∧
      unescape (escape cs) = cs :=
  ⟨fun _ => reread_eq_iff, reread_ofPointer,
    fun cs => ⟨escape_eq_replaceAll cs, unescape_eq_replaceAll cs, unescape_escape cs⟩⟩

/-- An empty key, a key with a slash and an escape in it, and two keys of digits that are no numbers: one has
a needless zero and the other is no word. -/
def awkwardPath : Path :=
  [.key "", .index 18446744073709551615, .key "a/~1", .key "007", .key "18446744073709551616"]

theorem pointers_faithful_awkward : ofPointer awkwardPath.toPointer = awkwardPath ∧
    ofPointer (toPointer [.key "7"]) ≠ [.key "7"] := by
  refine ⟨(pointers_faithful.1 awkwardPath ?_).2 ?_, fun heq => ?_⟩
  · intro i hi
    simp only [awkwardPath, List.mem_cons, reduceCtorEq, Step.index.injEq, List.not_mem_nil, or_false,
      false_or] at hi
    rw [hi]
    decide
  · intro name hname
    simp only [awkwardPath, List.mem_cons, reduceCtorEq, Step.key.injEq, List.not_mem_nil, or_false,
      false_or] at hname
    rcases hname with rfl | rfl | rfl | rfl <;> decide +kernel
  · exact (pointers_faithful.1 [.key "7"] (by simp)).1 heq "7" List.mem_cons_self (by decide +kernel)

end Path
end CoEdit
