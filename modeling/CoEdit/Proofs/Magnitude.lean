import Mathlib

/-!
# Magnitudes of doubles

Two documents agree if their numbers compare as equal, and then the two zeros are one number. The
magnitude of a double is its decoded form with a single zero: magnitudes are equal exactly where
doubles compare as equal, not-a-number apart, and the magnitude of a sum depends on the magnitude of
what is added to. The other sign keeps a finite double finite. Nothing is said about rounding.
-/
namespace CoEdit.Number
open Float.Model (UnpackedFloat)
open Float.Model.Format (binary64)

/-- A decoded double whose zeros have lost their sign. -/
def unsignedZero : UnpackedFloat → UnpackedFloat
  | .zero _ => .zero .positive
  | u => u

/-- The number that a double stands for. -/
def magnitude (x : Float) : UnpackedFloat :=
  unsignedZero x.toModel.unpack

/-- The magnitude after `amount` was added to a number of magnitude `m`. -/
def raise (amount : Float) (m : UnpackedFloat) : UnpackedFloat :=
  unsignedZero (UnpackedFloat.unpack binary64
    (UnpackedFloat.pack binary64 (UnpackedFloat.add binary64 m amount.toModel.unpack)))

theorem unsignedZero_ne_notANumber {u : UnpackedFloat} :
    unsignedZero u ≠ .notANumber ↔ u ≠ .notANumber := by
  cases u <;> simp [unsignedZero]

theorem beq_iff_unsignedZero (u v : UnpackedFloat) :
    u.beq v = true ↔ unsignedZero u ≠ .notANumber ∧ unsignedZero u = unsignedZero v := by
  rw [UnpackedFloat.beq_iff_ne_notANumber_and_eq]
  cases u with
  | zero s =>
      cases v with
      | zero t => cases s <;> cases t <;> simp [unsignedZero]
      | _ => simp [unsignedZero]
  | _ => cases v <;> simp [unsignedZero]

/-- Doubles compare as equal exactly where they have one magnitude, unless they are no numbers. -/
theorem beq_iff_magnitude (x y : Float) :
    (x == y) = true ↔ magnitude x ≠ .notANumber ∧ magnitude x = magnitude y :=
  beq_iff_unsignedZero x.toModel.unpack y.toModel.unpack

theorem unpack_pack_zero (s : Float.Model.UnpackedFloat.Sign) :
    UnpackedFloat.unpack binary64 (UnpackedFloat.pack binary64 (.zero s)) = .zero s := by
  cases s <;> rfl

/-- A finite number whose exponent fits stays finite when it is encoded. -/
theorem isFinite_unpack_pack {s : UnpackedFloat.Sign} {m : Nat} {e : Int} {hm : 0 < m}
    (h : (e + binary64.exponentBias + binary64.mantissaBitsWithoutImplicit).toNat + 1 <
      2 ^ binary64.exponentBits) :
    (UnpackedFloat.unpack binary64 (UnpackedFloat.pack binary64 (.finite s m e hm))).isFinite = true := by
  simp only [UnpackedFloat.pack, if_neg (Nat.not_le.2 h)]
  split
  · have hexp : BitVec.ofNat 11
        (e + binary64.exponentBias + binary64.mantissaBitsWithoutImplicit).toNat ≠ -1#_ := by
      intro hall
      have hval := congrArg BitVec.toNat hall
      simp at hval h
      omega
    simp only [UnpackedFloat.unpack, UnpackedFloat.unpackExponent_packComponents, if_neg hexp]
    split <;> (try split) <;> rfl
  · simp only [UnpackedFloat.unpack, UnpackedFloat.unpackExponent_packComponents]
    rw [if_neg (by decide)]
    simp only [if_true]
    split <;> rfl

theorem exponent_lt_of_unpack {bits : BitVec binary64.numBits} {s : UnpackedFloat.Sign} {m : Nat} {e : Int}
    {hm : 0 < m} (h : UnpackedFloat.unpack binary64 bits = .finite s m e hm) :
    (e + binary64.exponentBias + binary64.mantissaBitsWithoutImplicit).toNat + 1 <
      2 ^ binary64.exponentBits := by
  have hlt : (UnpackedFloat.unpackExponent bits).toNat < 2 ^ 11 :=
    (UnpackedFloat.unpackExponent bits).isLt
  have hmantissa : binary64.mantissaBitsWithoutImplicit = 52 := rfl
  change _ < 2 ^ 11
  simp only [UnpackedFloat.unpack] at h
  split_ifs at h with hall _ hzero _
  · cases h
    have hexp : (UnpackedFloat.unpackExponent bits).toNat = 0 := congrArg BitVec.toNat hzero
    rw [hexp, hmantissa]
    omega
  · cases h
    have hexp : (UnpackedFloat.unpackExponent bits).toNat ≠ 2047 := fun heq =>
      hall (BitVec.eq_of_toNat_eq heq)
    rw [hmantissa]
    omega

theorem isFinite_neg {x : Float} (h : x.isFinite = true) : (-x).isFinite = true := by
  have hx : (UnpackedFloat.unpack binary64 x.toModel.toBits.toBitVec).isFinite = true := h
  change (UnpackedFloat.unpack binary64 (UnpackedFloat.pack binary64
    (UnpackedFloat.unpack binary64 x.toModel.toBits.toBitVec).neg)).isFinite = true
  cases hu : UnpackedFloat.unpack binary64 x.toModel.toBits.toBitVec with
  | zero s =>
      rw [UnpackedFloat.neg, unpack_pack_zero]
      rfl
  | finite s m e hm => exact isFinite_unpack_pack (exponent_lt_of_unpack hu)
  | _ =>
      rw [hu] at hx
      cases hx

/-- Encoding turns no number into something else; a large one may become infinite. -/
theorem unpack_pack_ne_notANumber {u : UnpackedFloat} (h : u ≠ .notANumber) :
    UnpackedFloat.unpack binary64 (UnpackedFloat.pack binary64 u) ≠ .notANumber := by
  cases u with
  | infinity s =>
      cases s <;> simp [UnpackedFloat.pack, UnpackedFloat.packedInfinity, UnpackedFloat.unpack]
  | notANumber => exact absurd rfl h
  | zero s => simp [unpack_pack_zero]
  | finite s m e hm =>
      by_cases hlt : (e + binary64.exponentBias + binary64.mantissaBitsWithoutImplicit).toNat + 1 <
          2 ^ binary64.exponentBits
      · intro heq
        have hfinite : (UnpackedFloat.unpack binary64
            (UnpackedFloat.pack binary64 (.finite s m e hm))).isFinite = true := isFinite_unpack_pack hlt
        rw [heq] at hfinite
        cases hfinite
      · rw [UnpackedFloat.pack, if_pos (Nat.not_lt.1 hlt)]
        simp [UnpackedFloat.packedInfinity, UnpackedFloat.unpack]

theorem add_ne_notANumber {u v : UnpackedFloat} (hu : u ≠ .notANumber) (hv : v.isFinite = true) :
    UnpackedFloat.add binary64 u v ≠ .notANumber := by
  cases u <;> cases v <;>
    simp_all [UnpackedFloat.add, UnpackedFloat.isFinite, UnpackedFloat.normalize,
      UnpackedFloat.round, UnpackedFloat.roundWithAccuracy]
  all_goals repeat' split
  all_goals simp

/-- Which of the two zeros is added to makes no difference. -/
theorem raise_unsignedZero (amount : Float) (u : UnpackedFloat) :
    raise amount (unsignedZero u) = raise amount u := by
  cases u with
  | zero s =>
      unfold raise unsignedZero
      cases amount.toModel.unpack with
      | zero t => cases s <;> cases t <;> rfl
      | _ => simp [UnpackedFloat.add]
  | _ => rfl

theorem magnitude_add (x amount : Float) :
    magnitude (x + amount) = raise amount (magnitude x) := by
  rw [magnitude, magnitude, raise_unsignedZero]
  rfl

theorem magnitude_ne_notANumber_of_isFinite {x : Float} (h : x.isFinite = true) :
    magnitude x ≠ .notANumber := by
  rw [magnitude, unsignedZero_ne_notANumber]
  intro hx
  have hfinite : x.toModel.unpack.isFinite = true := h
  rw [hx] at hfinite
  cases hfinite

theorem raise_ne_notANumber {amount : Float} {m : UnpackedFloat} (ha : amount.isFinite = true)
    (hm : m ≠ .notANumber) : raise amount m ≠ .notANumber := by
  rw [raise, unsignedZero_ne_notANumber]
  exact unpack_pack_ne_notANumber (add_ne_notANumber hm ha)

end CoEdit.Number
