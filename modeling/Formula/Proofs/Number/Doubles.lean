import Formula.Number.Binary
import Mathlib

/-!
A double is its sign and its bits.

Main statements: `withSign` gives every finite double, the shape of what it gives is the one it
was asked for, and negation changes the sign.

The bits of a double are those of a word of 64 bits. Its highest bit is the sign, the next 11 are
the exponent and the other 52 the mantissa; negation is read off the model of doubles on these
three parts.
-/

namespace Formula

open Float.Model UnpackedFloat

variable {s : Bool} {b : ℕ} {x : Float} {m : Magnitude}

lemma infBits_eq : infBits = 9218868437227405312 := by decide

lemma signBit_eq : Nat.pow 2 63 = 9223372036854775808 := by decide

/-- The bits of a double that is a number leave the sign bit free. -/
lemma lt_signBit (hb : b ≤ infBits) : b < Nat.pow 2 63 := by
  rw [infBits_eq] at hb
  rw [signBit_eq]
  omega

/-! ### The parts of a word -/

/-- The bits of a double as a word, the sign given apart. -/
def word (negative : Bool) (b : ℕ) : BitVec Format.binary64.numBits :=
  BitVec.ofNat 64 (if negative then Nat.pow 2 63 + b else b)

def signOf (negative : Bool) : Sign := if negative then .negative else .positive

lemma toNat_word (hb : b < Nat.pow 2 63) :
    (word s b).toNat = if s then Nat.pow 2 63 + b else b := by
  have hword : (word s b).toNat = (if s then Nat.pow 2 63 + b else b) % 2 ^ 64 :=
    BitVec.toNat_ofNat _ 64
  rw [signBit_eq] at *
  rw [hword]
  split <;> omega

lemma unpackExponent_word (hb : b < Nat.pow 2 63) :
    unpackExponent (word s b) = BitVec.ofNat 11 (b / 2 ^ 52) := by
  apply BitVec.eq_of_toNat_eq
  rw [unpackExponent_def, BitVec.extractLsb'_toNat, toNat_word hb]
  rw [signBit_eq] at *
  simp only [BitVec.toNat_ofNat, Nat.shiftRight_eq_div_pow]
  split <;> omega

lemma unpackMantissa_word (hb : b < Nat.pow 2 63) :
    unpackMantissa (word s b) = BitVec.ofNat 52 b := by
  apply BitVec.eq_of_toNat_eq
  rw [unpackMantissa_def, BitVec.extractLsb'_toNat, toNat_word hb]
  rw [signBit_eq]
  simp only [BitVec.toNat_ofNat, Nat.shiftRight_eq_div_pow]
  split <;> omega

lemma unpackSign_word (hb : b < Nat.pow 2 63) :
    unpackSign (word s b) = (signOf s).toBitVec := by
  apply BitVec.eq_of_toNat_eq
  rw [unpackSign_def, BitVec.extractLsb'_toNat, toNat_word hb]
  rw [signBit_eq] at *
  simp only [Nat.shiftRight_eq_div_pow]
  cases s <;> simp [signOf, Sign.toBitVec] <;> omega

lemma word_eq_pack (hb : b < Nat.pow 2 63) :
    word s b = packComponents .binary64 (signOf s) (BitVec.ofNat 11 (b / 2 ^ 52))
      (BitVec.ofNat 52 b) := by
  rw [← packComponents_unpackSign_unpackExponent_unpackMantissa (word s b), unpackSign_word hb,
    unpackExponent_word hb, unpackMantissa_word hb, Sign.ofBitVec_toBitVec]

/-- Negation changes the sign bit and leaves the other parts as they are. -/
lemma neg_unpack (s : Bool) (e : BitVec 11) (m : BitVec 52) :
    (UnpackedFloat.unpack .binary64 (packComponents .binary64 (signOf s) e m)).neg =
      UnpackedFloat.unpack .binary64 (packComponents .binary64 (signOf !s) e m) := by
  have hsign : -signOf s = signOf !s := by cases s <;> rfl
  unfold UnpackedFloat.unpack
  simp only [unpackExponent_packComponents, unpackMantissa_packComponents,
    unpackSign_packComponents, Sign.ofBitVec_toBitVec, ← hsign]
  split
  · split <;> rfl
  · split
    · split <;> rfl
    · rfl

/-! ### The bits of a double -/

/-- Up to the bits of infinity a word is not one of those that stand for no number. -/
lemma not_isNaNBits (hb : b ≤ infBits) : isNaNBits (word s b) = false := by
  have hlt := lt_signBit hb
  unfold isNaNBits
  rw [unpackExponent_word hlt, unpackMantissa_word hlt, decide_eq_false_iff_not, not_and_or,
    not_not]
  by_cases h : b = infBits
  · right
    subst h
    decide
  · left
    intro he
    have hexponent := congrArg BitVec.toNat he
    rw [infBits_eq] at *
    simp at hexponent
    omega

lemma toBits_withSign (hb : b ≤ infBits) : (withSign s b).toBits.toBitVec = word s b := by
  have hpack : UnpackedFloat.pack .binary64 (UnpackedFloat.unpack .binary64 (word s b)) =
      word s b := by
    rw [pack_unpack, not_isNaNBits hb]
    rfl
  exact hpack

/-- Negation of a double changes its sign. -/
theorem neg_withSign (s : Bool) (hb : b ≤ infBits) : -(withSign s b) = withSign (!s) b := by
  have hlt := lt_signBit hb
  rw [← Float.toBits_inj, ← UInt64.toBitVec_inj]
  calc (-(withSign s b)).toBits.toBitVec
      = UnpackedFloat.pack .binary64
          (UnpackedFloat.unpack .binary64 (withSign s b).toBits.toBitVec).neg := rfl
    _ = UnpackedFloat.pack .binary64 (UnpackedFloat.unpack .binary64 (word (!s) b)) := by
        rw [toBits_withSign hb, word_eq_pack hlt, word_eq_pack hlt]
        exact congrArg _ (neg_unpack _ _ _)
    _ = (withSign (!s) b).toBits.toBitVec := rfl

theorem shape_withSign (hb : b < infBits) : shape (withSign s b) = .finite s (.ofBits b) := by
  have hlt := lt_signBit (Nat.le_of_lt hb)
  have hbits : (withSign s b).toBits.toNat = if s then Nat.pow 2 63 + b else b := by
    rw [← toNat_word hlt, ← toBits_withSign (Nat.le_of_lt hb)]
    rfl
  have hlow : (if s then Nat.pow 2 63 + b else b) % Nat.pow 2 63 = b := by
    rw [signBit_eq] at *
    split <;> omega
  have hsign : decide (Nat.pow 2 63 ≤ if s then Nat.pow 2 63 + b else b) = s := by
    cases s
    · simpa using hlt
    · simp
  unfold shape
  simp only [hbits, hlow, hsign]
  rw [if_neg (by omega), if_neg (by omega)]

/-- Every finite double is given by its sign and its bits. -/
theorem exists_withSign (h : shape x = .finite s m) :
    ∃ b < infBits, x = withSign s b ∧ m = .ofBits b := by
  unfold shape at h
  simp only at h
  split at h
  · cases h
  · split at h
    · cases h
    · rename_i hnan hinfinite
      obtain ⟨rfl, rfl⟩ := Shape.finite.inj h
      refine ⟨_, by omega, ?_, rfl⟩
      have hlt : x.toBits.toNat < 18446744073709551616 := x.toBits.toNat_lt
      have hbits : (if decide (Nat.pow 2 63 ≤ x.toBits.toNat) then
          Nat.pow 2 63 + x.toBits.toNat % Nat.pow 2 63 else x.toBits.toNat % Nat.pow 2 63) =
          x.toBits.toNat := by
        rw [signBit_eq]
        split <;> simp only [decide_eq_true_eq] at * <;> omega
      unfold withSign
      rw [hbits]
      simp

/-! ### Numbers with a sign and without -/

/-- The double is a number. -/
def IsFinite (x : Float) : Prop := ∃ s m, shape x = .finite s m

instance : DecidablePred IsFinite := fun x =>
  match h : shape x with
  | .finite s m => isTrue ⟨s, m, h⟩
  | .infinite _ => isFalse fun ⟨_, _, hfinite⟩ => by rw [h] at hfinite; cases hfinite
  | .nan => isFalse fun ⟨_, _, hfinite⟩ => by rw [h] at hfinite; cases hfinite

/-- The double is a number with a sign. Minus zero is one. -/
def isSigned (x : Float) : Bool :=
  match shape x with
  | .finite s _ => s
  | _ => false

lemma IsFinite.exists_eq (h : IsFinite x) : ∃ b < infBits, x = withSign (isSigned x) b := by
  obtain ⟨s, m, hshape⟩ := h
  obtain ⟨b, hb, hx, -⟩ := exists_withSign hshape
  have hsign : isSigned x = s := by
    unfold isSigned
    rw [hshape]
  exact ⟨b, hb, by rw [hsign, hx]⟩

lemma IsFinite.of_isSigned (h : isSigned x) : IsFinite x := by
  unfold isSigned at h
  split at h
  · exact ⟨_, _, ‹_›⟩
  · cases h

/-- The sign can be taken off and put back. -/
lemma neg_neg_of_isSigned (h : isSigned x) : - -x = x := by
  obtain ⟨b, hb, hx⟩ := (IsFinite.of_isSigned h).exists_eq
  have hle := Nat.le_of_lt hb
  rw [hx, neg_withSign _ hle, neg_withSign _ hle, Bool.not_not]

/-- Up to infinity the sign is what was asked for. -/
lemma isSigned_positive (hb : b ≤ infBits) : isSigned (withSign false b) = false := by
  rw [Bool.eq_false_iff]
  intro hsigned
  obtain ⟨c, hc, hx⟩ := (IsFinite.of_isSigned hsigned).exists_eq
  rw [hsigned] at hx
  have hword : word false b = word true c := by
    rw [← toBits_withSign hb, hx, toBits_withSign (Nat.le_of_lt hc)]
  have hbits := congrArg BitVec.toNat hword
  have hlt := lt_signBit hb
  rw [toNat_word hlt, toNat_word (lt_signBit (Nat.le_of_lt hc))] at hbits
  simp only [Bool.false_eq_true, if_false, if_true] at hbits
  omega

end Formula
