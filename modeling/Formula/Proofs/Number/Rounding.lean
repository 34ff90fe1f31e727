import Formula.Number.Shortest
import Mathlib.Algebra.Group.Nat.Defs
import Mathlib.Data.Int.Notation
import Mathlib.Data.Nat.Notation
import Mathlib.Tactic.Lemma

/-!
The shortest digits of a double read back as the double.

Main statement: `bits_shortest`. The shortest digits are a multiple of a power of ten that is
known to read back, or all the digits of the double, and taking zeros from their end changes
nothing. The last two need that a ratio is rounded the same in lower terms, so the case
distinction of `Decimal.bits` is first put back into one formula.

The scale `2 ^ 1074` is written with a variable for its exponent, so that nothing computes it.
-/

namespace Formula

variable {n d c q : ℕ}

lemma roundEven_mul (hc : 0 < c) : roundEven (n * c) (d * c) = roundEven n d := by
  have hdiv : n * c / (d * c) = n / d := Nat.mul_div_mul_right n d hc
  have hmod : n * c % (d * c) = n % d * c := Nat.mul_mod_mul_right c n d
  have hlt (a b : ℕ) : a * c < b * c ↔ a < b := Nat.mul_lt_mul_right hc
  unfold roundEven
  simp only [hdiv, hmod, ← Nat.mul_assoc, hlt]

/-- A ratio is rounded the same in lower terms. -/
lemma nearestBits_mul (hc : 0 < c) : nearestBits (n * c) (d * c) = nearestBits n d := by
  unfold nearestBits
  simp only [Nat.mul_div_mul_right n d hc, Nat.mul_right_comm d c, roundEven_mul hc]

lemma roundEven_mul_self {m : ℕ} (hd : 0 < d) : roundEven (m * d) d = m := by
  have h : roundEven (m * d) (1 * d) = roundEven m 1 := roundEven_mul hd
  rw [Nat.one_mul] at h
  rw [h]
  simp [roundEven, Nat.mod_one]

lemma div_le_roundEven (n d : ℕ) : n / d ≤ roundEven n d := by
  unfold roundEven
  simp only
  split
  · exact Nat.le_refl _
  · split <;> omega

lemma log2_units (b : ℕ) : (Magnitude.ofBits b).units.log2 - 52 = (Magnitude.ofBits b).expo := by
  unfold Magnitude.ofBits Magnitude.units
  simp only [Nat.pow_eq]
  split
  · rename_i hlt
    simp only [Nat.pow_zero, Nat.mul_one]
    by_cases h0 : b = 0
    · subst h0
      rfl
    · have := (Nat.log2_lt h0).2 hlt
      omega
  · simp only
    have hlow : b % 2 ^ 52 < 2 ^ 52 := Nat.mod_lt b (Nat.two_pow_pos 52)
    generalize b % 2 ^ 52 = r at hlow
    generalize b / 2 ^ 52 - 1 = e
    have hpos := Nat.two_pow_pos e
    have hlog : ((2 ^ 52 + r) * 2 ^ e).log2 = 52 + e := by
      rw [Nat.log2_eq_iff (Nat.pos_iff_ne_zero.1 (Nat.mul_pos (by omega) hpos))]
      constructor
      · rw [Nat.pow_add]
        exact Nat.mul_le_mul_right _ (Nat.le_add_right _ _)
      · rw [Nat.add_right_comm, Nat.pow_add]
        exact Nat.mul_lt_mul_of_pos_right (by omega) hpos
    omega

/-- A number of units that a double has is not rounded. -/
lemma nearestBits_units {b : ℕ} (hb : b ≤ infBits) :
    nearestBits (Magnitude.ofBits b).units 1 = b := by
  have hround : roundEven (Magnitude.ofBits b).units (Nat.pow 2 (Magnitude.ofBits b).expo) =
      (Magnitude.ofBits b).mant := roundEven_mul_self (Nat.two_pow_pos _)
  unfold nearestBits
  simp only [Nat.div_one, log2_units, Nat.one_mul, hround]
  change min (Magnitude.ofBits b).bits infBits = b
  rw [Magnitude.bits_ofBits]
  exact Nat.min_eq_left hb

/-- What is beyond all doubles is rounded to infinity. -/
lemma nearestBits_of_large {k : ℕ} (hk : 2098 ≤ k) (h : 2 ^ k ≤ n) : nearestBits n 1 = infBits := by
  have hn : n ≠ 0 := fun h0 => absurd (h0 ▸ h) (Nat.not_le.2 (Nat.two_pow_pos k))
  have hlog : k ≤ n.log2 := (Nat.le_log2 hn).2 h
  obtain ⟨e, he⟩ : ∃ e, n.log2 = e + 52 := ⟨n.log2 - 52, by omega⟩
  have hround : 2 ^ 52 ≤ roundEven n (2 ^ e) := by
    refine Nat.le_trans ?_ (div_le_roundEven _ _)
    rw [Nat.le_div_iff_mul_le (Nat.two_pow_pos e), ← Nat.pow_add, Nat.add_comm, ← he]
    exact Nat.log2_self_le hn
  have hmul : 2046 * 2 ^ 52 ≤ e * 2 ^ 52 := Nat.mul_le_mul_right _ (by omega)
  have hinf : infBits = 2047 * 2 ^ 52 := rfl
  unfold nearestBits
  simp only [Nat.div_one, Nat.one_mul, Nat.pow_eq, he, Nat.add_sub_cancel, Magnitude.bits]
  omega

/-- What is less than half the least double is rounded to zero. -/
lemma nearestBits_of_small (h : 2 * n < d) : nearestBits n d = 0 := by
  have hdiv : n / d = 0 := Nat.div_eq_of_lt (by omega)
  have hmod : n % d = n := Nat.mod_eq_of_lt (by omega)
  have hround : roundEven n d = 0 := by
    unfold roundEven
    simp only [hdiv, hmod, if_pos h]
  unfold nearestBits
  simp [hdiv, hround, Magnitude.bits]

namespace Decimal

/-- A number with 311 zeros is beyond all doubles. -/
lemma two_pow_le_of_large {m k p : ℕ} (hp : p = 1024) (h0 : m ≠ 0) (hk : 311 ≤ k) :
    2 ^ p ≤ m * 10 ^ k := by
  obtain ⟨t, ht, hten⟩ : ∃ t, t = 311 ∧ 2 ^ p ≤ 10 ^ t := ⟨311, rfl, by rw [hp]; decide +kernel⟩
  calc 2 ^ p
      ≤ 10 ^ t := hten
    _ ≤ 10 ^ k := Nat.pow_le_pow_right (by decide) (by omega)
    _ ≤ m * 10 ^ k := Nat.le_mul_of_pos_left _ (Nat.pos_of_ne_zero h0)

/-- A mantissa that stands far enough behind the point is less than half a unit. -/
lemma two_mul_lt_of_small {m j : ℕ} (h : m.log2 + q + 2 ≤ j) : 2 * (m * 2 ^ q) < 10 ^ j := by
  have hmant : m < 2 ^ (m.log2 + 1) := Nat.lt_log2_self
  calc 2 * (m * 2 ^ q)
      = m * 2 ^ (q + 1) := by rw [Nat.mul_left_comm, Nat.pow_succ']
    _ < 2 ^ (m.log2 + 1) * 2 ^ (q + 1) := Nat.mul_lt_mul_of_pos_right hmant (Nat.two_pow_pos _)
    _ = 2 ^ (m.log2 + 1 + (q + 1)) := (Nat.pow_add ..).symm
    _ ≤ 2 ^ j := Nat.pow_le_pow_right (by decide) (by omega)
    _ ≤ 10 ^ j := Nat.pow_le_pow_left (by decide) j

/-- The bits of a decimal number are those nearest to it, however large or small it is. -/
lemma bits_eq_nearest (hq : q = 1074) (x : Decimal) :
    x.bits = nearestBits (x.mant * 10 ^ x.expo.toNat * 2 ^ q) (10 ^ (-x.expo).toNat) := by
  unfold bits
  rw [← hq]
  simp only [Nat.pow_eq]
  split
  · rename_i h0
    rw [h0, Nat.zero_mul, Nat.zero_mul]
    exact (nearestBits_of_small (Nat.pow_pos (by decide))).symm
  · rename_i h0
    split
    · rename_i hlarge
      have hneg : (-x.expo).toNat = 0 := by omega
      obtain ⟨p, hp⟩ : ∃ p, p = 1024 := ⟨_, rfl⟩
      rw [hneg, Nat.pow_zero]
      refine (nearestBits_of_large (k := p + q) (by omega) ?_).symm
      rw [Nat.pow_add]
      exact Nat.mul_le_mul_right _ (two_pow_le_of_large hp h0 (by omega))
    · split
      · rename_i hsmall
        have hpos : x.expo.toNat = 0 := by omega
        obtain ⟨j, hj⟩ : ∃ j, (-x.expo).toNat = j := ⟨_, rfl⟩
        rw [hpos, hj, Nat.pow_zero, Nat.mul_one]
        exact (nearestBits_of_small (two_mul_lt_of_small (by omega))).symm
      · split
        · have hneg : (-x.expo).toNat = 0 := by omega
          rw [hneg, Nat.pow_zero]
        · have hpos : x.expo.toNat = 0 := by omega
          rw [hpos, Nat.pow_zero, Nat.mul_one]

lemma bits_le (x : Decimal) : x.bits ≤ infBits := by
  obtain ⟨q, hq⟩ : ∃ q, q = 1074 := ⟨_, rfl⟩
  rw [bits_eq_nearest hq]
  exact Nat.min_le_right _ _

/-- A zero at the end of the mantissa may be left out. -/
lemma bits_mul_ten (m : ℕ) (k : ℤ) : bits ⟨m * 10, k⟩ = bits ⟨m, k + 1⟩ := by
  obtain ⟨q, hq⟩ : ∃ q, q = 1074 := ⟨_, rfl⟩
  rw [bits_eq_nearest hq, bits_eq_nearest hq]
  simp only
  rcases Int.lt_or_le k 0 with hk | hk
  · obtain ⟨j, hj⟩ : ∃ j, (-(k + 1)).toNat = j := ⟨_, rfl⟩
    have hj' : (-k).toNat = j + 1 := by omega
    have h0 : k.toNat = 0 := by omega
    have h0' : (k + 1).toNat = 0 := by omega
    rw [hj, hj', h0, h0', Nat.pow_zero, Nat.mul_one, Nat.mul_one, Nat.pow_succ,
      Nat.mul_right_comm, nearestBits_mul (by decide)]
  · have hj : (k + 1).toNat = k.toNat + 1 := by omega
    have h0 : (-k).toNat = 0 := by omega
    have h0' : (-(k + 1)).toNat = 0 := by omega
    rw [hj, h0, h0', Nat.pow_succ, Nat.mul_assoc m 10, Nat.mul_comm 10]

lemma bits_mul_pow (m j : ℕ) (k : ℤ) : bits ⟨m * 10 ^ j, k⟩ = bits ⟨m, k + j⟩ := by
  induction j generalizing k with
  | zero => simp
  | succ j ih =>
    have hexpo : k + 1 + (j : ℤ) = k + (j + 1 : ℕ) := by omega
    rw [Nat.pow_succ, ← Nat.mul_assoc, bits_mul_ten, ih, hexpo]

lemma bits_normal (x : Decimal) : x.normal.bits = x.bits := by
  fun_induction normal x with
  | case1 x h ih =>
    have hmant : x.mant / 10 * 10 = x.mant := by omega
    rw [ih, ← bits_mul_ten, hmant]
  | case2 x h => rfl

end Decimal

namespace Magnitude

lemma bits_of_onGrid {x : Magnitude} {k : ℤ} {y : Decimal} (h : x.onGrid k = some y) :
    y.bits = x.bits := by
  unfold onGrid at h
  simp only at h
  split at h
  · rename_i hbelow
    split at h
    · rename_i habove
      cases h
      exact habove.1
    · cases h
      exact hbelow
  · split at h
    · rename_i habove
      cases h
      exact habove
    · cases h

lemma bits_exact {b : ℕ} (hb : b ≤ infBits) : (ofBits b).exact.bits = b := by
  obtain ⟨q, hq⟩ : ∃ q, q = 1074 := ⟨_, rfl⟩
  have hexact : (ofBits b).exact = ⟨(ofBits b).units * 5 ^ q, -q⟩ := by
    have hplaces : (-1074 : ℤ) = -(q : ℤ) := by omega
    unfold exact
    rw [hplaces, ← hq]
    rfl
  have hexpo : (-(q : ℤ)).toNat = 0 := by omega
  have hexpo' : (- -(q : ℤ)).toNat = q := by omega
  have hten : 5 ^ q * 2 ^ q = 10 ^ q := (Nat.mul_pow 5 2 q).symm
  have hscale := nearestBits_mul (n := (ofBits b).units) (d := 1) (c := 10 ^ q)
    (Nat.pow_pos (by decide))
  rw [Nat.one_mul, nearestBits_units hb] at hscale
  rw [hexact, Decimal.bits_eq_nearest hq]
  simp only
  rw [hexpo, hexpo', Nat.pow_zero, Nat.mul_one, Nat.mul_assoc, hten, hscale]

/-- The digits are found on the grid of some power of ten, or are all there are. -/
lemma exists_shortest (x : Magnitude) : ∃ k : ℤ, x.shortest =
    (((List.range 17).findSome? fun (i : ℕ) => x.onGrid (k - i)).getD x.exact).normal := by
  unfold shortest
  split
  rename_i n d hratio
  exact ⟨decade n d, rfl⟩

/-- The shortest decimal number reads back as the double. -/
theorem bits_shortest {b : ℕ} (hb : b ≤ infBits) : (ofBits b).shortest.bits = b := by
  obtain ⟨k, hk⟩ := exists_shortest (ofBits b)
  rw [hk, Decimal.bits_normal]
  cases hfind : (List.range 17).findSome? fun (i : ℕ) => (ofBits b).onGrid (k - i) with
  | none => exact bits_exact hb
  | some y =>
    obtain ⟨i, -, hi⟩ := List.exists_of_findSome?_eq_some hfind
    exact (bits_of_onGrid hi).trans (bits_ofBits b)

end Magnitude

end Formula
