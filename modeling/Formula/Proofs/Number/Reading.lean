import Formula.Lexer
import Formula.Number.Print
import Formula.Proofs.Lexing.Munch
import Formula.Proofs.Number.Doubles
import Formula.Proofs.Number.Rounding

/-!
A double that is printed without an exponent reads back as itself.

Main statements: `munch_printPlain` for doubles without a sign, which are printed as one number
literal, and `printPlain_neg` for the others, which get a minus sign in front.
-/

namespace Formula

variable {w f t : Text} {x y : Decimal} {b : ℕ}

/-! ### The value of digits -/

lemma digitsFrom_eq (acc : ℕ) (ds : Text) : digitsFrom acc ds = Nat.ofDigitChars 10 ds acc := rfl

lemma digitsValue_toDigits (n : ℕ) : digitsValue (Nat.toDigits 10 n) = n := by
  rw [digitsValue_eq, digitsFrom_eq, Nat.ofDigitChars_ten_toDigits]

lemma digitsValue_append_zeros (w : Text) (k : ℕ) :
    digitsValue (w ++ zeros k) = digitsValue w * 10 ^ k := by
  rw [digitsValue_eq, digitsValue_eq, digitsFrom_append, digitsFrom_eq _ (zeros k), zeros,
    Nat.ofDigitChars_replicate_zero, Nat.mul_comm]

lemma digitsValue_zeros_append (k : ℕ) (w : Text) :
    digitsValue (zeros k ++ w) = digitsValue w := by
  rw [digitsValue_eq, digitsValue_eq, digitsFrom_append, digitsFrom_eq _ (zeros k), zeros,
    Nat.ofDigitChars_replicate_zero, Nat.mul_zero]

lemma isDigit_zeros {k : ℕ} {c : Char} (hc : c ∈ zeros k) : c.isDigit := by
  rw [List.eq_of_mem_replicate hc]
  rfl

/-! ### Digits with or without a point -/

/-- The text is digits, or digits, a point and further digits, and stands for the number. -/
inductive IsDecimal : Text → Decimal → Prop
  | whole {w : Text} : w ≠ [] → (∀ c ∈ w, c.isDigit) → IsDecimal w ⟨digitsValue w, 0⟩
  | point {w f : Text} : w ≠ [] → (∀ c ∈ w, c.isDigit) → (∀ c ∈ f, c.isDigit) →
      IsDecimal (w ++ '.' :: f) ⟨digitsValue (w ++ f), -f.length⟩

lemma digitRun_of_forall (hw : ∀ c ∈ w, c.isDigit) : digitRun w = w :=
  List.takeWhile_eq_self_iff.2 hw

lemma digitRun_append_point (hw : ∀ c ∈ w, c.isDigit) : digitRun (w ++ '.' :: f) = w := by
  rw [digitRun_append_of_digits hw, digitRun_eq_nil (by simp), List.append_nil]

lemma IsDecimal.read? (h : IsDecimal t x) : Decimal.read? t = some x := by
  cases h with
  | whole hne hw =>
    have htake : t.takeWhile Char.isDigit = t := List.takeWhile_eq_self_iff.2 hw
    have hdrop : t.dropWhile Char.isDigit = [] := List.dropWhile_eq_nil_iff.2 hw
    simp [Decimal.read?, htake, hdrop, hne, Decimal.scale?]
  | @point w f hne hw hf =>
    have htake : (w ++ '.' :: f).takeWhile Char.isDigit = w := digitRun_append_point hw
    have hdrop : (w ++ '.' :: f).dropWhile Char.isDigit = '.' :: f := by
      rw [List.dropWhile_append_of_pos hw, List.dropWhile_cons_of_neg (by decide)]
    have htake' : f.takeWhile Char.isDigit = f := List.takeWhile_eq_self_iff.2 hf
    have hdrop' : f.dropWhile Char.isDigit = [] := List.dropWhile_eq_nil_iff.2 hf
    simp [Decimal.read?, htake, hdrop, htake', hdrop', hne, Decimal.scale?]

lemma IsDecimal.numberRun (h : IsDecimal t x) : numberRun t = (t, false) := by
  cases h with
  | whole hne hw =>
    simp [Formula.numberRun, digitRun_of_forall hw, fractionRun, exponentRun]
  | @point w f hne hw hf =>
    simp [Formula.numberRun, digitRun_append_point hw, fractionRun, digitRun_of_forall hf,
      exponentRun]

lemma IsDecimal.startsNumber (h : IsDecimal t x) : startsNumber t := by
  cases h with
  | whole hne hw =>
    obtain ⟨c, cs, rfl⟩ := List.exists_cons_of_ne_nil hne
    exact startsNumber_digit (hw c List.mem_cons_self) cs
  | point hne hw _ =>
    obtain ⟨c, cs, rfl⟩ := List.exists_cons_of_ne_nil hne
    exact startsNumber_digit (hw c List.mem_cons_self) _

/-- Such a text is one token, a number. -/
lemma IsDecimal.munch (h : IsDecimal t x) : munch t = (.ok (.number (x.toFloat false)), t) := by
  have hstart := h.startsNumber
  cases t with
  | nil => cases hstart
  | cons c cs =>
    unfold Formula.munch munchNumber
    simp only
    rw [if_pos hstart, h.numberRun]
    simp only
    rw [h.read?]

/-! ### Printing -/

lemma isDigit_digits (x : Decimal) : ∀ c ∈ x.digits, c.isDigit := fun _ =>
  Nat.isDigit_of_mem_toDigits (by decide) (by decide)

/-- What is printed has the bits of the number. -/
lemma exists_isDecimal_plain (x : Decimal) : ∃ y, IsDecimal x.plain y ∧ y.bits = x.bits := by
  have hvalue : digitsValue x.digits = x.mant := digitsValue_toDigits _
  unfold Decimal.plain
  simp only
  split
  · rename_i hexpo
    have hne : x.digits ++ zeros x.expo.toNat ≠ [] := by simp [Decimal.digits, Nat.toDigits_ne_nil]
    have hdigits : ∀ c ∈ x.digits ++ zeros x.expo.toNat, c.isDigit :=
      List.forall_mem_append.2 ⟨isDigit_digits x, fun c hc => isDigit_zeros hc⟩
    have hplace : (0 : ℤ) + x.expo.toNat = x.expo := by omega
    refine ⟨_, .whole hne hdigits, ?_⟩
    rw [digitsValue_append_zeros, hvalue, Decimal.bits_mul_pow, hplace]
  · rename_i hexpo
    obtain ⟨places, hplaces⟩ : ∃ places : ℕ, (-x.expo).toNat = places := ⟨_, rfl⟩
    obtain ⟨ds, hds⟩ : ∃ ds, zeros (places + 1 - x.digits.length) ++ x.digits = ds := ⟨_, rfl⟩
    have hlength : places < ds.length := by
      rw [← hds, List.length_append, zeros, List.length_replicate]
      omega
    have hdigits : ∀ c ∈ ds, c.isDigit := by
      rw [← hds]
      exact List.forall_mem_append.2 ⟨fun c hc => isDigit_zeros hc, isDigit_digits x⟩
    have hwhole : ds.take (ds.length - places) ≠ [] := by
      intro hnil
      have := congrArg List.length hnil
      rw [List.length_take, List.length_nil] at this
      omega
    have hvalue' : digitsValue ds = x.mant := by rw [← hds, digitsValue_zeros_append, hvalue]
    have hfraction : (-(ds.drop (ds.length - places)).length : ℤ) = x.expo := by
      rw [List.length_drop]
      omega
    rw [hplaces, hds]
    refine ⟨_, .point hwhole (fun c hc => hdigits c (List.mem_of_mem_take hc))
      (fun c hc => hdigits c (List.mem_of_mem_drop hc)), ?_⟩
    rw [List.take_append_drop, hvalue', hfraction]

lemma exists_isDecimal_printPlain (hb : b < infBits) :
    ∃ y, IsDecimal (printPlain (withSign false b)) y ∧ y.bits = b := by
  have hsign : signText false = [] := rfl
  unfold printPlain printWith
  rw [shape_withSign hb]
  simp only [hsign, List.nil_append]
  split
  · rename_i hzero
    have hb0 : b = 0 := by
      unfold Magnitude.ofBits at hzero
      split at hzero
      · exact hzero
      · simp at hzero
    refine ⟨_, .whole (by simp) (by simp), ?_⟩
    rw [hb0]
    decide
  · obtain ⟨y, hy, hbits⟩ := exists_isDecimal_plain (Magnitude.ofBits b).shortest
    exact ⟨y, hy, hbits.trans (Magnitude.bits_shortest (Nat.le_of_lt hb))⟩

/-- **Printing a number.** A finite double without a sign is printed as one number literal, and
that literal is read as the same double. -/
theorem munch_printPlain (hb : b < infBits) :
    munch (printPlain (withSign false b)) =
      (.ok (.number (withSign false b)), printPlain (withSign false b)) := by
  obtain ⟨y, hy, hbits⟩ := exists_isDecimal_printPlain hb
  rw [hy.munch, Decimal.toFloat, hbits]

/-- A double with a sign is printed as a minus sign and the number without it. -/
theorem printPlain_neg (hb : b < infBits) :
    printPlain (withSign true b) = '-' :: printPlain (withSign false b) := by
  unfold printPlain printWith
  rw [shape_withSign hb, shape_withSign hb]
  rfl

end Formula
