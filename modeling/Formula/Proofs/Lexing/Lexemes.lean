import Formula.Proofs.Lexing.Splice

/-!
How tokens are written.

`Lexeme` is the lexical grammar: numbers, words and the tokens of one character. The runs that the
lexer takes are the longest parts of a number at the start of a text (`Numeral.prefix_cases`), and a
number that is written so has a value (`Numeral.exists_read?`).
-/

namespace Formula

/-- Digits with or without a point, at least one digit. -/
inductive Mantissa : Text → Prop
  | whole {w : Text} : w ≠ [] → (∀ c ∈ w, c.isDigit) → Mantissa w
  | point {w f : Text} : w ≠ [] → (∀ c ∈ w, c.isDigit) → (∀ c ∈ f, c.isDigit) →
      Mantissa (w ++ '.' :: f)
  | fraction {f : Text} : f ≠ [] → (∀ c ∈ f, c.isDigit) → Mantissa ('.' :: f)

/-- What an exponent begins with. -/
def IsMark (c : Char) : Prop := c = 'e' ∨ c = 'E'

def IsSign (s : Text) : Prop := s = [] ∨ s = ['+'] ∨ s = ['-']

/-- A mark, a sign or none, and digits. -/
inductive Exponent : Text → Prop
  | mk {e : Char} {s ds : Text} : IsMark e → IsSign s → ds ≠ [] → (∀ c ∈ ds, c.isDigit) →
      Exponent (e :: (s ++ ds))

inductive Numeral : Text → Prop
  | plain {m : Text} : Mantissa m → Numeral m
  | scaled {m x : Text} : Mantissa m → Exponent x → Numeral (m ++ x)

/-- The text is a token of the kind. -/
inductive Lexeme : Text → Token.Kind → Prop
  | number {u : Text} {x : Decimal} : Numeral u → Decimal.read? u = some x →
      Lexeme u (.number (x.toFloat false))
  | word {c : Char} {cs : Text} : isWordStart c → (∀ d ∈ cs, isWordChar d) → Lexeme (c :: cs) .word
  | symbol {c : Char} {k : Token.Kind} : k.char? = some c → Lexeme [c] k

variable {c e : Char} {ds f m r s t u w x y : Text} {k k' : Token.Kind}

/-! ### Characters -/

lemma IsMark.not_digit (h : IsMark c) : ¬c.isDigit ∧ c ≠ '.' := by
  rcases h with rfl | rfl <;> decide

lemma Mantissa.mem (h : Mantissa m) : ∀ c ∈ m, c.isDigit ∨ c = '.' := by
  cases h with
  | whole _ hw => exact fun c hc => .inl (hw c hc)
  | point _ hw hf =>
    intro c hc
    rcases List.mem_append.1 hc with hc | hc
    · exact .inl (hw c hc)
    · rcases List.mem_cons.1 hc with rfl | hc
      · exact .inr rfl
      · exact .inl (hf c hc)
  | fraction _ hf =>
    intro c hc
    rcases List.mem_cons.1 hc with rfl | hc
    · exact .inr rfl
    · exact .inl (hf c hc)

lemma Mantissa.not_mark (h : Mantissa m) (hc : c ∈ m) : ¬IsMark c := fun hmark =>
  (h.mem c hc).elim hmark.not_digit.1 hmark.not_digit.2

lemma IsSign.not_digit (h : IsSign s) (hc : c ∈ s) : ¬c.isDigit := by
  rcases h with rfl | rfl | rfl
  · cases hc
  · rw [List.mem_singleton.1 hc]
    decide
  · rw [List.mem_singleton.1 hc]
    decide

/-! ### Runs -/

/-- The longest mantissa at the start of a text. -/
def mantissaRun (t : Text) : Text := digitRun t ++ fractionRun (t.drop (digitRun t).length)

lemma numberRun_eq (t : Text) : numberRun t =
    (mantissaRun t ++ exponentRun (t.drop (mantissaRun t).length),
      !(exponentRun (t.drop (mantissaRun t).length)).isEmpty &&
        !(exponentRun (t.drop (mantissaRun t).length)).any Char.isDigit) := rfl

lemma isPrefix_mantissaRun (t : Text) : mantissaRun t <+: t :=
  isPrefix_append_drop (isPrefix_digitRun t) (isPrefix_fractionRun _)

lemma isDigit_of_mem_digitRun (hc : c ∈ digitRun t) : c.isDigit := List.mem_takeWhile_imp hc

lemma fractionRun_eq_nil (h : ∀ c ∈ t.head?, c ≠ '.') : fractionRun t = [] := by
  rw [fractionRun.eq_2]
  rintro r rfl
  exact h '.' rfl rfl

lemma mantissaRun_point (hw : ∀ c ∈ w, c.isDigit) (hf : ∀ c ∈ f, c.isDigit) (t : Text) :
    mantissaRun (w ++ '.' :: (f ++ t)) = w ++ '.' :: (f ++ digitRun t) := by
  have hrun : digitRun (w ++ '.' :: (f ++ t)) = w := by
    rw [digitRun_append_of_digits hw, digitRun_eq_nil (by simp), List.append_nil]
  rw [mantissaRun, hrun, List.drop_left, fractionRun, digitRun_append_of_digits hf]

lemma mantissaRun_whole (hw : ∀ c ∈ w, c.isDigit) (t : Text) :
    mantissaRun (w ++ t) = w ++ mantissaRun t := by
  rw [mantissaRun, digitRun_append_of_digits hw, List.length_append, List.drop_length_add_append,
    List.append_assoc, mantissaRun]

lemma Mantissa.prefix_run (h : Mantissa m) (hm : m <+: t) : m <+: mantissaRun t := by
  obtain ⟨r, rfl⟩ := hm
  cases h with
  | whole _ hw =>
    rw [mantissaRun_whole hw]
    exact List.prefix_append _ _
  | point _ hw hf =>
    rw [List.append_assoc, List.cons_append, mantissaRun_point hw hf]
    exact ⟨digitRun r, by simp⟩
  | @fraction f _ hf =>
    have hrun := mantissaRun_point (List.forall_mem_nil _) hf r
    rw [List.nil_append, List.nil_append] at hrun
    rw [List.cons_append, hrun]
    exact ⟨digitRun r, by simp⟩

/-- A mantissa ends where neither a digit nor a point follows. -/
lemma Mantissa.run_eq (h : Mantissa m) (hr : ∀ c ∈ r.head?, ¬c.isDigit ∧ c ≠ '.') :
    mantissaRun (m ++ r) = m := by
  have hdigits : digitRun r = [] := digitRun_eq_nil fun c hc => (hr c hc).1
  cases h with
  | whole _ hw =>
    rw [mantissaRun_whole hw, mantissaRun, hdigits, List.nil_append, List.length_nil,
      List.drop_zero, fractionRun_eq_nil fun c hc => (hr c hc).2, List.append_nil]
  | point _ hw hf =>
    rw [List.append_assoc, List.cons_append, mantissaRun_point hw hf, hdigits, List.append_nil]
  | @fraction f _ hf =>
    have hrun := mantissaRun_point (List.forall_mem_nil _) hf r
    rw [List.nil_append, List.nil_append, hdigits, List.append_nil] at hrun
    exact hrun

lemma fractionRun_cases (t : Text) :
    fractionRun t = [] ∨ ∃ f, fractionRun t = '.' :: f ∧ ∀ c ∈ f, c.isDigit := by
  unfold fractionRun
  split
  · exact .inr ⟨_, rfl, fun _ => isDigit_of_mem_digitRun⟩
  · exact .inl rfl

lemma mantissa_run (h : startsNumber t) : Mantissa (mantissaRun t) := by
  have hw : ∀ c ∈ digitRun t, c.isDigit := fun _ => isDigit_of_mem_digitRun
  unfold startsNumber at h
  split at h
  · rename_i d r
    have hdigits : digitRun (d :: r) = d :: digitRun r := List.takeWhile_cons_of_pos h
    have hrun : mantissaRun ('.' :: d :: r) = '.' :: (d :: digitRun r) := by
      rw [mantissaRun, digitRun_eq_nil (by simp), List.nil_append, List.length_nil, List.drop_zero,
        fractionRun, hdigits]
    rw [hrun]
    refine .fraction (List.cons_ne_nil _ _) fun c hc => ?_
    rw [← hdigits] at hc
    exact isDigit_of_mem_digitRun hc
  · rename_i c r _
    have hne : digitRun (c :: r) ≠ [] := by
      rw [digitRun, List.takeWhile_cons_of_pos h]
      exact List.cons_ne_nil _ _
    unfold mantissaRun
    rcases fractionRun_cases ((c :: r).drop (digitRun (c :: r)).length) with hf | ⟨f, hf, hdigits⟩
    · rw [hf, List.append_nil]
      exact .whole hne hw
    · rw [hf]
      exact .point hne hw hdigits
  · cases h

/-! ### Exponents -/

lemma signRun_eq_nil (h : ∀ c ∈ t.head?, c ≠ '+' ∧ c ≠ '-') : signRun t = [] := by
  cases t with
  | nil => rfl
  | cons c t =>
    obtain ⟨hplus, hminus⟩ := h c rfl
    unfold signRun
    split <;> simp_all

lemma isSign_run (t : Text) : IsSign (signRun t) := by
  unfold signRun IsSign
  split <;> simp

/-- A sign ends where no further sign follows it. -/
lemma IsSign.run_eq (h : IsSign s) (ht : s = [] → ∀ c ∈ t.head?, c ≠ '+' ∧ c ≠ '-') :
    signRun (s ++ t) = s := by
  rcases h with rfl | rfl | rfl
  · exact signRun_eq_nil (ht rfl)
  · rfl
  · rfl

lemma not_sign_of_digit (h : c.isDigit) : c ≠ '+' ∧ c ≠ '-' := by
  constructor <;> rintro rfl <;> revert h <;> decide

/-- The parts of an exponent that are there, up to its digits. -/
lemma exponentRun_of_mark (he : IsMark e) (hs : IsSign s)
    (ht : s = [] → ∀ c ∈ t.head?, c ≠ '+' ∧ c ≠ '-') :
    exponentRun (e :: (s ++ t)) = e :: (s ++ digitRun t) := by
  have hmark : (decide (e = 'e') || decide (e = 'E')) = true := by
    simpa [IsMark] using he
  rw [exponentRun, if_pos hmark, hs.run_eq ht, List.drop_left]

lemma Exponent.prefix_run (h : Exponent x) (hx : x <+: t) : x <+: exponentRun t := by
  obtain ⟨r, rfl⟩ := hx
  cases h with
  | @mk e s ds he hs hne hds =>
    have hsign : s = [] → ∀ c ∈ (ds ++ r).head?, c ≠ '+' ∧ c ≠ '-' := by
      obtain ⟨d, ds, rfl⟩ := List.exists_cons_of_ne_nil hne
      rintro - c ⟨⟩
      exact not_sign_of_digit (hds d List.mem_cons_self)
    rw [List.cons_append, List.append_assoc, exponentRun_of_mark he hs hsign,
      digitRun_append_of_digits hds]
    exact ⟨digitRun r, by simp⟩

lemma not_sign_of_signRun (h : signRun t = []) : ∀ c ∈ t.head?, c ≠ '+' ∧ c ≠ '-' := by
  cases t with
  | nil => simp
  | cons c t =>
    rintro _ ⟨⟩
    constructor <;> rintro rfl <;> cases h

/-- There is no exponent, or there is a mark, a sign or none and digits, which may be missing. -/
lemma exponentRun_cases (t : Text) :
    exponentRun t = [] ∧ (∀ c ∈ t.head?, ¬IsMark c) ∨
    ∃ e s ds r, t = e :: (s ++ (ds ++ r)) ∧ exponentRun t = e :: (s ++ ds) ∧ IsMark e ∧ IsSign s ∧
      (s = [] → ∀ c ∈ (ds ++ r).head?, c ≠ '+' ∧ c ≠ '-') ∧ (∀ c ∈ ds, c.isDigit) ∧
      ∀ c ∈ r.head?, ¬c.isDigit := by
  cases t with
  | nil => exact .inl ⟨rfl, by simp⟩
  | cons e t =>
    by_cases he : IsMark e
    · right
      obtain ⟨t', ht⟩ := isPrefix_signRun t
      have hsign : signRun t = [] → ∀ c ∈ t'.head?, c ≠ '+' ∧ c ≠ '-' := by
        intro hnil
        rw [hnil, List.nil_append] at ht
        exact ht ▸ not_sign_of_signRun hnil
      have hdigits : digitRun t' ++ t'.dropWhile Char.isDigit = t' :=
        List.takeWhile_append_dropWhile
      refine ⟨e, signRun t, digitRun t', t'.dropWhile Char.isDigit, ?_, ?_, he, isSign_run t, ?_,
        fun _ => isDigit_of_mem_digitRun, fun c hc => ?_⟩
      · rw [hdigits, ht]
      · conv => lhs; rw [← ht]
        exact exponentRun_of_mark he (isSign_run t) hsign
      · rwa [hdigits]
      · have hnot := List.head?_dropWhile_not Char.isDigit t'
        rw [Option.mem_def.1 hc] at hnot
        simpa using hnot
    · left
      refine ⟨exponentRun_eq_nil.2 (by simpa [IsMark] using he), ?_⟩
      rintro _ ⟨⟩
      exact he

/-! ### Numbers -/

lemma Exponent.head (h : Exponent x) : ∀ c ∈ (x ++ r).head?, ¬c.isDigit ∧ c ≠ '.' := by
  cases h with
  | mk he _ _ _ =>
    rintro _ ⟨⟩
    exact he.not_digit

lemma Exponent.exists_digit (h : Exponent x) : ∃ d ∈ x, d.isDigit := by
  cases h with
  | mk _ _ hne hds =>
    obtain ⟨d, ds, rfl⟩ := List.exists_cons_of_ne_nil hne
    exact ⟨d, by simp, hds d List.mem_cons_self⟩

/-- A number at the start of a text is a part of the longest mantissa there, or this mantissa and a
part of the longest exponent. -/
lemma Numeral.prefix_cases (h : Numeral u) (hu : u <+: t) : u <+: mantissaRun t ∨
    ∃ x, u = mantissaRun t ++ x ∧ Exponent x ∧
      x <+: exponentRun (t.drop (mantissaRun t).length) := by
  cases h with
  | plain hm => exact .inl (hm.prefix_run hu)
  | @scaled m x hm hx =>
    obtain ⟨r, rfl⟩ := hu
    have hrun : mantissaRun (m ++ (x ++ r)) = m := hm.run_eq hx.head
    rw [List.append_assoc, hrun, List.drop_left]
    exact .inr ⟨x, rfl, hx, hx.prefix_run (List.prefix_append _ _)⟩

lemma Mantissa.startsNumber_append (h : Mantissa m) (r : Text) : startsNumber (m ++ r) := by
  cases h with
  | whole hne hw =>
    obtain ⟨c, w, rfl⟩ := List.exists_cons_of_ne_nil hne
    exact startsNumber_digit (hw c List.mem_cons_self) _
  | point hne hw _ =>
    obtain ⟨c, w, rfl⟩ := List.exists_cons_of_ne_nil hne
    exact startsNumber_digit (hw c List.mem_cons_self) _
  | fraction hne hf =>
    obtain ⟨d, f, rfl⟩ := List.exists_cons_of_ne_nil hne
    exact hf d List.mem_cons_self

lemma Numeral.startsNumber_append (h : Numeral u) (r : Text) : startsNumber (u ++ r) := by
  cases h with
  | plain hm => exact hm.startsNumber_append r
  | scaled hm _ =>
    rw [List.append_assoc]
    exact hm.startsNumber_append _

/-! ### Values -/

lemma exists_exponentDigits? (hne : ds ≠ []) (hds : ∀ c ∈ ds, c.isDigit) :
    ∃ n, Decimal.exponentDigits? ds = some n := by
  refine ⟨_, if_neg ?_⟩
  simpa [hne] using hds

lemma Exponent.exists_scale? (h : Exponent x) : ∃ n, Decimal.scale? x = some n := by
  cases h with
  | @mk e s ds he hs hne hds =>
    obtain ⟨n, hn⟩ := exists_exponentDigits? hne hds
    have hmark : (decide (e = 'e') || decide (e = 'E')) = true := by
      simpa [IsMark] using he
    rw [Decimal.scale?, if_pos hmark]
    rcases hs with rfl | rfl | rfl
    · obtain ⟨d, ds, rfl⟩ := List.exists_cons_of_ne_nil hne
      obtain ⟨hplus, hminus⟩ := not_sign_of_digit (hds d List.mem_cons_self)
      rw [List.nil_append, Decimal.exponent?.eq_3, hn]
      · exact ⟨_, rfl⟩
      · rintro _ heq
        exact hminus (List.cons.inj heq).1
      · rintro _ heq
        exact hplus (List.cons.inj heq).1
    · exact ⟨_, by rw [List.singleton_append, Decimal.exponent?, hn]; rfl⟩
    · exact ⟨_, by rw [List.singleton_append, Decimal.exponent?, hn]; rfl⟩

/-- Where digits end, they are told apart from the rest. -/
lemma span_digits (hw : ∀ c ∈ w, c.isDigit) (hr : ∀ c ∈ r.head?, ¬c.isDigit) :
    (w ++ r).takeWhile Char.isDigit = w ∧ (w ++ r).dropWhile Char.isDigit = r := by
  have htake : digitRun (w ++ r) = w := by
    rw [digitRun_append_of_digits hw, digitRun_eq_nil hr, List.append_nil]
  have hall : digitRun (w ++ r) ++ (w ++ r).dropWhile Char.isDigit = w ++ r :=
    List.takeWhile_append_dropWhile
  rw [htake] at hall
  exact ⟨htake, List.append_cancel_left hall⟩

lemma exists_read?_point {n : ℤ} (hne : w ≠ [] ∨ f ≠ []) (hw : ∀ c ∈ w, c.isDigit)
    (hf : ∀ c ∈ f, c.isDigit) (hx : ∀ c ∈ x.head?, ¬c.isDigit) (hn : Decimal.scale? x = some n) :
    ∃ y, Decimal.read? (w ++ '.' :: (f ++ x)) = some y := by
  obtain ⟨hwhole, hrest⟩ := span_digits hw (r := '.' :: (f ++ x)) (by simp)
  obtain ⟨hfrac, hscale⟩ := span_digits hf hx
  have hsome : ¬(w.isEmpty && f.isEmpty) = true := by
    simpa [Classical.or_iff_not_imp_left] using hne
  unfold Decimal.read?
  simp only [hwhole, hrest, hfrac, hscale]
  rw [if_neg hsome, hn]
  exact ⟨_, rfl⟩

lemma Mantissa.exists_read? {n : ℤ} (h : Mantissa m) (hx : ∀ c ∈ x.head?, ¬c.isDigit ∧ c ≠ '.')
    (hn : Decimal.scale? x = some n) : ∃ y, Decimal.read? (m ++ x) = some y := by
  have hdigit : ∀ c ∈ x.head?, ¬c.isDigit := fun c hc => (hx c hc).1
  cases h with
  | whole hne hw =>
    obtain ⟨hwhole, hrest⟩ := span_digits hw hdigit
    have hsome : ¬(m.isEmpty && ([] : Text).isEmpty) = true := by simpa using hne
    unfold Decimal.read?
    simp only [hwhole, hrest]
    split
    · exact absurd rfl (hx '.' rfl).2
    · rw [if_neg hsome, hn]
      exact ⟨_, rfl⟩
  | point hne hw hf =>
    rw [List.append_assoc, List.cons_append]
    exact exists_read?_point (.inl hne) hw hf hdigit hn
  | fraction hne hf =>
    exact exists_read?_point (w := []) (.inr hne) (List.forall_mem_nil _) hf hdigit hn

/-- A number has a value. -/
lemma Numeral.exists_read? (h : Numeral u) : ∃ y, Decimal.read? u = some y := by
  cases h with
  | plain hm =>
    rw [← List.append_nil u]
    exact hm.exists_read? (by simp) rfl
  | @scaled m x hm hx =>
    obtain ⟨n, hn⟩ := hx.exists_scale?
    have hhead : ∀ c ∈ x.head?, ¬c.isDigit ∧ c ≠ '.' := by
      have := hx.head (r := [])
      rwa [List.append_nil] at this
    exact hm.exists_read? hhead hn

end Formula
