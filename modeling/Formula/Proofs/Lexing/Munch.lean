import Formula.Lexer
import Mathlib.Data.List.TakeWhile
import Mathlib.Tactic.Lemma

/-!
A token depends on its own text and on the character after it.

Main statement: `munch_append`. Where a token has been read, the text after it may be replaced by
one that begins with the same character, or with one that goes on with no token: neither a word
character nor a point.
-/

namespace Formula

/-- No token before the text goes on into it. -/
def Breaks (t : Text) : Prop := ∀ c ∈ t.head?, ¬isWordChar c ∧ c ≠ '.'

/-- A token that ends before `s` ends before `s'` too. -/
def Replaces (s s' : Text) : Prop := s'.head? = s.head? ∨ Breaks s'

variable {c : Char} {u s s' t t' : Text} {k : Token.Kind}

lemma breaks_nil : Breaks [] := by simp [Breaks]

lemma breaks_cons : Breaks (c :: t) ↔ ¬isWordChar c ∧ c ≠ '.' := by simp [Breaks]

lemma Replaces.append_left (h : Replaces s s') (u : Text) : Replaces (u ++ s) (u ++ s') := by
  cases u with
  | nil => exact h
  | cons c u => exact .inl rfl

/-- What holds of no character before `s` holds of none before `s'`. -/
lemma Replaces.not_head {p : Char → Bool} (hp : ∀ c, p c → isWordChar c ∨ c = '.')
    (h : Replaces s s') (hs : ∀ c ∈ s.head?, ¬p c) : ∀ c ∈ s'.head?, ¬p c := by
  intro c hc hpc
  rcases h with h | h
  · exact hs c (h ▸ hc) hpc
  · rcases hp c hpc with hword | hpoint
    · exact (h c hc).1 hword
    · exact (h c hc).2 hpoint

/-! ### Characters -/

lemma isDigit_iff : c.isDigit ↔ 48 ≤ c.toNat ∧ c.toNat ≤ 57 := by
  simp [Char.isDigit, UInt32.le_iff_toNat_le, ← Char.toNat_val]

lemma isAlpha_iff :
    c.isAlpha ↔ 65 ≤ c.toNat ∧ c.toNat ≤ 90 ∨ 97 ≤ c.toNat ∧ c.toNat ≤ 122 := by
  change (decide (65 ≤ c.val ∧ c.val ≤ 90) || (decide (97 ≤ c.val) && decide (c.val ≤ 122))) = true
    ↔ _
  simp [UInt32.le_iff_toNat_le, ← Char.toNat_val]

lemma isWordChar_of_isDigit (h : c.isDigit) : isWordChar c := by
  simp [isWordChar, Char.isAlphanum, h]

lemma not_isWordStart_of_isDigit (h : c.isDigit) : ¬isWordStart c := by
  have hdigit := isDigit_iff.1 h
  unfold isWordStart
  rw [Bool.or_eq_true, isAlpha_iff, beq_iff_eq]
  rintro (halpha | rfl)
  · omega
  · revert h
    decide

lemma not_isBlank_of_isWordChar (h : isWordChar c) : ¬isBlank c := by
  have hrange : 48 ≤ c.toNat ∧ c.toNat ≤ 122 := by
    rw [isWordChar, Char.isAlphanum, Bool.or_eq_true, Bool.or_eq_true, isAlpha_iff, isDigit_iff,
      beq_iff_eq] at h
    rcases h with (halpha | hdigit) | rfl
    · omega
    · omega
    · decide
  simp only [isBlank, blankRanges, List.any_cons, List.any_nil, Bool.or_false, Bool.or_eq_true,
    Bool.and_eq_true, decide_eq_true_eq]
  omega

lemma eq_of_symbolKind? (h : symbolKind? c = some k) :
    c ∈ ['(', ')', ',', '+', '-', '*', '/', '%', '^'] := by
  unfold symbolKind? at h
  split at h
  · simp [*]
  · split at h
    · simp [*]
    · split at h
      · simp [*]
      · obtain ⟨o, ho, -⟩ := Option.map_eq_some_iff.1 h
        rw [← Operator.ofChar?_eq_some.1 ho]
        cases o <;> decide

/-- A token that begins with another character than a digit, a point, a letter or an underscore
is that character. -/
lemma not_isBlank_of_symbolKind? (h : symbolKind? c = some k) :
    ¬isWordChar c ∧ c ≠ '.' ∧ ¬isBlank c := by
  have hc := eq_of_symbolKind? h
  simp only [List.mem_cons, List.not_mem_nil, or_false] at hc
  rcases hc with rfl | rfl | rfl | rfl | rfl | rfl | rfl | rfl | rfl <;> decide

/-! ### Runs -/

lemma takeWhile_append {p : Char → Bool} (hp : ∀ c, p c → isWordChar c ∨ c = '.')
    (h : (u ++ s).takeWhile p = u) (hs : Replaces s s') : (u ++ s').takeWhile p = u := by
  have hu : ∀ c ∈ u, p c := by
    intro c hc
    rw [← h] at hc
    exact List.mem_takeWhile_imp hc
  rw [List.takeWhile_append_of_pos hu, List.append_right_eq_self] at h ⊢
  have hnot : ∀ c ∈ s.head?, ¬p c := by
    cases s with
    | nil => simp
    | cons c s => simpa [List.takeWhile_cons] using h
  have hnot' := hs.not_head hp hnot
  cases s' with
  | nil => rfl
  | cons c s' => simpa [List.takeWhile_cons] using hnot'

lemma digitRun_append_of_digits {w : Text} (hw : ∀ c ∈ w, c.isDigit) (t : Text) :
    digitRun (w ++ t) = w ++ digitRun t := List.takeWhile_append_of_pos hw

lemma digitRun_eq_nil (h : ∀ c ∈ t.head?, ¬c.isDigit) : digitRun t = [] := by
  cases t with
  | nil => rfl
  | cons c t => exact List.takeWhile_cons_of_neg (h c rfl)

lemma digitRun_append (h : digitRun (u ++ s) = u) (hs : Replaces s s') : digitRun (u ++ s') = u :=
  takeWhile_append (fun _ hc => .inl (isWordChar_of_isDigit hc)) h hs

lemma fractionRun_append (h : fractionRun (u ++ s) = u) (hs : Replaces s s') :
    fractionRun (u ++ s') = u := by
  cases u with
  | nil =>
    have hnot : ∀ c ∈ s.head?, ¬(c == '.') := by
      rintro c hc hpoint
      obtain ⟨t, rfl⟩ : ∃ t, s = c :: t := List.head?_eq_some_iff.1 hc
      rw [beq_iff_eq.1 hpoint] at h
      cases h
    have hnot' := hs.not_head (fun c hc => .inr (beq_iff_eq.1 hc)) hnot
    rw [List.nil_append, fractionRun.eq_2]
    rintro r rfl
    exact hnot' '.' rfl rfl
  | cons c u =>
    by_cases hc : c = '.'
    · subst hc
      rw [List.cons_append, fractionRun] at h ⊢
      rw [digitRun_append (List.cons.inj h).2 hs]
    · rw [List.cons_append, fractionRun.eq_2] at h
      · cases h
      · rintro r heq
        exact hc (List.cons.inj heq).1

lemma signRun_congr (h : t'.head? = t.head?) : signRun t' = signRun t := by
  cases t <;> cases t' <;> simp_all [signRun]
  split <;> simp_all

lemma exponentRun_eq_nil : exponentRun (c :: t) = [] ↔ ¬(c = 'e' || c = 'E') := by
  unfold exponentRun
  split <;> simp_all

/-- An exponent that has digits, or no exponent at all. -/
lemma exponentRun_append (h : exponentRun (u ++ s) = u) (hu : u = [] ∨ u.any Char.isDigit)
    (hs : Replaces s s') : exponentRun (u ++ s') = u := by
  cases u with
  | nil =>
    have hnot : ∀ c ∈ s.head?, ¬(c = 'e' || c = 'E') := by
      rintro c hc
      obtain ⟨t, rfl⟩ : ∃ t, s = c :: t := List.head?_eq_some_iff.1 hc
      exact exponentRun_eq_nil.1 h
    have hword (c : Char) (hc : c = 'e' || c = 'E') : isWordChar c ∨ c = '.' := by
      simp only [Bool.or_eq_true, decide_eq_true_eq] at hc
      rcases hc with rfl | rfl <;> decide
    have hnot' := hs.not_head hword hnot
    cases s' with
    | nil => rfl
    | cons c s' => exact exponentRun_eq_nil.2 (hnot' c rfl)
  | cons c u =>
    unfold exponentRun at h ⊢
    simp only [List.cons_append] at h ⊢
    split at h
    · rename_i hc
      rw [if_pos hc]
      obtain ⟨sign, hsign⟩ : ∃ sign, signRun (u ++ s) = sign := ⟨_, rfl⟩
      obtain ⟨ds, hds⟩ : ∃ ds, digitRun ((u ++ s).drop sign.length) = ds := ⟨_, rfl⟩
      rw [hsign, hds] at h
      obtain ⟨-, rfl⟩ := List.cons.inj h
      have hne : sign ++ ds ≠ [] := by
        intro hnil
        simp only [Bool.or_eq_true, decide_eq_true_eq] at hc
        rw [hnil] at hu
        rcases hc with rfl | rfl <;> simp at hu
      have hsign' : signRun (sign ++ ds ++ s') = sign := by
        rw [← hsign]
        refine signRun_congr ?_
        rw [hsign]
        obtain ⟨d, ds', hcons⟩ := List.exists_cons_of_ne_nil hne
        rw [hcons]
        rfl
      have hds' : digitRun (ds ++ s') = ds := by
        rw [List.append_assoc, List.drop_left] at hds
        exact digitRun_append hds hs
      rw [hsign', List.append_assoc, List.drop_left, hds']
    · cases h

/-! ### Tokens -/

/-- A number that does not break off in its exponent. -/
lemma numberRun_append (h : numberRun (u ++ s) = (u, false)) (hs : Replaces s s') :
    numberRun (u ++ s') = (u, false) := by
  unfold numberRun at h ⊢
  obtain ⟨ds, hds⟩ : ∃ ds, digitRun (u ++ s) = ds := ⟨_, rfl⟩
  obtain ⟨fs, hfs⟩ : ∃ fs, fractionRun ((u ++ s).drop ds.length) = fs := ⟨_, rfl⟩
  obtain ⟨es, hes⟩ : ∃ es, exponentRun ((u ++ s).drop (ds ++ fs).length) = es := ⟨_, rfl⟩
  simp only [hds, hfs, hes, Prod.mk.injEq] at h
  obtain ⟨rfl, hbroken⟩ := h
  have hdigits : es = [] ∨ es.any Char.isDigit := by
    cases hany : es.any Char.isDigit with
    | false => exact .inl (by simpa [hany] using hbroken)
    | true => exact .inr rfl
  have hrest (r : Text) : (ds ++ fs ++ es ++ r).drop ds.length = fs ++ (es ++ r) := by simp
  have hrest' (r : Text) : (ds ++ fs ++ es ++ r).drop (ds ++ fs).length = es ++ r := by
    rw [List.append_assoc, List.drop_left]
  have hds' : digitRun (ds ++ fs ++ es ++ s') = ds := by
    rw [List.append_assoc, List.append_assoc] at hds ⊢
    exact digitRun_append hds ((hs.append_left es).append_left fs)
  have hfs' : fractionRun (fs ++ (es ++ s')) = fs := by
    rw [hrest] at hfs
    exact fractionRun_append hfs (hs.append_left es)
  have hes' : exponentRun (es ++ s') = es := by
    rw [hrest'] at hes
    exact exponentRun_append hes hdigits hs
  simp only [hds', hrest, hfs', hrest', hes', hbroken]

lemma startsNumber_cons (hc : c ≠ '.') : startsNumber (c :: t) = c.isDigit := by
  unfold startsNumber
  split
  · rename_i heq
    exact absurd (List.cons.inj heq).1 hc
  · rename_i heq
    cases heq
    rfl
  · contradiction

lemma startsNumber_digit (hc : c.isDigit) (t : Text) : startsNumber (c :: t) := by
  rw [startsNumber_cons]
  · exact hc
  · rintro rfl
    revert hc
    decide

/-- A number has a digit first, or a point and then a digit. -/
lemma startsNumber_append (h : startsNumber (u ++ s)) (hu : (numberRun (u ++ s)).1 = u) :
    startsNumber (u ++ s') := by
  match u with
  | [] => exact absurd hu (numberRun_ne_nil h)
  | [c] =>
    have hc : c ≠ '.' := by
      rintro rfl
      cases s with
      | nil => cases h
      | cons d s =>
        have hd : d.isDigit := h
        simp [numberRun, digitRun, fractionRun, hd] at hu
    rw [List.cons_append, startsNumber_cons hc] at h ⊢
    exact h
  | c :: d :: u =>
    by_cases hc : c = '.'
    · subst hc
      exact h
    · rw [List.cons_append, startsNumber_cons hc] at h ⊢
      exact h

lemma munchNumber_eq_ok (h : munchNumber t = (.ok k, u)) :
    numberRun t = (u, false) ∧ ∃ x, Decimal.read? u = some x ∧ k = .number (x.toFloat false) := by
  unfold munchNumber at h
  split at h
  · cases h
  · rename_i hrun
    split at h
    · rename_i x hread
      cases h
      exact ⟨hrun, x, hread, rfl⟩
    · cases h

/-- A number token is a literal, and literals have no sign. -/
lemma exists_decimal_of_munch {x : Float} (h : munch t = (.ok (.number x), u)) :
    ∃ d : Decimal, x = d.toFloat false := by
  unfold munch at h
  split at h
  · cases h
  · split at h
    · obtain ⟨-, d, -, hk⟩ := munchNumber_eq_ok h
      exact ⟨d, Token.Kind.number.inj hk⟩
    · split at h
      · cases h
      · split at h
        · rename_i kind hkind
          cases h
          have hc := eq_of_symbolKind? hkind
          simp only [List.mem_cons, List.not_mem_nil, or_false] at hc
          rcases hc with rfl | rfl | rfl | rfl | rfl | rfl | rfl | rfl | rfl <;> cases hkind
        · cases h

/-- **What follows a token** may be replaced by a text that ends it just as well. -/
theorem munch_append (h : munch (u ++ s) = (.ok k, u)) (hk : k ≠ .stop) (hs : Replaces s s') :
    munch (u ++ s') = (.ok k, u) := by
  have hne : u ≠ [] := by
    have := munch_ne_nil (congrArg Prod.fst h) hk
    rwa [h] at this
  obtain ⟨c, cs, rfl⟩ := List.exists_cons_of_ne_nil hne
  rw [List.cons_append, munch, ← List.cons_append] at h ⊢
  by_cases hstart : startsNumber (c :: cs ++ s)
  · rw [if_pos hstart] at h
    obtain ⟨hrun, x, hread, rfl⟩ := munchNumber_eq_ok h
    rw [if_pos (startsNumber_append hstart (congrArg Prod.fst hrun)), munchNumber,
      numberRun_append hrun hs]
    simp only
    rw [hread]
  · rw [if_neg hstart] at h
    by_cases hword : isWordStart c
    · have hc : c ≠ '.' := by
        rintro rfl
        revert hword
        decide
      have hstart' : ¬startsNumber (c :: cs ++ s') := by
        rw [List.cons_append, startsNumber_cons hc]
        exact fun hdigit => not_isWordStart_of_isDigit hdigit hword
      rw [if_pos hword] at h
      obtain ⟨hkind, hrun⟩ := Prod.mk.inj h
      rw [if_neg hstart', if_pos hword, takeWhile_append (fun _ => .inl) hrun hs, hkind]
    · rw [if_neg hword] at h
      split at h
      · rename_i kind hkind
        cases h
        obtain ⟨hchar, hc, -⟩ := not_isBlank_of_symbolKind? hkind
        have hstart' : ¬startsNumber ([c] ++ s') := by
          rw [List.cons_append, startsNumber_cons hc]
          exact fun hdigit => hchar (isWordChar_of_isDigit hdigit)
        rw [if_neg hstart', if_neg hword]
      · cases h

end Formula
