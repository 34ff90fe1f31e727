import Formula.Proofs.Lexing.Cuts
import Formula.Proofs.Lexing.Lexemes

/-!
The lexer takes the longest match.

What it reads first is the longest token that the text begins with, and it refuses a text exactly
where no token begins or the exponent of a number has no digits. Main statement:
`tokenize_longest_match`.
-/

namespace Formula

/-- The token that a text begins with, no longer one being there. A number without an exponent is
none if the mark of an exponent follows. -/
structure Longest (t u : Text) (k : Token.Kind) : Prop where
  lexeme : Lexeme u k
  isPrefix : u <+: t
  length_le : ∀ u' k', Lexeme u' k' → u' <+: t → u'.length ≤ u.length
  unmarked : Mantissa u → ∀ c ∈ (t.drop u.length).head?, ¬IsMark c

/-- What is wrong with a text that begins with no token: its first character, or a number that
breaks off before the digits of its exponent. -/
inductive Refused : Text → LexFault → Prop
  | unexpected {c : Char} {t : Text} : (∀ u k, Lexeme u k → ¬u <+: c :: t) →
      Refused (c :: t) (.unexpected c)
  | broken {m s r : Text} {e : Char} : Mantissa m → IsMark e → IsSign s →
      (s = [] → ∀ c ∈ r.head?, c ≠ '+' ∧ c ≠ '-') → (∀ c ∈ r.head?, ¬c.isDigit) →
      Refused (m ++ e :: (s ++ r)) (.missingExponent (m ++ e :: s))

variable {c e : Char} {m r s t u : Text} {k : Token.Kind} {f : LexFault} {q : ℕ} {ts : List Token}

/-! ### What a text may begin with -/

lemma symbolKind?_of_char? (h : k.char? = some c) : symbolKind? c = some k := by
  cases k with
  | operator o =>
    cases h
    cases o <;> rfl
  | leftParen | rightParen | comma =>
    cases h
    rfl
  | _ => cases h

lemma lexeme_of_symbolKind? (h : symbolKind? c = some k) : Lexeme [c] k :=
  .symbol (Token.Kind.char?_of_symbolKind? h)

lemma Mantissa.lexeme (h : Mantissa m) : ∃ k, Lexeme m k := by
  obtain ⟨x, hx⟩ := (Numeral.plain h).exists_read?
  exact ⟨_, .number (.plain h) hx⟩

/-- A token at the start of a text is of the sort that the first characters tell. -/
lemma Lexeme.head_cases (h : Lexeme u k) (hu : u <+: c :: t) :
    Numeral u ∧ startsNumber (c :: t) ∨
    isWordStart c ∧ u <+: (c :: t).takeWhile isWordChar ∨
    u = [c] ∧ symbolKind? c = some k := by
  obtain ⟨r, hr⟩ := hu
  cases h with
  | number hnum _ =>
    left
    rw [← hr]
    exact ⟨hnum, hnum.startsNumber_append r⟩
  | @word d cs hd hcs =>
    obtain ⟨rfl, -⟩ := List.cons.inj hr
    refine .inr (.inl ⟨hd, ?_⟩)
    have hall : ∀ c ∈ d :: cs, isWordChar c :=
      List.forall_mem_cons.2 ⟨isWordChar_of_isWordStart hd, hcs⟩
    rw [← hr, List.takeWhile_append_of_pos hall]
    exact List.prefix_append _ _
  | symbol hd =>
    obtain ⟨rfl, rfl⟩ := List.cons.inj hr
    exact .inr (.inr ⟨rfl, symbolKind?_of_char? hd⟩)

lemma startsNumber_excludes (h : startsNumber (c :: t)) :
    ¬isWordStart c ∧ symbolKind? c = none := by
  by_cases hc : c = '.'
  · subst hc
    exact ⟨by decide, rfl⟩
  · rw [startsNumber_cons hc] at h
    refine ⟨not_isWordStart_of_isDigit h, ?_⟩
    rw [Option.eq_none_iff_forall_ne_some]
    exact fun k hk => (not_isBlank_of_symbolKind? hk).1 (isWordChar_of_isDigit h)

lemma isWordStart_excludes (h : isWordStart c) : symbolKind? c = none := by
  rw [Option.eq_none_iff_forall_ne_some]
  exact fun k hk => (not_isBlank_of_symbolKind? hk).1 (isWordChar_of_isWordStart h)

lemma munch_of_startsNumber (h : startsNumber t) : munch t = munchNumber t := by
  cases t with
  | nil => cases h
  | cons c t => rw [munch, if_pos h]

/-! ### Numbers -/

lemma any_isDigit_of_broken (he : IsMark e) (hs : IsSign s) :
    (e :: s).any Char.isDigit = false := by
  rw [List.any_eq_false]
  exact List.forall_mem_cons.2 ⟨he.not_digit.1, fun c hc => hs.not_digit hc⟩

/-- The runs at the start of a number that breaks off. -/
lemma runs_of_broken (hm : Mantissa m) (he : IsMark e) (hs : IsSign s)
    (hsign : s = [] → ∀ c ∈ r.head?, c ≠ '+' ∧ c ≠ '-') (hr : ∀ c ∈ r.head?, ¬c.isDigit) :
    mantissaRun (m ++ e :: (s ++ r)) = m ∧ exponentRun (e :: (s ++ r)) = e :: s := by
  constructor
  · refine hm.run_eq ?_
    rintro _ ⟨⟩
    exact he.not_digit
  · rw [exponentRun_of_mark he hs hsign, digitRun_eq_nil hr, List.append_nil]

lemma munch_broken (hm : Mantissa m) (he : IsMark e) (hs : IsSign s)
    (hsign : s = [] → ∀ c ∈ r.head?, c ≠ '+' ∧ c ≠ '-') (hr : ∀ c ∈ r.head?, ¬c.isDigit) :
    munch (m ++ e :: (s ++ r)) = (.error (.missingExponent (m ++ e :: s)), m ++ e :: s) := by
  obtain ⟨hmant, hexpo⟩ := runs_of_broken hm he hs hsign hr
  have hrun : numberRun (m ++ e :: (s ++ r)) = (m ++ e :: s, true) := by
    rw [numberRun_eq, hmant, List.drop_left, hexpo, any_isDigit_of_broken he hs]
    rfl
  rw [munch_of_startsNumber (hm.startsNumber_append _), munchNumber, hrun]

lemma munchNumber_eq (hrun : numberRun t = (u, false)) (hu : Numeral u) :
    ∃ x, munchNumber t = (.ok (.number x), u) ∧ Lexeme u (.number x) := by
  obtain ⟨x, hx⟩ := hu.exists_read?
  refine ⟨_, ?_, .number hu hx⟩
  rw [munchNumber, hrun]
  simp only
  rw [hx]

lemma Numeral.of_startsNumber (ht : startsNumber t) (h : Lexeme u k) (hu : u <+: t) :
    Numeral u := by
  cases t with
  | nil => cases ht
  | cons c t =>
    obtain ⟨hword, hsymbol⟩ := startsNumber_excludes ht
    rcases h.head_cases hu with ⟨hnum, -⟩ | ⟨hstart, -⟩ | ⟨-, hk⟩
    · exact hnum
    · exact absurd hstart hword
    · cases hsymbol.symm.trans hk

/-- No number at the start of a text is longer than the longest mantissa and exponent there. -/
lemma Numeral.length_le_run (h : Numeral u) (hu : u <+: t) :
    u.length ≤ (mantissaRun t ++ exponentRun (t.drop (mantissaRun t).length)).length := by
  rw [List.length_append]
  rcases h.prefix_cases hu with hle | ⟨x, rfl, -, hle⟩
  · have := hle.length_le
    omega
  · have := hle.length_le
    rw [List.length_append]
    omega

/-- A text that begins like a number begins with a number, or with one that breaks off. -/
lemma munch_number_cases (h : startsNumber t) :
    (∃ u k, munch t = (.ok k, u) ∧ Longest t u k) ∨
      ∃ f u, munch t = (.error f, u) ∧ Refused t f := by
  have hmant : Mantissa (mantissaRun t) := mantissa_run h
  have hrun := numberRun_eq t
  have hprefix := isPrefix_numberRun t
  have hlength (u : Text) (k : Token.Kind) (hu : Lexeme u k) (hpre : u <+: t) :
      u.length ≤ (numberRun t).1.length :=
    (Numeral.of_startsNumber h hu hpre).length_le_run hpre
  have htext : t = mantissaRun t ++ t.drop (mantissaRun t).length :=
    (List.prefix_iff_eq_append.1 (isPrefix_mantissaRun t)).symm
  rcases exponentRun_cases (t.drop (mantissaRun t).length) with
    ⟨hnil, hunmarked⟩ | ⟨e, s, ds, r, hrest, hexpo, he, hs, hsign, hds, hr⟩
  · -- no exponent
    rw [hnil, List.append_nil] at hrun
    obtain ⟨x, hmunch, hlexeme⟩ := munchNumber_eq hrun (.plain hmant)
    rw [hrun] at hprefix hlength
    rw [munch_of_startsNumber h]
    exact .inl ⟨_, _, hmunch, hlexeme, hprefix, hlength, fun _ => hunmarked⟩
  · cases ds with
    | nil =>
      -- the digits of the exponent are missing
      rw [hrest] at htext
      rw [htext]
      exact .inr ⟨_, _, munch_broken hmant he hs hsign hr, .broken hmant he hs hsign hr⟩
    | cons d ds =>
      have hany : (e :: (s ++ d :: ds)).any Char.isDigit = true :=
        List.any_eq_true.2 ⟨d, by simp, hds d List.mem_cons_self⟩
      rw [hexpo, hany] at hrun
      have hnum : Numeral (mantissaRun t ++ e :: (s ++ d :: ds)) :=
        .scaled hmant (.mk he hs (List.cons_ne_nil _ _) hds)
      obtain ⟨x, hmunch, hlexeme⟩ := munchNumber_eq (hrun.trans (by simp)) hnum
      rw [hrun] at hprefix hlength
      rw [munch_of_startsNumber h]
      refine .inl ⟨_, _, hmunch, hlexeme, hprefix, hlength, fun hm => ?_⟩
      exact absurd he (hm.not_mark (by simp))

/-! ### Tokens -/

/-- A text begins with a token or is refused. -/
lemma munch_cases (ht : t ≠ []) :
    (∃ u k, munch t = (.ok k, u) ∧ Longest t u k) ∨
      ∃ f u, munch t = (.error f, u) ∧ Refused t f := by
  obtain ⟨c, t, rfl⟩ := List.exists_cons_of_ne_nil ht
  by_cases hstart : startsNumber (c :: t)
  · exact munch_number_cases hstart
  rw [munch, if_neg hstart]
  by_cases hword : isWordStart c
  · rw [if_pos hword]
    have hrun : (c :: t).takeWhile isWordChar = c :: t.takeWhile isWordChar :=
      List.takeWhile_cons_of_pos (isWordChar_of_isWordStart hword)
    refine .inl ⟨_, _, rfl, ?_, List.takeWhile_prefix _, fun u k hu hpre => ?_, fun hm => ?_⟩
    · rw [hrun]
      exact .word hword fun d hd => List.mem_takeWhile_imp hd
    · rcases hu.head_cases hpre with ⟨-, hnum⟩ | ⟨-, hle⟩ | ⟨-, hk⟩
      · exact absurd hnum hstart
      · exact hle.length_le
      · cases (isWordStart_excludes hword).symm.trans hk
    · rw [hrun] at hm
      have hnum := hm.startsNumber_append (t.dropWhile isWordChar)
      rw [List.cons_append, List.takeWhile_append_dropWhile] at hnum
      exact absurd hnum hstart
  rw [if_neg hword]
  rcases hk : symbolKind? c with _ | k
  · refine .inr ⟨_, _, rfl, .unexpected fun u k hu hpre => ?_⟩
    rcases hu.head_cases hpre with ⟨-, hnum⟩ | ⟨hw, -⟩ | ⟨-, hs⟩
    · exact hstart hnum
    · exact hword hw
    · cases hk.symm.trans hs
  · refine .inl ⟨_, _, rfl, lexeme_of_symbolKind? hk, ⟨t, rfl⟩,
      fun u k' hu hpre => ?_, fun hm => ?_⟩
    · rcases hu.head_cases hpre with ⟨-, hnum⟩ | ⟨hw, -⟩ | ⟨rfl, -⟩
      · exact absurd hnum hstart
      · exact absurd hw hword
      · exact Nat.le_refl _
    · exact absurd (hm.startsNumber_append t) hstart

/-- A text is a token of one kind at most. -/
lemma Lexeme.kind_unique {k' : Token.Kind} (h : Lexeme u k) (h' : Lexeme u k') : k = k' := by
  have hstarts (hn : Numeral u) : startsNumber u := by
    have := hn.startsNumber_append []
    rwa [List.append_nil] at this
  cases h with
  | number hn hx =>
    cases h' with
    | number _ hx' =>
      cases hx.symm.trans hx'
      rfl
    | word hd _ => exact absurd hd (startsNumber_excludes (hstarts hn)).1
    | symbol hc =>
      cases (startsNumber_excludes (hstarts hn)).2.symm.trans (symbolKind?_of_char? hc)
  | word hd _ =>
    cases h' with
    | number hn _ => exact absurd hd (startsNumber_excludes (hstarts hn)).1
    | word _ _ => rfl
    | symbol hc => cases (isWordStart_excludes hd).symm.trans (symbolKind?_of_char? hc)
  | symbol hc =>
    cases h' with
    | number hn _ =>
      cases (startsNumber_excludes (hstarts hn)).2.symm.trans (symbolKind?_of_char? hc)
    | word hd _ => cases (isWordStart_excludes hd).symm.trans (symbolKind?_of_char? hc)
    | symbol hc' =>
      cases (symbolKind?_of_char? hc).symm.trans (symbolKind?_of_char? hc')
      rfl

lemma Longest.unique {u' : Text} {k' : Token.Kind} (h : Longest t u k) (h' : Longest t u' k') :
    u = u' ∧ k = k' := by
  have hlen : u.length = u'.length :=
    Nat.le_antisymm (h'.length_le u k h.lexeme h.isPrefix) (h.length_le u' k' h'.lexeme h'.isPrefix)
  obtain rfl : u = u' :=
    (List.prefix_of_prefix_length_le h.isPrefix h'.isPrefix hlen.le).eq_of_length hlen
  exact ⟨rfl, h.lexeme.kind_unique h'.lexeme⟩

lemma Lexeme.ne_nil (h : Lexeme u k) : u ≠ [] := by
  cases h with
  | number hn _ =>
    rintro rfl
    cases hn.startsNumber_append []
  | word _ _ | symbol _ => exact List.cons_ne_nil _ _

lemma Longest.ne_stop (h : Longest t u k) : k ≠ .stop := by
  rintro rfl
  cases h.lexeme with
  | symbol hc => cases hc

/-- What is refused begins with no token. -/
lemma Refused.not_longest (h : Refused t f) : ¬Longest t u k := by
  intro hu
  cases h with
  | unexpected hnone => exact hnone u k hu.lexeme hu.isPrefix
  | @broken m s r e hm he hs hsign hr =>
    have hnum : Numeral u :=
      .of_startsNumber (hm.startsNumber_append _) hu.lexeme hu.isPrefix
    obtain ⟨hmant, hexpo⟩ := runs_of_broken hm he hs hsign hr
    have hcases := hnum.prefix_cases hu.isPrefix
    rw [hmant, List.drop_left, hexpo] at hcases
    rcases hcases with hle | ⟨x, -, hx, hle⟩
    · obtain ⟨k', hk'⟩ := hm.lexeme
      have hlen : u.length = m.length :=
        Nat.le_antisymm hle.length_le (hu.length_le m k' hk' (List.prefix_append _ _))
      obtain rfl : u = m := hle.eq_of_length hlen
      have hmark := hu.unmarked hm e
      rw [List.drop_left] at hmark
      exact hmark rfl he
    · obtain ⟨d, hd, hdigit⟩ := hx.exists_digit
      exact List.any_eq_false.1 (any_isDigit_of_broken he hs) d (hle.subset hd) hdigit

/-- **The lexer reads the longest match**, if the text begins with a token. -/
theorem munches_iff_longest : Munches t u k ↔ Longest t u k := by
  constructor
  · rintro ⟨hmunch, hstop⟩
    have ht : t ≠ [] := by
      rintro rfl
      cases hmunch
      exact hstop rfl
    rcases munch_cases ht with ⟨u', k', hm, hlong⟩ | ⟨f, u', hm, -⟩
    · cases hmunch.symm.trans hm
      exact hlong
    · cases hmunch.symm.trans hm
  · intro hlong
    have ht : t ≠ [] := by
      rintro rfl
      exact hlong.lexeme.ne_nil (List.prefix_nil.1 hlong.isPrefix)
    rcases munch_cases ht with ⟨u', k', hm, hlong'⟩ | ⟨f, u', -, href⟩
    · obtain ⟨rfl, rfl⟩ := hlong.unique hlong'
      exact ⟨hm, hlong.ne_stop⟩
    · exact absurd hlong href.not_longest

/-- The lexer fails at what is refused. -/
theorem munch_error_iff : (∃ u, munch t = (.error f, u)) ↔ Refused t f := by
  constructor
  · rintro ⟨u, hmunch⟩
    have ht : t ≠ [] := by
      rintro rfl
      cases hmunch
    rcases munch_cases ht with ⟨u', k', hm, -⟩ | ⟨f', u', hm, href⟩
    · cases hmunch.symm.trans hm
    · cases hmunch.symm.trans hm
      exact href
  · intro h
    cases h with
    | broken hm he hs hsign hr => exact ⟨_, munch_broken hm he hs hsign hr⟩
    | @unexpected c t hnone =>
      have hstart : ¬startsNumber (c :: t) := fun h => by
        obtain ⟨k, hk⟩ := (mantissa_run h).lexeme
        exact hnone _ k hk (isPrefix_mantissaRun _)
      have hword : ¬isWordStart c := fun h =>
        hnone [c] .word (.word h (List.forall_mem_nil _)) ⟨t, rfl⟩
      have hsymbol : symbolKind? c = none := by
        rw [Option.eq_none_iff_forall_ne_some]
        exact fun k hk => hnone [c] k (lexeme_of_symbolKind? hk) ⟨t, rfl⟩
      exact ⟨_, by rw [munch, if_neg hstart, if_neg hword, hsymbol]⟩

/-! ### Texts -/

/-- The longest match cuts a text as the lexer does. -/
lemma cuts_iff_longest {p : ℕ} : Cuts Munches p t ts q r ↔ Cuts Longest p t ts q r :=
  ⟨.mono fun _ _ _ => munches_iff_longest.1, .mono fun _ _ _ => munches_iff_longest.2⟩

/-- Every text is cut into longest matches, up to its end or to where it is refused. -/
lemma exists_cuts_longest (t : Text) :
    ∃ ts q r, Cuts Longest 0 t ts q r ∧ (r = [] ∨ ∃ f, Refused r f) := by
  obtain ⟨ts, q, r, hcuts, hr⟩ := (Lexer.ofText t).exists_cuts
  refine ⟨ts, q, r, cuts_iff_longest.1 hcuts, ?_⟩
  exact (munch_of_not_munches hr).imp_right fun ⟨f, u, hf⟩ => ⟨f, munch_error_iff.1 ⟨u, hf⟩⟩

lemma tokenize_of_cuts (h : Cuts Longest 0 t ts q []) :
    tokenize t = .ok (ts ++ [⟨.stop, [], q⟩]) := by
  have hitems := Lexer.items_of_cuts (l := .ofText t) (cuts_iff_longest.2 h)
    (fun u k hu => hu.ne_nil (congrArg Prod.snd hu.1).symm) rfl rfl
  rw [tokenize, hitems, Lexer.last_nil, ← List.map_singleton, ← List.map_append, mapM_id_map]

lemma tokenize_of_refused (h : Cuts Longest 0 t ts q r) (hr : Refused r f) :
    tokenize t = .error ⟨q, .lexical f⟩ := by
  obtain ⟨u, hu⟩ := munch_error_iff.2 hr
  have hitems := Lexer.items_of_cuts (l := .ofText t) (cuts_iff_longest.2 h)
    (fun u k hu => hr.not_longest (munches_iff_longest.1 hu)) rfl rfl
  rw [tokenize, hitems, Lexer.last_of_error hu, mapM_id_error]

/-- **The lexer accepts its grammar by the longest match.** A text is made of tokens if it is cut
into longest matches up to its end, and these are its tokens, with the end behind them. Otherwise it
is cut into longest matches up to where it is refused, and there lies the error. Numbers have
values, so no number is refused as malformed. -/
theorem tokenize_longest_match (t : Text) :
    (∀ toks, tokenize t = .ok toks ↔
      ∃ ts, toks = ts ++ [⟨.stop, [], byteLength t⟩] ∧ Cuts Longest 0 t ts (byteLength t) []) ∧
    (∀ err, tokenize t = .error err ↔
      ∃ ts r f, Cuts Longest 0 t ts err.pos r ∧ Refused r f ∧ err.fault = .lexical f) ∧
    (∀ u, Numeral u → ∃ x, Decimal.read? u = some x) ∧
    ∀ s u, (munch s).1 ≠ .error (.malformedNumber u) := by
  obtain ⟨ts, q, r, hcuts, hr⟩ := exists_cuts_longest t
  refine ⟨fun toks => ⟨fun h => ?_, ?_⟩, fun err => ⟨fun h => ?_, ?_⟩,
    fun u => Numeral.exists_read?, fun s u h => ?_⟩
  · rcases hr with rfl | ⟨f, hf⟩
    · cases h.symm.trans (tokenize_of_cuts hcuts)
      obtain rfl : q = byteLength t := by simpa using hcuts.pos_add
      exact ⟨ts, rfl, hcuts⟩
    · cases h.symm.trans (tokenize_of_refused hcuts hf)
  · rintro ⟨ts, rfl, hcuts⟩
    exact tokenize_of_cuts hcuts
  · rcases hr with rfl | ⟨f, hf⟩
    · cases h.symm.trans (tokenize_of_cuts hcuts)
    · cases h.symm.trans (tokenize_of_refused hcuts hf)
      exact ⟨ts, r, f, hcuts, hf, rfl⟩
  · rintro ⟨ts, r, f, hcuts, hf, hfault⟩
    rw [tokenize_of_refused hcuts hf, ← hfault]
  · cases munch_error_iff.1 ⟨(munch s).2, Prod.ext h rfl⟩

end Formula
