import Formula.Proofs.Lexing.Spelling

/-!
Texts that are cut into tokens from left to right.

`Cuts` takes the pieces one after the other, as long as a given rule finds one, and says what is
left. By the rule of the lexer these are its tokens, and the last item is what it makes of the rest
(`Lexer.items_of_cuts`, `Lexer.exists_cuts`).
-/

namespace Formula

/-- The text from position `p` on is blanks and a piece, again and again, and what is left begins at
position `q`, with no blank. The rule says which piece of which kind comes first in a text. -/
inductive Cuts (rule : Text → Text → Token.Kind → Prop) : ℕ → Text → List Token → ℕ → Text → Prop
  | rest {p : ℕ} {b r : Text} : (∀ c ∈ b, isBlank c) → (∀ c ∈ r.head?, ¬isBlank c) →
      Cuts rule p (b ++ r) [] (p + byteLength b) r
  | token {p q : ℕ} {b u t r : Text} {k : Token.Kind} {ts : List Token} :
      (∀ c ∈ b, isBlank c) → rule (u ++ t) u k →
      Cuts rule (p + byteLength b + byteLength u) t ts q r →
      Cuts rule p (b ++ (u ++ t)) (⟨k, u, p + byteLength b⟩ :: ts) q r

/-- The lexer reads the token `u` first. -/
def Munches (t u : Text) (k : Token.Kind) : Prop := munch t = (.ok k, u) ∧ k ≠ .stop

variable {rule rule' : Text → Text → Token.Kind → Prop} {p q : ℕ} {r t u : Text} {k : Token.Kind}
  {ts : List Token}

namespace Cuts

lemma mono (hrule : ∀ t u k, rule t u k → rule' t u k) (h : Cuts rule p t ts q r) :
    Cuts rule' p t ts q r := by
  induction h with
  | rest hb hr => exact .rest hb hr
  | token hb hu _ ih => exact .token hb (hrule _ _ _ hu) ih

/-- What has been cut comes before the rest. -/
lemma pos_add (h : Cuts rule p t ts q r) : q + byteLength r = p + byteLength t := by
  induction h with
  | rest _ _ => rw [byteLength_append, Nat.add_assoc]
  | token _ _ _ ih =>
    rw [ih, byteLength_append, byteLength_append, Nat.add_assoc, Nat.add_assoc]

/-- What has been cut is the part of the text before the rest, and is cut in the same way without
the rest if the rule does not look at it. -/
lemma exists_before (hrule : ∀ s u t k, rule (u ++ s) u k → rule (u ++ t) u k)
    (h : Cuts rule p t ts q r) :
    ∃ s, t = s ++ r ∧ q = p + byteLength s ∧ Cuts rule p s ts q [] := by
  induction h with
  | @rest p b r hb hr =>
    refine ⟨b, rfl, rfl, ?_⟩
    have hcuts : Cuts rule p (b ++ []) [] (p + byteLength b) [] := .rest hb (by simp)
    rwa [List.append_nil] at hcuts
  | @token p q b u t r k ts hb hu _ ih =>
    obtain ⟨s, rfl, hq, hs⟩ := ih
    refine ⟨b ++ (u ++ s), by simp, ?_, .token hb (hrule _ _ _ _ hu) hs⟩
    rw [hq, byteLength_append, byteLength_append, Nat.add_assoc, Nat.add_assoc]

end Cuts

lemma Munches.ne_nil (h : Munches t u k) : u ≠ [] := by
  have hne := munch_ne_nil (congrArg Prod.fst h.1) h.2
  rwa [h.1] at hne

/-- Where no token is read there is nothing left or the text is at fault. -/
lemma munch_of_not_munches (h : ∀ u k, ¬Munches t u k) :
    t = [] ∨ ∃ f u, munch t = (.error f, u) := by
  rcases hm : munch t with ⟨f | k, u⟩
  · exact .inr ⟨f, u, rfl⟩
  · left
    by_contra ht
    refine h u k ⟨hm, ?_⟩
    rintro rfl
    exact ht (eq_nil_of_munch_stop (congrArg Prod.fst hm))

namespace Lexer

variable {l : Lexer}

/-- What a lexer makes of a text that begins at position `q`. -/
def last (q : ℕ) (r : Text) : Except ParseError Token :=
  match munch r with
  | (.ok k, u) => .ok ⟨k, u, q⟩
  | (.error f, _) => .error ⟨q, .lexical f⟩

lemma last_nil : last q [] = .ok ⟨.stop, [], q⟩ := rfl

lemma last_of_error {f : LexFault} (h : munch r = (.error f, u)) :
    last q r = .error ⟨q, .lexical f⟩ := by
  rw [last, h]

lemma read_eq_last (l : Lexer) : l.read.1 = last l.pos l.rest := by
  unfold last read
  rcases munch l.rest with ⟨f | k, u⟩ <;> rfl

/-- The blanks before the next token, and what comes after them. -/
lemma exists_blanks_rest (l : Lexer) : ∃ b, (∀ c ∈ b, isBlank c) ∧
    (∀ c ∈ l.skipBlanks.rest.head?, ¬isBlank c) ∧ l.rest = b ++ l.skipBlanks.rest ∧
    l.skipBlanks.pos = l.pos + byteLength b := by
  obtain ⟨b, hb, hrest, hpos⟩ := l.exists_blanks
  refine ⟨b, hb, fun c hc => ?_, hrest, hpos⟩
  have hnot := List.head?_dropWhile_not isBlank l.rest
  rw [← rest_skipBlanks, Option.mem_def.1 hc] at hnot
  simpa using hnot

/-- Cuts by the rule of the lexer are its items. -/
theorem items_of_cuts (h : Cuts Munches p t ts q r) (hr : ∀ u k, ¬Munches r u k)
    (hrest : l.rest = t) (hpos : l.pos = p) : l.items = ts.map .ok ++ [last q r] := by
  induction h generalizing l with
  | @rest p b r hb hhead =>
    obtain ⟨hrest', hpos'⟩ := skipBlanks_eq hb hhead hrest
    have hnext : l.next.1 = last (p + byteLength b) r := by
      rw [next, read_eq_last, hrest', hpos', hpos]
    rcases munch_of_not_munches hr with rfl | ⟨f, u, hf⟩
    · rw [last_nil] at hnext ⊢
      rw [items_of_ok (Prod.ext hnext rfl)]
      rfl
    · rw [last_of_error hf] at hnext ⊢
      exact items_of_error (Prod.ext hnext rfl)
  | @token p q b u t r k ts hb hu _ ih =>
    obtain ⟨l', hnext, hrest', hpos'⟩ := next_eq_ok hb hu.1 hu.2 hrest
    rw [items_of_ok hnext, if_neg hu.2, ih hr hrest' (by rw [hpos', hpos]), hpos]
    rfl

/-- Every text is cut by the rule of the lexer, up to where it has no token. -/
theorem exists_cuts (l : Lexer) :
    ∃ ts q r, Cuts Munches l.pos l.rest ts q r ∧ ∀ u k, ¬Munches r u k := by
  fun_induction items l with
  | case1 l tok l' hnext hstop =>
    obtain ⟨b, hb, hhead, hrest, hpos⟩ := l.exists_blanks_rest
    have hmunch := (read_eq_ok hnext).1
    rw [hrest]
    refine ⟨[], _, l.skipBlanks.rest, .rest hb hhead, fun u k hu => ?_⟩
    rw [hu.1, Prod.mk.injEq, Except.ok.injEq] at hmunch
    exact hu.2 (hmunch.1.trans hstop)
  | case2 l tok l' hnext hstop ih =>
    obtain ⟨b, hb, -, hrest, hpos⟩ := l.exists_blanks_rest
    obtain ⟨hmunch, htok, rfl⟩ := read_eq_ok hnext
    obtain ⟨t, ht⟩ : tok.text <+: l.skipBlanks.rest := by
      have := isPrefix_munch l.skipBlanks.rest
      rwa [hmunch] at this
    obtain ⟨ts, q, r, hcuts, hr⟩ := ih
    have hrest' : (l.skipBlanks.advance tok.text.length).rest = t := by
      rw [rest_advance, ← ht, List.drop_left]
    have hpos' : (l.skipBlanks.advance tok.text.length).pos =
        l.pos + byteLength b + byteLength tok.text := by
      unfold advance
      simp only
      rw [← ht, List.take_left, hpos]
    rw [hrest', hpos'] at hcuts
    rw [← ht] at hmunch hrest
    rw [hrest]
    exact ⟨_ :: ts, q, r, .token hb ⟨hmunch, hstop⟩ hcuts, hr⟩
  | case3 l err l' hnext =>
    obtain ⟨b, hb, hhead, hrest, hpos⟩ := l.exists_blanks_rest
    rw [hrest]
    refine ⟨[], _, l.skipBlanks.rest, .rest hb hhead, fun u k hu => ?_⟩
    unfold next read at hnext
    rw [hu.1] at hnext
    cases hnext

end Lexer

end Formula
