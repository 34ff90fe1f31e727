import Formula.Proofs.Lexing.Spelling

/-!
Texts with other texts in place of some of their tokens.

Only the bytes of the tokens are replaced, and all that is between them stays. Where a text is cut
between two tokens, its edited parts are the parts of the edited text.
-/

namespace Formula

variable {p q : ℕ} {b t u v : Text} {c : Char} {k : Token.Kind} {tok : Token}
  {ts us vs : List Token}

/-- A text that begins at position `p`, with each of the tokens replaced by the text that comes with
it. The tokens are in the order in which they occur. -/
def splice : ℕ → Text → List (Token × Text) → Text
  | _, t, [] => t
  | p, t, (tok, u) :: edits =>
    fitting (tok.pos - p) t ++ (u ++ splice (tok.pos + byteLength tok.text)
      (t.drop (fitting (tok.pos - p) t ++ tok.text).length) edits)

/-- Some of the tokens, with the texts that are to replace them. -/
def edits (r : Token → Option Text) (ts : List Token) : List (Token × Text) :=
  ts.filterMap fun tok => (r tok).map fun u => (tok, u)

/-- The text with other texts in place of those tokens that have one. -/
def edited (r : Token → Option Text) (p : ℕ) (t : Text) (ts : List Token) : Text :=
  splice p t (edits r ts)

variable {r : Token → Option Text}

/-! ### What is between the tokens stays -/

lemma fitting_zero (t : Text) : fitting 0 t = [] := by
  cases t with
  | nil => rfl
  | cons c t =>
    have hc := c.utf8Size_pos
    rw [fitting, if_neg (by omega)]

lemma fitting_append (u t : Text) (n : ℕ) :
    fitting (byteLength u + n) (u ++ t) = u ++ fitting n t := by
  induction u with
  | nil => rw [byteLength_nil, Nat.zero_add, List.nil_append, List.nil_append]
  | cons c u ih =>
    have hsize : c.utf8Size + byteLength u + n - c.utf8Size = byteLength u + n := by omega
    rw [List.cons_append, fitting, byteLength_cons, if_pos (by omega), hsize, ih, List.cons_append]

/-- What comes before the first token that is replaced stays. -/
lemma splice_append {es : List (Token × Text)} (h : ∀ x ∈ es, p + byteLength u ≤ x.1.pos) :
    splice p (u ++ t) es = u ++ splice (p + byteLength u) t es := by
  cases es with
  | nil => rfl
  | cons x es =>
    obtain ⟨tok, v⟩ := x
    obtain ⟨n, hn⟩ : ∃ n, tok.pos = p + byteLength u + n :=
      Nat.exists_eq_add_of_le (h _ List.mem_cons_self)
    have hbefore : tok.pos - p = byteLength u + n := by omega
    have hafter : tok.pos - (p + byteLength u) = n := by omega
    have hdrop : (u ++ t).drop (u ++ fitting n t ++ tok.text).length =
        t.drop (fitting n t ++ tok.text).length := by
      rw [List.append_assoc, List.length_append, List.drop_length_add_append]
    rw [splice, splice, hbefore, hafter, fitting_append, hdrop, List.append_assoc]

/-- The character of a token that is one character. -/
def Token.Kind.char? : Token.Kind → Option Char
  | operator o => some o.symbol
  | leftParen => some '('
  | rightParen => some ')'
  | comma => some ','
  | _ => none

lemma Token.Kind.char?_of_symbolKind? (h : symbolKind? c = some k) : k.char? = some c := by
  have hmember := eq_of_symbolKind? h
  simp only [List.mem_cons, List.not_mem_nil, or_false] at hmember
  rcases hmember with rfl | rfl | rfl | rfl | rfl | rfl | rfl | rfl | rfl <;> cases h <;> rfl

namespace Spells

lemma le_pos (h : Spells p t ts) : ∀ tok ∈ ts, p ≤ tok.pos := by
  induction h with
  | nil _ => exact List.forall_mem_nil _
  | cons _ _ _ _ ih =>
    refine List.forall_mem_cons.2 ⟨Nat.le_add_right _ _, fun tok htok => ?_⟩
    have := ih tok htok
    omega

lemma le_pos_edits (h : Spells p t ts) (r : Token → Option Text) :
    ∀ x ∈ edits r ts, p ≤ x.1.pos := by
  intro x hx
  obtain ⟨tok, htok, hr⟩ := List.mem_filterMap.1 hx
  obtain ⟨u, -, rfl⟩ := Option.map_eq_some_iff.1 hr
  exact h.le_pos tok htok

/-- The first token, or what takes its place, comes before the rest of the edited text. -/
lemma edited_cons (h : Spells (p + byteLength b + byteLength u) t ts) :
    edited r p (b ++ (u ++ t)) (⟨k, u, p + byteLength b⟩ :: ts) =
      b ++ ((r ⟨k, u, p + byteLength b⟩).getD u ++
        edited r (p + byteLength b + byteLength u) t ts) := by
  have hrest := h.le_pos_edits r
  unfold edited edits at *
  rcases hr : r ⟨k, u, p + byteLength b⟩ with _ | v
  · rw [List.filterMap_cons_none (by rw [hr]; rfl), splice_append, splice_append hrest]
    · rfl
    · intro x hx
      have := hrest x hx
      omega
  · have hall : ∀ x ∈ (⟨k, u, p + byteLength b⟩, v) :: ts.filterMap fun tok =>
        (r tok).map fun u => (tok, u), p + byteLength b ≤ x.1.pos := by
      refine List.forall_mem_cons.2 ⟨Nat.le_refl _, fun x hx => ?_⟩
      have := hrest x hx
      omega
    rw [List.filterMap_cons_some (by rw [hr]; rfl), splice_append hall, splice, Nat.sub_self,
      fitting_zero, List.nil_append, List.nil_append, List.drop_left]
    rfl

/-! ### Cutting a text between tokens -/

/-- What spells two runs of tokens can be cut in two, and so can the edited text. -/
lemma exists_split (h : Spells p t (us ++ vs)) :
    ∃ t₁ t₂, t = t₁ ++ t₂ ∧ Spells p t₁ us ∧ Spells (p + byteLength t₁) t₂ vs ∧
      ∀ r, edited r p t (us ++ vs) = edited r p t₁ us ++ edited r (p + byteLength t₁) t₂ vs := by
  induction us generalizing p t with
  | nil => exact ⟨[], t, rfl, .nil (List.forall_mem_nil _), h, fun _ => rfl⟩
  | cons tok us ih =>
    rw [List.cons_append] at h
    cases h with
    | @cons _ b u t k _ hb hu hk h =>
      obtain ⟨t₁, t₂, rfl, h₁, h₂, hedit⟩ := ih h
      have hpos : p + byteLength (b ++ (u ++ t₁)) =
          p + byteLength b + byteLength u + byteLength t₁ := by
        rw [byteLength_append, byteLength_append]
        omega
      have hreplaces : Replaces (t₁ ++ t₂) t₁ := by
        cases t₁ with
        | nil => exact .inr breaks_nil
        | cons c t₁ => exact .inl rfl
      refine ⟨b ++ (u ++ t₁), t₂, by simp, .cons hb (munch_append hu hk hreplaces) hk h₁, ?_,
        fun r => ?_⟩
      · rwa [hpos]
      · rw [List.cons_append, h.edited_cons, h₁.edited_cons, hedit, hpos]
        simp only [List.append_assoc]

/-- A token that can be one character is that character. -/
lemma eq_singleton_of_munch (hc : symbolKind? c = some k) (h : munch (u ++ t) = (.ok k, u)) :
    u = [c] := by
  have hchar := Token.Kind.char?_of_symbolKind? hc
  generalize u ++ t = s at h
  unfold munch at h
  split at h
  · cases h
    exact absurd hc (symbolKind?_ne_stop c)
  · split at h
    · obtain ⟨-, x, -, rfl⟩ := munchNumber_eq_ok h
      cases hchar
    · split at h
      · cases h
        cases hchar
      · split at h
        · rename_i hd
          cases h
          cases hchar.symm.trans (Token.Kind.char?_of_symbolKind? hd)
          rfl
        · cases h

/-- A token of one character cuts a text in two. -/
lemma exists_symbol (hc : symbolKind? c = some tok.kind) (h : Spells p t (us ++ tok :: vs)) :
    ∃ t₁ b t₂ q, (∀ d ∈ b, isBlank d) ∧ Spells p t₁ us ∧ Spells q t₂ vs ∧
      t = t₁ ++ (b ++ c :: t₂) ∧ ∀ r, r tok = none → edited r p t (us ++ tok :: vs) =
        edited r p t₁ us ++ (b ++ c :: edited r q t₂ vs) := by
  obtain ⟨t₁, t', rfl, h₁, h', hedit⟩ := h.exists_split
  cases h' with
  | @cons _ b u t₂ k _ hb hu hk h₂ =>
    obtain rfl : u = [c] := eq_singleton_of_munch hc hu
    refine ⟨t₁, b, t₂, _, hb, h₁, h₂, rfl, fun r hr => ?_⟩
    rw [hedit, h₂.edited_cons, hr]
    rfl

/-- One token, with blanks around it. -/
lemma exists_token (h : Spells p t [tok]) :
    ∃ b b', (∀ d ∈ b, isBlank d) ∧ (∀ d ∈ b', isBlank d) ∧
      munch tok.text = (.ok tok.kind, tok.text) ∧
      ∀ r, edited r p t [tok] = b ++ ((r tok).getD tok.text ++ b') := by
  cases h with
  | @cons _ b u t k _ hb hu hk h =>
    have hone : munch (u ++ []) = (.ok k, u) := munch_append hu hk (.inr breaks_nil)
    rw [List.append_nil] at hone
    refine ⟨b, t, hb, ?_, hone, fun r => h.edited_cons⟩
    cases h with
    | nil hb' => exact hb'

/-- A text without tokens is blank. -/
lemma blank_of_nil (h : Spells p t []) : ∀ d ∈ t, isBlank d := by
  cases h with
  | nil hb => exact hb

end Spells

end Formula
