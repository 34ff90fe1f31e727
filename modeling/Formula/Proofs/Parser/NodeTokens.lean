import Formula.Proofs.Parser.Depth

/-!
The tokens that become nodes.

Every number and every name becomes a node of the tree, and so does every operator but a plus sign
in front of an operand. Which plus signs these are the token before tells: an operand begins where
nothing stands before, or an operator, an opening parenthesis or a comma. So the size of a tree can
be read off the tokens of its text (`size_of_parse`).
-/

namespace Formula

/-! ### Counting on tokens -/

namespace Token

def isNumber (t : Token) : Bool :=
  match t.kind with
  | .number _ => true
  | _ => false

def isWord (t : Token) : Bool := t.kind = .word

/-- After the token an operand begins. -/
def opensOperand (t : Token) : Bool :=
  t.operator?.isSome || t.kind = .leftParen || t.kind = .comma

/-- An operand begins where nothing stands before, or a token after which one begins. -/
def isUnaryPlus (before : Option Token) (t : Token) : Bool :=
  t.kind = .operator .add && before.all opensOperand

end Token

/-- Every token with the one before it. -/
def neighbours (before : Option Token) : List Token → List (Option Token × Token)
  | [] => []
  | t :: ts => (before, t) :: neighbours (some t) ts

/-- Numbers and names. -/
def operandTokens (ts : List Token) : ℕ := ts.countP fun t => t.isNumber || t.isWord

/-- Operators, those plus signs left out that an operand follows and none precedes. -/
def operationTokens (before : Option Token) (ts : List Token) : ℕ :=
  (neighbours before ts).countP fun p => p.2.operator?.isSome && !p.2.isUnaryPlus p.1

/-- The tokens that become nodes, after the token `before`. -/
def tally (before : Option Token) (ts : List Token) : ℕ :=
  operandTokens ts + operationTokens before ts

/-- The tokens of a text that become nodes of its tree. -/
def nodeTokens (ts : List Token) : ℕ := tally none ts

lemma Expr.sizeList_append (as bs : List Expr) :
    sizeList (as ++ bs) = sizeList as + sizeList bs := by
  induction as with
  | nil => simp [sizeList]
  | cons a as ih => rw [List.cons_append, sizeList, sizeList, ih, Nat.add_assoc]

namespace Grammar

variable {resolve : Text → Option Meaning} {cat : Cat} {before : Option Token} {t : Token}
  {ts u v : List Token} {es : List Expr} {n : ℕ}

/-- What one token counts for. -/
def weight (before : Option Token) (t : Token) : ℕ :=
  (if t.isNumber || t.isWord then 1 else 0) +
    if t.operator?.isSome && !t.isUnaryPlus before then 1 else 0

@[simp] lemma tally_nil : tally before [] = 0 := rfl

@[simp] lemma tally_cons : tally before (t :: ts) = weight before t + tally (some t) ts := by
  unfold tally weight operandTokens operationTokens
  rw [neighbours, List.countP_cons, List.countP_cons]
  dsimp only
  omega

/-- What stands last decides how the rest is counted. -/
lemma tally_append (h : u.getLast? = some t) (before : Option Token) (v : List Token) :
    tally before (u ++ v) = tally before u + tally (some t) v := by
  induction u generalizing before with
  | nil => cases h
  | cons a u ih =>
    rw [List.cons_append, tally_cons, tally_cons]
    cases u with
    | nil =>
      cases h
      simp
    | cons b u =>
      rw [List.getLast?_cons_cons] at h
      rw [ih h, Nat.add_assoc]

lemma weight_operand (h : (t.isNumber || t.isWord) = true) : weight before t = 1 := by
  have hno : t.operator? = none := by
    unfold Token.isNumber Token.isWord at h
    unfold Token.operator?
    split <;> simp_all
  simp [weight, h, hno]

lemma weight_operator {o : Operator} (ht : t.kind = .operator o) :
    weight before t = if t.isUnaryPlus before then 0 else 1 := by
  have hoperator : t.operator? = some o := by simp [Token.operator?, ht]
  have hoperand : (t.isNumber || t.isWord) = false := by simp [Token.isNumber, Token.isWord, ht]
  by_cases hplus : t.isUnaryPlus before <;> simp [weight, hoperator, hoperand, hplus]

/-- Parentheses and commas leave nothing behind. -/
lemma weight_mark (h : t.kind = .leftParen ∨ t.kind = .rightParen ∨ t.kind = .comma) :
    weight before t = 0 := by
  rcases h with h | h | h <;> simp [weight, Token.isNumber, Token.isWord, Token.operator?, h]

lemma weight_le_one (before : Option Token) (t : Token) : weight before t ≤ 1 := by
  by_cases h : (t.isNumber || t.isWord) = true
  · exact Nat.le_of_eq (weight_operand h)
  · rw [weight, if_neg h, Nat.zero_add]
    split <;> omega

lemma tally_le_length (before : Option Token) (ts : List Token) :
    tally before ts ≤ ts.length := by
  induction ts generalizing before with
  | nil => exact Nat.le_refl 0
  | cons t ts ih =>
    have hone := weight_le_one before t
    have hrest := ih (some t)
    rw [tally_cons, List.length_cons]
    omega

/-! ### Phrases -/

/-- The tokens end an operand, so a plus sign after them is an operator between two. -/
def EndsOperand (ts : List Token) : Prop := ∃ t, ts.getLast? = some t ∧ t.opensOperand = false

lemma EndsOperand.append (h : EndsOperand v) (u : List Token) : EndsOperand (u ++ v) := by
  obtain ⟨t, ht, hends⟩ := h
  exact ⟨t, by rw [List.getLast?_append, ht, Option.some_or], hends⟩

lemma EndsOperand.cons (h : EndsOperand v) (t : Token) : EndsOperand (t :: v) := h.append [t]

lemma endsOperand_singleton (h : t.opensOperand = false) : EndsOperand [t] := ⟨t, rfl, h⟩

/-- An operand begins after an operator, an opening parenthesis and a comma. -/
lemma opensOperand_of_kind
    (h : (∃ o, t.kind = .operator o) ∨ t.kind = .leftParen ∨ t.kind = .comma) :
    (some t).all Token.opensOperand := by
  rcases h with ⟨o, h⟩ | h | h <;> simp [Token.opensOperand, Token.operator?, h]

lemma opensOperand_eq_false
    (h : (∃ x, t.kind = .number x) ∨ t.kind = .word ∨ t.kind = .rightParen) :
    t.opensOperand = false := by
  rcases h with ⟨x, h⟩ | h | h <;> simp [Token.opensOperand, Token.operator?, h]

/-- Two operands with an operator between them. -/
lemma tally_between {o : Operator} {a b : ℕ} (hu : EndsOperand u) (ht : t.kind = .operator o)
    (ha : tally before u = a) (hb : tally (some t) v = b) :
    tally before (u ++ t :: v) = a + b + 1 := by
  obtain ⟨last, hlast, hends⟩ := hu
  have hbinary : t.isUnaryPlus (some last) = false := by simp [Token.isUnaryPlus, hends]
  have hone : weight (some last) t = 1 := by rw [weight_operator ht, hbinary]; rfl
  rw [tally_append hlast, tally_cons, ha, hone, hb]
  omega

/-- A phrase in parentheses counts for what the phrase counts for. -/
lemma tally_enclosed {l r : Token} {a : ℕ} (hl : l.kind = .leftParen) (hr : r.kind = .rightParen)
    (hu : u = [] ∨ EndsOperand u) (ha : tally (some l) u = a) :
    tally before (l :: (u ++ [r])) = a := by
  have hclose (b : Option Token) : tally b [r] = 0 := by
    rw [tally_cons, weight_mark (.inr (.inl hr)), tally_nil]
  rw [tally_cons, weight_mark (.inl hl), Nat.zero_add]
  rcases hu with rfl | ⟨last, hlast, -⟩
  · rw [List.nil_append, hclose, ← ha, tally_nil]
  · rw [tally_append hlast, ha, hclose, Nat.add_zero]

/-- Every phrase ends an operand, unless it is a list of no arguments. -/
lemma Reads.endsOperand (h : Reads Eq resolve cat ts es n) (hcat : cat ≠ .args 0) :
    EndsOperand ts := by
  induction h with
  | sumOf _ ih | productOf _ ih | unsigned _ ih | arg _ ih => exact ih (by simp)
  | sum _ _ _ _ _ ih | product _ _ _ _ _ ih | power _ _ _ _ ih | moreArgs _ _ _ _ ih =>
    exact ((ih (by simp)).cons _).append _
  | minus _ _ ih | plus _ _ ih => exact (ih (by simp)).cons _
  | number ht => exact endsOperand_singleton (opensOperand_eq_false (.inl ⟨_, ht⟩))
  | «variable» ht _ | bare ht _ =>
    exact endsOperand_singleton (opensOperand_eq_false (.inr (.inl ht)))
  | call _ _ _ _ hr _ _ =>
    have hclose := endsOperand_singleton (opensOperand_eq_false (.inr (.inr hr)))
    exact ((hclose.append _).cons _).cons _
  | group _ _ hr _ =>
    have hclose := endsOperand_singleton (opensOperand_eq_false (.inr (.inr hr)))
    exact (hclose.append _).cons _
  | noArgs => exact absurd rfl hcat

lemma Reads.eq_nil_or_endsOperand (h : Reads Eq resolve cat ts es n) :
    ts = [] ∨ EndsOperand ts := by
  by_cases hcat : cat = .args 0
  · subst hcat
    cases h
    exact .inl rfl
  · exact .inr (h.endsOperand hcat)

/-- Where an operand may begin a phrase counts for the nodes of its trees. -/
lemma Reads.tally_eq (h : Reads Eq resolve cat ts es n)
    (hbefore : before.all Token.opensOperand) : tally before ts = Expr.sizeList es := by
  induction h generalizing before with
  | sumOf _ ih | productOf _ ih | unsigned _ ih | arg _ ih => exact ih hbefore
  | sum hu ht _ _ ih₁ ih₂ | product hu ht _ _ ih₁ ih₂ | power hu ht _ ih₁ ih₂ =>
    have hopens := opensOperand_of_kind (.inl ⟨_, ht⟩)
    rw [tally_between (hu.endsOperand (by simp)) ht (ih₁ hbefore) (ih₂ hopens)]
    rfl
  | @minus u t a n ht _ ih =>
    have hminus : t.isUnaryPlus before = false := by simp [Token.isUnaryPlus, ht]
    rw [tally_cons, weight_operator ht, hminus, ih (opensOperand_of_kind (.inl ⟨_, ht⟩))]
    simp [Expr.sizeList, Expr.size, Nat.add_comm]
  | @plus u t a n ht _ ih =>
    have hplus : t.isUnaryPlus before := by simp [Token.isUnaryPlus, ht, hbefore]
    rw [tally_cons, weight_operator ht, if_pos hplus, Nat.zero_add,
      ih (opensOperand_of_kind (.inl ⟨_, ht⟩))]
  | number ht =>
    rw [tally_cons, weight_operand (by simp [Token.isNumber, ht])]
    rfl
  | «variable» ht _ | bare ht _ =>
    rw [tally_cons, weight_operand (by simp [Token.isWord, ht])]
    rfl
  | @call t l u r c arity count as n ht _ hl hu hr _ ih =>
    have hopens := opensOperand_of_kind (.inr (.inl hl))
    rw [tally_cons, weight_operand (by simp [Token.isWord, ht]),
      tally_enclosed hl hr hu.eq_nil_or_endsOperand (ih hopens)]
    simp [Expr.sizeList, Expr.size, Nat.add_comm]
  | @group l u r a n hl hu hr ih =>
    have hopens := opensOperand_of_kind (.inr (.inl hl))
    exact tally_enclosed hl hr hu.eq_nil_or_endsOperand (ih hopens)
  | noArgs => rfl
  | @moreArgs u v t count as b m n hu ht _ ih₁ ih₂ =>
    obtain ⟨last, hlast, -⟩ := hu.endsOperand (by simp)
    have hopens := opensOperand_of_kind (.inr (.inr ht))
    rw [tally_append hlast, tally_cons, weight_mark (.inr (.inr ht)), ih₁ hbefore, ih₂ hopens,
      Nat.zero_add, Expr.sizeList_append]

end Grammar

/-! ### Texts -/

open Grammar

variable {resolve : Text → Option Meaning} {o : Options} {t : Text} {ts : List Token} {e : Expr}

/-- Every token that is consumed takes away from what is left. -/
lemma Cursor.Reach.length_add_size_le {c d : Cursor} (h : Reach c ts d) :
    ts.length + d.size ≤ c.size := by
  induction h with
  | refl => simp
  | head hc hn _ ih =>
    have hlt := Parser.size_lt_of_next hn hc
    rw [List.length_cons]
    omega

/-- A text has no more tokens than bytes. -/
lemma Words.length_le (h : Words t ts) : ts.length ≤ byteLength t := by
  obtain ⟨c, d, hs, hr, -⟩ := words_iff.1 h
  have hconsumed := hr.length_add_size_le
  have hsize := Cursor.size_of_start hs
  have hbytes := length_le_byteLength t
  omega

lemma nodeTokens_le_length (ts : List Token) : nodeTokens ts ≤ ts.length :=
  tally_le_length none ts

/-- **The size of a tree can be read off the tokens** of its text. -/
theorem size_of_parse (h : parse resolve o t = .ok e) :
    ∃ ts, Words t ts ∧ e.size = nodeTokens ts := by
  obtain ⟨-, ts, n, hw, hread, -⟩ := reads_of_parse h
  have htally : tally none ts = e.size + 0 := hread.tally_eq rfl
  exact ⟨ts, hw, htally.symm⟩

end Formula
