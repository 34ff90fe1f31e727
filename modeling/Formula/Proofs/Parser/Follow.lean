import Formula.Proofs.Parser.FirstError

/-!
Where parsers stop, and before which tokens.

Whatever a parser does is to consume tokens, one by one and none of them the end. It stops before a
token that it does not take, so no operator is left that an operand could have taken: no `^` after a
base, and no operator at all after an expression. The rule of a factor for `^` is never used. Main
statement: `followers_proper`.
-/

namespace Formula

open Cursor (Reach)
open Grammar

namespace Parser

variable {α β γ : Type} {c d : Cursor} {ts : List Token} {Q R : Token.Kind → Prop}

/-- How a parser that starts at `c` ends: it has consumed tokens and stands before one of a kind
that satisfies `Q`, or refuses the one before which it stands, or has consumed one more and the
lexer finds none after that. -/
inductive Stops (Q : Token.Kind → Prop) (c : Cursor) : Outcome α → Prop
  | ok {a : α} {ts : List Token} {d : Cursor} : Reach c ts d → Q d.current.kind →
      Stops Q c (.ok a d)
  | refused {ts : List Token} {d : Cursor} {err : ParseError} : Reach c ts d →
      (∀ f, err.fault ≠ .lexical f) → Stops Q c (.fail err d.reads)
  | broken {ts : List Token} {d : Cursor} {err : ParseError} {l : Lexer} : Reach c ts d →
      d.current.kind ≠ .stop → d.lexer.next = (.error err, l) →
      Stops Q c (.fail err (d.reads + 1))

namespace Stops

lemma pure {a : α} (hq : Q c.current.kind) : Stops Q c ((Pure.pure a : Parser α).run c) :=
  .ok (.refl c) hq

lemma fail {err : ParseError} (h : ∀ f, err.fault ≠ .lexical f) :
    Stops Q c (.fail err c.reads : Outcome α) := .refused (.refl c) h

/-- What is consumed before counts as well. -/
lemma before {out : Outcome α} (h : Stops Q d out) (hr : Reach c ts d) : Stops Q c out := by
  cases h with
  | ok hr' hq => exact .ok (hr.trans hr') hq
  | refused hr' hf => exact .refused (hr.trans hr') hf
  | broken hr' hk hn => exact .broken (hr.trans hr') hk hn

lemma mono {out : Outcome α} (h : Stops Q c out) (hqr : ∀ k, Q k → R k) : Stops R c out := by
  cases h with
  | ok hr hq => exact .ok hr (hqr _ hq)
  | refused hr hf => exact .refused hr hf
  | broken hr hk hn => exact .broken hr hk hn

lemma bind {p : Parser α} {f : α → Parser β} (h : Stops Q c (p.run c))
    (hf : ∀ a d, p.run c = .ok a d → Q d.current.kind → Stops R d ((f a).run d)) :
    Stops R c ((p >>= f).run c) := by
  rw [run_bind]
  generalize hp : p.run c = out at h ⊢
  cases h with
  | ok hr hq => exact (hf _ _ hp hq).before hr
  | refused hr hf => exact .refused hr hf
  | broken hr hk hn => exact .broken hr hk hn

/-- A token may be consumed that is not the end. -/
lemma consume {f : Token → Parser α} (hk : c.current.kind ≠ .stop)
    (h : ∀ d, next.run c = .ok c.current d → Stops Q d ((f c.current).run d)) :
    Stops Q c ((next >>= f).run c) := by
  rw [run_bind]
  rcases hn : c.lexer.next with ⟨err | tok, l⟩
  · rw [fail_of_next hn]
    exact .broken (.refl c) hk hn
  · obtain ⟨d, hd, -, -⟩ := Cursor.exists_next hn
    rw [hd]
    exact (h d hd).before (.single hk hd)

lemma nested {p : Parser α} (h : Stops Q { c with depth := c.depth + 1 }
    (p.run { c with depth := c.depth + 1 })) : Stops Q c ((Parser.nested p).run c) := by
  have hback {ts : List Token} {d : Cursor} (hr : Reach { c with depth := c.depth + 1 } ts d) :
      Reach c ts { d with depth := c.depth } := hr.withDepth c.depth
  simp only [Parser.nested]
  generalize p.run _ = out at h ⊢
  cases h with
  | ok hr hq => exact .ok (by simpa [hr.depth_eq] using hback hr) hq
  | @refused ts d err hr hf => exact .refused (d := { d with depth := c.depth }) (hback hr) hf
  | @broken ts d err l hr hk hn =>
    exact .broken (d := { d with depth := c.depth }) (hback hr) hk hn

end Stops

/-- Wherever it starts, the parser stops before a token of a kind that satisfies `Q`, if it does not
fail. -/
def StopsAt (Q : Token.Kind → Prop) (p : Parser α) : Prop := ∀ c, Stops Q c (p.run c)

namespace StopsAt

lemma bind {p : Parser α} {f : α → Parser β} (h : StopsAt Q p)
    (hf : ∀ a d, Q d.current.kind → Stops R d ((f a).run d)) : StopsAt R (p >>= f) :=
  fun c => (h c).bind fun a d _ hq => hf a d hq

/-- A loop over items that stop before a token where it may start goes on as long as the token is
wanted. -/
lemma many {wanted : Token.Kind → Option γ} {item : Parser α} (hitem : StopsAt Q item)
    (hstop : wanted .stop = none) (hc : Q c.current.kind) :
    Stops (fun k => Q k ∧ wanted k = none) c ((Parser.many wanted item hstop).run c) := by
  induction hn : c.size using Nat.strongRecOn generalizing c with
  | ind n ih =>
    rw [run_many]
    rcases hg : wanted c.current.kind with _ | g
    · exact .pure ⟨hc, hg⟩
    · have hk : c.current.kind ≠ .stop := fun hk => by simp [hk, hstop] at hg
      refine .consume hk fun d hd => (hitem d).bind fun a e he hq => ?_
      have hlt := size_lt_of_wanted hstop hg hd he
      exact (ih e.size (by omega) hq rfl).bind fun as _ _ h => .pure h

/-- A first operand and a chain of further ones. -/
lemma joined {wanted : Token.Kind → Option Operator} {item : Parser Expr}
    {join : Expr → List (Operator × Expr) → Expr} (hitem : StopsAt Q item)
    (hstop : wanted .stop = none) :
    StopsAt (fun k => Q k ∧ wanted k = none) (do
      let a ← item
      let r ← Parser.many wanted item hstop
      Pure.pure (join a r)) :=
  hitem.bind fun _ _ hq => (hitem.many hstop hq).bind fun _ _ _ h => .pure h

end StopsAt

/-! ### One level -/

/-- A token that a base before it leaves: no `^`. -/
def AfterBase (k : Token.Kind) : Prop := powerOperator? k = none

/-- A token that a term before it leaves: no `^`, and no operator of a term. -/
def AfterTerm (k : Token.Kind) : Prop := AfterBase k ∧ productOperator? k = none

/-- A token that an expression before it leaves: no operator. -/
def AfterExpr (k : Token.Kind) : Prop := AfterTerm k ∧ sumOperator? k = none

lemma AfterBase.ne {k : Token.Kind} (h : AfterBase k) : k ≠ .operator .pow := by
  rintro rfl
  cases h

lemma AfterTerm.ne {k : Token.Kind} (h : AfterTerm k) {o : Operator} (ho : o = .pow ∨ IsProduct o) :
    k ≠ .operator o := by
  rcases ho with rfl | ho
  · exact h.1.ne
  · rintro rfl
    cases h.2.symm.trans (productOperator?_eq_some.2 ⟨rfl, ho⟩)

lemma AfterExpr.ne {k : Token.Kind} (h : AfterExpr k) (o : Operator) : k ≠ .operator o := by
  cases o with
  | pow => exact h.1.ne (.inl rfl)
  | mul => exact h.1.ne (.inr (.inl rfl))
  | div => exact h.1.ne (.inr (.inr (.inl rfl)))
  | mod => exact h.1.ne (.inr (.inr (.inr rfl)))
  | add | sub =>
    rintro rfl
    cases h.2

section Level

variable {resolve : Text → Option Meaning} {base : Parser Expr} (hbase : StopsAt AfterBase base)
include hbase

lemma stopsAt_factor : StopsAt AfterBase (factor base) :=
  fun c => (hbase.joined rfl c).mono fun _ h => h.1

lemma stopsAt_term : StopsAt AfterTerm (term base) := (stopsAt_factor hbase).joined rfl

lemma stopsAt_expr : StopsAt AfterExpr (expr base) := (stopsAt_term hbase).joined rfl

/-- Arguments end before the parenthesis that closes them. -/
lemma stopsAt_args : StopsAt (· = .rightParen) (args base) := by
  intro c
  unfold args
  rw [run_bind, run_current]
  simp only
  split
  · exact .pure ‹_›
  · refine (stopsAt_expr hbase c).bind fun a d _ hd => ?_
    refine ((stopsAt_expr hbase).many rfl hd).bind fun r e _ _ => ?_
    rw [run_bind, run_current]
    simp only
    split
    · exact .pure ‹_›
    · exact .fail (by simp)

lemma stops_call {name : Text} {callee : Callee} {arity : ℕ}
    (hopen : c.current.kind = .leftParen) :
    Stops (fun _ => True) c ((call base name callee arity).run c) := by
  unfold call
  refine .consume (by simp [hopen]) fun d _ => ?_
  refine (stopsAt_args hbase d).bind fun as e _ hclose => ?_
  refine .consume (by simp [hclose]) fun f _ => ?_
  split
  · exact .pure trivial
  · exact .fail (by simp)

lemma stops_named (hword : c.current.kind = .word) :
    Stops (fun _ => True) c ((named resolve base).run c) := by
  unfold named
  refine .consume (by simp [hword]) fun d _ => ?_
  rw [run_bind, run_current]
  simp only
  split
  · exact .fail (by simp)
  · split
    · exact .fail (by simp)
    · exact .pure trivial
  · split
    · exact stops_call hbase ‹_›
    · split
      · exact .pure trivial
      · exact .fail (by simp)

lemma stopsAt_group : StopsAt (fun _ => True) (group base) := by
  refine (stopsAt_expr hbase).bind fun e c _ => ?_
  rw [run_bind, run_current]
  simp only
  split
  · rename_i hclose
    exact .consume (by simp [hclose]) fun d _ => .pure trivial
  · exact .fail (by simp)

lemma stopsAt_atom : StopsAt (fun _ => True) (atom resolve base) := by
  intro c
  unfold atom
  rw [run_bind, run_current]
  simp only
  split
  · rename_i hk
    exact .consume (by simp [hk]) fun d _ => .pure trivial
  · exact stops_named hbase (by assumption)
  · rename_i hk
    exact .consume (by simp [hk]) fun d _ => stopsAt_group hbase d
  · exact .fail (by simp)

lemma stopsAt_power : StopsAt AfterBase (power resolve base) := by
  refine (stopsAt_atom hbase).bind fun a c _ => ?_
  rw [run_bind, run_current]
  simp only
  split
  · rename_i o ho
    obtain ⟨hk, -⟩ := powerOperator?_eq_some.1 ho
    exact .consume (by simp [hk]) fun d _ => (hbase d).bind fun b _ _ h => .pure h
  · exact .pure ‹_›

lemma stopsAt_signed : StopsAt AfterBase (signed resolve base) := by
  intro c
  unfold signed
  rw [run_bind, run_current]
  simp only
  split
  · rename_i ho
    obtain ⟨hk, -⟩ := sumOperator?_eq_some.1 ho
    exact .consume (by simp [hk]) fun d _ => (hbase d).bind fun b _ _ h => .pure h
  · rename_i ho
    obtain ⟨hk, -⟩ := sumOperator?_eq_some.1 ho
    exact .consume (by simp [hk]) fun d _ => hbase d
  · exact stopsAt_power hbase c

end Level

/-! ### All levels -/

variable {resolve : Text → Option Meaning}

theorem stopsAt_baseWithin (levels : ℕ) : StopsAt AfterBase (baseWithin resolve levels) := by
  induction levels with
  | zero => exact fun c => .fail (by simp)
  | succ levels ih => exact fun c => .nested (stopsAt_signed ih _)

theorem stopsAt_sentence (levels : ℕ) : StopsAt (· = .stop) (sentence resolve levels) := by
  refine (stopsAt_expr (stopsAt_baseWithin levels)).bind fun e c _ => ?_
  rw [run_bind, run_current]
  simp only
  split
  · exact .pure ‹_›
  · exact .fail (by simp)

/-! ### Factors -/

/-- A base, and then `branch` with its tree if a `^` follows. -/
def factorThen (base : Parser Expr) (branch : Expr → Parser Expr) : Parser Expr := do
  let a ← base
  let t ← current
  if t.kind = .operator .pow then branch a else pure a

/-- The rule of a factor: a base, and if a `^` follows the factor after it. -/
lemma run_factor (base : Parser Expr) (c : Cursor) :
    (factor base).run c = (factorThen base fun a => do
      let _ ← next
      let b ← factor base
      pure (.binary .pow a b)).run c := by
  have hstop : powerOperator? .stop = none := rfl
  have hfactor : factor base = (do
      let a ← base
      let r ← many powerOperator? base hstop
      pure (joinRight a r)) := rfl
  unfold factorThen
  rw [hfactor, run_bind, run_bind]
  -- after the first `^` the loop is that of the factor behind it
  rcases base.run c with ⟨a, d⟩ | ⟨err, reads⟩
  · dsimp only
    rw [run_bind, run_bind, run_current, run_many]
    rcases hk : powerOperator? d.current.kind with _ | o
    · have hne : d.current.kind ≠ .operator .pow := AfterBase.ne hk
      simp only [if_neg hne]
      rfl
    · obtain ⟨hpow, rfl⟩ := powerOperator?_eq_some.1 hk
      simp only [if_pos hpow, run_bind]
      rcases next.run d with ⟨t, d₁⟩ | ⟨err, reads⟩
      · simp only
        rcases base.run d₁ with ⟨b, d₂⟩ | ⟨err, reads⟩
        · simp only
          rcases (many powerOperator? base hstop).run d₂ with ⟨r, d₃⟩ | ⟨err, reads⟩ <;> rfl
        · rfl
      · rfl
  · rfl

/-- The branch of a factor is never taken if no `^` is left after a base. -/
lemma run_factorThen {base : Parser Expr} (hbase : StopsAt AfterBase base)
    (branch : Expr → Parser Expr) (c : Cursor) : (factorThen base branch).run c = base.run c := by
  have hstops := hbase c
  rw [factorThen, run_bind]
  generalize base.run c = out at hstops ⊢
  cases hstops with
  | @ok a ts d _ hq =>
    have hne : d.current.kind ≠ .operator .pow := hq.ne
    dsimp only
    rw [run_bind, run_current]
    simp only [if_neg hne]
    rfl
  | refused _ _ | broken _ _ _ => rfl

/-! ### What is left behind a phrase -/

/-- Where the parser comes to a value, the current token is of a kind that satisfies `Q`, and as
many levels of nesting are open as before. -/
def Returns (Q : Token.Kind → Prop) (p : Parser α) (c : Cursor) : Prop :=
  ∀ a d, p.run c = .ok a d → Q d.current.kind ∧ d.depth = c.depth

lemma Stops.returns {p : Parser α} (h : Stops Q c (p.run c)) (hqr : ∀ k, Q k → R k) :
    Returns R p c := by
  intro a d hp
  rw [hp] at h
  cases h with
  | ok hr hq => exact ⟨hqr _ hq, hr.depth_eq⟩

namespace Returns

lemma next : Returns (fun _ => True) next c := fun _ _ h => ⟨trivial, (Cursor.next_eq_ok h).2.1⟩

lemma pure {a : α} : Returns (fun _ => True) (Pure.pure a) c := by
  rintro _ _ ⟨⟩
  exact ⟨trivial, rfl⟩

lemma bind {p : Parser α} {f : α → Parser β} (h : Returns Q p c)
    (hf : ∀ a d, Returns R (f a) d) : Returns R (p >>= f) c := by
  intro b e hb
  obtain ⟨a, d, ha, hb⟩ := run_bind_eq_ok.1 hb
  obtain ⟨hr, hdepth⟩ := hf a d b e hb
  exact ⟨hr, hdepth.trans (h a d ha).2⟩

end Returns

section Level

variable {resolve : Text → Option Meaning} {base : Parser Expr} (hbase : StopsAt AfterBase base)
include hbase

lemma returns_call (name : Text) (callee : Callee) (arity : ℕ) (c : Cursor) :
    Returns (fun _ => True) (call base name callee arity) c := by
  refine Returns.next.bind fun paren d => ?_
  refine ((stopsAt_args hbase d).returns fun _ => id).bind fun as e => ?_
  refine Returns.next.bind fun _ f => ?_
  split
  · exact .pure
  · rintro _ _ ⟨⟩

lemma returns_named (c : Cursor) : Returns (fun _ => True) (named resolve base) c := by
  refine Returns.next.bind fun name d => ?_
  intro a e h
  rw [run_bind, run_current] at h
  simp only at h
  split at h
  · cases h
  · split at h
    · cases h
    · exact Returns.pure a e h
  · split at h
    · exact returns_call hbase _ _ _ d a e h
    · split at h
      · exact Returns.pure a e h
      · cases h

end Level

/-- **Operands leave no operator behind that they could have taken.** A factor has a rule for a `^`
after its base, but there is none: a factor is its base, whatever that rule says. So neither after a
base nor after a factor stands a `^`, after a term no operator of a term or a power, and after an
expression no operator. Whatever parser comes to a value, as many levels of nesting are open then as
when it began. -/
theorem followers_proper (resolve : Text → Option Meaning) (levels : ℕ) (c : Cursor) :
    let base := baseWithin resolve levels
    ((factor base).run c = (factorThen base fun a => do
        let _ ← next
        let b ← factor base
        pure (.binary .pow a b)).run c ∧
      (∀ branch, (factorThen base branch).run c = base.run c) ∧
      (factor base).run c = base.run c) ∧
    Returns (· ≠ .operator .pow) base c ∧
    Returns (· ≠ .operator .pow) (factor base) c ∧
    Returns (fun k => ∀ o, o = .pow ∨ IsProduct o → k ≠ .operator o) (term base) c ∧
    Returns (fun k => ∀ o, k ≠ .operator o) (expr base) c ∧
    Returns (· ≠ .operator .pow) (power resolve base) c ∧
    Returns (fun _ => True) (atom resolve base) c ∧
    Returns (fun _ => True) (named resolve base) c ∧
    ∀ name callee arity, Returns (fun _ => True) (call base name callee arity) c := by
  have hbase : StopsAt AfterBase (baseWithin resolve levels) := stopsAt_baseWithin levels
  refine ⟨⟨run_factor _ c, fun branch => run_factorThen hbase branch c, ?_⟩,
    (hbase c).returns fun _ => AfterBase.ne,
    (stopsAt_factor hbase c).returns fun _ => AfterBase.ne,
    (stopsAt_term hbase c).returns fun _ h _ => h.ne,
    (stopsAt_expr hbase c).returns fun _ => AfterExpr.ne,
    (stopsAt_power hbase c).returns fun _ => AfterBase.ne,
    (stopsAt_atom hbase c).returns fun _ => id,
    returns_named hbase c, fun name callee arity => returns_call hbase name callee arity c⟩
  rw [run_factor, run_factorThen hbase]

end Parser

end Formula
