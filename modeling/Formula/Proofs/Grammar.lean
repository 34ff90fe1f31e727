import Formula.Error
import Formula.Expr
import Mathlib.Data.Nat.Notation
import Mathlib.Tactic.Lemma

/-!
The grammar of expressions, on tokens.

`Derives` is the grammar as it is documented:

    expr   := term (('+' | '-') term)*
    term   := factor (('*' | '/' | '%') factor)*
    factor := base ('^' factor)?
    base   := '-' base | '+' base | power
    power  := atom ('^' base)?
    atom   := number | name | name '(' args ')' | '(' expr ')'
    args   := (expr (',' expr)*)?

It has two rules for a power and so no one tree for a text. `Reads` is the same language with
one rule, `base := '-' base | '+' base | atom ('^' base)?`, and gives every phrase its tree.
-/

namespace Formula.Grammar

/-- What a phrase is. -/
inductive Cat where
  | expr | term | factor | base | power | atom
  /-- The arguments of a call, with their number. -/
  | args (count : ℕ)

/-- The operators between terms. -/
def IsSum (o : Operator) : Prop := o = .add ∨ o = .sub

/-- The operators between factors. -/
def IsProduct (o : Operator) : Prop := o = .mul ∨ o = .div ∨ o = .mod

variable (fits : ℕ → ℕ → Prop) (resolve : Text → Option Meaning)

/-- The documented grammar. A name must stand for something: a variable stands alone, a
function without arguments may stand alone, and any function may stand before arguments of a
number that fits its arity. -/
inductive Derives : Cat → List Token → Prop
  | sumOf {u} : Derives .term u → Derives .expr u
  | sum {u v t o} : Derives .expr u → t.kind = .operator o → IsSum o → Derives .term v →
      Derives .expr (u ++ t :: v)
  | productOf {u} : Derives .factor u → Derives .term u
  | product {u v t o} : Derives .term u → t.kind = .operator o → IsProduct o →
      Derives .factor v → Derives .term (u ++ t :: v)
  | factorOf {u} : Derives .base u → Derives .factor u
  | factor {u v t} : Derives .base u → t.kind = .operator .pow → Derives .factor v →
      Derives .factor (u ++ t :: v)
  | signed {u t o} : t.kind = .operator o → IsSum o → Derives .base u → Derives .base (t :: u)
  | unsigned {u} : Derives .power u → Derives .base u
  | powerOf {u} : Derives .atom u → Derives .power u
  | power {u v t} : Derives .atom u → t.kind = .operator .pow → Derives .base v →
      Derives .power (u ++ t :: v)
  | number {t x} : t.kind = .number x → Derives .atom [t]
  | variable {t k} : t.kind = .word → resolve t.text = some (.variable k) → Derives .atom [t]
  | bare {t c} : t.kind = .word → resolve t.text = some (.function c 0) → Derives .atom [t]
  | call {t l u r c arity count} : t.kind = .word →
      resolve t.text = some (.function c arity) → l.kind = .leftParen →
      Derives (.args count) u → r.kind = .rightParen → fits arity count →
      Derives .atom (t :: l :: (u ++ [r]))
  | group {l u r} : l.kind = .leftParen → Derives .expr u → r.kind = .rightParen →
      Derives .atom (l :: (u ++ [r]))
  | noArgs : Derives (.args 0) []
  | arg {u} : Derives .expr u → Derives (.args 1) u
  | moreArgs {u v t count} : Derives (.args (count + 1)) u → t.kind = .comma →
      Derives .expr v → Derives (.args (count + 2)) (u ++ t :: v)

/-- The grammar without a choice. A phrase comes with its tree, arguments with one tree each,
and with the number of levels of nesting that it opens. Operands group to the left, a power
takes all that follows as its exponent. -/
inductive Reads : Cat → List Token → List Expr → ℕ → Prop
  | sumOf {u a n} : Reads .term u [a] n → Reads .expr u [a] n
  | sum {u v t o a b m n} : Reads .expr u [a] m → t.kind = .operator o → IsSum o →
      Reads .term v [b] n → Reads .expr (u ++ t :: v) [.binary o a b] (max m n)
  | productOf {u a n} : Reads .base u [a] n → Reads .term u [a] n
  | product {u v t o a b m n} : Reads .term u [a] m → t.kind = .operator o → IsProduct o →
      Reads .base v [b] n → Reads .term (u ++ t :: v) [.binary o a b] (max m n)
  | minus {u t a n} : t.kind = .operator .sub → Reads .base u [a] n →
      Reads .base (t :: u) [.neg a] (n + 1)
  | plus {u t a n} : t.kind = .operator .add → Reads .base u [a] n →
      Reads .base (t :: u) [a] (n + 1)
  | unsigned {u a n} : Reads .atom u [a] n → Reads .base u [a] (n + 1)
  | power {u v t a b m n} : Reads .atom u [a] m → t.kind = .operator .pow →
      Reads .base v [b] n → Reads .base (u ++ t :: v) [.binary .pow a b] (max m n + 1)
  | number {t x} : t.kind = .number x → Reads .atom [t] [.const x] 0
  | variable {t k} : t.kind = .word → resolve t.text = some (.variable k) →
      Reads .atom [t] [.var k] 0
  | bare {t c} : t.kind = .word → resolve t.text = some (.function c 0) →
      Reads .atom [t] [.call c []] 0
  | call {t l u r c arity count as n} : t.kind = .word →
      resolve t.text = some (.function c arity) → l.kind = .leftParen →
      Reads (.args count) u as n → r.kind = .rightParen → fits arity count →
      Reads .atom (t :: l :: (u ++ [r])) [.call c as] n
  | group {l u r a n} : l.kind = .leftParen → Reads .expr u [a] n → r.kind = .rightParen →
      Reads .atom (l :: (u ++ [r])) [a] n
  | noArgs : Reads (.args 0) [] [] 0
  | arg {u a n} : Reads .expr u [a] n → Reads (.args 1) u [a] n
  | moreArgs {u v t count as b m n} : Reads (.args (count + 1)) u as m → t.kind = .comma →
      Reads .expr v [b] n → Reads (.args (count + 2)) (u ++ t :: v) (as ++ [b]) (max m n)

variable {fits resolve}

/-! ### The two grammars have the same sentences -/

theorem Reads.derives {c : Cat} {u : List Token} {es : List Expr} {n : ℕ}
    (h : Reads fits resolve c u es n) : Derives fits resolve c u := by
  induction h with
  | sumOf _ ih => exact .sumOf ih
  | sum _ ht ho _ ih₁ ih₂ => exact .sum ih₁ ht ho ih₂
  | productOf _ ih => exact .productOf (.factorOf ih)
  | product _ ht ho _ ih₁ ih₂ => exact .product ih₁ ht ho (.factorOf ih₂)
  | minus ht _ ih => exact .signed ht (.inr rfl) ih
  | plus ht _ ih => exact .signed ht (.inl rfl) ih
  | unsigned _ ih => exact .unsigned (.powerOf ih)
  | power _ ht _ ih₁ ih₂ => exact .unsigned (.power ih₁ ht ih₂)
  | number ht => exact .number ht
  | «variable» ht hr => exact .variable ht hr
  | bare ht hr => exact .bare ht hr
  | call ht hr hl _ hp hf ih => exact .call ht hr hl ih hp hf
  | group hl _ hr ih => exact .group hl ih hr
  | noArgs => exact .noArgs
  | arg _ ih => exact .arg ih
  | moreArgs _ ht _ ih₁ ih₂ => exact .moreArgs ih₁ ht ih₂

/-- Phrases stay phrases if more numbers of arguments fit. -/
lemma Derives.mono {fits' : ℕ → ℕ → Prop} (hle : ∀ {m n}, fits m n → fits' m n) {c : Cat}
    {u : List Token} (h : Derives fits resolve c u) : Derives fits' resolve c u := by
  induction h with
  | sumOf _ ih => exact .sumOf ih
  | sum _ ht ho _ ih₁ ih₂ => exact .sum ih₁ ht ho ih₂
  | productOf _ ih => exact .productOf ih
  | product _ ht ho _ ih₁ ih₂ => exact .product ih₁ ht ho ih₂
  | factorOf _ ih => exact .factorOf ih
  | factor _ ht _ ih₁ ih₂ => exact .factor ih₁ ht ih₂
  | signed ht ho _ ih => exact .signed ht ho ih
  | unsigned _ ih => exact .unsigned ih
  | powerOf _ ih => exact .powerOf ih
  | power _ ht _ ih₁ ih₂ => exact .power ih₁ ht ih₂
  | number ht => exact .number ht
  | «variable» ht hr => exact .variable ht hr
  | bare ht hr => exact .bare ht hr
  | call ht hr hl _ hp hf ih => exact .call ht hr hl ih hp (hle hf)
  | group hl _ hr ih => exact .group hl ih hr
  | noArgs => exact .noArgs
  | arg _ ih => exact .arg ih
  | moreArgs _ ht _ ih₁ ih₂ => exact .moreArgs ih₁ ht ih₂

/-- The number of trees a phrase has. -/
def Cat.count : Cat → ℕ
  | .args n => n
  | _ => 1

lemma Reads.length_eq {c : Cat} {u : List Token} {es : List Expr} {n : ℕ}
    (h : Reads fits resolve c u es n) : es.length = c.count := by
  induction h with
  | moreArgs _ _ _ ih₁ _ => simpa [Cat.count] using ih₁
  | _ => rfl

/-- What is read where the documented grammar has a factor or a power is a base. -/
def Cat.reading : Cat → Cat
  | .factor | .power => .base
  | c => c

/-- A phrase of a kind that has one tree can be read as one tree. -/
lemma exists_tree {c : Cat} {u : List Token} (h : ∃ es n, Reads fits resolve c u es n)
    (hc : c.count = 1) : ∃ a n, Reads fits resolve c u [a] n := by
  obtain ⟨es, n, h⟩ := h
  obtain ⟨a, rfl⟩ := List.length_eq_one_iff.1 (h.length_eq.trans hc)
  exact ⟨a, n, h⟩

/-- A power whose base has signs or a power of its own is a base all the same. -/
lemma Reads.raise {u v : List Token} {t : Token} {es : List Expr} {b : Expr} {m n : ℕ}
    (hu : Reads fits resolve .base u es m) (ht : t.kind = .operator .pow)
    (hv : Reads fits resolve .base v [b] n) :
    ∃ e k, Reads fits resolve .base (u ++ t :: v) [e] k := by
  generalize hc : Cat.base = c at hu
  induction hu with
  | minus hs _ ih =>
    obtain ⟨e, k, he⟩ := ih hc
    exact ⟨_, _, .minus hs he⟩
  | plus hs _ ih =>
    obtain ⟨e, k, he⟩ := ih hc
    exact ⟨_, _, .plus hs he⟩
  | unsigned hu => exact ⟨_, _, .power hu ht hv⟩
  | power hu hs _ _ ih =>
    obtain ⟨e, k, he⟩ := ih hc
    rw [List.append_assoc, List.cons_append]
    exact ⟨_, _, .power hu hs he⟩
  | _ => cases hc

theorem Derives.exists_reads {c : Cat} {u : List Token} (h : Derives fits resolve c u) :
    ∃ es n, Reads fits resolve c.reading u es n := by
  induction h with
  | sumOf _ ih =>
    obtain ⟨a, n, h⟩ := exists_tree ih rfl
    exact ⟨_, _, .sumOf h⟩
  | sum _ ht ho _ ih₁ ih₂ =>
    obtain ⟨a, m, h₁⟩ := exists_tree ih₁ rfl
    obtain ⟨b, n, h₂⟩ := exists_tree ih₂ rfl
    exact ⟨_, _, .sum h₁ ht ho h₂⟩
  | productOf _ ih =>
    obtain ⟨a, n, h⟩ := exists_tree ih rfl
    exact ⟨_, _, .productOf h⟩
  | product _ ht ho _ ih₁ ih₂ =>
    obtain ⟨a, m, h₁⟩ := exists_tree ih₁ rfl
    obtain ⟨b, n, h₂⟩ := exists_tree ih₂ rfl
    exact ⟨_, _, .product h₁ ht ho h₂⟩
  | factorOf _ ih | unsigned _ ih => exact ih
  | factor _ ht _ ih₁ ih₂ =>
    obtain ⟨as, m, h₁⟩ := ih₁
    obtain ⟨b, n, h₂⟩ := exists_tree ih₂ rfl
    obtain ⟨e, k, h⟩ := h₁.raise ht h₂
    exact ⟨_, _, h⟩
  | signed ht ho _ ih =>
    obtain ⟨a, n, h⟩ := exists_tree ih rfl
    rcases ho with rfl | rfl
    · exact ⟨_, _, .plus ht h⟩
    · exact ⟨_, _, .minus ht h⟩
  | powerOf _ ih =>
    obtain ⟨a, n, h⟩ := exists_tree ih rfl
    exact ⟨_, _, .unsigned h⟩
  | power _ ht _ ih₁ ih₂ =>
    obtain ⟨a, m, h₁⟩ := exists_tree ih₁ rfl
    obtain ⟨b, n, h₂⟩ := exists_tree ih₂ rfl
    exact ⟨_, _, .power h₁ ht h₂⟩
  | number ht => exact ⟨_, _, .number ht⟩
  | «variable» ht hr => exact ⟨_, _, .variable ht hr⟩
  | bare ht hr => exact ⟨_, _, .bare ht hr⟩
  | call ht hr hl _ hp hf ih =>
    obtain ⟨_, n, h⟩ := ih
    exact ⟨_, _, .call ht hr hl h hp hf⟩
  | group hl _ hr ih =>
    obtain ⟨a, n, h⟩ := exists_tree ih rfl
    exact ⟨_, _, .group hl h hr⟩
  | noArgs => exact ⟨_, _, .noArgs⟩
  | arg _ ih =>
    obtain ⟨a, n, h⟩ := exists_tree ih rfl
    exact ⟨_, _, .arg h⟩
  | moreArgs _ ht _ ih₁ ih₂ =>
    obtain ⟨as, m, h₁⟩ := ih₁
    obtain ⟨b, n, h₂⟩ := exists_tree ih₂ rfl
    exact ⟨_, _, .moreArgs h₁ ht h₂⟩

/-- The documented grammar has the sentences that can be read, and no others. -/
theorem derives_expr_iff {u : List Token} :
    Derives fits resolve .expr u ↔ ∃ e n, Reads fits resolve .expr u [e] n := by
  constructor
  · intro h
    exact exists_tree h.exists_reads rfl
  · rintro ⟨e, n, h⟩
    exact h.derives

end Formula.Grammar
