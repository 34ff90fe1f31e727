import Formula.Builtin
import Formula.Operator

/-!
Expression trees.

A variable is a slot number, a bound function the index of its binding. A unary plus and
parentheses leave no node.
-/

namespace Formula

/-- The function that a call refers to. -/
inductive Callee where
  | builtin (b : Builtin)
  | bound (index : Nat)
deriving DecidableEq, Repr

/-- What a name stands for in an expression. -/
inductive Meaning where
  | variable (slot : Nat)
  | function (callee : Callee) (arity : Nat)
deriving DecidableEq, Repr

inductive Expr where
  | const (value : Float)
  | var (slot : Nat)
  | neg (operand : Expr)
  | binary (op : Operator) (left right : Expr)
  | call (callee : Callee) (args : List Expr)

namespace Expr

/-- Induction on trees, with the hypothesis for every argument of a call. -/
theorem induct {P : Expr → Prop} (const : ∀ x, P (.const x)) (var : ∀ k, P (.var k))
    (neg : ∀ a, P a → P (.neg a)) (binary : ∀ o a b, P a → P b → P (.binary o a b))
    (call : ∀ c as, (∀ a ∈ as, P a) → P (.call c as)) (e : Expr) : P e :=
  Expr.rec (motive_1 := P) (motive_2 := fun as => ∀ a ∈ as, P a) const var neg binary call
    (by simp) (fun a as ha has b hb => by
      rcases List.mem_cons.1 hb with rfl | hb
      · exact ha
      · exact has b hb) e

mutual
/-- The number of nodes. -/
def size : Expr → Nat
  | const _ => 1
  | var _ => 1
  | neg a => a.size + 1
  | binary _ a b => a.size + b.size + 1
  | call _ as => sizeList as + 1
def sizeList : List Expr → Nat
  | [] => 0
  | a :: as => a.size + sizeList as
end

end Expr

end Formula
