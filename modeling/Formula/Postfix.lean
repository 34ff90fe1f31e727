import Formula.Expr

/-!
Trees in postfix order: operands from left to right, then the node. A long chain of operators
that groups to the left flattens without deep recursion.

A walk over a tree need not recurse either if it keeps a stack of the work that is left to do. It
ends because what it pushes weighs less than what it pops.
-/

namespace Formula

/-- What a node of a tree does once its operands are there. -/
inductive Step where
  | const (value : Float)
  | var (slot : Nat)
  | neg
  | binary (op : Operator)
  | call (callee : Callee) (argc : Nat)

namespace Expr

mutual
/-- The steps of a tree, followed by `k`. -/
def flatten : Expr → List Step → List Step
  | const x, k => .const x :: k
  | var s, k => .var s :: k
  | neg a, k => flatten a (.neg :: k)
  | binary o a b, k => flatten a (flatten b (.binary o :: k))
  | call c as, k => flattenList as (.call c as.length :: k)
def flattenList : List Expr → List Step → List Step
  | [], k => k
  | a :: as, k => flatten a (flattenList as k)
end

def steps (e : Expr) : List Step := e.flatten []

def stepsList (as : List Expr) : List Step := flattenList as []

mutual
theorem flatten_append (k l : List Step) : ∀ e : Expr, e.flatten (k ++ l) = e.flatten k ++ l
  | const _ | var _ => rfl
  | neg a => flatten_append (.neg :: k) l a
  | binary o a b => by
    simp only [flatten, ← List.cons_append, flatten_append _ l b, flatten_append _ l a]
  | call c as => flattenList_append (.call c as.length :: k) l as
theorem flattenList_append (k l : List Step) :
    ∀ as : List Expr, flattenList as (k ++ l) = flattenList as k ++ l
  | [] => rfl
  | a :: as => by simp only [flattenList, flattenList_append k l as, flatten_append _ l a]
end

theorem flatten_eq (e : Expr) (k : List Step) : e.flatten k = e.steps ++ k :=
  flatten_append [] k e

theorem flattenList_eq (as : List Expr) (k : List Step) :
    flattenList as k = stepsList as ++ k :=
  flattenList_append [] k as

@[simp] theorem steps_const (x : Float) : (const x).steps = [.const x] := rfl

@[simp] theorem steps_var (k : Nat) : (var k).steps = [.var k] := rfl

@[simp] theorem steps_neg (a : Expr) : (neg a).steps = a.steps ++ [.neg] := flatten_eq a _

@[simp] theorem steps_binary (o : Operator) (a b : Expr) :
    (binary o a b).steps = a.steps ++ b.steps ++ [.binary o] := by
  show a.flatten (b.flatten _) = _
  rw [flatten_eq, flatten_eq, List.append_assoc]

@[simp] theorem steps_call (c : Callee) (as : List Expr) :
    (call c as).steps = stepsList as ++ [.call c as.length] := flattenList_eq as _

@[simp] theorem stepsList_nil : stepsList [] = [] := rfl

@[simp] theorem stepsList_cons (a : Expr) (as : List Expr) :
    stepsList (a :: as) = a.steps ++ stepsList as := flatten_eq a _

end Expr

/-- The weight of all pending work. -/
def totalWeight {α : Type} (weight : α → Nat) : List α → Nat
  | [] => 0
  | a :: as => weight a + totalWeight weight as

section TotalWeight

variable {α : Type} {weight : α → Nat}

theorem totalWeight_append (as bs : List α) :
    totalWeight weight (as ++ bs) = totalWeight weight as + totalWeight weight bs := by
  induction as with
  | nil => exact (Nat.zero_add _).symm
  | cons a as ih => rw [List.cons_append, totalWeight, ih, totalWeight, Nat.add_assoc]

theorem totalWeight_reverse (as : List α) :
    totalWeight weight as.reverse = totalWeight weight as := by
  induction as with
  | nil => rfl
  | cons a as ih =>
    rw [List.reverse_cons, totalWeight_append, ih, totalWeight, totalWeight, totalWeight,
      Nat.add_zero, Nat.add_comm]

/-- Trees that are pending weigh as much as their nodes, of which each is looked at twice. -/
theorem totalWeight_trees (weight : α → Nat) (tree : Expr → α)
    (h : ∀ e, weight (tree e) = 2 * e.size) (as : List Expr) :
    totalWeight weight (as.map tree) = 2 * Expr.sizeList as := by
  induction as with
  | nil => rfl
  | cons a as ih => rw [List.map_cons, totalWeight, ih, h, Expr.sizeList, Nat.mul_add]

end TotalWeight

end Formula
