import Formula.Symbols
import Formula.Postfix

/-!
Running scripts, trees and programs.

Both machines keep a stack of values with the last value first. The walk over a tree keeps a
second stack, of the work that is left to do. Arguments are evaluated from left to right. Whatever
a host function does to the store is there for what runs after it.

`ev` stands for the evaluation of an expression on behalf of a script.
-/

namespace Formula

variable {σ : Type}

/-- A computation that may fail and changes the store either way. -/
abbrev Action (σ ε α : Type) := Store σ → Except ε α × Store σ

abbrev Evaluator (σ : Type) := ExprId → Action σ Error Float

def Script.run (ev : Evaluator σ) : Script σ → Action σ String Float
  | done r, w => (r, w)
  | get next, w => (next w.host).run ev w
  | put h next, w => next.run ev { w with host := h }
  | value v next, w => (next (w.value v)).run ev w
  | isBound v next, w => (next (w.isBound v)).run ev w
  | update v x next, w => let (r, w) := w.update v x; (next r).run ev w
  | evaluate e next, w => let (r, w) := ev e w; (next r).run ev w

/-- Calls a function. A failure of host code is reported under the name it is bound to. -/
def Target.run (ev : Evaluator σ) (t : Target σ) (args : List Float) : Action σ Error Float :=
  fun w => match t with
    | .builtin b => (.ok (b.call args), w)
    | .host name f =>
      let (r, w) := (f.call args).run ev w
      (r.mapError (.evaluation name.text), w)

/-- The function that a call in a tree refers to. -/
def SymbolTable.target (t : SymbolTable σ) : Callee → Except Error (Target σ)
  | .builtin b => .ok (.builtin b)
  | .bound i => match t.functionAt? i with
    | some (n, f) => .ok (.host n f)
    | none => .error (.internal (.noFunction i))

/-- A machine: its stack and the store. -/
structure Machine (σ : Type) where
  stack : List Float
  store : Store σ

namespace Machine

/-- Pushes a value, or fails. -/
def push (m : Machine σ) : Except Error Float → Except Error Unit × Machine σ
  | .ok x => (.ok (), { m with stack := x :: m.stack })
  | .error e => (.error e, m)

/-- Replaces the last value. -/
def neg (m : Machine σ) : Except Error Unit × Machine σ :=
  match m.stack with
  | a :: s => (.ok (), { m with stack := -a :: s })
  | [] => (.error (.internal .stackUnderflow), m)

/-- Replaces the last two values. -/
def binary (m : Machine σ) (o : Operator) : Except Error Unit × Machine σ :=
  match m.stack with
  | b :: a :: s => (.ok (), { m with stack := o.apply a b :: s })
  | _ => (.error (.internal .stackUnderflow), { m with stack := [] })

/-- Replaces the last `argc` values, which stay where they are while the function runs. -/
def call (ev : Evaluator σ) (m : Machine σ) (t : Except Error (Target σ)) (argc : Nat) :
    Except Error Unit × Machine σ :=
  if m.stack.length < argc then
    (.error (.internal (.missingValues argc m.stack.length)), m)
  else match t with
    | .error e => (.error e, m)
    | .ok t => match t.run ev (m.stack.take argc).reverse m.store with
      | (.ok x, w) => (.ok (), ⟨x :: m.stack.drop argc, w⟩)
      | (.error e, w) => (.error e, ⟨m.stack, w⟩)

/-- Runs steps one after the other until one fails. -/
def runAll {ι : Type} (step : ι → Machine σ → Except Error Unit × Machine σ) :
    List ι → Machine σ → Except Error Unit × Machine σ
  | [], m => (.ok (), m)
  | i :: is, m => match step i m with
    | (.ok _, m) => runAll step is m
    | (.error e, m) => (.error e, m)

theorem runAll_append {ι : Type} (step : ι → Machine σ → Except Error Unit × Machine σ)
    (is js : List ι) (m : Machine σ) :
    runAll step (is ++ js) m = match runAll step is m with
      | (.ok _, m) => runAll step js m
      | (.error e, m) => (.error e, m) := by
  induction is generalizing m with
  | nil => rfl
  | cons i is ih =>
    simp only [List.cons_append, runAll]
    rcases step i m with ⟨_ | _, m⟩
    · rfl
    · exact ih m

/-- The only value on the stack. -/
def result (m : Machine σ) : Except Error Float :=
  match m.stack with
  | [x] => .ok x
  | s => .error (.internal (.leftover s.length))

/-- What a node does to the machine once its operands are there. Variables are read from their
current values. -/
def step (ev : Evaluator σ) (t : SymbolTable σ) (s : Step) (m : Machine σ) :
    Except Error Unit × Machine σ :=
  match s with
  | .const x => m.push (.ok x)
  | .var k => m.push <| match t.slotValue? m.store k with
    | some x => .ok x
    | none => .error (.internal (.noVariable k))
  | .neg => m.neg
  | .binary o => m.binary o
  | .call c argc => m.call ev (t.target c) argc

/-- One instruction of a program. Variables are read from the slots of expression `e`. -/
def exec (ev : Evaluator σ) (e : ExprId) (i : Instr σ) (m : Machine σ) :
    Except Error Unit × Machine σ :=
  match i with
  | .const x => m.push (.ok x)
  | .var k => m.push (m.store.slotValue e k)
  | .neg => m.neg
  | .binary o => m.binary o
  | .call t argc => m.call ev (.ok t) argc

/-- The result of a run that has ended. -/
def finish : Except Error Unit × Machine σ → Except Error Float × Machine σ
  | (.ok _, m) => (m.result, m)
  | (.error e, m) => (.error e, m)

end Machine

/-- Work that is left to do in the walk over a tree: a tree that nobody has looked at, or a node
whose operands are there when its turn comes. -/
inductive EvalOp where
  | eval (e : Expr)
  | apply (s : Step)

namespace EvalOp

/-- Nothing more has to be done for the step. -/
def act (ev : Evaluator σ) (t : SymbolTable σ) (s : Step) (m : Machine σ) :
    Except Error (List EvalOp) × Machine σ :=
  match m.step ev t s with
  | (.ok _, m) => (.ok [], m)
  | (.error e, m) => (.error e, m)

theorem act_eq_ok {ev : Evaluator σ} {t : SymbolTable σ} {s : Step} {m m' : Machine σ}
    {ops : List EvalOp} (h : act ev t s m = (.ok ops, m')) :
    ops = [] ∧ m.step ev t s = (.ok (), m') := by
  unfold act at h
  split at h
  · rename_i hs
    cases h
    exact ⟨rfl, hs⟩
  · cases h

/-- Does a piece of work, and says what has to be pushed for it, the last of it on top: a node
waits below its operands, and the leftmost operand is on top. -/
def run (ev : Evaluator σ) (t : SymbolTable σ) (op : EvalOp) (m : Machine σ) :
    Except Error (List EvalOp) × Machine σ :=
  match op with
  | eval (.const x) => act ev t (.const x) m
  | eval (.var k) => act ev t (.var k) m
  | eval (.neg a) => (.ok [apply .neg, eval a], m)
  | eval (.binary o a b) => (.ok [apply (.binary o), eval b, eval a], m)
  | eval (.call c as) => (.ok (apply (.call c as.length) :: as.reverse.map eval), m)
  | apply s => act ev t s m

/-- What is pushed is less work than what was popped. -/
def weight : EvalOp → Nat
  | eval e => 2 * e.size
  | apply _ => 1

theorem totalWeight_run {ev : Evaluator σ} {t : SymbolTable σ} {op : EvalOp} {m m' : Machine σ}
    {ops : List EvalOp} (h : op.run ev t m = (.ok ops, m')) :
    totalWeight weight ops < op.weight := by
  unfold run at h
  split at h
  · rw [(act_eq_ok h).1]
    exact Nat.mul_pos Nat.two_pos Nat.one_pos
  · rw [(act_eq_ok h).1]
    exact Nat.mul_pos Nat.two_pos Nat.one_pos
  · cases h
    simp only [totalWeight, weight, Expr.size]
    omega
  · cases h
    simp only [totalWeight, weight, Expr.size]
    omega
  · rename_i c as
    have has : totalWeight weight (as.map eval) = 2 * Expr.sizeList as :=
      totalWeight_trees weight eval (fun _ => rfl) as
    cases h
    simp only [List.map_reverse, totalWeight, totalWeight_reverse, has, weight, Expr.size]
    omega
  · rw [(act_eq_ok h).1]
    exact Nat.one_pos

/-- Works until nothing is left to do, or something fails. The first piece of work is on top. -/
def walk (ev : Evaluator σ) (t : SymbolTable σ) :
    List EvalOp → Machine σ → Except Error Unit × Machine σ
  | [], m => (.ok (), m)
  | op :: ops, m => match _h : op.run ev t m with
    | (.ok pushed, m) => walk ev t (pushed.reverse ++ ops) m
    | (.error e, m) => (.error e, m)
termination_by ops => totalWeight weight ops
decreasing_by
  rw [totalWeight_append, totalWeight_reverse, totalWeight]
  exact Nat.add_lt_add_right (totalWeight_run _h) _

end EvalOp

/-- The value of a tree. -/
def Expr.eval (ev : Evaluator σ) (t : SymbolTable σ) (e : Expr) : Action σ Error Float :=
  fun w =>
    let (r, m) := Machine.finish (EvalOp.walk ev t [.eval e] ⟨[], w⟩)
    (r, m.store)

/-- The value of a program of expression `e`, and the machine as the run leaves it. What was on
the stack before is thrown away. -/
def Program.run (ev : Evaluator σ) (e : ExprId) (p : Program σ) (m : Machine σ) :
    Except Error Float × Machine σ :=
  Machine.finish (Machine.runAll (Machine.exec ev e) p { m with stack := [] })

end Formula
