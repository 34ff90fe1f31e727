import Formula.Engine
import Mathlib.Data.Nat.Notation
import Mathlib.Tactic.Lemma

/-!
The calls of host functions that a run makes, in their order.
-/

namespace Formula

variable {σ : Type}

/-- A call of a host function and what came of it. -/
structure Call (σ : Type) where
  name : Name
  function : HostFunction σ
  args : List Float
  result : Except String Float

/-- Builtins are no host functions. -/
def Target.calls (ev : Evaluator σ) (t : Target σ) (args : List Float) (w : Store σ) :
    List (Call σ) :=
  match t with
  | .builtin _ => []
  | .host n f => [⟨n, f, args, ((f.call args).run ev w).1⟩]

namespace Machine

variable {β : Type} (ev : Evaluator σ)

/-- What is observed when the machine makes a call. -/
def atCall (observe : Target σ → List Float → Store σ → List β) (m : Machine σ)
    (t : Except Error (Target σ)) (argc : ℕ) : List β :=
  if m.stack.length < argc then []
  else match t with
    | .ok t => observe t (m.stack.take argc).reverse m.store
    | .error _ => []

def stepCalls (table : SymbolTable σ) (s : Step) (m : Machine σ) : List (Call σ) :=
  match s with
  | .call c argc => m.atCall (Target.calls ev) (table.target c) argc
  | _ => []

def execCalls (i : Instr σ) (m : Machine σ) : List (Call σ) :=
  match i with
  | .call t argc => m.atCall (Target.calls ev) (.ok t) argc
  | _ => []

lemma finish_snd (r : Except Error Unit × Machine σ) : (finish r).2 = r.2 := by
  rcases r with ⟨_ | _, m⟩ <;> rfl

lemma store_push (m : Machine σ) (r : Except Error Float) : (m.push r).2.store = m.store := by
  cases r <;> rfl

lemma store_neg (m : Machine σ) : m.neg.2.store = m.store := by
  unfold neg
  split <;> rfl

lemma store_binary (m : Machine σ) (o : Operator) : (m.binary o).2.store = m.store := by
  unfold binary
  split <;> rfl

/-- A call finds its arguments at the end of the stack. -/
lemma call_args (t : Target σ) (xs s : List Float) (w : Store σ) :
    (⟨xs.reverse ++ s, w⟩ : Machine σ).call ev (.ok t) xs.length =
      match t.run ev xs w with
      | (.ok x, w) => (.ok (), ⟨x :: s, w⟩)
      | (.error err, w) => (.error err, ⟨xs.reverse ++ s, w⟩) := by
  have hlen : xs.length = xs.reverse.length := by simp
  have hle : ¬(xs.reverse ++ s).length < xs.length := by simp
  simp only [call, if_neg hle]
  rcases hrun : t.run ev xs w with ⟨_ | _, w'⟩
  · simp only [List.take_left' hlen.symm, List.reverse_reverse, hrun]
  · simp only [List.take_left' hlen.symm, List.drop_left' hlen.symm, List.reverse_reverse, hrun]

lemma atCall_args (observe : Target σ → List Float → Store σ → List β) (t : Target σ)
    (xs s : List Float) (w : Store σ) :
    (⟨xs.reverse ++ s, w⟩ : Machine σ).atCall observe (.ok t) xs.length = observe t xs w := by
  have hlen : xs.length = xs.reverse.length := by simp
  have hle : ¬(xs.reverse ++ s).length < xs.length := by simp
  simp only [atCall, if_neg hle]
  rw [List.take_left' hlen.symm, List.reverse_reverse]

section Gather

variable {ι : Type} (step : ι → Machine σ → Except Error Unit × Machine σ)
  (observe : ι → Machine σ → List β)

/-- What is observed of every step that is taken. -/
def gather : List ι → Machine σ → List β
  | [], _ => []
  | i :: is, m => observe i m ++ match step i m with
    | (.ok _, m) => gather is m
    | (.error _, _) => []

lemma gather_append (is js : List ι) (m : Machine σ) :
    gather step observe (is ++ js) m = gather step observe is m ++
      match runAll step is m with
      | (.ok _, m) => gather step observe js m
      | (.error _, _) => [] := by
  induction is generalizing m with
  | nil => rfl
  | cons i is ih =>
    simp only [List.cons_append, gather, runAll]
    rcases step i m with ⟨_ | _, m⟩
    · simp
    · simp only [ih, List.append_assoc]

end Gather

end Machine

namespace EvalOp

variable {β : Type}

/-- The step that is taken for a piece of work, if it is not only cut up. -/
def step? : EvalOp → Option Step
  | eval (.const x) => some (.const x)
  | eval (.var k) => some (.var k)
  | eval _ => none
  | apply s => some s

/-- What is observed of every step that the walk over a tree takes. -/
def gather (ev : Evaluator σ) (table : SymbolTable σ) (observe : Step → Machine σ → List β) :
    List EvalOp → Machine σ → List β
  | [], _ => []
  | op :: ops, m => (op.step?.elim [] fun s => observe s m) ++ match _h : op.run ev table m with
    | (.ok pushed, m) => gather ev table observe (pushed.reverse ++ ops) m
    | (.error _, _) => []
termination_by ops => totalWeight weight ops
decreasing_by
  rw [totalWeight_append, totalWeight_reverse, totalWeight]
  exact Nat.add_lt_add_right (totalWeight_run _h) _

end EvalOp

/-- The calls made when a tree is evaluated. -/
def Expr.calls (ev : Evaluator σ) (table : SymbolTable σ) (e : Expr) (w : Store σ) :
    List (Call σ) :=
  EvalOp.gather ev table (Machine.stepCalls ev table) [.eval e] ⟨[], w⟩

/-- The calls made when a program of expression `e` is run. -/
def Program.calls (ev : Evaluator σ) (e : ExprId) (p : Program σ) (m : Machine σ) :
    List (Call σ) :=
  Machine.gather (Machine.exec ev e) (Machine.execCalls ev) p { m with stack := [] }

end Formula
