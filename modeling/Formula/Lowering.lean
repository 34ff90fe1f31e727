import Formula.Run

/-!
From trees to programs.

Each node of the tree becomes an instruction, unless its operands are constants and it may be
folded: then the constants at the end of the program give way to the value. The last
instruction of an operand is its root, so a constant there is the whole operand. A call may
be folded if its function is pure. If it fails it stays as it is, to fail again when the
program runs. The walk over the tree keeps a stack of the nodes that it has yet to visit.

While it is built a program has its last instruction first.
-/

namespace Formula

variable {σ : Type}

def Instr.constant? : Instr σ → Option Float
  | const x => some x
  | _ => none

namespace Lowering

/-- The value of a call whose arguments are constants, if it has one. -/
def foldCall (ev : Evaluator σ) (t : Target σ) (args : List (Instr σ)) :
    Action σ Error (Option Float) := fun w =>
  match args.mapM Instr.constant? with
  | none => (.ok none, w)
  | some xs =>
    if maxArity < xs.length then (.error (.full .arguments), w)
    else match t.run ev xs w with
      | (.ok x, w) => (.ok (some x), w.emit (.foldedCall t.name x))
      | (.error e, w) => (.ok none, w.emit (.leftCall t.name e))

/-- Adds a call to the program `p`. -/
def call (ev : Evaluator σ) (fold : Bool) (t : Target σ) (argc : Nat) (p : Program σ) :
    Action σ Error (Program σ) := fun w =>
  if p.length < argc then (.error (.internal (.missingArguments t.name)), w)
  else if fold && t.isPure then
    match foldCall ev t (p.take argc).reverse w with
    | (.ok (some x), w) => (.ok (.const x :: p.drop argc), w)
    | (.ok none, w) => (.ok (.call t argc :: p), w)
    | (.error e, w) => (.error e, w)
  else (.ok (.call t argc :: p), w)

/-- Adds the instruction for what a node does to the program `p`. -/
def step (ev : Evaluator σ) (table : SymbolTable σ) (fold : Bool) (s : Step) (p : Program σ) :
    Action σ Error (Program σ) := fun w =>
  match s with
  | .const x => (.ok (.const x :: p), w)
  | .var k => (.ok (.var k :: p), w)
  | .neg => match fold, p with
    | true, .const x :: p => (.ok (.const (-x) :: p), w)
    | _, _ => (.ok (.neg :: p), w)
  | .binary o => match fold, p with
    | true, .const b :: .const a :: p =>
      let x := o.apply a b
      (.ok (.const x :: p), w.emit (.foldedOperator o a b x))
    | _, _ => (.ok (.binary o :: p), w)
  | .call c argc => match table.target c with
    | .ok t => call ev fold t argc p w
    | .error e => (.error e, w)

/-- Adds the instruction of a node whose operands are at the end of the program `p`. -/
def emit (ev : Evaluator σ) (table : SymbolTable σ) (fold : Bool) (e : Expr) (p : Program σ) :
    Action σ Error (Program σ) := fun w =>
  match e with
  | .neg _ => step ev table fold .neg p w
  | .binary o _ _ => step ev table fold (.binary o) p w
  | .call c as => step ev table fold (.call c as.length) p w
  | .const _ => (.ok p, w)
  | .var _ => (.ok p, w)

/-- A node is visited twice: on the way down, and when its operands are in the program. -/
inductive Visit where
  | enter (e : Expr)
  | exit (e : Expr)

namespace Visit

/-- Makes a visit, and says which ones have to be pushed for it, the last of them on top: a node is
left after its operands, and the leftmost operand is on top. -/
def run (ev : Evaluator σ) (table : SymbolTable σ) (fold : Bool) (v : Visit) (p : Program σ) :
    Action σ Error (List Visit × Program σ) := fun w =>
  match v with
  | enter (.const x) => (.ok ([], .const x :: p), w)
  | enter (.var k) => (.ok ([], .var k :: p), w)
  | enter (.neg a) => (.ok ([exit (.neg a), enter a], p), w)
  | enter (.binary o a b) => (.ok ([exit (.binary o a b), enter b, enter a], p), w)
  | enter (.call c as) => (.ok (exit (.call c as) :: as.reverse.map enter, p), w)
  | exit e => match emit ev table fold e p w with
    | (.ok p, w) => (.ok ([], p), w)
    | (.error e, w) => (.error e, w)

/-- Fewer visits are left after those that are pushed than after the one that was popped. -/
def weight : Visit → Nat
  | enter e => 2 * e.size
  | exit _ => 1

theorem totalWeight_run {ev : Evaluator σ} {table : SymbolTable σ} {fold : Bool} {v : Visit}
    {vs : List Visit} {p p' : Program σ} {w w' : Store σ}
    (h : v.run ev table fold p w = (.ok (vs, p'), w')) : totalWeight weight vs < v.weight := by
  unfold run at h
  split at h
  · cases h
    exact Nat.mul_pos Nat.two_pos Nat.one_pos
  · cases h
    exact Nat.mul_pos Nat.two_pos Nat.one_pos
  · cases h
    simp only [totalWeight, weight, Expr.size]
    omega
  · cases h
    simp only [totalWeight, weight, Expr.size]
    omega
  · rename_i c as
    have has : totalWeight weight (as.map enter) = 2 * Expr.sizeList as :=
      totalWeight_trees weight enter (fun _ => rfl) as
    cases h
    simp only [List.map_reverse, totalWeight, totalWeight_reverse, has, weight, Expr.size]
    omega
  · split at h
    · cases h
      exact Nat.one_pos
    · cases h

/-- Visits until nothing is pending, or something fails. The first visit is on top. -/
def walk (ev : Evaluator σ) (table : SymbolTable σ) (fold : Bool) :
    List Visit → Program σ → Action σ Error (Program σ)
  | [], p, w => (.ok p, w)
  | v :: vs, p, w => match _h : v.run ev table fold p w with
    | (.ok (pushed, p), w) => walk ev table fold (pushed.reverse ++ vs) p w
    | (.error e, w) => (.error e, w)
termination_by vs => totalWeight weight vs
decreasing_by
  rw [totalWeight_append, totalWeight_reverse, totalWeight]
  exact Nat.add_lt_add_right (totalWeight_run _h) _

end Visit

end Lowering

/-- The program of a tree. Host functions run only where a call is folded. -/
def lower (ev : Evaluator σ) (table : SymbolTable σ) (fold : Bool) (e : Expr) :
    Action σ Error (Program σ) := fun w =>
  let (r, w) := Lowering.Visit.walk ev table fold [.enter e] [] w
  (r.map List.reverse, w)

end Formula
