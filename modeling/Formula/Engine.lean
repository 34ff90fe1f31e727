import Formula.Parser
import Formula.Lowering

/-!
What a caller can do: check a text, interpret it once, compile it, evaluate what was compiled,
and close it.

Compiling binds every variable of the symbol table to the new expression before the text is
even read; whatever fails later releases them again.
-/

namespace Formula

variable {σ : Type}

/-- Evaluates a compiled expression. Evaluations started by host functions may nest: `depth`
of them, this one included, can be under way at a time. A nested evaluation of an
expression whose stack is in use gets a stack of its own. -/
def evaluate (depth : Nat) : Evaluator σ := fun e w =>
  match depth with
  | 0 => (.error (.internal .endless), w)
  | depth + 1 =>
    match w.exprs.get? e with
    | none => (.error (.state .disposed), w)
    | some c => match c.program, c.stack with
      | none, _ => (.error (.state .disposed), w)
      | some p, some stack =>
        let w := w.modifyExpr e fun c => { c with stack := none }
        let (r, m) := p.run (evaluate depth) e ⟨stack, w⟩
        (r, m.store.modifyExpr e fun c => { c with stack := some m.stack })
      | some p, none =>
        let (r, m) := p.run (evaluate depth) e ⟨[], w⟩
        (r, m.store)

namespace Store

/-- Makes room for an expression that is going to be compiled. -/
def prepare (w : Store σ) (e : ExprId) (text : Text) : Store σ :=
  { w with exprs := w.exprs.put e ⟨text, none, [], some []⟩ }

/-- Gives back all that was prepared for an expression. -/
def abandon (w : Store σ) (e : ExprId) : Store σ :=
  let w := w.release e
  { w with exprs := w.exprs.erase e }

/-- Attaches variables in slot order, until one is bound already. -/
def attachAll (w : Store σ) (e : ExprId) : List (Name × VarId) → Except Error Unit × Store σ
  | [] => (.ok (), w)
  | (n, v) :: vs => match w.attach e n v with
    | (.ok _, w) => w.attachAll e vs
    | (.error err, w) => (.error err, w)

/-- Puts the program of an expression into its place. -/
def install (w : Store σ) (e : ExprId) (text : Text) (p : Program σ) : Store σ :=
  let slots := ((w.exprs.get? e).map fun c => c.slots.length).getD 0
  (w.modifyExpr e fun c => { c with program := some p }).emit (.compiled text p.length slots)

/-- Takes the program of an expression away and unbinds its variables. Closing again changes
nothing. -/
def close (w : Store σ) (e : ExprId) : Store σ :=
  match w.exprs.get? e with
  | some ⟨source, some _, _, _⟩ =>
    ((w.release e).modifyExpr e fun c => { c with program := none, stack := some [] }).emit
      (.disposed source)
  | _ => w

/-- Closes an expression for good. -/
def drop (w : Store σ) (e : ExprId) : Store σ :=
  let w := w.close e
  { w with exprs := w.exprs.erase e }

end Store

/-- Builds the program of a prepared expression. -/
def build (depth : Nat) (e : ExprId) (table : SymbolTable σ) (o : Options) (text : Text) :
    Action σ Error Unit := fun w =>
  match w.attachAll e table.vars with
  | (.error err, w) => (.error err, w)
  | (.ok _, w) => match parse table.resolve o text with
    | .error err => (.error (.parse err), w)
    | .ok tree => match lower (evaluate depth) table o.foldConstants tree w with
      | (.error err, w) => (.error err, w)
      | (.ok p, w) => (.ok (), w.install e text p)

/-- Compiles a text under the number `e`, which must be free. If that fails nothing is left of
the attempt but the log. -/
def compile (depth : Nat) (e : ExprId) (bs : List (Binding σ)) (o : Options) (text : Text) :
    Action σ Error Unit := fun w =>
  match SymbolTable.ofBindings bs with
  | .error err => (.error err, w)
  | .ok table => match build depth e table o text (w.prepare e text) with
    | (.ok _, w) => (.ok (), w)
    | (.error err, w) => (.error err, (w.abandon e).emit (.failed text err))

/-- Whether a text compiles. The expression is closed at once. -/
def validateWith (depth : Nat) (e : ExprId) (bs : List (Binding σ)) (o : Options) (text : Text)
    (w : Store σ) : Bool × Store σ :=
  match compile depth e bs o text w with
  | (.ok _, w) => (true, w.drop e)
  | (.error _, w) => (false, w)

/-- Names without any binding. -/
def constantNames : SymbolTable Unit := []

/-- Whether a text is a constant expression. -/
def validate (o : Options) (text : Text) : Bool := (parse constantNames.resolve o text).isOk

/-- The value of a constant expression. -/
def interpret (o : Options) (text : Text) : Except Error Float :=
  match parse constantNames.resolve o text with
  | .error err => .error (.parse err)
  | .ok tree => (tree.eval (evaluate 0) constantNames (.empty ())).1

/-- The tree of a text whose names the caller binds. -/
def parseWith (bs : List (Binding σ)) (o : Options) (text : Text) :
    Except Error (SymbolTable σ × Expr) :=
  match SymbolTable.ofBindings bs with
  | .error err => .error err
  | .ok table => match parse table.resolve o text with
    | .error err => .error (.parse err)
    | .ok tree => .ok (table, tree)

/-- Evaluates a text once, with the current values of the variables it names. -/
def interpretWith (depth : Nat) (bs : List (Binding σ)) (o : Options) (text : Text) :
    Action σ Error Float := fun w =>
  match parseWith bs o text with
  | .error err => (.error err, w)
  | .ok (table, tree) => tree.eval (evaluate depth) table w

end Formula
