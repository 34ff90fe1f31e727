import Formula.Table
import Formula.Program
import Formula.Number.Print

/-!
Variables and compiled expressions that live together.

A compiled expression has a slot for each of its variables, and the slot is the one listener
of the variable: an update of the variable goes to the slot too. Evaluation reads slots only.
-/

namespace Formula

/-- A slot: the expression it belongs to and its number there. -/
structure SlotId where
  owner : ExprId
  index : Nat
deriving DecidableEq

structure Cell where
  value : Float
  listener : Option SlotId

structure Slot where
  name : Name
  var : VarId
  value : Float

/-- A compiled expression. The program is missing while it is being compiled and once it is
closed; the stack is missing while an evaluation has it. -/
structure Compiled (σ : Type) where
  source : Text
  program : Option (Program σ)
  slots : List Slot
  stack : Option (List Float)

/-- An entry of the log. -/
inductive Record where
  | foldedOperator (op : Operator) (a b value : Float)
  | foldedCall (function : Text) (value : Float)
  | leftCall (function : Text) (err : Error)
  | compiled (source : Text) (instructions vars : Nat)
  | failed (source : Text) (err : Error)
  | disposed (source : Text)

inductive Level where
  | debug
  | trace
deriving DecidableEq

namespace Record

def level : Record → Level
  | foldedOperator .. | foldedCall .. | leftCall .. => .trace
  | compiled .. | failed .. | disposed .. => .debug

def message : Record → String
  | foldedOperator o a b x =>
    let word := fun x => String.ofList (printPlain x)
    s!"folded {word a} {o.symbol} {word b} to {word x}"
  | foldedCall f x => s!"folded call to '{String.ofList f}' to {String.ofList (printPlain x)}"
  | leftCall f e => s!"left call to '{String.ofList f}' unfolded: {e.message}"
  | compiled t n m =>
    s!"compiled '{String.ofList t}' into {n} instructions with {m} variables"
  | failed t e => s!"failed to compile '{String.ofList t}': {e.message}"
  | disposed t => s!"disposed '{String.ofList t}'"

end Record

/-- Everything an operation can read or change. The newest record of the log comes first.
`host` is the state of the host's own code. -/
structure Store (σ : Type) where
  cells : Table VarId Cell
  exprs : Table ExprId (Compiled σ)
  log : List Record
  host : σ

namespace Store

variable {σ : Type}

def empty (host : σ) : Store σ := ⟨[], [], [], host⟩

def emit (w : Store σ) (r : Record) : Store σ := { w with log := r :: w.log }

/-- A variable that was never set is zero. -/
def cell (w : Store σ) (v : VarId) : Cell := (w.cells.get? v).getD ⟨0, none⟩

def setCell (w : Store σ) (v : VarId) (c : Cell) : Store σ :=
  { w with cells := w.cells.put v c }

@[simp] theorem cell_setCell (w : Store σ) (v u : VarId) (c : Cell) :
    (w.setCell v c).cell u = if v = u then c else w.cell u := by
  unfold cell setCell
  rw [Table.get?_put]
  split <;> rfl

def value (w : Store σ) (v : VarId) : Float := (w.cell v).value

/-- Whether a live expression listens to the variable. -/
def isBound (w : Store σ) (v : VarId) : Bool := (w.cell v).listener.isSome

/-- Makes a new variable. -/
def newVariable (w : Store σ) (v : VarId) (x : Float) : Store σ := w.setCell v ⟨x, none⟩

def modifyExpr (w : Store σ) (e : ExprId) (f : Compiled σ → Compiled σ) : Store σ :=
  { w with exprs := w.exprs.modify e f }

@[simp] theorem cell_modifyExpr (w : Store σ) (e : ExprId) (f : Compiled σ → Compiled σ)
    (v : VarId) : (w.modifyExpr e f).cell v = w.cell v := rfl

def setSlot (w : Store σ) (s : SlotId) (x : Float) : Store σ :=
  w.modifyExpr s.owner fun c =>
    { c with slots := c.slots.modify s.index fun slot => { slot with value := x } }

/-- What an expression reads from one of its slots. -/
def slotValue (w : Store σ) (e : ExprId) (k : Nat) : Except Error Float :=
  match (w.exprs.get? e).bind fun c => c.slots[k]? with
  | some slot => .ok slot.value
  | none => .error (.state .disposed)

/-- Sets a variable and the slot that listens to it. A variable without listener cannot be
set. -/
def update (w : Store σ) (v : VarId) (x : Float) : Except Error Unit × Store σ :=
  match (w.cell v).listener with
  | none => (.error (.state .unbound), w)
  | some s => (.ok (), (w.setCell v ⟨x, some s⟩).setSlot s x)

/-- The new value is there at once, and only where a listener is. -/
theorem value_update (w : Store σ) (v u : VarId) (x : Float) :
    (w.update v x).2.value u = if v = u ∧ w.isBound v then x else w.value u := by
  unfold update
  split <;> rename_i h
  · simp [isBound, h]
  · by_cases hu : v = u
    · subst hu
      simp [value, setSlot, isBound, h]
    · simp [value, setSlot, hu]

def increment (w : Store σ) (v : VarId) : Except Error Unit × Store σ :=
  w.update v (w.value v + 1)

def decrement (w : Store σ) (v : VarId) : Except Error Unit × Store σ :=
  w.update v (w.value v - 1)

/-- Gives expression `e` a slot for a variable that has no listener. -/
def attach (w : Store σ) (e : ExprId) (name : Name) (v : VarId) : Except Error Unit × Store σ :=
  match w.exprs.get? e with
  | none => (.error (.state .disposed), w)
  | some c =>
    let cell := w.cell v
    if cell.listener.isSome then (.error (.state .alreadyBound), w)
    else
      (.ok (), (w.setCell v { cell with listener := some ⟨e, c.slots.length⟩ }).modifyExpr e
        fun c => { c with slots := c.slots ++ [⟨name, v, cell.value⟩] })

/-- Clears the listener of a variable if it is `s`. The value stays. -/
def detach (w : Store σ) (s : SlotId) (v : VarId) : Store σ :=
  let cell := w.cell v
  if cell.listener = some s then w.setCell v { cell with listener := none } else w

/-- Detaches the variables of slots that are numbered from `k` on. -/
def detachAll (w : Store σ) (e : ExprId) (k : Nat) : List Slot → Store σ
  | [] => w
  | s :: ss => (w.detach ⟨e, k⟩ s.var).detachAll e (k + 1) ss

/-- Detaches every variable of an expression and takes its slots away. -/
def release (w : Store σ) (e : ExprId) : Store σ :=
  match w.exprs.get? e with
  | none => w
  | some c => (w.detachAll e 0 c.slots).modifyExpr e fun c => { c with slots := [] }

end Store

end Formula
