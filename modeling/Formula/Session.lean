import Formula.Session.Behaviour
import Formula.Engine
import Formula.Render
import Formula.Debug

/-!
A session: variables, functions and expressions under names, and the operations on them.
-/

namespace Formula

structure Session where
  store : Store Session.Host := .empty {}
  functions : Table String (HostFunction Session.Host) := []
  /-- Numbers that are not in use yet. -/
  freshVar : VarId := 0
  freshExpr : ExprId := 0
  freshCode : Nat := 0
  /-- How many evaluations may be under way at a time. -/
  depth : Nat := 1

namespace Session

/-- What a binding refers to, by name. -/
inductive Ref where
  | variable (name : String)
  | function (name : String)

variable (s : Session)

def modifyHost (f : Host → Host) : Session :=
  { s with store := { s.store with host := f s.store.host } }

def var? (name : String) : Option VarId := s.store.host.vars.get? name

def exprId? (name : String) : Option ExprId := s.store.host.exprs.get? name

def expr? (name : String) : Option (Compiled Host) :=
  (s.exprId? name).bind fun e => s.store.exprs.get? e

def referent? : Ref → Option (Referent Host)
  | .variable n => (s.var? n).map .variable
  | .function n => (s.functions.get? n).map .function

def bindings? (bs : List (Text × Ref)) : Option (List (Binding Host)) :=
  bs.mapM fun (n, r) => (s.referent? r).map fun r => ⟨n, r⟩

/-- Makes a new variable under a name. -/
def newVariable (name : String) (x : Float) : Session :=
  let v := s.freshVar
  let s := { s with store := s.store.newVariable v x, freshVar := v + 1 }
  s.modifyHost fun h => { h with vars := h.vars.put name v }

/-- A second name for a variable. -/
def cloneVariable? (name of : String) : Option Session :=
  (s.var? of).map fun v => s.modifyHost fun h => { h with vars := h.vars.put name v }

/-- Runs an operation of the store. -/
def act {ε α : Type} (f : Action Host ε α) : Except ε α × Session :=
  let (r, w) := f s.store
  (r, { s with store := w })

def onVariable? (name : String) (f : Store Host → VarId → Except Error Unit × Store Host) :
    Option (Except Error Unit × Session) :=
  (s.var? name).map fun v => s.act fun w => f w v

def newFunction (name : String) (spec : FunctionSpec) : Except Error Unit × Session :=
  match spec.function name s.freshCode with
  | .error e => (.error e, s)
  | .ok f => (.ok (), { s with
      functions := s.functions.put name f
      freshCode := s.freshCode + 1
      depth := max s.depth (spec.behaviour.limit + 1) })

/-- A copy of a function that is marked pure and shares its code. -/
def purify? (name of : String) : Option Session :=
  (s.functions.get? of).map fun f => { s with functions := s.functions.put name f.markPure }

/-- Calls a function from outside of any expression. -/
def call? (name : String) (args : List Float) : Option (Except String Float × Session) :=
  (s.functions.get? name).map fun f => s.act ((f.call args).run (evaluate s.depth))

def parse (bs : List (Binding Host)) (o : Options) (t : Text) : Except Error Expr :=
  (parseWith bs o t).map (·.2)

def interpret (bs : List (Binding Host)) (o : Options) (t : Text) :
    Except Error Float × Session :=
  s.act (interpretWith s.depth bs o t)

def validate (bs : List (Binding Host)) (o : Options) (t : Text) : Bool × Session :=
  let e := s.freshExpr
  let (b, w) := validateWith s.depth e bs o t s.store
  (b, { s with store := w, freshExpr := e + 1 })

/-- Compiles a text and keeps the expression under a name. The expression that had the name
before is dropped. -/
def compile (name : String) (bs : List (Binding Host)) (o : Options) (t : Text) :
    Except Error Unit × Session :=
  let e := s.freshExpr
  let (r, s) := s.act (Formula.compile s.depth e bs o t)
  match r with
  | .error err => (.error err, s)
  | .ok _ =>
    let s := { s with
      freshExpr := e + 1
      store := match s.exprId? name with
        | some old => s.store.drop old
        | none => s.store }
    (.ok (), s.modifyHost fun h => { h with exprs := h.exprs.put name e })

def evaluate? (name : String) : Option (Except Error Float × Session) :=
  (s.exprId? name).map fun e => s.act (evaluate s.depth e)

/-- The results of `n` evaluations, one after the other. -/
def evaluateTimes (name : String) : Nat → Session → List (Except Error Float) × Session
  | 0, s => ([], s)
  | n + 1, s => match s.evaluate? name with
    | none => ([], s)
    | some (r, s) =>
      let (rs, s) := evaluateTimes name n s
      (r :: rs, s)

def close? (name : String) : Option Session :=
  (s.exprId? name).map fun e => { s with store := s.store.close e }

/-- Drops an expression, and says whether there was one. -/
def drop (name : String) : Bool × Session :=
  match s.exprId? name with
  | none => (false, s)
  | some e =>
    let s := { s with store := s.store.drop e }
    (true, s.modifyHost fun h => { h with exprs := h.exprs.erase name })

def debug? : Ref → Option String
  | .variable n => (s.var? n).map s.store.debugVariable
  | .function n => (s.functions.get? n).map HostFunction.debug

def debugBinding? (name : Text) (r : Ref) : Option String :=
  (s.referent? r).map fun r => s.store.debugBinding ⟨name, r⟩

def debugExpr? (name : String) : Option String := (s.expr? name).map Compiled.debug

/-- What a step has left to see: the calls with their number, the variables by name, and the
log. -/
structure Report where
  calls : List (String × List Float)
  callCount : Nat
  vars : List (String × Float × Bool)
  log : List Record

def report : Report :=
  let vars := s.store.host.vars.mergeSort fun a b => a.1 ≤ b.1
  { calls := s.store.host.calls.reverse
    callCount := s.store.host.callCount
    vars := vars.map fun (n, v) => (n, s.store.value v, s.store.isBound v)
    log := s.store.log.reverse }

/-- Forgets the calls and the log of the steps before. -/
def nextStep : Session :=
  { s with store := { s.store with
      log := []
      host := { s.store.host with calls := [], callCount := 0 } } }

end Session

end Formula
