import Formula.Store

/-!
Scripted host functions: a small stock of behaviours, enough to watch how expressions call
functions. Every call is written down, and each function counts its calls.
-/

namespace Formula.Session

/-- The state of the scripted functions. The calls come with the newest first; only the first
`maxCalls` of them are kept. -/
structure Host where
  calls : List (String × List Float) := []
  callCount : Nat := 0
  /-- How often each code has run. -/
  counters : Table Nat Nat := []
  /-- How many evaluations the functions have started and not seen end. -/
  nesting : Nat := 0
  vars : Table String VarId := []
  exprs : Table String ExprId := []

def maxCalls : Nat := 20

namespace Host

def count (h : Host) (code : Nat) : Nat := (h.counters.get? code).getD 0

/-- Writes a call down. -/
def enter (h : Host) (id : String) (code : Nat) (args : List Float) : Host :=
  { h with
    calls := if h.callCount < maxCalls then (id, args) :: h.calls else h.calls
    callCount := h.callCount + 1
    counters := h.counters.put code (h.count code + 1) }

end Host

inductive Behaviour where
  /-- The first argument, twice the second, and so on, added up. -/
  | weighted
  | const (x : Float)
  /-- The first argument, or `x` if there is none. -/
  | first (x : Float)
  /-- The number of the call. -/
  | count
  /-- The number of the call, up to a limit. -/
  | failAfter (limit : Nat) (message : String)
  /-- As `weighted`, but refuses negative arguments. -/
  | checked
  | fail (message : String)
  | increment (var : String)
  | decrement (var : String)
  /-- Sets a variable to the first argument, or to `x` if there is none. -/
  | set (var : String) (x : Float)
  /-- One more than the value of an expression, or as `weighted` once `limit` evaluations are
  nested. -/
  | reevaluate (expr : String) (limit : Nat)

/-- A function as it is asked for. One that cannot fail answers `-1` instead. -/
structure FunctionSpec where
  arity : Nat
  behaviour : Behaviour
  fallible : Bool
  isPure : Bool

def weightedSum (args : List Float) : Float :=
  (args.foldl (fun (sum, i) x => (sum + i * x, i + 1)) ((0 : Float), (1 : Float))).1

/-- The answer of a script that has changed variable `v`. -/
def afterUpdate (v : VarId) : Except Error Unit → Script Host
  | .ok _ => .value v fun x => .done (.ok x)
  | .error e => .done (.error e.message)

def withVariable (h : Host) (name : String) (next : VarId → Script Host) : Script Host :=
  match h.vars.get? name with
  | some v => next v
  | none => .done (.error s!"no variable {name}")

namespace Behaviour

/-- The script of a call that has been written down, `n` being its number. -/
def script (b : Behaviour) (h : Host) (n : Nat) (args : List Float) : Script Host :=
  match b with
  | weighted => .done (.ok (weightedSum args))
  | const x => .done (.ok x)
  | first x => .done (.ok (args.headD x))
  | count => .done (.ok (Float.ofNat n))
  | failAfter limit m => .done (if limit < n then .error m else .ok (Float.ofNat n))
  | checked => match args.find? (· < 0) with
    | some x => .done (.error s!"negative input {String.ofList (printPlain x)}")
    | none => .done (.ok (weightedSum args))
  | fail m => .done (.error m)
  | increment v => withVariable h v fun v => .value v fun x => .update v (x + 1) (afterUpdate v)
  | decrement v => withVariable h v fun v => .value v fun x => .update v (x - 1) (afterUpdate v)
  | set v x => withVariable h v fun v => .update v (args.headD x) (afterUpdate v)
  | reevaluate expr limit =>
    if limit ≤ h.nesting then .done (.ok (weightedSum args))
    else match h.exprs.get? expr with
      | none => .done (.error "no expression")
      | some e =>
        .put { h with nesting := h.nesting + 1 } <| .evaluate e fun r => .get fun h =>
          .put { h with nesting := h.nesting - 1 } <| .done <| match r with
            | .ok x => .ok (x + 1)
            | .error err => .error err.message

/-- How many evaluations the behaviour may nest. -/
def limit : Behaviour → Nat
  | reevaluate _ limit => limit
  | _ => 0

end Behaviour

/-- Changes the result of a script. -/
def mapResult (f : Except String Float → Except String Float) : Script Host → Script Host
  | .done r => .done (f r)
  | .get next => .get fun h => mapResult f (next h)
  | .put h next => .put h (mapResult f next)
  | .value v next => .value v fun x => mapResult f (next x)
  | .isBound v next => .isBound v fun b => mapResult f (next b)
  | .update v x next => .update v x fun r => mapResult f (next r)
  | .evaluate e next => .evaluate e fun r => mapResult f (next r)

def neverFails : Except String Float → Except String Float
  | .ok x => .ok x
  | .error _ => .ok (-1)

namespace FunctionSpec

/-- The code of a function known as `id`. -/
def code (s : FunctionSpec) (id : String) (code : Nat) (args : List Float) : Script Host :=
  .get fun h =>
    let h := h.enter id code args
    let script := Script.put h (s.behaviour.script h (h.count code) args)
    if s.fallible then script else mapResult neverFails script

def function (s : FunctionSpec) (id : String) (code : Nat) : Except Error (HostFunction Host) :=
  (HostFunction.ofCode s.arity (s.code id code)).map fun f => if s.isPure then f.markPure else f

end FunctionSpec

end Formula.Session
