import Formula.Error

/-!
Host functions: code that the surrounding program lends to expressions.

The code of a function is a script for each list of arguments. A script answers after any
number of requests: it reads and writes the host's own state, of type `σ`, reads and updates
variables, asks whether they are bound, and evaluates live expressions. What a request comes to
decides how the script goes on.
-/

namespace Formula

abbrev VarId := Nat

abbrev ExprId := Nat

/-- Host code in the middle of a call. -/
inductive Script (σ : Type) where
  /-- The value of the call, or what went wrong in the host's words. -/
  | done (result : Except String Float)
  | get (next : σ → Script σ)
  | put (host : σ) (next : Script σ)
  | value (v : VarId) (next : Float → Script σ)
  | isBound (v : VarId) (next : Bool → Script σ)
  | update (v : VarId) (x : Float) (next : Except Error Unit → Script σ)
  | evaluate (e : ExprId) (next : Except Error Float → Script σ)

structure HostFunction (σ : Type) where
  arity : Nat
  /-- Same arguments always give the same result, so calls may be folded. -/
  isPure : Bool
  code : List Float → Script σ
  arity_le : arity ≤ maxArity

namespace HostFunction

variable {σ : Type}

/-- A function is impure until it is marked. -/
def ofCode (arity : Nat) (code : List Float → Script σ) : Except Error (HostFunction σ) :=
  if h : arity ≤ maxArity then .ok ⟨arity, false, code, h⟩ else .error (.badArity arity)

def markPure (f : HostFunction σ) : HostFunction σ := { f with isPure := true }

/-- The code runs only with the declared number of arguments. -/
def call (f : HostFunction σ) (args : List Float) : Script σ :=
  if args.length = f.arity then f.code args
  else .done (.error s!"expected {f.arity} arguments, found {args.length}")

end HostFunction

end Formula
