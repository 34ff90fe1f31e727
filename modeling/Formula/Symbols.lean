import Formula.Store

/-!
Symbol tables: the names that the caller of one compilation binds.

Longer names come first, names of one length in the order given. Variables get slots in
that order. A name that the caller does not bind may still be a builtin.
-/

namespace Formula

variable {σ : Type}

/-- The most names that one compilation binds. -/
def maxBindings : Nat := 64

/-- What a name is bound to. -/
inductive Referent (σ : Type) where
  | variable (v : VarId)
  | function (f : HostFunction σ)

/-- A name as the caller wrote it and what it is to stand for. -/
structure Binding (σ : Type) where
  name : Text
  referent : Referent σ

inductive Symbol.Kind (σ : Type) where
  | variable (v : VarId) (slot : Nat)
  | function (f : HostFunction σ)

structure Symbol (σ : Type) where
  name : Name
  kind : Symbol.Kind σ

abbrev SymbolTable (σ : Type) := List (Symbol σ)

namespace SymbolTable

/-- Reads the names in the order given. `room` more of them fit. -/
def readNames : Nat → List (Binding σ) → Except Error (List (Name × Referent σ))
  | _, [] => .ok []
  | 0, _ :: _ => .error (.full .bindings)
  | room + 1, b :: bs => do
    let n ← Name.ofText b.name
    let r ← readNames room bs
    return (n, b.referent) :: r

/-- Numbers the variables and refuses a second binding of a name. `done` is the table so far,
the last symbol first. -/
def number (done : List (Symbol σ)) (slot : Nat) :
    List (Name × Referent σ) → Except Error (SymbolTable σ)
  | [] => .ok done.reverse
  | (n, r) :: rest =>
    if done.any (·.name = n) then .error (.badName n.text .duplicate)
    else match r with
      | .variable v => number (⟨n, .variable v slot⟩ :: done) (slot + 1) rest
      | .function f => number (⟨n, .function f⟩ :: done) slot rest

/-- Whether the first name goes before the second. -/
def longerFirst (a b : Name × Referent σ) : Bool :=
  byteLength b.1.text ≤ byteLength a.1.text

def ofBindings (bs : List (Binding σ)) : Except Error (SymbolTable σ) := do
  let names ← readNames maxBindings bs
  number [] 0 (names.mergeSort longerFirst)

variable (t : SymbolTable σ)

/-- The variables with their names, in slot order. -/
def vars : List (Name × VarId) :=
  t.filterMap fun s => match s.kind with
    | .variable v _ => some (s.name, v)
    | .function _ => none

def indexOf? (name : Text) : Option Nat := t.findIdx? (·.name.text = name)

/-- What a name stands for: a binding of the caller, else a builtin. -/
def resolve (name : Text) : Option Meaning :=
  match t.indexOf? name with
  | some i => t[i]?.map fun s => match s.kind with
    | .variable _ slot => .variable slot
    | .function f => .function (.bound i) f.arity
  | none => (Builtin.find? name).map fun b => .function (.builtin b) b.arity

/-- The host function that a symbol names, with the name. -/
def functionAt? (i : Nat) : Option (Name × HostFunction σ) :=
  t[i]?.bind fun s => match s.kind with
    | .function f => some (s.name, f)
    | .variable .. => none

/-- The current value of the variable with a slot number. -/
def slotValue? (w : Store σ) (slot : Nat) : Option Float :=
  t.vars[slot]?.map fun v => w.value v.2

end SymbolTable

end Formula
