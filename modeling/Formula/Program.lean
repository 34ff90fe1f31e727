import Formula.Name
import Formula.Expr
import Formula.Script

/-!
Postfix programs.

Operands come before the instruction that consumes them, so a stack of values is all that is
needed to run one.
-/

namespace Formula

variable {σ : Type}

/-- The function that a compiled call runs. -/
inductive Target (σ : Type) where
  | builtin (b : Builtin)
  | host (name : Name) (f : HostFunction σ)

namespace Target

def name : Target σ → Text
  | builtin b => b.name
  | host n _ => n.text

def isPure : Target σ → Bool
  | builtin _ => true
  | host _ f => f.isPure

end Target

inductive Instr (σ : Type) where
  | const (value : Float)
  | var (slot : Nat)
  | neg
  | binary (op : Operator)
  | call (target : Target σ) (argc : Nat)

abbrev Program (σ : Type) := List (Instr σ)

/-- How many values the instruction takes from the stack. It always leaves one. -/
def Instr.pops : Instr σ → Nat
  | const _ => 0
  | var _ => 0
  | neg => 1
  | binary _ => 2
  | call _ argc => argc

namespace Program

/-- The heights of the stack: at the end and at most, from a height and a maximum on. -/
def heights (p : Program σ) (height most : Nat) : Nat × Nat :=
  p.foldl (fun (h, m) i => (h - i.pops + 1, max m (h - i.pops + 1))) (height, most)

/-- The greatest height of the stack during a run. -/
def stackHeight (p : Program σ) : Nat := (p.heights 0 0).2

/-- Whether the program is a single constant. -/
def isConstant : Program σ → Bool
  | [.const _] => true
  | _ => false

end Program

end Formula
