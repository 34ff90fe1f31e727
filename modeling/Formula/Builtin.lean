import Formula.Text

/-!
The functions every expression can call without a binding. All of them are pure and none
takes more than two arguments.
-/

namespace Formula

inductive Builtin where
  | abs | acos | asin | atan | atan2 | ceil | cos | cosh | e | exp | floor | ln | log
  | log10 | pi | pow | sin | sinh | sqrt | tan | tanh
deriving DecidableEq, Repr

namespace Builtin

/-- The table, ordered by name. -/
def all : List Builtin :=
  [abs, acos, asin, atan, atan2, ceil, cos, cosh, e, exp, floor, ln, log, log10, pi, pow,
    sin, sinh, sqrt, tan, tanh]

def name : Builtin → Text
  | abs => ['a', 'b', 's']
  | acos => ['a', 'c', 'o', 's']
  | asin => ['a', 's', 'i', 'n']
  | atan => ['a', 't', 'a', 'n']
  | atan2 => ['a', 't', 'a', 'n', '2']
  | ceil => ['c', 'e', 'i', 'l']
  | cos => ['c', 'o', 's']
  | cosh => ['c', 'o', 's', 'h']
  | e => ['e']
  | exp => ['e', 'x', 'p']
  | floor => ['f', 'l', 'o', 'o', 'r']
  | ln => ['l', 'n']
  | log => ['l', 'o', 'g']
  | log10 => ['l', 'o', 'g', '1', '0']
  | pi => ['p', 'i']
  | pow => ['p', 'o', 'w']
  | sin => ['s', 'i', 'n']
  | sinh => ['s', 'i', 'n', 'h']
  | sqrt => ['s', 'q', 'r', 't']
  | tan => ['t', 'a', 'n']
  | tanh => ['t', 'a', 'n', 'h']

def arity : Builtin → Nat
  | e | pi => 0
  | atan2 | pow => 2
  | _ => 1

/-- The value at two arguments; a function of fewer ignores the rest. -/
def eval : Builtin → Float → Float → Float
  | abs, x, _ => x.abs
  | acos, x, _ => x.acos
  | asin, x, _ => x.asin
  | atan, x, _ => x.atan
  | atan2, y, x => Float.atan2 y x
  | ceil, x, _ => x.ceil
  | cos, x, _ => x.cos
  | cosh, x, _ => x.cosh
  | e, _, _ => Float.ofBits 0x4005BF0A8B145769
  | exp, x, _ => x.exp
  | floor, x, _ => x.floor
  | ln, x, _ => x.log
  | log, x, _ => x.log10
  | log10, x, _ => x.log10
  | pi, _, _ => Float.ofBits 0x400921FB54442D18
  | pow, x, y => Float.pow x y
  | sin, x, _ => x.sin
  | sinh, x, _ => x.sinh
  | sqrt, x, _ => x.sqrt
  | tan, x, _ => x.tan
  | tanh, x, _ => x.tanh

/-- Missing arguments count as zero, further ones are ignored. -/
def call (b : Builtin) (args : List Float) : Float :=
  b.eval (args.getD 0 0) (args.getD 1 0)

def find? (name : Text) : Option Builtin := all.find? (·.name == name)

theorem find?_eq_some {name : Text} {b : Builtin} : find? name = some b ↔ b.name = name := by
  constructor
  · intro h
    simpa using List.find?_some h
  · rintro rfl
    cases b <;> rfl

end Builtin

end Formula
