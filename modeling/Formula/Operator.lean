import Formula.Number.Binary

/-!
The binary operators and what they compute on doubles.
-/

namespace Formula

inductive Operator where
  | add | sub | mul | div | mod | pow
deriving DecidableEq, Repr

namespace Operator

def symbol : Operator → Char
  | add => '+'
  | sub => '-'
  | mul => '*'
  | div => '/'
  | mod => '%'
  | pow => '^'

def ofChar? (c : Char) : Option Operator :=
  [add, sub, mul, div, mod, pow].find? (·.symbol == c)

/-- Nothing here fails: a division by zero is an infinity or not a number. -/
def apply : Operator → Float → Float → Float
  | add, a, b => a + b
  | sub, a, b => a - b
  | mul, a, b => a * b
  | div, a, b => a / b
  | mod, a, b => remainder a b
  | pow, a, b => Float.pow a b

theorem ofChar?_eq_some {c : Char} {o : Operator} : ofChar? c = some o ↔ o.symbol = c := by
  constructor
  · intro h
    simpa using List.find?_some h
  · rintro rfl
    cases o <;> rfl

end Operator

end Formula
