import Formula.Store

/-!
Compiled expressions as infix text, with parentheses around every operator and variables
under their binding names.
-/

namespace Formula

variable {σ : Type}

def parens (t : Text) : Text := '(' :: t ++ [')']

/-- Texts joined by a comma and a blank. -/
def commaList : List Text → Text
  | [] => []
  | [t] => t
  | t :: ts => t ++ ',' :: ' ' :: commaList ts

/-- What stands for a variable: its name, or its slot number if it has none. -/
def slotText (slots : List Slot) (k : Nat) : Text :=
  match slots[k]? with
  | some s => s.name.text
  | none => '$' :: Nat.toDigits 10 k

/-- Replaces the texts of the operands by the text of the operation; the last operand comes
first. -/
def Instr.render (slots : List Slot) : Instr σ → List Text → Option (List Text)
  | const x, s => some (printPlain x :: s)
  | var k, s => some (slotText slots k :: s)
  | neg, a :: s => some (parens ('-' :: a) :: s)
  | binary o, b :: a :: s => some (parens (a ++ ' ' :: o.symbol :: ' ' :: b) :: s)
  | call t argc, s =>
    if s.length < argc then none
    else some ((t.name ++ parens (commaList (s.take argc).reverse)) :: s.drop argc)
  | _, _ => none

def Program.render (slots : List Slot) (p : Program σ) : Option Text :=
  match p.foldlM (fun s i => i.render slots s) [] with
  | some [t] => some t
  | _ => none

/-- The text of an expression; there is none if the program is not the postfix form of a
tree. -/
def Compiled.display? (c : Compiled σ) : Option Text :=
  match c.program with
  | some p => p.render c.slots
  | none => some "<disposed>".toList

namespace Compiled

def isClosed (c : Compiled σ) : Bool := c.program.isNone

/-- The number of instructions. -/
def nodeCount (c : Compiled σ) : Nat := (c.program.map List.length).getD 0

def variableCount (c : Compiled σ) : Nat := c.slots.length

/-- Whether all of the expression was folded. -/
def isConstant (c : Compiled σ) : Bool := (c.program.map Program.isConstant).getD false

end Compiled

end Formula
