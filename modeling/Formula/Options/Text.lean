import Formula.Options
import Formula.Json

/-!
Options as JSON text.

They are written as an object. They may also be read from an array with the values in the
order of the fields. A field that is missing has its default value, and an object may have
other fields.
-/

namespace Formula.Options

open Json

/-- The values that a text has given so far. -/
structure Given where
  foldConstants : Option Bool := none
  maxDepth : Option Nat := none
  maxLength : Option Nat := none

def Given.options (g : Given) : Options where
  foldConstants := g.foldConstants.getD default.foldConstants
  maxDepth := g.maxDepth.getD default.maxDepth
  maxLength := g.maxLength.getD default.maxLength

inductive Field where
  | foldConstants
  | maxDepth
  | maxLength
deriving DecidableEq

def Field.name : Field → Text
  | foldConstants => "fold_constants".toList
  | maxDepth => "max_depth".toList
  | maxLength => "max_length".toList

def Field.ofName? (t : Text) : Option Field :=
  [foldConstants, maxDepth, maxLength].find? (·.name == t)

/-- An unsigned number of 64 bits, in digits only. -/
def natural? (t : Text) : Option Nat :=
  if t.all Char.isDigit && digitsValue t < Nat.pow 2 64 then some (digitsValue t) else none

/-- Takes the value of a field, which is given once and has the type of the field. -/
def Given.set (g : Given) : Field → Lexeme → Option Given
  | .foldConstants, .bool b =>
    if g.foldConstants.isSome then none else some { g with foldConstants := some b }
  | .maxDepth, .number t =>
    if g.maxDepth.isSome then none else (natural? t).map fun n => { g with maxDepth := some n }
  | .maxLength, .number t =>
    if g.maxLength.isSome then none else (natural? t).map fun n => { g with maxLength := some n }
  | _, _ => none

/-- The fields of an object, from a key on. -/
def readMembers (g : Given) : List Lexeme → Option Given
  | .string key :: .colon :: ls =>
    match decode key with
    | none => none
    | some key => match Field.ofName? key, ls with
      | some f, v :: .comma :: r => (g.set f v).bind fun g => readMembers g r
      | some f, [v, .rightBrace] => g.set f v
      | some _, _ => none
      | none, ls => match _h : skipValue ls with
        | some (.comma :: r) => readMembers g r
        | some [.rightBrace] => some g
        | _ => none
  | _ => none
termination_by ls => ls.length
decreasing_by
  · simp only [List.length_cons]
    omega
  · have := length_skip_lt _h
    simp only [List.length_cons] at this ⊢
    omega

/-- The values of an array, from a value on; they belong to the fields in order. -/
def readItems (g : Given) : List Field → List Lexeme → Option Given
  | f :: fs, v :: .comma :: r => (g.set f v).bind fun g => readItems g fs r
  | f :: _, [v, .rightBracket] => g.set f v
  | _, _ => none

def readLexemes : List Lexeme → Option Given
  | [.leftBrace, .rightBrace] | [.leftBracket, .rightBracket] => some {}
  | .leftBrace :: ls => readMembers {} ls
  | .leftBracket :: ls => readItems {} [.foldConstants, .maxDepth, .maxLength] ls
  | _ => none

def ofText? (t : Text) : Option Options :=
  (lexemes t).bind fun ls => (readLexemes ls).map Given.options

def toText (o : Options) : Text :=
  let member := fun (f : Field) (v : Text) => '"' :: f.name ++ '"' :: ':' :: v
  let fold := if o.foldConstants then "true".toList else "false".toList
  '\x7b' :: member .foldConstants fold
    ++ ',' :: member .maxDepth (Nat.toDigits 10 o.maxDepth)
    ++ ',' :: member .maxLength (Nat.toDigits 10 o.maxLength) ++ ['\x7d']

end Formula.Options
