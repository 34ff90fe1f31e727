import Formula.Text
import Formula.Operator

/-!
Tokens: the words of an expression text.
-/

namespace Formula

inductive Token.Kind where
  | number (value : Float)
  | word
  | operator (op : Operator)
  | leftParen
  | rightParen
  | comma
  /-- The end of the text. -/
  | stop
deriving DecidableEq

/-- A token, the text it stands for (none for the end), and the offset of its first byte. -/
structure Token where
  kind : Token.Kind
  text : Text
  pos : Nat
deriving DecidableEq

namespace Token

/-- How messages name a token. -/
def describe (t : Token) : String :=
  match t.kind with
  | .stop => "end of input"
  | _ => s!"'{String.ofList t.text}'"

def operator? (t : Token) : Option Operator :=
  match t.kind with
  | .operator o => some o
  | _ => none

end Token

end Formula
