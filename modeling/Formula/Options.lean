/-!
The knobs of parsing and compilation.
-/

namespace Formula

structure Options where
  /-- Whether constant parts are computed while compiling. -/
  foldConstants : Bool
  /-- How deep parentheses, argument lists, signs and powers may nest. -/
  maxDepth : Nat
  /-- The most bytes of an expression text. -/
  maxLength : Nat
deriving DecidableEq, Repr

def Options.default : Options := ⟨true, 256, 10000⟩

end Formula
