import Formula.Number.Binary
import Formula.Number.Digits

/-!
Decimal numbers `mant * 10 ^ expo`, and the text form that literals have: digits with an
optional point, at least one digit in all, and an optional exponent.
-/

namespace Formula

structure Decimal where
  mant : Nat
  expo : Int
deriving DecidableEq, Repr

namespace Decimal

/-- The number that the digits of an exponent stand for. They count up to the one that takes
it to `2 ^ 16` or beyond, and those after it are passed over. -/
def exponentValue (ds : Text) : Nat :=
  ds.foldl (fun n c => if n < Nat.pow 2 16 then 10 * n + (c.toNat - '0'.toNat) else n) 0

/-- The digits of an exponent, at least one. -/
def exponentDigits? (ds : Text) : Option Nat :=
  if ds.isEmpty || !ds.all Char.isDigit then none else some (exponentValue ds)

/-- An exponent: digits, and before them a sign or nothing. -/
def exponent? : Text → Option Int
  | '-' :: ds => (exponentDigits? ds).map fun n => -(n : Int)
  | '+' :: ds => (exponentDigits? ds).map fun n => (n : Int)
  | ds => (exponentDigits? ds).map fun n => (n : Int)

/-- What may follow the digits of a number: nothing, or `e` with an exponent. -/
def scale? : Text → Option Int
  | [] => some 0
  | c :: ds => if c = 'e' || c = 'E' then exponent? ds else none

/-- Reads a whole text without sign. -/
def read? (t : Text) : Option Decimal :=
  let whole := t.takeWhile Char.isDigit
  let rest := t.dropWhile Char.isDigit
  let (frac, rest) := match rest with
    | '.' :: r => (r.takeWhile Char.isDigit, r.dropWhile Char.isDigit)
    | r => ([], r)
  if whole.isEmpty && frac.isEmpty then none
  else (scale? rest).map fun k => ⟨digitsValue (whole ++ frac), k - frac.length⟩

/-- The bits of the nearest double. Far outside the range of doubles the answer is known
without computing the powers. -/
def bits (x : Decimal) : Nat :=
  if x.mant = 0 then 0
  else if 310 < x.expo then infBits
  else if x.expo + x.mant.log2 < -1100 then 0
  else if 0 ≤ x.expo then nearestBits (x.mant * Nat.pow 10 x.expo.toNat * Nat.pow 2 1074) 1
  else nearestBits (x.mant * Nat.pow 2 1074) (Nat.pow 10 (-x.expo).toNat)

def toFloat (negative : Bool) (x : Decimal) : Float := withSign negative x.bits

end Decimal

/-- Reads a double: a decimal number with an optional minus sign, or one of the words for
the values that have no digits. -/
def readFloat? (t : Text) : Option Float :=
  if t = "NaN".toList then some nan
  else if t = "inf".toList then some (infinity false)
  else if t = "-inf".toList then some (infinity true)
  else match t with
    | '-' :: r => (Decimal.read? r).map (Decimal.toFloat true)
    | r => (Decimal.read? r).map (Decimal.toFloat false)

end Formula
