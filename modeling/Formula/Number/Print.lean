import Formula.Number.Shortest

/-!
Numbers as text.

The plain form has no exponent. The debug form marks integers with `.0` and goes over to
an exponent for very large and very small numbers. The rounded form always has an
exponent and a fixed number of digits.
-/

namespace Formula

def zeros (n : Nat) : Text := List.replicate n '0'

namespace Decimal

def digits (x : Decimal) : Text := Nat.toDigits 10 x.mant

/-- The exponent of the first digit. -/
def lead (x : Decimal) : Int := x.expo + x.digits.length - 1

/-- Digits with a point, no exponent. -/
def plain (x : Decimal) : Text :=
  let ds := x.digits
  if 0 ≤ x.expo then ds ++ zeros x.expo.toNat
  else
    let places := (-x.expo).toNat
    let ds := zeros (places + 1 - ds.length) ++ ds
    ds.take (ds.length - places) ++ '.' :: ds.drop (ds.length - places)

/-- One digit before the point and an exponent. -/
def scientific (x : Decimal) : Text :=
  let mantissa := match x.digits with
    | d :: e :: ds => d :: '.' :: e :: ds
    | ds => ds
  mantissa ++ 'e' :: (toString x.lead).toList

/-- As `plain` or, far from one, as `scientific`; an integer gets a fraction of zero. -/
def debug (x : Decimal) : Text :=
  if x.lead < -4 || 16 ≤ x.lead then x.scientific
  else if 0 ≤ x.expo then x.plain ++ ".0".toList
  else x.plain

end Decimal

def signText (negative : Bool) : Text := if negative then ['-'] else []

/-- The text of a double, given the texts of zero and of the other finite magnitudes. -/
def printWith (zero : Text) (print : Magnitude → Text) (x : Float) : Text :=
  match shape x with
    | .nan => "NaN".toList
    | .infinite s => signText s ++ "inf".toList
    | .finite s m => signText s ++ if m.mant = 0 then zero else print m

/-- The fewest digits that read back as the same double. -/
def printPlain : Float → Text := printWith ['0'] fun m => m.shortest.plain

def printDebug : Float → Text := printWith "0.0".toList fun m => m.shortest.debug

/-- A fixed number of significant digits. -/
def printRounded (digits : Nat) : Float → Text :=
  printWith ['0'] fun m => (m.significant digits).scientific

end Formula
