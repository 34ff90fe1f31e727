/-!
Double-precision numbers as integers.

A finite double is, up to its sign, `mant * 2 ^ expo` units, the unit being the least
positive double `2 ^ -1074`. Rounding, remainders and decimal digits are exact
computations on these integers.
-/

namespace Formula

/-- The value `mant * 2 ^ expo`, counted in units of `2 ^ -1074`. -/
structure Magnitude where
  mant : Nat
  expo : Nat
deriving DecidableEq, Repr

namespace Magnitude

/-- The magnitude with the given bits, the sign bit left out. A mantissa without its
leading one belongs to the lowest exponent. -/
def ofBits (b : Nat) : Magnitude :=
  if b < Nat.pow 2 52 then ⟨b, 0⟩
  else ⟨Nat.pow 2 52 + b % Nat.pow 2 52, b / Nat.pow 2 52 - 1⟩

/-- The bits of a magnitude. A mantissa that reaches `2 ^ 53` carries into the exponent
by itself. -/
def bits (x : Magnitude) : Nat := x.expo * Nat.pow 2 52 + x.mant

def units (x : Magnitude) : Nat := x.mant * Nat.pow 2 x.expo

theorem bits_ofBits (b : Nat) : (ofBits b).bits = b := by
  have hpow : Nat.pow 2 52 = 4503599627370496 := rfl
  unfold ofBits bits
  rw [hpow]
  split <;> simp only <;> omega

end Magnitude

/-- The nearest integer to `n / d`; a half goes to the even neighbour. -/
def roundEven (n d : Nat) : Nat :=
  let q := n / d
  let r := n % d
  if 2 * r < d then q else if d < 2 * r then q + 1 else q + q % 2

/-- The bits of infinity, the sign bit left out. -/
def infBits : Nat := 2047 * Nat.pow 2 52

/-- The bits of the double nearest to `n / d` units; a half goes to the even neighbour. -/
def nearestBits (n d : Nat) : Nat :=
  let e := (n / d).log2 - 52
  min (Magnitude.bits ⟨roundEven n (d * Nat.pow 2 e), e⟩) infBits

/-- The double with these bits, the sign given apart. -/
def withSign (negative : Bool) (b : Nat) : Float :=
  Float.ofBits (.ofNat (if negative then Nat.pow 2 63 + b else b))

def infinity (negative : Bool) : Float := withSign negative infBits

def nan : Float := withSign false (infBits + Nat.pow 2 51)

/-- The double nearest to `n / d` units. -/
def nearest (negative : Bool) (n d : Nat) : Float := withSign negative (nearestBits n d)

/-- What the bits of a double say. -/
inductive Shape where
  | nan
  | infinite (negative : Bool)
  | finite (negative : Bool) (size : Magnitude)
deriving DecidableEq, Repr

def shape (x : Float) : Shape :=
  let b := x.toBits.toNat
  let negative := Nat.pow 2 63 ≤ b
  let b := b % Nat.pow 2 63
  if infBits < b then .nan
  else if b = infBits then .infinite negative
  else .finite negative (.ofBits b)

/-- What is left of `a` after taking away `b` as often as it goes; the sign is that of
`a`. The result is exact. -/
def remainder (a b : Float) : Float :=
  match shape a, shape b with
  | .finite s x, .finite _ y =>
    if y.units = 0 then nan else nearest s (x.units % y.units) 1
  | .finite _ _, .infinite _ => a
  | _, _ => nan

end Formula
