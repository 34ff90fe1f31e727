import Formula.Number.Decimal

/-!
The decimal digits of a double.

`shortest` takes the fewest digits that read back as the same double; of two numbers with
that many digits the nearer one, and of two equally near ones the greater.
`significant` takes a given number of digits; there a half goes to the even neighbour.
-/

namespace Formula

/-- The greatest `k` with `10 ^ k ≤ n`, and zero for `n = 0`. -/
def log10 (n : Nat) : Nat := if h : n < 10 then 0 else log10 (n / 10) + 1
termination_by n
decreasing_by omega

/-- The exponent `k` with `10 ^ k ≤ n / d < 10 ^ (k + 1)`. -/
def decade (n d : Nat) : Int :=
  if d ≤ n then log10 (n / d)
  else
    let k := log10 (d / n)
    if d ≤ n * Nat.pow 10 k then -(k : Int) else -(k + 1 : Int)

/-- `10 ^ k` as a ratio. -/
def powerOfTen (k : Int) : Nat × Nat :=
  if 0 ≤ k then (Nat.pow 10 k.toNat, 1) else (1, Nat.pow 10 (-k).toNat)

namespace Decimal

/-- Moves trailing zeros of the mantissa into the exponent. -/
def normal (x : Decimal) : Decimal :=
  if h : x.mant ≠ 0 ∧ x.mant % 10 = 0 then normal ⟨x.mant / 10, x.expo + 1⟩ else x
termination_by x.mant
decreasing_by show x.mant / 10 < x.mant; omega

end Decimal

namespace Magnitude

/-- The value as a ratio of integers. -/
def ratio (x : Magnitude) : Nat × Nat := (x.units, Nat.pow 2 1074)

/-- The multiple of `10 ^ k` nearest to the value among its two neighbours that read back as
the value. -/
def onGrid (x : Magnitude) (k : Int) : Option Decimal :=
  let (n, d) := x.ratio
  let (p, q) := powerOfTen k
  let below := (n * q) / (d * p)
  let twice := 2 * ((n * q) % (d * p))
  let readsBack := fun m => Decimal.bits ⟨m, k⟩ = x.bits
  if readsBack below then
    if readsBack (below + 1) ∧ d * p ≤ twice then some ⟨below + 1, k⟩ else some ⟨below, k⟩
  else if readsBack (below + 1) then some ⟨below + 1, k⟩
  else none

/-- All the digits of the value. -/
def exact (x : Magnitude) : Decimal := ⟨x.units * Nat.pow 5 1074, -1074⟩

/-- The shortest decimal number that reads back as the value. -/
def shortest (x : Magnitude) : Decimal :=
  let (n, d) := x.ratio
  let k := decade n d
  (((List.range 17).findSome? fun (i : Nat) => x.onGrid (k - i)).getD x.exact).normal

/-- The value rounded to `digits` decimal digits. -/
def significant (digits : Nat) (x : Magnitude) : Decimal :=
  let (n, d) := x.ratio
  let k := decade n d + 1 - digits
  let (p, q) := powerOfTen k
  let m := roundEven (n * q) (d * p)
  if m = Nat.pow 10 digits then ⟨Nat.pow 10 (digits - 1), k + 1⟩ else ⟨m, k⟩

end Magnitude

end Formula
