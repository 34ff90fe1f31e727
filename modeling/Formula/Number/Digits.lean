import Formula.Text

/-!
The number that a run of decimal digits stands for.

The digits are read from left to right. A long run is cut in halves, which are read apart, so
that its length costs a few long multiplications instead of one for every digit;
`digitsValue_eq` says that this changes nothing.
-/

namespace Formula

/-- The number that a run of digits stands for, `acc` being what was read before. -/
def digitsFrom (acc : Nat) (ds : Text) : Nat :=
  ds.foldl (fun n c => 10 * n + (c.toNat - '0'.toNat)) acc

/-- As many digits as are read one after the other. -/
def shortRun : Nat := 500

theorem digitsFrom_append (acc : Nat) (s t : Text) :
    digitsFrom acc (s ++ t) = digitsFrom (digitsFrom acc s) t :=
  List.foldl_append

/-- What was read before moves up by one place for every digit. -/
theorem digitsFrom_eq_add (acc : Nat) (ds : Text) :
    digitsFrom acc ds = acc * Nat.pow 10 ds.length + digitsFrom 0 ds := by
  induction ds generalizing acc with
  | nil => simp [digitsFrom]
  | cons c cs ih =>
    have step (n : Nat) : digitsFrom n (c :: cs) =
        digitsFrom (10 * n + (c.toNat - '0'.toNat)) cs := rfl
    rw [step, step, ih, ih (10 * 0 + _), List.length_cons, Nat.pow]
    generalize Nat.pow 10 cs.length = p
    generalize c.toNat - '0'.toNat = d
    grind

/-- Reads a run by halves. -/
def digitsByHalves (ds : Text) : Nat :=
  if _h : ds.length ≤ shortRun then digitsFrom 0 ds
  else
    let low := ds.length / 2
    let high := ds.length - low
    digitsByHalves (ds.take high) * Nat.pow 10 low + digitsByHalves (ds.drop high)
termination_by ds.length
decreasing_by all_goals simp only [List.length_take, List.length_drop, shortRun] at *; omega

def digitsValue (ds : Text) : Nat :=
  if ds.length ≤ shortRun then digitsFrom 0 ds else digitsByHalves ds

theorem digitsByHalves_eq (ds : Text) : digitsByHalves ds = digitsFrom 0 ds := by
  fun_induction digitsByHalves ds with
  | case1 => rfl
  | case2 ds _ low high ihHigh ihLow =>
    rw [ihHigh, ihLow]
    conv => rhs; rw [← List.take_append_drop high ds, digitsFrom_append, digitsFrom_eq_add]
    rw [List.length_drop, show ds.length - high = low by omega]

theorem digitsValue_eq (ds : Text) : digitsValue ds = digitsFrom 0 ds := by
  unfold digitsValue
  split
  · rfl
  · exact digitsByHalves_eq ds

end Formula
