/-!
Text as a list of characters, and its length in bytes.

Every position and every length limit of the library counts the bytes of the UTF-8
encoding.
-/

namespace Formula

abbrev Text := List Char

/-- The number of bytes of the UTF-8 encoding. -/
def byteLength : Text → Nat
  | [] => 0
  | c :: cs => c.utf8Size + byteLength cs

@[simp] theorem byteLength_nil : byteLength [] = 0 := rfl

@[simp] theorem byteLength_cons (c : Char) (cs : Text) :
    byteLength (c :: cs) = c.utf8Size + byteLength cs := rfl

@[simp] theorem byteLength_append (s t : Text) :
    byteLength (s ++ t) = byteLength s + byteLength t := by
  induction s with
  | nil => simp
  | cons c s ih => simp [ih, Nat.add_assoc]

/-- The longest run of whole characters at the start of `t` within `n` bytes. -/
def fitting : Nat → Text → Text
  | _, [] => []
  | n, c :: cs => if c.utf8Size ≤ n then c :: fitting (n - c.utf8Size) cs else []

theorem byteLength_fitting_le (n : Nat) (t : Text) : byteLength (fitting n t) ≤ n := by
  induction t generalizing n with
  | nil => simp [fitting]
  | cons c cs ih =>
    unfold fitting
    split
    · have := ih (n - c.utf8Size)
      simp only [byteLength_cons]
      omega
    · simp

/-- Letters, digits and the underscore, ASCII only. -/
def isWordChar (c : Char) : Bool := c.isAlphanum || c == '_'

/-- What a word may start with: a letter or the underscore. -/
def isWordStart (c : Char) : Bool := c.isAlpha || c == '_'

end Formula
