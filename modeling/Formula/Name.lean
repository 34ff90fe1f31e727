import Formula.Text.Blank
import Formula.Error

/-!
Binding names: words of bounded length.
-/

namespace Formula

/-- The most bytes of a binding name. -/
def maxNameLength : Nat := 64

/-- A letter or underscore followed by letters, digits and underscores. -/
def isWord : Text → Bool
  | [] => false
  | c :: cs => isWordStart c && cs.all isWordChar

structure Name where
  text : Text
  isWord_text : isWord text
  length_le : byteLength text ≤ maxNameLength
deriving DecidableEq

namespace Name

/-- The name that a raw text gives, without the blanks around it. -/
def ofText (raw : Text) : Except Error Name :=
  let t := trim raw
  if t = [] then .error (.badName t .empty)
  else if hw : isWord t then
    if hl : byteLength t ≤ maxNameLength then .ok ⟨t, hw, hl⟩ else .error (.badName t .tooLong)
  else .error (.badName t .notWord)

end Name

/-- The byte length of a text that fits into a name, whatever its characters. -/
def nameLength (t : Text) : Except Error Nat :=
  if byteLength t ≤ maxNameLength then .ok (byteLength t) else .error .nameTooLong

end Formula
