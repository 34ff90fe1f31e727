import Formula.Number.Decimal

/-!
The lexemes of JSON texts, read without any leniency, and how to pass over a value.
-/

namespace Formula.Json

/-- A character of a string, or an escaped UTF-16 unit, which may be half of a pair. -/
inductive Piece where
  | char (c : Char)
  | unit (u : Nat)
deriving DecidableEq

inductive Lexeme where
  | leftBrace
  | rightBrace
  | leftBracket
  | rightBracket
  | colon
  | comma
  | bool (b : Bool)
  | null
  | string (body : List Piece)
  | number (text : Text)
deriving DecidableEq

def isSpace (c : Char) : Bool := c = ' ' || c = '\t' || c = '\n' || c = '\r'

def hexDigit? (c : Char) : Option Nat :=
  if c.isDigit then some (c.toNat - '0'.toNat)
  else if 'a' ≤ c ∧ c ≤ 'f' then some (c.toNat - 'a'.toNat + 10)
  else if 'A' ≤ c ∧ c ≤ 'F' then some (c.toNat - 'A'.toNat + 10)
  else none

/-- What a backslash and one more character stand for. -/
def escape? (c : Char) : Option Char :=
  match c with
  | '"' | '\\' | '/' => some c
  | 'b' => some '\x08'
  | 'f' => some '\x0c'
  | 'n' => some '\n'
  | 'r' => some '\r'
  | 't' => some '\t'
  | _ => none

/-- The rest of a string and what follows its closing quote. -/
def readString : Text → Option (List Piece × Text)
  | [] => none
  | '"' :: r => some ([], r)
  | '\\' :: 'u' :: a :: b :: c :: d :: r => do
    let a ← hexDigit? a
    let b ← hexDigit? b
    let c ← hexDigit? c
    let d ← hexDigit? d
    let (body, r) ← readString r
    return (.unit (((a * 16 + b) * 16 + c) * 16 + d) :: body, r)
  | '\\' :: c :: r => do
    let c ← escape? c
    let (body, r) ← readString r
    return (.char c :: body, r)
  | c :: r => do
    if c.toNat < 0x20 || c = '\\' then none
    let (body, r) ← readString r
    return (.char c :: body, r)

/-- The text of a string; there is none if half of a pair stands alone. -/
def decode : List Piece → Option Text
  | [] => some []
  | .char c :: r => (decode r).map (c :: ·)
  | .unit u :: .unit v :: r =>
    if 0xD800 ≤ u ∧ u < 0xDC00 then
      if 0xDC00 ≤ v ∧ v < 0xE000 then
        (decode r).map (Char.ofNat (0x10000 + (u - 0xD800) * 0x400 + (v - 0xDC00)) :: ·)
      else none
    else if 0xDC00 ≤ u ∧ u < 0xE000 then none
    else (decode (.unit v :: r)).map (Char.ofNat u :: ·)
  | .unit u :: r =>
    if 0xD800 ≤ u ∧ u < 0xE000 then none else (decode r).map (Char.ofNat u :: ·)

/-- The whole part of a number: zero stands alone. -/
def wholePart : Text → Option (Text × Text)
  | '0' :: r => some (['0'], r)
  | c :: r =>
    if c.isDigit then some (c :: r.takeWhile Char.isDigit, r.dropWhile Char.isDigit) else none
  | [] => none

/-- The fraction of a number, if it has one. -/
def fractionPart : Text → Option (Text × Text)
  | '.' :: c :: r =>
    if c.isDigit then
      some ('.' :: c :: r.takeWhile Char.isDigit, r.dropWhile Char.isDigit)
    else none
  | ['.'] => none
  | r => some ([], r)

def isExponentMark (c : Char) : Bool := c = 'e' || c = 'E'

/-- The digits of an exponent, `before` being the mark and the sign. -/
def exponentDigits (before : Text) : Text → Option (Text × Text)
  | c :: r =>
    if c.isDigit then
      some (before ++ c :: r.takeWhile Char.isDigit, r.dropWhile Char.isDigit)
    else none
  | [] => none

/-- The exponent of a number, if it has one. -/
def exponentPart : Text → Option (Text × Text)
  | [] => some ([], [])
  | [m] => if isExponentMark m then none else some ([], [m])
  | m :: s :: r =>
    if isExponentMark m then
      if s = '+' || s = '-' then exponentDigits [m, s] r else exponentDigits [m] (s :: r)
    else some ([], m :: s :: r)

/-- A number without its sign. -/
def readNumber (t : Text) : Option (Text × Text) := do
  let (whole, r) ← wholePart t
  let (fraction, r) ← fractionPart r
  let (expo, r) ← exponentPart r
  return (whole ++ fraction ++ expo, r)

/-- The lexeme at the start of a text, which starts with no space, and what follows it. -/
def readLexeme (t : Text) : Option (Lexeme × Text) :=
  match t with
  | '\x7b' :: r => some (.leftBrace, r)
  | '\x7d' :: r => some (.rightBrace, r)
  | '[' :: r => some (.leftBracket, r)
  | ']' :: r => some (.rightBracket, r)
  | ':' :: r => some (.colon, r)
  | ',' :: r => some (.comma, r)
  | 't' :: 'r' :: 'u' :: 'e' :: r => some (.bool true, r)
  | 'f' :: 'a' :: 'l' :: 's' :: 'e' :: r => some (.bool false, r)
  | 'n' :: 'u' :: 'l' :: 'l' :: r => some (.null, r)
  | '"' :: r => (readString r).map fun (body, r) => (.string body, r)
  | '-' :: r => (readNumber r).map fun (text, r) => (.number ('-' :: text), r)
  | r => (readNumber r).map fun (text, r) => (.number text, r)

/-- The lexemes of a text. Each takes at least one character, so `fuel` need not exceed the
number of characters. -/
def lexemesWithin : Nat → Text → Option (List Lexeme)
  | 0, _ => none
  | fuel + 1, t =>
    match t.dropWhile isSpace with
    | [] => some []
    | t => do
      let (l, r) ← readLexeme t
      let ls ← lexemesWithin fuel r
      return l :: ls

def lexemes (t : Text) : Option (List Lexeme) := lexemesWithin (t.length + 1) t

/-- What may come next inside a value. -/
inductive Expect where
  | value
  /-- A value or the end of an array that has just been opened. -/
  | item
  /-- A key or the end of an object that has just been opened. -/
  | member
  | key
  | colon
  /-- A comma or the end of the innermost container. -/
  | close

/-- What a lexeme that starts a value leads to. -/
def enter (inArray : List Bool) : Lexeme → Option (Expect × List Bool)
  | .leftBracket => some (.item, true :: inArray)
  | .leftBrace => some (.member, false :: inArray)
  | .bool _ | .null | .string _ | .number _ => some (.close, inArray)
  | _ => none

/-- What a lexeme leads to. `inArray` says of each open container whether it is an array, the
innermost first. -/
def move : Expect → (inArray : List Bool) → Lexeme → Option (Expect × List Bool)
  | .value, s, l => enter s l
  | .item, _ :: s, .rightBracket => some (.close, s)
  | .item, s, l => enter s l
  | .member, _ :: s, .rightBrace => some (.close, s)
  | .member, s, .string _ => some (.colon, s)
  | .key, s, .string _ => some (.colon, s)
  | .colon, s, .colon => some (.value, s)
  | .close, true :: s, .comma => some (.value, true :: s)
  | .close, true :: s, .rightBracket => some (.close, s)
  | .close, false :: s, .comma => some (.key, false :: s)
  | .close, false :: s, .rightBrace => some (.close, s)
  | _, _, _ => none

/-- Passes over what is left of a value. -/
def skip (x : Expect) (inArray : List Bool) : List Lexeme → Option (List Lexeme)
  | [] => none
  | l :: r =>
    match move x inArray l with
    | none => none
    | some (.close, []) => some r
    | some (x, s) => skip x s r

def skipValue (ls : List Lexeme) : Option (List Lexeme) := skip .value [] ls

theorem length_skip_lt {x : Expect} {s : List Bool} {ls r : List Lexeme}
    (h : skip x s ls = some r) : r.length < ls.length := by
  induction ls generalizing x s with
  | nil => simp [skip] at h
  | cons l ls ih =>
    unfold skip at h
    split at h
    · simp at h
    · simp_all
    · have := ih h
      simp only [List.length_cons]
      omega

end Formula.Json
