import Formula.Text.Blank
import Formula.Number.Decimal
import Formula.Error

/-!
The lexer cuts a text into tokens, one at a time, the longest match first.

`munch` reads the token at the start of a text that begins with no blank, and says how much
of the text it has read. A `Lexer` adds the position.
-/

namespace Formula

/-! Each of the next functions gives the longest run of its kind at the start of a text. -/

def digitRun (t : Text) : Text := t.takeWhile Char.isDigit

/-- A point and digits. -/
def fractionRun : Text → Text
  | '.' :: r => '.' :: digitRun r
  | _ => []

def signRun : Text → Text
  | '+' :: _ => ['+']
  | '-' :: _ => ['-']
  | _ => []

/-- An exponent mark, a sign and digits; the digits may be missing. -/
def exponentRun : Text → Text
  | [] => []
  | c :: r =>
    if c = 'e' || c = 'E' then c :: (signRun r ++ digitRun (r.drop (signRun r).length)) else []

/-- A number, and whether it breaks off before the digits of its exponent. -/
def numberRun (t : Text) : Text × Bool :=
  let mant := digitRun t ++ fractionRun (t.drop (digitRun t).length)
  let expo := exponentRun (t.drop mant.length)
  (mant ++ expo, !expo.isEmpty && !expo.any Char.isDigit)

def munchNumber (t : Text) : Except LexFault Token.Kind × Text :=
  match numberRun t with
  | (text, true) => (.error (.missingExponent text), text)
  | (text, false) =>
    match Decimal.read? text with
    | some x => (.ok (.number (x.toFloat false)), text)
    | none => (.error (.malformedNumber text), text)

/-- A number starts with a digit, or with a point that a digit follows. -/
def startsNumber : Text → Bool
  | '.' :: d :: _ => d.isDigit
  | c :: _ => c.isDigit
  | [] => false

/-- The kind of a token of one character. -/
def symbolKind? (c : Char) : Option Token.Kind :=
  if c = '(' then some .leftParen
  else if c = ')' then some .rightParen
  else if c = ',' then some .comma
  else (Operator.ofChar? c).map .operator

/-- The kind of the first token and the text it stands for. -/
def munch : Text → Except LexFault Token.Kind × Text
  | [] => (.ok .stop, [])
  | c :: cs =>
    if startsNumber (c :: cs) then munchNumber (c :: cs)
    else if isWordStart c then (.ok .word, (c :: cs).takeWhile isWordChar)
    else match symbolKind? c with
      | some kind => (.ok kind, [c])
      | none => (.error (.unexpected c), [])

/-- What is left to read and where it starts. `finished` is set once iteration has given its
last item. -/
structure Lexer where
  rest : Text
  pos : Nat := 0
  finished : Bool := false
deriving DecidableEq

namespace Lexer

def ofText (t : Text) : Lexer := { rest := t }

/-- Moves past the first `n` characters. -/
def advance (l : Lexer) (n : Nat) : Lexer :=
  { l with rest := l.rest.drop n, pos := l.pos + byteLength (l.rest.take n) }

def skipBlanks (l : Lexer) : Lexer := l.advance (l.rest.takeWhile isBlank).length

/-- Reads the token right here. -/
def read (l : Lexer) : Except ParseError Token × Lexer :=
  match munch l.rest with
  | (.ok kind, text) => (.ok ⟨kind, text, l.pos⟩, l.advance text.length)
  | (.error f, text) => (.error ⟨l.pos, .lexical f⟩, l.advance text.length)

/-- Reads a token. At the end of the text it gives the final token again and again. -/
def next (l : Lexer) : Except ParseError Token × Lexer := l.skipBlanks.read

/-- The next token, without moving. -/
def peek (l : Lexer) : Except ParseError Token := l.next.1

/-- An item is the last one if it is an error or the end of the text. -/
def isLast : Except ParseError Token → Bool
  | .ok t => t.kind = .stop
  | .error _ => true

/-- Reads the next item of the iteration, `none` after the last. -/
def step (l : Lexer) : Option (Except ParseError Token) × Lexer :=
  if l.finished then (none, l)
  else
    let (item, l) := l.next
    (some item, { l with finished := isLast item })

end Lexer

theorem isPrefix_digitRun (t : Text) : digitRun t <+: t := List.takeWhile_prefix _

theorem isPrefix_fractionRun (t : Text) : fractionRun t <+: t := by
  unfold fractionRun
  split
  · exact (List.prefix_cons_inj _).2 (isPrefix_digitRun _)
  · exact List.nil_prefix

theorem isPrefix_signRun (t : Text) : signRun t <+: t := by
  unfold signRun
  split
  · exact (List.prefix_cons_inj _).2 List.nil_prefix
  · exact (List.prefix_cons_inj _).2 List.nil_prefix
  · exact List.nil_prefix

/-- A run of one kind and then a run of another. -/
theorem isPrefix_append_drop {a b t : Text} (ha : a <+: t) (hb : b <+: t.drop a.length) :
    a ++ b <+: t := by
  obtain ⟨r, rfl⟩ := ha
  rw [List.drop_left] at hb
  exact (List.prefix_append_right_inj _).2 hb

theorem isPrefix_exponentRun (t : Text) : exponentRun t <+: t := by
  unfold exponentRun
  split
  · exact List.nil_prefix
  · split
    · exact (List.prefix_cons_inj _).2
        (isPrefix_append_drop (isPrefix_signRun _) (isPrefix_digitRun _))
    · exact List.nil_prefix

theorem isPrefix_numberRun (t : Text) : (numberRun t).1 <+: t :=
  isPrefix_append_drop (isPrefix_append_drop (isPrefix_digitRun t) (isPrefix_fractionRun _))
    (isPrefix_exponentRun _)

theorem munchNumber_snd (t : Text) : (munchNumber t).2 = (numberRun t).1 := by
  unfold munchNumber
  split
  · simp [*]
  · split <;> simp [*]

/-- The text of the token is the start of the text that was read. -/
theorem isPrefix_munch (t : Text) : (munch t).2 <+: t := by
  unfold munch
  split
  · exact List.nil_prefix
  · split
    · rw [munchNumber_snd]
      exact isPrefix_numberRun _
    · split
      · exact List.takeWhile_prefix _
      · split
        · exact (List.prefix_cons_inj _).2 List.nil_prefix
        · exact List.nil_prefix

theorem numberRun_ne_nil {t : Text} (h : startsNumber t) : (numberRun t).1 ≠ [] := by
  unfold startsNumber at h
  split at h
  · simp [numberRun, digitRun, fractionRun]
  · simp [numberRun, digitRun, h]
  · simp at h

theorem isWordChar_of_isWordStart {c : Char} (h : isWordStart c) : isWordChar c := by
  simp only [isWordStart, isWordChar, Char.isAlphanum, Bool.or_eq_true] at h ⊢
  rcases h with h | h <;> simp [h]

theorem symbolKind?_ne_stop (c : Char) : symbolKind? c ≠ some .stop := by
  unfold symbolKind?
  split
  · simp
  · split
    · simp
    · split <;> simp

/-- Only the end of the text has a token without text. -/
theorem munch_ne_nil {t : Text} {k : Token.Kind} (h : (munch t).1 = .ok k) (hk : k ≠ .stop) :
    (munch t).2 ≠ [] := by
  cases t with
  | nil => simp_all [munch]
  | cons c cs =>
    unfold munch at h ⊢
    simp only at h ⊢
    split
    · rw [munchNumber_snd]
      exact numberRun_ne_nil ‹_›
    · split
      · simp [isWordChar_of_isWordStart ‹_›]
      · split <;> simp_all

/-- Where the end is read nothing is left. -/
theorem eq_nil_of_munch_stop {t : Text} (h : (munch t).1 = .ok .stop) : t = [] := by
  cases t with
  | nil => rfl
  | cons c cs =>
    unfold munch munchNumber at h
    simp only at h
    split at h
    · split at h
      · simp at h
      · split at h <;> simp at h
    · split at h
      · simp at h
      · have := symbolKind?_ne_stop c
        split at h <;> simp_all

namespace Lexer

@[simp] theorem rest_advance (l : Lexer) (n : Nat) : (l.advance n).rest = l.rest.drop n := rfl

theorem drop_length_takeWhile (p : Char → Bool) (t : Text) :
    t.drop (t.takeWhile p).length = t.dropWhile p := by
  induction t with
  | nil => rfl
  | cons c cs ih => by_cases h : p c <;> simp [h, ih]

@[simp] theorem rest_skipBlanks (l : Lexer) : l.skipBlanks.rest = l.rest.dropWhile isBlank :=
  drop_length_takeWhile isBlank l.rest

theorem length_rest_skipBlanks (l : Lexer) : l.skipBlanks.rest.length ≤ l.rest.length := by
  rw [rest_skipBlanks]
  exact (List.dropWhile_suffix _).length_le

/-- Reading a token says how much was there and what it was. -/
theorem read_eq_ok {l l' : Lexer} {t : Token} (h : l.read = (.ok t, l')) :
    munch l.rest = (.ok t.kind, t.text) ∧ t.pos = l.pos ∧ l' = l.advance t.text.length := by
  unfold read at h
  split at h
  · rename_i kind text hm
    cases h
    exact ⟨hm, rfl, rfl⟩
  · cases h

/-- A token other than the end takes text away. -/
theorem length_rest_lt {l l' : Lexer} {t : Token} (h : l.next = (.ok t, l'))
    (ht : t.kind ≠ .stop) : l'.rest.length < l.rest.length := by
  obtain ⟨hm, -, rfl⟩ := read_eq_ok h
  have hne := munch_ne_nil (congrArg Prod.fst hm) ht
  have hpre := (isPrefix_munch l.skipBlanks.rest).length_le
  have hle := l.length_rest_skipBlanks
  rw [hm] at hne hpre
  dsimp only at hne hpre
  have := List.length_pos_iff.2 hne
  simp only [rest_advance, List.length_drop]
  omega

/-- After the end there is nothing left. -/
theorem rest_eq_nil {l l' : Lexer} {t : Token} (h : l.next = (.ok t, l'))
    (ht : t.kind = .stop) : l'.rest = [] := by
  obtain ⟨hm, -, rfl⟩ := read_eq_ok h
  have := eq_nil_of_munch_stop (t := l.skipBlanks.rest) (by rw [hm, ht])
  simp only [rest_advance, this, List.drop_nil]

/-- All items that are left, up to the end or the first error. -/
def items (l : Lexer) : List (Except ParseError Token) :=
  match _h : l.next with
  | (.ok t, l') => if _ht : t.kind = .stop then [.ok t] else .ok t :: items l'
  | (.error e, _) => [.error e]
termination_by l.rest.length
decreasing_by exact length_rest_lt _h _ht

end Lexer

/-- The tokens of a text with the end as the last one, or the first error. -/
def tokenize (t : Text) : Except ParseError (List Token) := (Lexer.ofText t).items.mapM id

end Formula
