import Formula.Parser.Basic
import Formula.Options

/-!
The grammar of expressions.

    expr   := term (('+' | '-') term)*
    term   := factor (('*' | '/' | '%') factor)*
    factor := base ('^' factor)?
    base   := '-' base | '+' base | power
    power  := atom ('^' base)?
    atom   := number | name | name '(' args ')' | '(' expr ')'
    args   := (expr (',' expr)*)?

So a power binds tighter than the sign before it and takes a sign in its exponent. A `base`
opens a level of nesting; the number of levels is bounded, and the parsers of one level
take the `base` of the next as a parameter.
-/

namespace Formula

/-- Operands grouped to the left. -/
def joinLeft (a : Expr) (r : List (Operator × Expr)) : Expr :=
  r.foldl (fun l (o, b) => .binary o l b) a

/-- Operands grouped to the right. -/
def joinRight (a : Expr) : List (Operator × Expr) → Expr
  | [] => a
  | (o, b) :: r => .binary o a (joinRight b r)

namespace Parser

def sumOperator? : Token.Kind → Option Operator
  | .operator .add => some .add
  | .operator .sub => some .sub
  | _ => none

def productOperator? : Token.Kind → Option Operator
  | .operator .mul => some .mul
  | .operator .div => some .div
  | .operator .mod => some .mod
  | _ => none

def powerOperator? : Token.Kind → Option Operator
  | .operator .pow => some .pow
  | _ => none

def comma? : Token.Kind → Option Unit
  | .comma => some ()
  | _ => none

variable (resolve : Text → Option Meaning) (base : Parser Expr)

def factor : Parser Expr := do
  let a ← base
  let r ← many powerOperator? base rfl
  pure (joinRight a r)

def term : Parser Expr := do
  let a ← factor base
  let r ← many productOperator? (factor base) rfl
  pure (joinLeft a r)

def expr : Parser Expr := do
  let a ← term base
  let r ← many sumOperator? (term base) rfl
  pure (joinLeft a r)

/-- The arguments of a call up to its closing parenthesis. -/
def args : Parser (List Expr) := do
  let t ← current
  if t.kind = .rightParen then pure []
  else do
    let a ← expr base
    let r ← many comma? (expr base) rfl
    let t ← current
    if t.kind = .rightParen then pure (a :: r.map (·.2)) else missing .commaOrRightParen

/-- A call, from its opening parenthesis on. -/
def call (name : Text) (callee : Callee) (arity : Nat) : Parser Expr := do
  let paren ← next
  let as ← args base
  let _ ← next
  if as.length = arity then pure (.call callee as)
  else failAt paren.pos (.arity name arity as.length)

/-- A name and what belongs to it. -/
def named : Parser Expr := do
  let name ← next
  let t ← current
  match resolve name.text with
  | none => failAt name.pos (.unknownName name.text)
  | some (.variable slot) =>
    if t.kind = .leftParen then fail fun _ => .grammar (.variableCalled name.text)
    else pure (.var slot)
  | some (.function callee arity) =>
    if t.kind = .leftParen then call base name.text callee arity
    else if arity = 0 then pure (.call callee [])
    else missing (.arguments name.text)

/-- The rest of a group, after its opening parenthesis. -/
def group : Parser Expr := do
  let e ← expr base
  let t ← current
  if t.kind = .rightParen then do
    let _ ← next
    pure e
  else missing .rightParen

def atom : Parser Expr := do
  let t ← current
  match t.kind with
  | .number x => do
    let _ ← next
    pure (.const x)
  | .word => named resolve base
  | .leftParen => do
    let _ ← next
    group base
  | _ => missing .operand

def power : Parser Expr := do
  let a ← atom resolve base
  let t ← current
  match powerOperator? t.kind with
  | some o => do
    let _ ← next
    let b ← base
    pure (.binary o a b)
  | none => pure a

/-- Signs and a power. A plus sign leaves no node. -/
def signed : Parser Expr := do
  let t ← current
  match sumOperator? t.kind with
  | some .sub => do
    let _ ← next
    let a ← base
    pure (.neg a)
  | some _ => do
    let _ ← next
    base
  | none => power resolve base

/-- A base, with `levels` levels of nesting left to open. -/
def baseWithin (resolve : Text → Option Meaning) : Nat → Parser Expr
  | 0 => tooDeep
  | levels + 1 => delay fun _ => nested (signed resolve (baseWithin resolve levels))

/-- An expression and nothing after it. -/
def sentence (levels : Nat) : Parser Expr := do
  let e ← expr (baseWithin resolve levels)
  let t ← current
  if t.kind = .stop then pure e else fail fun t => .grammar (.trailing t)

end Parser

/-- Where the first token begins that does not end within `limit` bytes. If there is none
before a lexical error or the end, the last place between two characters within `limit`. -/
def overflowPos (limit : Nat) (t : Text) : Nat :=
  let edge := byteLength (fitting limit t)
  let straddling := (Lexer.ofText t).items.find? fun
    | .ok tok => limit < tok.pos + byteLength tok.text
    | .error _ => true
  match straddling with
  | some (.ok tok) => min tok.pos edge
  | _ => edge

/-- Parses a text whose length is within bounds. -/
def parseText (resolve : Text → Option Meaning) (levels : Nat) (t : Text) : Outcome Expr :=
  match Cursor.start t with
  | .ok c => (Parser.sentence resolve levels).run c
  | .error e => .fail e 1

/-- The tree of a text, or the first error in it. -/
def parse (resolve : Text → Option Meaning) (o : Options) (t : Text) : Except ParseError Expr :=
  if o.maxLength < byteLength t then
    .error ⟨overflowPos o.maxLength t, .grammar (.tooLong (byteLength t) o.maxLength)⟩
  else match parseText resolve o.maxDepth t with
    | .ok e _ => .ok e
    | .fail err _ => .error err

end Formula
