import Formula.Token

/-!
What can go wrong, by cause, and how each cause is worded.

Positions are byte offsets of the token at fault; the end of the text counts as a token.
-/

namespace Formula

/-- The most arguments that a function takes. -/
def maxArity : Nat := 7

/-- Why the text is not a sequence of tokens. -/
inductive LexFault where
  | unexpected (c : Char)
  | missingExponent (text : Text)
  | malformedNumber (text : Text)
deriving DecidableEq

/-- What the grammar wants at a place. -/
inductive Wanted where
  | operand
  | rightParen
  | commaOrRightParen
  /-- The parenthesis that opens the arguments of the named function. -/
  | arguments (function : Text)
deriving DecidableEq

/-- Why the tokens are not a sentence. -/
inductive GrammarFault where
  | missing (wanted : Wanted) (found : Token)
  | trailing (found : Token)
  | variableCalled (name : Text)
  | tooLong (bytes limit : Nat)
deriving DecidableEq

inductive ParseFault where
  | lexical (fault : LexFault)
  | grammar (fault : GrammarFault)
  | unknownName (name : Text)
  | arity (name : Text) (expected found : Nat)
  | tooDeep (limit : Nat)
deriving DecidableEq

/-- An error in an expression text. -/
structure ParseError where
  pos : Nat
  fault : ParseFault
deriving DecidableEq

inductive NameFault where
  | empty
  | notWord
  | tooLong
  | duplicate
deriving DecidableEq

/-- Misuse of a variable or of an expression. -/
inductive StateFault where
  | unbound
  | alreadyBound
  | disposed
deriving DecidableEq

/-- Faults that no expression compiled from a text can show, and evaluations that host
functions nest without end. -/
inductive InternalFault where
  | endless
  | stackUnderflow
  | missingValues (wanted found : Nat)
  | leftover (count : Nat)
  | noVariable (slot : Nat)
  | noFunction (index : Nat)
  | missingArguments (function : Text)
deriving DecidableEq

/-- Collections of bounded size. -/
inductive Collection where
  | bindings
  | arguments
deriving DecidableEq

inductive Error where
  | parse (err : ParseError)
  | badName (name : Text) (fault : NameFault)
  | badArity (arity : Nat)
  | state (fault : StateFault)
  /-- A function reported a failure in its own words. -/
  | evaluation (function : Text) (message : String)
  | full (collection : Collection)
  | nameTooLong
  | internal (fault : InternalFault)
deriving DecidableEq

def LexFault.message : LexFault → String
  | unexpected c => s!"unexpected character '{c}'"
  | missingExponent t => s!"malformed number '{String.ofList t}': missing exponent digits"
  | malformedNumber t => s!"malformed number '{String.ofList t}'"

def Wanted.message : Wanted → String
  | operand => "a number, name or '('"
  | rightParen => "')'"
  | commaOrRightParen => "',' or ')'"
  | arguments f => s!"'(' after function '{String.ofList f}'"

def GrammarFault.message : GrammarFault → String
  | missing w t => s!"expected {w.message}, found {t.describe}"
  | trailing t => s!"unexpected {t.describe} after complete expression"
  | variableCalled n => s!"variable '{String.ofList n}' cannot be called"
  | tooLong n limit => s!"expression too long: {n} bytes (maximum is {limit})"

def ParseError.message (e : ParseError) : String :=
  match e.fault with
  | .lexical f => s!"Lexical error at position {e.pos}: {f.message}"
  | .grammar f => s!"Syntax error at position {e.pos}: {f.message}"
  | .unknownName n => s!"Unknown symbol '{String.ofList n}' at position {e.pos}"
  | .arity n expected found =>
    s!"Invalid call to '{String.ofList n}' at position {e.pos}: " ++
      s!"expected {expected} arguments, found {found}"
  | .tooDeep limit =>
    s!"Recursion limit exceeded at position {e.pos}: nesting deeper than {limit}"

def NameFault.message : NameFault → String
  | empty => "empty name"
  | notWord => "name is not an identifier"
  | tooLong => "name too long"
  | duplicate => "duplicate binding name"

def StateFault.message : StateFault → String
  | unbound => "variable is not bound to an expression"
  | alreadyBound => "variable is already bound to an expression"
  | disposed => "expression has been disposed"

def InternalFault.message : InternalFault → String
  | endless => "evaluation never ends"
  | stackUnderflow => "value stack underflow"
  | missingValues wanted found => s!"call needs {wanted} values, stack has {found}"
  | leftover n => s!"evaluation left {n} values on the stack"
  | noVariable slot => s!"no variable in slot {slot}"
  | noFunction i => s!"no function at index {i}"
  | missingArguments f => s!"call to '{String.ofList f}' is missing arguments"

def Collection.message : Collection → String
  | bindings => "bindings"
  | arguments => "arguments"

namespace Error

def message : Error → String
  | parse e => e.message
  | badName n f => s!"Invalid binding '{String.ofList n}': {f.message}"
  | badArity n =>
    s!"Invalid function arity {n}: at most {maxArity} arguments are supported"
  | state f => s!"State error: {f.message}"
  | evaluation f m => s!"Evaluation of '{String.ofList f}' failed: {m}"
  | full c => s!"Capacity exceeded for {c.message}"
  | nameTooLong => "String too long for heapless buffer"
  | internal f => f.message

/-- The place in the text, for an error that lies there. -/
def position? : Error → Option Nat
  | parse e => some e.pos
  | _ => none

def isParseError (e : Error) : Bool := e.position?.isSome

end Error

end Formula
