import Formula.Text.Quoted
import Formula.Symbols

/-!
Diagnostic texts of variables, functions, bindings and expressions.
-/

namespace Formula

variable {σ : Type}

/-- The text of a record: its type and its fields with their texts. -/
def recordText (type : String) (fields : List (String × String)) : String :=
  type ++ " \x7b " ++ ", ".intercalate (fields.map fun f => f.1 ++ ": " ++ f.2) ++ " \x7d"

def quoted (t : Text) : String := String.ofList (quote t)

def boolText (b : Bool) : String := if b then "true" else "false"

def realText (x : Float) : String := String.ofList (printDebug x)

namespace HostFunction

def flagsText (f : HostFunction σ) : String :=
  if f.isPure then "FunctionFlags(PURE)" else "FunctionFlags(0x0)"

def debug (f : HostFunction σ) : String :=
  recordText "Function" [("arity", toString f.arity), ("flags", f.flagsText)]

end HostFunction

namespace Store

def debugVariable (w : Store σ) (v : VarId) : String :=
  recordText "Variable" [("value", realText (w.value v)), ("bound", boolText (w.isBound v))]

def debugBinding (w : Store σ) (b : Binding σ) : String :=
  let referent := match b.referent with
    | .variable v => ("variable", w.debugVariable v)
    | .function f => ("function", f.debug)
  recordText "Binding" [("name", quoted b.name), referent]

end Store

def Operator.debug : Operator → String
  | add => "Add"
  | sub => "Sub"
  | mul => "Mul"
  | div => "Div"
  | mod => "Mod"
  | pow => "Pow"

def Target.debug : Target σ → String
  | builtin b =>
    let b := recordText "Builtin" [("name", quoted b.name), ("arity", toString b.arity)]
    s!"Builtin({b})"
  | host n f =>
    let f := recordText "BoundFunction" [("name", quoted n.text), ("function", f.debug)]
    s!"Host({f})"

def Instr.debug : Instr σ → String
  | const x => s!"Constant({realText x})"
  | var k => s!"Variable({k})"
  | neg => "Unary(Neg)"
  | binary o => s!"Binary({o.debug})"
  | call t argc => recordText "Call" [("target", t.debug), ("argc", toString argc)]

def Compiled.debug (c : Compiled σ) : String :=
  let program := match c.program with
    | some p => "Some([" ++ ", ".intercalate (p.map Instr.debug) ++ "])"
    | none => "None"
  recordText "CompiledExpression" [("source", quoted c.source), ("program", program),
    ("variables", toString c.slots.length)]

end Formula
