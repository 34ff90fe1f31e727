import Formula.Proofs.Evaluation.Folding

/-!
All calls of functions while something runs, those that host code makes in turn included.

The functions here follow the functions that run things, as those for events do.
-/

namespace Formula

variable {σ : Type}

/-- A call of a builtin or a host function, its arguments, and what came of it. -/
structure Invocation (σ : Type) where
  target : Target σ
  args : List Float
  result : Except Error Float

/-- The calls of an evaluation on behalf of a script. -/
abbrev Recorder (σ : Type) := ExprId → Store σ → List (Invocation σ)

def Script.invocations (ev : Evaluator σ) (inv : Recorder σ) :
    Script σ → Store σ → List (Invocation σ)
  | done _, _ => []
  | get next, w => (next w.host).invocations ev inv w
  | put h next, w => next.invocations ev inv { w with host := h }
  | value v next, w => (next (w.value v)).invocations ev inv w
  | isBound v next, w => (next (w.isBound v)).invocations ev inv w
  | update v x next, w => (next (w.update v x).1).invocations ev inv (w.update v x).2
  | evaluate e next, w => inv e w ++ (next (ev e w).1).invocations ev inv (ev e w).2

/-- The call itself, and then the calls that its code makes. -/
def Target.invocations (ev : Evaluator σ) (inv : Recorder σ) (t : Target σ) (args : List Float)
    (w : Store σ) : List (Invocation σ) :=
  ⟨t, args, (t.run ev args w).1⟩ :: match t with
    | .builtin _ => []
    | .host _ f => (f.call args).invocations ev inv w

namespace Machine

variable (ev : Evaluator σ) (inv : Recorder σ)

def stepInvocations (table : SymbolTable σ) (s : Step) (m : Machine σ) : List (Invocation σ) :=
  match s with
  | .call c argc => m.atCall (Target.invocations ev inv) (table.target c) argc
  | _ => []

def execInvocations (i : Instr σ) (m : Machine σ) : List (Invocation σ) :=
  match i with
  | .call t argc => m.atCall (Target.invocations ev inv) (.ok t) argc
  | _ => []

end Machine

def Expr.invocations (ev : Evaluator σ) (inv : Recorder σ) (table : SymbolTable σ) (e : Expr)
    (w : Store σ) : List (Invocation σ) :=
  EvalOp.gather ev table (Machine.stepInvocations ev inv table) [.eval e] ⟨[], w⟩

lemma Expr.invocations_eq (ev : Evaluator σ) (inv : Recorder σ) (table : SymbolTable σ) (e : Expr)
    (w : Store σ) : e.invocations ev inv table w =
      Machine.gather (Machine.step ev table) (Machine.stepInvocations ev inv table) e.steps
        ⟨[], w⟩ :=
  EvalOp.gather_eval ev table (Machine.stepInvocations ev inv table) e ⟨[], w⟩

def Program.invocations (ev : Evaluator σ) (inv : Recorder σ) (e : ExprId) (p : Program σ)
    (m : Machine σ) : List (Invocation σ) :=
  Machine.gather (Machine.exec ev e) (Machine.execInvocations ev inv) p { m with stack := [] }

def evaluateInvocations (depth : ℕ) : Recorder σ := fun e w =>
  match depth with
  | 0 => []
  | depth + 1 =>
    match w.exprs.get? e with
    | none => []
    | some c => match c.program, c.stack with
      | none, _ => []
      | some p, some stack =>
        let w := w.modifyExpr e fun c => { c with stack := none }
        p.invocations (evaluate depth) (evaluateInvocations depth) e ⟨stack, w⟩
      | some p, none =>
        p.invocations (evaluate depth) (evaluateInvocations depth) e ⟨[], w⟩

/-! ### Folded calls -/

section Folded

variable {β : Type} (ev : Evaluator σ) (observe : Target σ → List Float → Store σ → List β)

namespace Lowering

variable (table : SymbolTable σ) (fold : Bool)

/-- What is observed of a call if it is folded. -/
def atCall (t : Target σ) (argc : ℕ) (p : Program σ) (w : Store σ) : List β :=
  if p.length < argc then []
  else if fold && t.isPure then
    match (p.take argc).reverse.mapM Instr.constant? with
    | none => []
    | some xs => if maxArity < xs.length then [] else observe t xs w
  else []

def atStep (s : Step) (p : Program σ) (w : Store σ) : List β :=
  match s with
  | .call c argc => match table.target c with
    | .ok t => atCall observe fold t argc p w
    | .error _ => []
  | _ => []

/-- What is observed of every call that is folded. -/
def gather : List Step → Program σ → Store σ → List β
  | [], _, _ => []
  | s :: ss, p, w => atStep observe table fold s p w ++ match step ev table fold s p w with
    | (.ok p, w) => gather ss p w
    | (.error _, _) => []

/-- Adding a call leaves the store as it is, or makes the call, of a pure function and with as
many arguments as it is for. -/
lemma call_cases (t : Target σ) (argc : ℕ) (p : Program σ) (w : Store σ) :
    (atCall observe fold t argc p w = [] ∧ (call ev fold t argc p w).2 = w) ∨
    ∃ xs r, t.isPure = true ∧ xs.length = argc ∧
      atCall observe fold t argc p w = observe t xs w ∧
      (call ev fold t argc p w).2 = (t.run ev xs w).2.emit r := by
  unfold atCall call foldCall
  by_cases hlen : p.length < argc
  · simp only [if_pos hlen]
    exact .inl ⟨trivial, trivial⟩
  · by_cases hfold : fold && t.isPure
    · simp only [if_neg hlen, if_pos hfold]
      rcases hm : (p.take argc).reverse.mapM Instr.constant? with _ | xs
      · exact .inl ⟨rfl, rfl⟩
      · by_cases hroom : maxArity < xs.length
        · simp only [if_pos hroom]
          exact .inl ⟨trivial, trivial⟩
        · have hargc := congrArg List.length (eq_constants_of_mapM hm)
          rw [List.length_reverse, List.length_take_of_le (Nat.le_of_not_lt hlen),
            List.length_map] at hargc
          have ht : t.isPure = true := (Bool.and_eq_true_iff.1 hfold).2
          simp only [if_neg hroom]
          right
          rcases hrun : t.run ev xs w with ⟨err | x, w'⟩
          · exact ⟨xs, _, ht, hargc.symm, rfl, by rw [hrun]⟩
          · exact ⟨xs, _, ht, hargc.symm, rfl, by rw [hrun]⟩
    · simp only [if_neg hlen, if_neg hfold]
      exact .inl ⟨trivial, trivial⟩

/-- A step adds to the log at most, or makes a call of a pure function. -/
lemma step_cases (s : Step) (p : Program σ) (w : Store σ) :
    (atStep observe table fold s p w = [] ∧
      ∃ records, (step ev table fold s p w).2 = { w with log := records ++ w.log }) ∨
    ∃ c t xs r, s = .call c xs.length ∧ table.target c = .ok t ∧ t.isPure = true ∧
      atStep observe table fold s p w = observe t xs w ∧
      (step ev table fold s p w).2 = (t.run ev xs w).2.emit r := by
  cases s with
  | const x => exact .inl ⟨rfl, [], rfl⟩
  | var k => exact .inl ⟨rfl, [], rfl⟩
  | neg =>
    simp only [step, atStep]
    split
    · exact .inl ⟨trivial, [], rfl⟩
    · exact .inl ⟨trivial, [], rfl⟩
  | binary o =>
    simp only [step, atStep]
    split
    · exact .inl ⟨trivial, [_], rfl⟩
    · exact .inl ⟨trivial, [], rfl⟩
  | call c argc =>
    rcases ht : table.target c with err | t
    · simp only [step, atStep, ht]
      exact .inl ⟨trivial, [], rfl⟩
    · simp only [step, atStep, ht]
      rcases call_cases ev observe fold t argc p w with
        ⟨hnone, hstore⟩ | ⟨xs, r, hpure, rfl, hobserve, hstore⟩
      · exact .inl ⟨hnone, [], hstore⟩
      · exact .inr ⟨c, t, xs, r, rfl, ht, hpure, hobserve, hstore⟩

end Lowering

def gatherCompile (depth : ℕ) (e : ExprId) (bs : List (Binding σ)) (o : Options) (text : Text)
    (w : Store σ) : List β :=
  match SymbolTable.ofBindings bs with
  | .error _ => []
  | .ok table => match (w.prepare e text).attachAll e table.vars with
    | (.error _, _) => []
    | (.ok _, w) => match parse table.resolve o text with
      | .error _ => []
      | .ok tree =>
        Lowering.gather (evaluate depth) observe table o.foldConstants tree.steps [] w

end Folded

/-- All calls while a text is compiled. -/
def compileInvocations (depth : ℕ) (e : ExprId) (bs : List (Binding σ)) (o : Options)
    (text : Text) (w : Store σ) : List (Invocation σ) :=
  gatherCompile (Target.invocations (evaluate depth) (evaluateInvocations depth)) depth e bs o
    text w

/-- The calls of host functions that compiling a text folds. -/
def compileCalls (depth : ℕ) (e : ExprId) (bs : List (Binding σ)) (o : Options) (text : Text)
    (w : Store σ) : List (Call σ) :=
  gatherCompile (Target.calls (evaluate depth)) depth e bs o text w

end Formula
