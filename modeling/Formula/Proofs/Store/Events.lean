import Formula.Proofs.Evaluation.Pending
import Formula.Proofs.Store.Slots

/-!
What happens to variables and expressions.

A variable is set and read, an expression is opened and closed. The functions here follow host
code and programs as they run, and list the events in the order in which they happen. What is
listed of a read is what the reader is given. A property of the store and of the events so far that
the smallest steps keep is kept by everything that runs.
-/

namespace Formula

variable {σ : Type}

inductive Event where
  | set (v : VarId) (x : Float)
  /-- A reader of the variable is given a value, or none if that fails. -/
  | read (v : VarId) (x : Option Float)
  | opened (e : ExprId)
  | closed (e : ExprId)

/-- The events of an evaluation on behalf of a script. -/
abbrev Observer (σ : Type) := ExprId → Store σ → List Event

namespace Store

/-- An update counts if it succeeds. -/
def updateEvents (w : Store σ) (v : VarId) (x : Float) : List Event :=
  match (w.update v x).1 with
  | .ok _ => [.set v x]
  | .error _ => []

end Store

/-- What host code is told that asks for the value of a variable. -/
def Script.told (ev : Evaluator σ) (v : VarId) (w : Store σ) : Option Float :=
  ((value v fun x => done (.ok x)).run ev w).1.toOption

def Script.events (ev : Evaluator σ) (evs : Observer σ) : Script σ → Store σ → List Event
  | done _, _ => []
  | get next, w => (next w.host).events ev evs w
  | put h next, w => next.events ev evs { w with host := h }
  | value v next, w => .read v (told ev v w) :: (next (w.value v)).events ev evs w
  | isBound v next, w => (next (w.isBound v)).events ev evs w
  | update v x next, w =>
    w.updateEvents v x ++ (next (w.update v x).1).events ev evs (w.update v x).2
  | evaluate e next, w => evs e w ++ (next (ev e w).1).events ev evs (ev e w).2

def Target.events (ev : Evaluator σ) (evs : Observer σ) (t : Target σ) (args : List Float)
    (w : Store σ) : List Event :=
  match t with
  | .builtin _ => []
  | .host _ f => (f.call args).events ev evs w

/-- What a step leaves on top of the stack, if it does not fail. -/
def Machine.pushed : Except Error Unit × Machine σ → Option Float
  | (.ok _, m) => m.stack.head?
  | (.error _, _) => none

/-- A program reads the slots of its expression: it goes on with what the instruction pushes. -/
def Machine.execEvents (ev : Evaluator σ) (evs : Observer σ) (e : ExprId) (i : Instr σ)
    (m : Machine σ) : List Event :=
  match i with
  | .var k => match m.store.slot? ⟨e, k⟩ with
    | some a => [.read a.var (pushed (exec ev e (.var k) m))]
    | none => []
  | .call t argc => m.atCall (Target.events ev evs) (.ok t) argc
  | _ => []

lemma Machine.exec_var (ev : Evaluator σ) {e : ExprId} {k : ℕ} {m : Machine σ} {a : Slot}
    (h : m.store.slot? ⟨e, k⟩ = some a) :
    exec ev e (.var k) m = (.ok (), ⟨a.value :: m.stack, m.store⟩) := by
  simp only [exec, m.store.slotValue_of_slot? h, push]

def Program.events (ev : Evaluator σ) (evs : Observer σ) (e : ExprId) (p : Program σ)
    (m : Machine σ) : List Event :=
  Machine.gather (Machine.exec ev e) (Machine.execEvents ev evs e) p { m with stack := [] }

def evaluateEvents (depth : ℕ) : Observer σ := fun e w =>
  match depth with
  | 0 => []
  | depth + 1 =>
    match w.exprs.get? e with
    | none => []
    | some c => match c.program, c.stack with
      | none, _ => []
      | some p, some stack =>
        let w := w.modifyExpr e fun c => { c with stack := none }
        p.events (evaluate depth) (evaluateEvents depth) e ⟨stack, w⟩
      | some p, none => p.events (evaluate depth) (evaluateEvents depth) e ⟨[], w⟩

namespace Lowering

/-- Folding a call runs it. -/
def foldEvents (ev : Evaluator σ) (evs : Observer σ) (t : Target σ) (args : List (Instr σ))
    (w : Store σ) : List Event :=
  match args.mapM Instr.constant? with
  | none => []
  | some xs => if maxArity < xs.length then [] else t.events ev evs xs w

def callEvents (ev : Evaluator σ) (evs : Observer σ) (fold : Bool) (t : Target σ) (argc : ℕ)
    (p : Program σ) (w : Store σ) : List Event :=
  if p.length < argc then []
  else if fold && t.isPure then foldEvents ev evs t (p.take argc).reverse w
  else []

def stepEvents (ev : Evaluator σ) (evs : Observer σ) (table : SymbolTable σ) (fold : Bool)
    (s : Step) (p : Program σ) (w : Store σ) : List Event :=
  match s with
  | .call c argc => match table.target c with
    | .ok t => callEvents ev evs fold t argc p w
    | .error _ => []
  | _ => []

def stepsEvents (ev : Evaluator σ) (evs : Observer σ) (table : SymbolTable σ) (fold : Bool) :
    List Step → Program σ → Store σ → List Event
  | [], _, _ => []
  | s :: ss, p, w => stepEvents ev evs table fold s p w ++ match step ev table fold s p w with
    | (.ok p, w) => stepsEvents ev evs table fold ss p w
    | (.error _, _) => []

end Lowering

/-- The events while a text is compiled. -/
def compileEvents (depth : ℕ) (e : ExprId) (bs : List (Binding σ)) (o : Options) (text : Text)
    (w : Store σ) : List Event :=
  match SymbolTable.ofBindings bs with
  | .error _ => []
  | .ok table => match (w.prepare e text).attachAll e table.vars with
    | (.error _, _) => []
    | (.ok _, w) => match parse table.resolve o text with
      | .error _ => []
      | .ok tree => Lowering.stepsEvents (evaluate depth) (evaluateEvents depth) table
          o.foldConstants tree.steps [] w

/-! ### Properties that the smallest steps keep -/

variable {J : Store σ → List Event → Prop}

/-- From `w` to `w'`, with the events `es` on the way, the property is not lost. -/
def Keeps (J : Store σ → List Event → Prop) (w w' : Store σ) (es : List Event) : Prop :=
  ∀ before, J w before → J w' (before ++ es)

lemma Keeps.refl (w : Store σ) : Keeps J w w [] := by
  intro before h
  rwa [List.append_nil]

lemma Keeps.trans {w w' w'' : Store σ} {es es' : List Event} (h : Keeps J w w' es)
    (h' : Keeps J w' w'' es') : Keeps J w w'' (es ++ es') := by
  intro before hw
  have hw'' := h' _ (h before hw)
  rwa [List.append_assoc] at hw''

/-- The steps that host code, programs and folding are made of, apart from evaluations. -/
structure Steady (J : Store σ → List Event → Prop) : Prop where
  host : ∀ w h, Keeps J w { w with host := h } []
  emit : ∀ w r, Keeps J w (w.emit r) []
  update : ∀ w v x, Keeps J w (w.update v x).2 (w.updateEvents v x)
  value : ∀ w v, Keeps J w w [.read v (some (w.value v))]
  slot : ∀ w s a, w.slot? s = some a → Keeps J w w [.read a.var (some a.value)]

/-- An evaluation takes a stack and gives it back, whatever is on it then. -/
structure Stable (J : Store σ → List Event → Prop) : Prop extends Steady J where
  stack : ∀ w e s, Keeps J w (w.modifyExpr e fun c => { c with stack := s }) []

namespace Steady

variable {ev : Evaluator σ} {evs : Observer σ}

lemma script (hJ : Steady J) (hev : ∀ e w, Keeps J w (ev e w).2 (evs e w)) (s : Script σ)
    (w : Store σ) : Keeps J w (s.run ev w).2 (s.events ev evs w) := by
  induction s generalizing w with
  | done r => exact .refl w
  | get next ih => exact ih w.host w
  | put h next ih => exact (hJ.host w h).trans (ih _)
  | value v next ih => exact (hJ.value w v).trans (ih _ w)
  | isBound v next ih => exact ih _ w
  | update v x next ih => exact (hJ.update w v x).trans (ih _ _)
  | evaluate e next ih => exact (hev e w).trans (ih _ _)

lemma target (hJ : Steady J) (hev : ∀ e w, Keeps J w (ev e w).2 (evs e w)) (t : Target σ)
    (args : List Float) (w : Store σ) :
    Keeps J w (t.run ev args w).2 (t.events ev evs args w) := by
  cases t with
  | builtin b => exact .refl w
  | host n f => exact hJ.script hev (f.call args) w

lemma exec (hJ : Steady J) (hev : ∀ e w, Keeps J w (ev e w).2 (evs e w)) (e : ExprId)
    (i : Instr σ) (m : Machine σ) :
    Keeps J m.store (Machine.exec ev e i m).2.store (Machine.execEvents ev evs e i m) := by
  cases i with
  | const x => exact .refl _
  | neg =>
    simp only [Machine.exec, Machine.execEvents, m.store_neg]
    exact .refl _
  | binary o =>
    simp only [Machine.exec, Machine.execEvents, m.store_binary o]
    exact .refl _
  | var k =>
    rcases ha : m.store.slot? ⟨e, k⟩ with _ | a
    · simp only [Machine.execEvents, ha, Machine.exec, m.store_push]
      exact .refl _
    · simp only [Machine.execEvents, ha, Machine.exec_var ev ha]
      exact hJ.slot m.store ⟨e, k⟩ a ha
  | call t argc =>
    simp only [Machine.exec, Machine.execEvents, Machine.call, Machine.atCall]
    split
    · exact .refl _
    · have ht := hJ.target hev t (m.stack.take argc).reverse m.store
      rcases hrun : t.run ev (m.stack.take argc).reverse m.store with ⟨_ | x, w⟩
      · rw [hrun] at ht
        exact ht
      · rw [hrun] at ht
        exact ht

/-- What every step keeps is kept by a run. -/
lemma runAll {ι : Type} {step : ι → Machine σ → Except Error Unit × Machine σ}
    {observe : ι → Machine σ → List Event}
    (hstep : ∀ i m, Keeps J m.store (step i m).2.store (observe i m)) (is : List ι)
    (m : Machine σ) :
    Keeps J m.store (Machine.runAll step is m).2.store (Machine.gather step observe is m) := by
  induction is generalizing m with
  | nil => exact .refl _
  | cons i is ih =>
    have hi := hstep i m
    simp only [Machine.runAll, Machine.gather]
    rcases hs : step i m with ⟨_ | _, m'⟩
    · rw [hs] at hi
      simpa using hi
    · rw [hs] at hi
      exact hi.trans (ih m')

lemma program (hJ : Steady J) (hev : ∀ e w, Keeps J w (ev e w).2 (evs e w)) (e : ExprId)
    (p : Program σ) (m : Machine σ) :
    Keeps J m.store (p.run ev e m).2.store (p.events ev evs e m) := by
  have hrun := runAll (hJ.exec hev e) p { m with stack := [] }
  unfold Program.run
  rw [Machine.finish_snd]
  exact hrun

lemma foldCall (hJ : Steady J) (hev : ∀ e w, Keeps J w (ev e w).2 (evs e w)) (t : Target σ)
    (args : List (Instr σ)) (w : Store σ) :
    Keeps J w (Lowering.foldCall ev t args w).2 (Lowering.foldEvents ev evs t args w) := by
  unfold Lowering.foldCall Lowering.foldEvents
  rcases args.mapM Instr.constant? with _ | xs
  · exact .refl w
  · by_cases hroom : maxArity < xs.length
    · simp only [if_pos hroom]
      exact .refl w
    · have ht := hJ.target hev t xs w
      simp only [if_neg hroom]
      rcases hrun : t.run ev xs w with ⟨err | x, w'⟩
      · rw [hrun] at ht
        simpa using ht.trans (hJ.emit w' _)
      · rw [hrun] at ht
        simpa using ht.trans (hJ.emit w' _)

lemma lowerCall (hJ : Steady J) (hev : ∀ e w, Keeps J w (ev e w).2 (evs e w)) (fold : Bool)
    (t : Target σ) (argc : ℕ) (p : Program σ) (w : Store σ) :
    Keeps J w (Lowering.call ev fold t argc p w).2
      (Lowering.callEvents ev evs fold t argc p w) := by
  unfold Lowering.call Lowering.callEvents
  by_cases hlen : p.length < argc
  · simp only [if_pos hlen]
    exact .refl w
  · by_cases hfold : fold && t.isPure
    · have hcall := hJ.foldCall hev t (p.take argc).reverse w
      simp only [if_neg hlen, if_pos hfold]
      rcases hrun : Lowering.foldCall ev t (p.take argc).reverse w with ⟨err | _ | x, w'⟩
      · rwa [hrun] at hcall
      · rwa [hrun] at hcall
      · rwa [hrun] at hcall
    · simp only [if_neg hlen, if_neg hfold]
      exact .refl w

lemma lowerStep (hJ : Steady J) (hev : ∀ e w, Keeps J w (ev e w).2 (evs e w))
    (table : SymbolTable σ) (fold : Bool) (s : Step) (p : Program σ) (w : Store σ) :
    Keeps J w (Lowering.step ev table fold s p w).2
      (Lowering.stepEvents ev evs table fold s p w) := by
  cases s with
  | const x => exact .refl w
  | var k => exact .refl w
  | neg =>
    simp only [Lowering.step, Lowering.stepEvents]
    split
    · exact .refl w
    · exact .refl w
  | binary o =>
    simp only [Lowering.step, Lowering.stepEvents]
    split
    · exact hJ.emit w _
    · exact .refl w
  | call c argc =>
    simp only [Lowering.step, Lowering.stepEvents]
    rcases table.target c with err | t
    · exact .refl w
    · exact hJ.lowerCall hev fold t argc p w

lemma lowerSteps (hJ : Steady J) (hev : ∀ e w, Keeps J w (ev e w).2 (evs e w))
    (table : SymbolTable σ) (fold : Bool) (ss : List Step) (p : Program σ) (w : Store σ) :
    Keeps J w (Lowering.steps ev table fold ss p w).2
      (Lowering.stepsEvents ev evs table fold ss p w) := by
  induction ss generalizing p w with
  | nil => exact .refl w
  | cons s ss ih =>
    have hs := hJ.lowerStep hev table fold s p w
    unfold Lowering.steps Lowering.stepsEvents
    rcases hstep : Lowering.step ev table fold s p w with ⟨err | p', w'⟩
    · rw [hstep] at hs
      simpa using hs
    · rw [hstep] at hs
      exact hs.trans (ih p' w')

lemma lower (hJ : Steady J) (hev : ∀ e w, Keeps J w (ev e w).2 (evs e w))
    (table : SymbolTable σ) (fold : Bool) (tree : Expr) (w : Store σ) :
    Keeps J w (Formula.lower ev table fold tree w).2
      (Lowering.stepsEvents ev evs table fold tree.steps [] w) := by
  rw [lower_eq]
  exact hJ.lowerSteps hev table fold tree.steps [] w

end Steady

/-- Evaluations keep it, however deep they nest. -/
lemma Stable.evaluate (hJ : Stable J) (depth : ℕ) (e : ExprId) (w : Store σ) :
    Keeps J w (Formula.evaluate depth e w).2 (evaluateEvents depth e w) := by
  induction depth generalizing e w with
  | zero => exact .refl w
  | succ depth ih =>
    unfold Formula.evaluate evaluateEvents
    rcases w.exprs.get? e with _ | ⟨source, program, slots, stack⟩
    · exact .refl w
    · rcases program with _ | p
      · exact .refl w
      · rcases stack with _ | stack
        · exact hJ.program ih e p ⟨[], w⟩
        · have hopen := hJ.stack w e none
          have hrun := hJ.program ih e p ⟨stack, w.modifyExpr e fun c => { c with stack := none }⟩
          have hclose (m : Machine σ) := hJ.stack m.store e (some m.stack)
          simpa using (hopen.trans hrun).trans (hclose _)

end Formula
