import Formula.Proofs.Evaluation.Calls

/-!
Stacks of pending work.

The walk that evaluates a tree and the walk that lowers it push what is left to do, the leftmost
operand last. Whatever is pending, working it off is taking its steps one after the other, those
on top first. So both walks take the steps of a tree in postfix order, and what holds of steps that
are taken in a row holds of them.
-/

namespace Formula

variable {σ β : Type} {ev : Evaluator σ} {table : SymbolTable σ} {fold : Bool}

/-- Adds the instructions for steps, one after the other. -/
def Lowering.steps (ev : Evaluator σ) (table : SymbolTable σ) (fold : Bool) :
    List Step → Program σ → Action σ Error (Program σ)
  | [], p, w => (.ok p, w)
  | s :: ss, p, w => match step ev table fold s p w with
    | (.ok p, w) => steps ev table fold ss p w
    | (.error e, w) => (.error e, w)

namespace EvalOp

/-- The steps that a piece of work comes to. -/
def steps : EvalOp → List Step
  | eval e => e.steps
  | apply s => [s]

lemma steps_eval (as : List Expr) : (as.map eval).flatMap steps = Expr.stepsList as := by
  induction as with
  | nil => rfl
  | cons a as ih => rw [List.map_cons, List.flatMap_cons, ih, Expr.stepsList_cons, steps]

/-- A piece of work is one step, or it is cut up and its steps stay the same. -/
lemma run_cases (ev : Evaluator σ) (table : SymbolTable σ) (op : EvalOp) (m : Machine σ) :
    (∃ s, op.steps = [s] ∧ op.step? = some s ∧ op.run ev table m = act ev table s m) ∨
    ∃ pushed, op.steps = pushed.reverse.flatMap steps ∧ op.step? = none ∧
      op.run ev table m = (.ok pushed, m) := by
  cases op with
  | apply s => exact .inl ⟨s, rfl, rfl, rfl⟩
  | eval e =>
    cases e with
    | const x => exact .inl ⟨_, rfl, rfl, rfl⟩
    | var k => exact .inl ⟨_, rfl, rfl, rfl⟩
    | neg a =>
      refine .inr ⟨_, ?_, rfl, rfl⟩
      simp [steps]
    | binary o a b =>
      refine .inr ⟨_, ?_, rfl, rfl⟩
      simp [steps]
    | call c as =>
      refine .inr ⟨_, ?_, rfl, rfl⟩
      rw [List.reverse_cons, ← List.map_reverse, List.reverse_reverse, List.flatMap_append,
        steps_eval, steps, Expr.steps_call]
      rfl

lemma act_eq_error {s : Step} {m m' : Machine σ} {err : Error}
    (h : act ev table s m = (.error err, m')) : m.step ev table s = (.error err, m') := by
  unfold act at h
  split at h
  · cases h
  · rename_i hs
    cases h
    exact hs

lemma gather_of_ok {observe : Step → Machine σ → List β} {op : EvalOp} {pushed : List EvalOp}
    {m m' : Machine σ} (h : op.run ev table m = (.ok pushed, m')) (ops : List EvalOp) :
    gather ev table observe (op :: ops) m =
      (op.step?.elim [] fun s => observe s m) ++
        gather ev table observe (pushed.reverse ++ ops) m' := by
  rw [gather]
  split
  · rename_i h'
    cases h'.symm.trans h
    rfl
  · rename_i h'
    cases h'.symm.trans h

lemma gather_of_error {observe : Step → Machine σ → List β} {op : EvalOp} {m m' : Machine σ}
    {err : Error} (h : op.run ev table m = (.error err, m')) (ops : List EvalOp) :
    gather ev table observe (op :: ops) m = op.step?.elim [] fun s => observe s m := by
  rw [gather]
  split
  · rename_i h'
    cases h'.symm.trans h
  · exact List.append_nil _

/-- **Working off a stack is taking its steps**, with all that is observed on the way. -/
theorem walk_eq_runAll (ev : Evaluator σ) (table : SymbolTable σ)
    (observe : Step → Machine σ → List β) (ops : List EvalOp) (m : Machine σ) :
    walk ev table ops m = Machine.runAll (Machine.step ev table) (ops.flatMap steps) m ∧
      gather ev table observe ops m =
        Machine.gather (Machine.step ev table) observe (ops.flatMap steps) m := by
  fun_induction walk ev table ops m with
  | case1 m => exact ⟨rfl, by rw [gather]; rfl⟩
  | case2 op ops m pushed m' hrun ih =>
    rw [gather_of_ok hrun, List.flatMap_cons]
    rw [List.flatMap_append] at ih
    rcases run_cases ev table op m with ⟨s, hsteps, hs, hact⟩ | ⟨_, hsteps, hs, hcut⟩
    · obtain ⟨rfl, hstep⟩ := act_eq_ok (hact.symm.trans hrun)
      rw [hsteps, hs]
      simp only [List.singleton_append, Machine.runAll, Machine.gather, hstep]
      exact ⟨ih.1, congrArg _ ih.2⟩
    · cases hcut.symm.trans hrun
      rw [hsteps, hs]
      exact ih
  | case3 op ops m err m' hrun =>
    rw [gather_of_error hrun, List.flatMap_cons]
    rcases run_cases ev table op m with ⟨s, hsteps, hs, hact⟩ | ⟨_, -, -, hcut⟩
    · have hstep := act_eq_error (hact.symm.trans hrun)
      rw [hsteps, hs]
      simp only [List.singleton_append, Machine.runAll, Machine.gather, hstep]
      exact ⟨trivial, (List.append_nil _).symm⟩
    · cases hcut.symm.trans hrun

lemma gather_eval (ev : Evaluator σ) (table : SymbolTable σ) (observe : Step → Machine σ → List β)
    (e : Expr) (m : Machine σ) : gather ev table observe [.eval e] m =
      Machine.gather (Machine.step ev table) observe e.steps m := by
  have hwalk := (walk_eq_runAll ev table observe [.eval e] m).2
  rwa [List.flatMap_singleton] at hwalk

end EvalOp

namespace Expr

/-- The walk over a tree takes its steps in postfix order. -/
theorem eval_eq (ev : Evaluator σ) (table : SymbolTable σ) (e : Expr) (w : Store σ) :
    e.eval ev table w =
      ((Machine.finish (Machine.runAll (Machine.step ev table) e.steps ⟨[], w⟩)).1,
        (Machine.finish (Machine.runAll (Machine.step ev table) e.steps ⟨[], w⟩)).2.store) := by
  have hwalk := (EvalOp.walk_eq_runAll ev table (Machine.stepCalls ev table) [.eval e] ⟨[], w⟩).1
  rw [List.flatMap_singleton, EvalOp.steps] at hwalk
  rw [eval, hwalk]

theorem calls_eq (ev : Evaluator σ) (table : SymbolTable σ) (e : Expr) (w : Store σ) :
    e.calls ev table w =
      Machine.gather (Machine.step ev table) (Machine.stepCalls ev table) e.steps ⟨[], w⟩ :=
  EvalOp.gather_eval ev table (Machine.stepCalls ev table) e ⟨[], w⟩

end Expr

namespace Lowering.Visit

/-- The steps whose instructions a visit adds. Nothing is left to do for a leaf that was entered. -/
def steps : Visit → List Step
  | enter e => e.steps
  | exit (.neg _) => [.neg]
  | exit (.binary o _ _) => [.binary o]
  | exit (.call c as) => [.call c as.length]
  | exit (.const _) => []
  | exit (.var _) => []

lemma steps_enter (as : List Expr) : (as.map enter).flatMap steps = Expr.stepsList as := by
  induction as with
  | nil => rfl
  | cons a as ih => rw [List.map_cons, List.flatMap_cons, ih, Expr.stepsList_cons, steps]

/-- A visit adds the instruction of one step, or others are pushed for it and the steps stay the
same. -/
lemma run_cases (ev : Evaluator σ) (table : SymbolTable σ) (fold : Bool) (v : Visit)
    (p : Program σ) (w : Store σ) :
    (∃ s, v.steps = [s] ∧ v.run ev table fold p w = match step ev table fold s p w with
      | (.ok p, w) => (.ok ([], p), w)
      | (.error err, w) => (.error err, w)) ∨
    ∃ pushed, v.steps = pushed.reverse.flatMap steps ∧
      v.run ev table fold p w = (.ok (pushed, p), w) := by
  cases v with
  | enter e =>
    cases e with
    | const x => exact .inl ⟨_, rfl, rfl⟩
    | var k => exact .inl ⟨_, rfl, rfl⟩
    | neg a =>
      refine .inr ⟨_, ?_, rfl⟩
      simp [steps]
    | binary o a b =>
      refine .inr ⟨_, ?_, rfl⟩
      simp [steps]
    | call c as =>
      refine .inr ⟨_, ?_, rfl⟩
      rw [List.reverse_cons, ← List.map_reverse, List.reverse_reverse, List.flatMap_append,
        steps_enter, steps, Expr.steps_call]
      rfl
  | exit e =>
    cases e with
    | const x => exact .inr ⟨[], rfl, rfl⟩
    | var k => exact .inr ⟨[], rfl, rfl⟩
    | neg a => exact .inl ⟨_, rfl, rfl⟩
    | binary o a b => exact .inl ⟨_, rfl, rfl⟩
    | call c as => exact .inl ⟨_, rfl, rfl⟩

/-- **Making the pending visits adds the instructions of their steps.** -/
theorem walk_eq_steps (vs : List Visit) (p : Program σ) (w : Store σ) :
    walk ev table fold vs p w = Lowering.steps ev table fold (vs.flatMap steps) p w := by
  fun_induction walk ev table fold vs p w with
  | case1 p w => rfl
  | case2 v vs p w pushed p' w' hrun ih =>
    rw [ih, List.flatMap_cons, List.flatMap_append]
    rcases run_cases ev table fold v p w with ⟨s, hsteps, hstep⟩ | ⟨_, hsteps, hcut⟩
    · rw [hsteps, List.singleton_append, Lowering.steps]
      rw [hstep] at hrun
      split at hrun
      · cases hrun
        rfl
      · cases hrun
    · cases hcut.symm.trans hrun
      rw [hsteps]
  | case3 v vs p w err w' hrun =>
    rw [List.flatMap_cons]
    rcases run_cases ev table fold v p w with ⟨s, hsteps, hstep⟩ | ⟨_, -, hcut⟩
    · rw [hsteps, List.singleton_append, Lowering.steps]
      rw [hstep] at hrun
      split at hrun
      · cases hrun
      · cases hrun
        rfl
    · cases hcut.symm.trans hrun

end Lowering.Visit

/-- The walk that lowers a tree adds the instructions of its steps in postfix order. -/
theorem lower_eq (ev : Evaluator σ) (table : SymbolTable σ) (fold : Bool) (e : Expr)
    (w : Store σ) : lower ev table fold e w =
      Prod.map (Except.map List.reverse) id (Lowering.steps ev table fold e.steps [] w) := by
  rw [lower, Lowering.Visit.walk_eq_steps, List.flatMap_singleton, Lowering.Visit.steps]
  rfl

end Formula
