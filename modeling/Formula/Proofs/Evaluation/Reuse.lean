import Formula.Proofs.Evaluation.InPlace
import Formula.Proofs.Store.Closing

/-!
Reusing the stack of an expression is invisible.

An evaluation comes to what the program comes to on an empty stack in the same state, whatever
earlier evaluations have left, and also in the middle of another one, which finds its values as it
has left them. With host functions that answer by their arguments, and variables as they were, it
comes to the same again and again. Main statement: `stack_reuse_invisible`.
-/

namespace Formula

variable {σ : Type} {w w' : Store σ} {e : ExprId} {l : Layout σ} {depth : ℕ} {c : Compiled σ}
  {p : Program σ} {x : ℕ → Except Error Float}

/-! ### On an empty stack -/

lemma evaluateAfresh_of_program (hc : w.exprs.get? e = some c) (hp : c.program = some p)
    (depth : ℕ) : evaluateAfresh (depth + 1) e w.bare =
      ((p.run (evaluateAfresh depth) e ⟨[], w.bare⟩).1,
        (p.run (evaluateAfresh depth) e ⟨[], w.bare⟩).2.store) := by
  have hprogram : (w.bare.exprs.get? e).bind (·.program) = some p := by
    rw [w.program_bare, hc, Option.bind_some, hp]
  simp only [evaluateAfresh, hprogram]

/-- The evaluation is the run of the program, in any store that differs in stacks only. -/
lemma evaluate_eq_run (hc : w.exprs.get? e = some c) (hp : c.program = some p)
    (hbare : w'.bare = w.bare) (depth : ℕ) :
    (evaluate (depth + 1) e w).1 = (p.run (evaluate depth) e ⟨[], w'⟩).1 ∧
    (evaluate (depth + 1) e w).2.bare = (p.run (evaluate depth) e ⟨[], w'⟩).2.store.bare := by
  have hafresh := evaluate_mirrors (depth + 1) e w
  have hrun := p.mirrors (evaluate_mirrors depth) e ⟨[], w'⟩
  rw [evaluateAfresh_of_program hc hp, ← hbare] at hafresh
  rw [Machine.bare] at hrun
  rw [← hrun] at hafresh
  exact ⟨congrArg Prod.fst hafresh, congrArg Prod.snd hafresh⟩

/-! ### In the same state -/

/-- In stores with these programs the function answers by its arguments, and leaves the slots of
the expression as they are. -/
def HostFunction.IgnoresState (l : Layout σ) (depth : ℕ) (e : ExprId) (f : HostFunction σ) : Prop :=
  ∃ g : List Float → Except String Float, ∀ args w, w.layout = l →
    ((f.call args).run (evaluate depth) w).1 = g args ∧
    ∀ k, ((f.call args).run (evaluate depth) w).2.slotValue e k = w.slotValue e k

def Program.IgnoresState (l : Layout σ) (depth : ℕ) (e : ExprId) (p : Program σ) : Prop :=
  ∀ n f argc, .call (.host n f) argc ∈ p → f.IgnoresState l depth e

/-- The store has these programs, and these values in the slots of the expression. -/
structure Store.Shows (l : Layout σ) (e : ExprId) (x : ℕ → Except Error Float) (w : Store σ) :
    Prop where
  layout : w.layout = l
  slots : ∀ k, w.slotValue e k = x k

/-- Both stores show the same. -/
def Store.ShowBoth (l : Layout σ) (e : ExprId) (x : ℕ → Except Error Float) (w w' : Store σ) :
    Prop :=
  w.Shows l e x ∧ w'.Shows l e x

lemma Target.ends_of_ignores {t : Target σ} (args : List Float)
    (ht : ∀ n f, t = .host n f → f.IgnoresState l depth e) (hw : Store.ShowBoth l e x w w') :
    Ends (Store.ShowBoth l e x) (t.run (evaluate depth) args w)
      (t.run (evaluate depth) args w') := by
  obtain ⟨hw, hw'⟩ := hw
  cases t with
  | builtin b => exact ⟨rfl, hw, hw'⟩
  | host n f =>
    obtain ⟨g, hg⟩ := ht n f rfl
    obtain ⟨hresult, hslots⟩ := hg args w hw.layout
    obtain ⟨hresult', hslots'⟩ := hg args w' hw'.layout
    have hlayout (u : Store σ) := u.layout_target depth (.host n f) args
    refine ⟨congrArg (Except.mapError _) (hresult.trans hresult'.symm),
      ⟨(hlayout w).trans hw.layout, fun k => (hslots k).trans (hw.slots k)⟩,
      ⟨(hlayout w').trans hw'.layout, fun k => (hslots' k).trans (hw'.slots k)⟩⟩

namespace Machine

lemma ends_exec_of_ignores {i : Instr σ} (s : List Float)
    (hi : ∀ n f argc, i = .call (.host n f) argc → f.IgnoresState l depth e)
    (hw : Store.ShowBoth l e x w w') :
    Ends (Store.ShowBoth l e x) (exec (evaluate depth) e i ⟨s, w⟩)
      (exec (evaluate depth) e i ⟨s, w'⟩) := by
  cases i with
  | const y => exact ⟨rfl, rfl, hw⟩
  | var k =>
    simp only [exec, hw.1.slots k, hw.2.slots k]
    cases x k <;> exact ⟨rfl, rfl, hw⟩
  | neg => rcases s with _ | ⟨a, s⟩ <;> exact ⟨rfl, rfl, hw⟩
  | binary o => rcases s with _ | ⟨b, _ | ⟨a, s⟩⟩ <;> exact ⟨rfl, rfl, hw⟩
  | call t argc =>
    simp only [exec, call]
    by_cases hlen : s.length < argc
    · simp only [if_pos hlen]
      exact ⟨rfl, rfl, hw⟩
    · simp only [if_neg hlen]
      have hends := Target.ends_of_ignores (s.take argc).reverse
        (fun n f ht => hi n f argc (congrArg (Instr.call · argc) ht)) hw
      rcases hends.cases with ⟨err, w₁, w₁', hx, hx', h₁⟩ | ⟨y, w₁, w₁', hx, hx', h₁⟩
      · rw [hx, hx']
        exact ⟨rfl, rfl, h₁⟩
      · rw [hx, hx']
        exact ⟨rfl, rfl, h₁⟩

lemma ends_runAll_of_ignores (hp : p.IgnoresState l depth e) (s : List Float)
    (hw : Store.ShowBoth l e x w w') :
    Ends (Store.ShowBoth l e x) (runAll (exec (evaluate depth) e) p ⟨s, w⟩)
      (runAll (exec (evaluate depth) e) p ⟨s, w'⟩) := by
  induction p generalizing s w w' with
  | nil => exact ⟨rfl, rfl, hw⟩
  | cons i p ih =>
    have hi := ends_exec_of_ignores (i := i) s
      (fun n f argc hcall => hp n f argc (hcall ▸ List.mem_cons_self)) hw
    simp only [runAll]
    rcases hi.cases with ⟨err, s₁, w₁, w₁', hx, hx', h₁⟩ | ⟨_, s₁, w₁, w₁', hx, hx', h₁⟩
    · rw [hx, hx']
      exact ⟨rfl, rfl, h₁⟩
    · rw [hx, hx']
      exact ih (fun n f argc hmem => hp n f argc (List.mem_cons_of_mem _ hmem)) s₁ h₁

end Machine

lemma Program.ends_run_of_ignores (hp : p.IgnoresState l depth e)
    (hw : Store.ShowBoth l e x w w') :
    Machine.Ends (Store.ShowBoth l e x) (p.run (evaluate depth) e ⟨[], w⟩)
      (p.run (evaluate depth) e ⟨[], w'⟩) := by
  have hrun := Machine.ends_runAll_of_ignores hp [] hw
  unfold run
  rcases hrun.cases with ⟨err, s₁, w₁, w₁', hx, hx', h₁⟩ | ⟨_, s₁, w₁, w₁', hx, hx', h₁⟩
  · simp only [hx, hx']
    exact ⟨rfl, rfl, h₁⟩
  · simp only [hx, hx']
    exact ⟨rfl, rfl, h₁⟩

/-- From stores that show the same to the expression, it evaluates to the same, and they still show
the same. -/
lemma ends_evaluate_of_ignores {n : ℕ} (he : l e = some (some p, n))
    (hp : p.IgnoresState l depth e) (hw : Store.ShowBoth l e x w w') :
    Ends (Store.ShowBoth l e x) (evaluate (depth + 1) e w) (evaluate (depth + 1) e w') := by
  have hend {u : Store σ} (hu : u.layout = l) :
      (evaluate (depth + 1) e u).1 = (p.run (evaluate depth) e ⟨[], u⟩).1 ∧
      (evaluate (depth + 1) e u).2.bare = (p.run (evaluate depth) e ⟨[], u⟩).2.store.bare := by
    obtain ⟨c, hc, hprogram, -⟩ := Store.layout_eq_some ((congrFun hu e).trans he)
    exact evaluate_eq_run hc hprogram rfl depth
  have hshows {u : Store σ} (hu : u.layout = l)
      (hrun : (p.run (evaluate depth) e ⟨[], u⟩).2.store.Shows l e x) :
      (evaluate (depth + 1) e u).2.Shows l e x := by
    refine ⟨(u.layout_evaluate (depth + 1) e).trans hu, fun k => ?_⟩
    rw [← Store.slotValue_bare, (hend hu).2, Store.slotValue_bare]
    exact hrun.slots k
  obtain ⟨hresult, -, hrun, hrun'⟩ := p.ends_run_of_ignores hp hw
  refine ⟨?_, hshows hw.1.layout hrun, hshows hw.2.layout hrun'⟩
  rw [(hend hw.1.layout).1, (hend hw.2.layout).1, hresult]

lemma shows_runAll_evaluate {n : ℕ} (he : l e = some (some p, n))
    (hp : p.IgnoresState l depth e) (hw : w.Shows l e x) (m : ℕ) :
    (Op.runAll w (List.replicate m (.evaluate (depth + 1) e))).Shows l e x := by
  induction m generalizing w with
  | zero => exact hw
  | succ m ih =>
    have hone := ends_evaluate_of_ignores he hp ⟨hw, hw⟩
    exact ih hone.2.1

/-- **Reusing the stack is invisible.** An evaluation of a live expression comes to what its program
comes to on an empty stack, in the same state or in one that differs only in what is on stacks, and
also to what it comes to where no evaluation finds anything on a stack. The same is true where all
evaluations of an expression work on its one stack, and one in the middle of another has a stack of
its own: those under way, whatever `busy` lists, find on their stacks what they have left there.
After an evaluation the same stacks are there as before, and between operations all are. If host
functions answer by their arguments and leave the slots of the expression, it evaluates to the same
wherever its slots have the same values, and so any number of times in a row. -/
theorem stack_reuse_invisible (hc : w.exprs.get? e = some c) (hp : c.program = some p)
    (depth : ℕ) :
    (∀ w' : Store σ, w'.bare = w.bare →
      (evaluate (depth + 1) e w).1 = (p.run (evaluate depth) e ⟨[], w'⟩).1 ∧
      (evaluate (depth + 1) e w).2.bare = (p.run (evaluate depth) e ⟨[], w'⟩).2.store.bare) ∧
    ((evaluate (depth + 1) e w).1 = (p.run (evaluateAfresh depth) e ⟨[], w.bare⟩).1 ∧
      (evaluate (depth + 1) e w).2.bare =
        (p.run (evaluateAfresh depth) e ⟨[], w.bare⟩).2.store) ∧
    (∀ busy, (evaluateInPlace (depth + 1) busy e w).1 = (evaluate (depth + 1) e w).1 ∧
      (evaluateInPlace (depth + 1) busy e w).2.bare = (evaluate (depth + 1) e w).2.bare ∧
      ∀ e' ∈ busy, (evaluateInPlace (depth + 1) busy e w).2.stack? e' = w.stack? e') ∧
    (evaluate (depth + 1) e w).2.outline = w.outline ∧
    (∀ es, Reachable w es → ∀ e' c', w.exprs.get? e' = some c' → c'.stack.isSome) ∧
    (p.IgnoresState w.layout depth e →
      (∀ w' : Store σ, w'.layout = w.layout → (∀ k, w'.slotValue e k = w.slotValue e k) →
        (evaluate (depth + 1) e w').1 = (evaluate (depth + 1) e w).1) ∧
      ∀ n, (evaluate (depth + 1) e
          (Op.runAll w (List.replicate n (.evaluate (depth + 1) e)))).1 =
        (evaluate (depth + 1) e w).1) := by
  have hmirror := evaluate_mirrors (depth + 1) e w
  have hlive : w.layout e = some (some p, c.slots.length) := by
    rw [Store.layout, hc, Option.map_some, hp]
  have hshows : w.Shows w.layout e (w.slotValue e) := ⟨rfl, fun _ => rfl⟩
  refine ⟨fun w' hbare => evaluate_eq_run hc hp hbare depth, ?_, fun busy => ?_,
    w.outline_evaluate (depth + 1) e, fun es hreach e' c' hc' => ?_, fun hstate => ⟨?_, ?_⟩⟩
  · have hafresh := hmirror.trans (evaluateAfresh_of_program hc hp depth)
    exact ⟨congrArg Prod.fst hafresh, congrArg Prod.snd hafresh⟩
  · have hplace := (evaluateInPlace_mirrors (depth + 1) busy e w).trans hmirror.symm
    obtain ⟨hresult, hstore⟩ := Prod.ext_iff.1 hplace
    exact ⟨hresult, hstore, fun e' he' => evaluateInPlace_spares (depth + 1) busy e' he' e w⟩
  · exact (Compiled.settled_iff.1 (hreach.settled e' c' hc')).1
  · intro w' hlayout hslots
    exact (ends_evaluate_of_ignores hlive hstate ⟨⟨hlayout, hslots⟩, hshows⟩).1
  · intro n
    exact (ends_evaluate_of_ignores hlive hstate
      ⟨shows_runAll_evaluate hlive hstate hshows n, hshows⟩).1

/-- Evaluates expression zero again, and does not mind how that ends. -/
def again : HostFunction Unit where
  arity := 1
  isPure := false
  code _ := .evaluate 0 fun _ => .done (.ok 5)
  arity_le := Nat.le_add_left 1 6

/-- The program of `1+again(2)`. -/
def againProgram : Program Unit :=
  [.const 1, .const 2, .call (.host ⟨['a', 'g', 'a', 'i', 'n'], rfl, by decide⟩ again) 1,
    .binary .add]

/-- Two values have been left on the stack of expression zero. -/
def againStore : Store Unit where
  cells := []
  exprs := [(0, ⟨[], some againProgram, [], some [7, 7]⟩)]
  log := []
  host := ()

lemma Store.slotValue_of_no_slots {q : Option (Program σ)} (h : w.layout e = some (q, 0)) (k : ℕ) :
    w.slotValue e k = .error (.state .disposed) := by
  obtain ⟨c, hc, -, hslots⟩ := layout_eq_some h
  simp [slotValue, hc, List.eq_nil_of_length_eq_zero hslots]

lemma ignoresState_again (depth : ℕ) : againProgram.IgnoresState againStore.layout depth 0 := by
  intro n f argc hf
  obtain rfl : f = again := by
    simp only [againProgram, List.mem_cons, List.not_mem_nil, or_false] at hf
    rcases hf with hf | hf | hf | hf <;> cases hf
    rfl
  refine ⟨fun args => if args.length = again.arity then .ok 5 else
    .error s!"expected {again.arity} arguments, found {args.length}", fun args w hw => ?_⟩
  by_cases hlen : args.length = again.arity
  · have hevaluated := (w.layout_evaluate depth 0).trans hw
    simp only [HostFunction.call, if_pos hlen]
    refine ⟨rfl, fun k => ?_⟩
    exact (Store.slotValue_of_no_slots (congrFun hevaluated 0) k).trans
      (Store.slotValue_of_no_slots (congrFun hw 0) k).symm
  · simp only [HostFunction.call, if_neg hlen]
    exact ⟨rfl, fun _ => rfl⟩

/-- `1+again(2)` is evaluated with values left on its stack, and again in the middle of itself. -/
theorem stack_reuse_invisible_again : ∃ c, againStore.exprs.get? 0 = some c ∧
    c.program = some againProgram ∧ c.stack = some [7, 7] ∧
    againProgram.IgnoresState againStore.layout 2 0 ∧
    (evaluate 3 0 againStore).1 = .ok (Operator.add.apply 1 5) ∧
    (againProgram.run (evaluate 2) 0 ⟨[], againStore⟩).1 = .ok (Operator.add.apply 1 5) ∧
    (evaluateInPlace 3 [] 0 againStore).1 = .ok (Operator.add.apply 1 5) ∧
    ∀ n, (evaluate 3 0 (Op.runAll againStore (List.replicate n (.evaluate 3 0)))).1 =
      .ok (Operator.add.apply 1 5) := by
  have hvalue : (evaluate 3 0 againStore).1 = .ok (Operator.add.apply 1 5) := rfl
  obtain ⟨hrun, -, hplace, -, -, hagain⟩ :=
    stack_reuse_invisible (w := againStore) (e := 0) rfl rfl 2
  have hstate := ignoresState_again 2
  refine ⟨_, rfl, rfl, rfl, hstate, hvalue, (hrun againStore rfl).1.symm.trans hvalue,
    (hplace []).1.trans hvalue, fun n => ((hagain hstate).2 n).trans hvalue⟩

end Formula
