import Formula.Proofs.Store.Compilation

/-!
A compilation that fails has not happened.

Whatever was attached is given back, and no host function has run. The same is true of every check
of a text, unless a function that it folds changes variables or expressions.
-/

namespace Formula

variable {σ : Type} {w w' w'' : Store σ} {es : List Event} {e : ExprId} {depth : ℕ}
  {bs : List (Binding σ)} {o : Options} {text : Text}

/-! ### Stores that are alike -/

/-- An expression but for the stack, which only matters while a program runs. -/
def Compiled.atRest (c : Compiled σ) : Compiled σ := { c with stack := none }

namespace Store

/-- Variables have the same values and listeners, and expressions are the same. -/
structure Alike (w w' : Store σ) : Prop where
  cell : ∀ v, w'.cell v = w.cell v
  exprs : ∀ e, (w'.exprs.get? e).map Compiled.atRest = (w.exprs.get? e).map Compiled.atRest

namespace Alike

lemma refl (w : Store σ) : Alike w w := ⟨fun _ => rfl, fun _ => rfl⟩

lemma trans (h : Alike w w') (h' : Alike w' w'') : Alike w w'' :=
  ⟨fun v => (h'.cell v).trans (h.cell v), fun e => (h'.exprs e).trans (h.exprs e)⟩

/-- The log does not count. -/
lemma log (w : Store σ) (records : List Record) : Alike w { w with log := records } :=
  ⟨fun _ => rfl, fun _ => rfl⟩

lemma value (h : Alike w w') (v : VarId) : w'.value v = w.value v :=
  congrArg Cell.value (h.cell v)

/-- Where listeners and slots belong together, the slots tell the listeners. -/
lemma of_coherent (h : w.Coherent none) (h' : w'.Coherent none)
    (hvalue : ∀ v, w'.value v = w.value v)
    (hexprs : ∀ e, (w'.exprs.get? e).map Compiled.atRest =
      (w.exprs.get? e).map Compiled.atRest) : Alike w w' := by
  have hslot (s : SlotId) : w'.slot? s = w.slot? s := by
    have howner := congrArg (Option.bind · fun c => c.slots[s.index]?) (hexprs s.owner)
    simp only [Option.bind_map] at howner
    exact howner
  refine ⟨fun v => ?_, hexprs⟩
  have hlistener : w'.listener v = w.listener v := by
    refine Option.ext fun s => ?_
    rw [h.listener v s, h'.listener v s]
    unfold SlotOf
    rw [hslot]
  have heta (c : Cell) : c = ⟨c.value, c.listener⟩ := rfl
  rw [heta (w'.cell v), heta (w.cell v)]
  exact congrArg₂ Cell.mk (hvalue v) hlistener

end Alike

end Store

/-! ### Functions without side effects -/

/-- A call changes neither variables nor expressions. -/
def HostFunction.Effectless (ev : Evaluator σ) (f : HostFunction σ) : Prop :=
  ∀ args (w : Store σ), w.Alike ((f.call args).run ev w).2

lemma Target.alike {ev : Evaluator σ} {t : Target σ} {args : List Float}
    (h : ∀ c ∈ t.calls ev args w, c.function.Effectless ev) : w.Alike (t.run ev args w).2 := by
  cases t with
  | builtin b => exact .refl w
  | host n f => exact h _ List.mem_cons_self args w

/-- Folding has no side effects if the functions that are folded have none. -/
lemma Lowering.alike {ev : Evaluator σ} {table : SymbolTable σ} {fold : Bool} {ss : List Step}
    {p : Program σ}
    (h : ∀ c ∈ gather ev (Target.calls ev) table fold ss p w, c.function.Effectless ev) :
    w.Alike (steps ev table fold ss p w).2 := by
  induction ss generalizing p w with
  | nil => exact .refl w
  | cons s ss ih =>
    obtain ⟨hcall, hrest⟩ := List.forall_mem_append.1 h
    have hstep : w.Alike (step ev table fold s p w).2 := by
      rcases step_cases ev (Target.calls ev) table fold s p w with
        ⟨-, records, hstore⟩ | ⟨c, t, xs, r, -, -, -, hcalls, hstore⟩
      · rw [hstore]
        exact .log w _
      · rw [hcalls] at hcall
        rw [hstore]
        exact (Target.alike hcall).trans (.log _ _)
    rw [steps]
    rcases hs : step ev table fold s p w with ⟨err | q, w'⟩
    · rwa [hs] at hstep
    · rw [hs] at hstep hrest
      exact hstep.trans (ih hrest)

lemma SymbolTable.functionAt?_of_target {table : SymbolTable σ} {c : Callee} {n : Name}
    {f : HostFunction σ} (h : table.target c = .ok (.host n f)) :
    ∃ i, table.functionAt? i = some (n, f) := by
  cases c with
  | builtin b => cases h
  | bound i =>
    unfold target at h
    rcases hf : table.functionAt? i with _ | ⟨n', f'⟩
    · simp [hf] at h
    · simp only [hf] at h
      cases h
      exact ⟨i, hf⟩

/-- What is folded is a pure function of the table. -/
lemma Lowering.mem_gather_calls {ev : Evaluator σ} {table : SymbolTable σ} {fold : Bool}
    {ss : List Step} {p : Program σ} {c : Call σ}
    (h : c ∈ gather ev (Target.calls ev) table fold ss p w) :
    c.function.isPure = true ∧ ∃ i, table.functionAt? i = some (c.name, c.function) := by
  induction ss generalizing p w with
  | nil => cases h
  | cons s ss ih =>
    rw [gather] at h
    rcases List.mem_append.1 h with hhead | hrest
    · rcases step_cases ev (Target.calls ev) table fold s p w with
        ⟨hnone, -⟩ | ⟨d, t, xs, r, -, ht, hpure, hcalls, -⟩
      · rw [hnone] at hhead
        cases hhead
      · rw [hcalls] at hhead
        cases t with
        | builtin b => cases hhead
        | host n f =>
          obtain rfl := List.mem_singleton.1 hhead
          exact ⟨hpure, SymbolTable.functionAt?_of_target ht⟩
    · rcases hs : step ev table fold s p w with ⟨err | q, w'⟩
      · rw [hs] at hrest
        cases hrest
      · rw [hs] at hrest
        exact ih hrest

/-- A compilation folds calls of pure functions that were bound. -/
lemma mem_compileCalls {c : Call σ} (h : c ∈ compileCalls depth e bs o text w) :
    c.function.isPure = true ∧ ∃ b ∈ bs, b.referent = .function c.function := by
  have hend := compilation (Target.calls (evaluate depth)) depth e bs o text w
  unfold compileCalls at h
  generalize compile depth e bs o text w = r at hend
  generalize gatherCompile _ depth e bs o text w = is at hend h
  cases hend with
  | done hb =>
    obtain ⟨hpure, i, hf⟩ := Lowering.mem_gather_calls h
    exact ⟨hpure, SymbolTable.mem_of_functionAt? hb hf⟩
  | _ => cases h

/-! ### Compilations that fail -/

/-- What was prepared for a text that does not compile is gone. -/
lemma exprs_withdrawn (hfree : w.exprs.get? e = none) (vs : List (Name × VarId)) (err : Error) :
    (w.withdrawn e text vs err).exprs = w.exprs ∧
      (w.withdrawn e text vs err).host = w.host ∧
      ∀ v, (w.withdrawn e text vs err).value v = w.value v := by
  have hframe := w.frame_withdrawn e text vs err
  exact ⟨hframe.exprs_eq hfree (w.get?_withdrawn e text vs err), hframe.host, hframe.value⟩

lemma compile_of_error (hfree : w.exprs.get? e = none) {err : Error}
    (h : compile depth e bs o text w = (.error err, w')) :
    (w'.exprs = w.exprs ∧ w'.host = w.host ∧ ∀ v, w'.value v = w.value v) ∧
      compileInvocations depth e bs o text w = [] := by
  have hend := compilation (Target.invocations (evaluate depth) (evaluateInvocations depth)) depth
    e bs o text w
  unfold compileInvocations
  rw [h] at hend
  generalize gatherCompile _ depth e bs o text w = is at hend ⊢
  cases hend with
  | naming _ => exact ⟨⟨rfl, rfl, fun _ => rfl⟩, rfl⟩
  | bound _ _ => exact ⟨exprs_withdrawn hfree _ _, rfl⟩
  | parse _ _ _ => exact ⟨exprs_withdrawn hfree _ _, rfl⟩

/-- What compiled is taken back with its expression. -/
lemma drop_of_compile (hfree : w.exprs.get? e = none)
    (hcalls : ∀ c ∈ compileCalls depth e bs o text w, c.function.Effectless (evaluate depth))
    (h : compile depth e bs o text w = (.ok (), w')) :
    (∀ v, (w'.drop e).value v = w.value v) ∧
      ∀ e', ((w'.drop e).exprs.get? e').map Compiled.atRest =
        (w.exprs.get? e').map Compiled.atRest := by
  have hend := compilation (Target.calls (evaluate depth)) depth e bs o text w
  unfold compileCalls at hcalls
  rw [h] at hend
  generalize gatherCompile _ depth e bs o text w = is at hend hcalls
  cases hend with
  | @done table tree p w₂ _ _ _ _ _ hlower _ =>
    have hattached := w.frame_attached e text table.vars
    have hgone := (Store.Frame.install w₂ e text p).trans (Store.Frame.drop _ e)
    have halike : (w.attached e text table.vars).Alike w₂ := by
      rw [lower_eq] at hlower
      have hstore : (Lowering.steps (evaluate depth) table o.foldConstants tree.steps []
          (w.attached e text table.vars)).2 = w₂ := congrArg Prod.snd hlower
      exact hstore ▸ Lowering.alike hcalls
    refine ⟨fun v => ?_, fun e' => ?_⟩
    · rw [hgone.value, halike.value, hattached.value]
    · by_cases he : e = e'
      · subst he
        rw [Store.get?_drop, hfree]
      · rw [hgone.get?_of_ne he, halike.exprs, hattached.get?_of_ne he]

/-- **A failed compilation is atomic** in every reachable store. Variables have the values and
listeners that they had, expressions and the host's state are the same, and no function has been
called. Checking a text leaves variables and expressions as they were, whether the text compiles or
not, if the functions whose calls it folds have no side effects. -/
theorem compile_atomic (h : Reachable w es) (hfree : w.exprs.get? e = none) (depth : ℕ)
    (bs : List (Binding σ)) (o : Options) (text : Text) :
    (∀ err w', compile depth e bs o text w = (.error err, w') →
      (∀ v, w'.cell v = w.cell v) ∧ w'.exprs = w.exprs ∧ w'.host = w.host ∧
        compileInvocations depth e bs o text w = []) ∧
    ∀ b w', validateWith depth e bs o text w = (b, w') →
      (∀ c ∈ compileCalls depth e bs o text w, c.function.Effectless (evaluate depth)) →
      w.Alike w' := by
  have hcoherent := h.consistent.coherent
  have hfailed {err : Error} {w' : Store σ} (hc : compile depth e bs o text w = (.error err, w')) :
      w'.exprs = w.exprs ∧ w'.host = w.host ∧ w.Alike w' := by
    obtain ⟨⟨hexprs, hhost, hvalue⟩, -⟩ := compile_of_error hfree hc
    have hcoherent' := (h.consistent.compile hfree depth bs o text).coherent
    rw [hc] at hcoherent'
    exact ⟨hexprs, hhost, .of_coherent hcoherent hcoherent' hvalue fun e' => by rw [hexprs]⟩
  refine ⟨fun err w' hc => ?_, fun b w' hv hcalls => ?_⟩
  · obtain ⟨hexprs, hhost, halike⟩ := hfailed hc
    exact ⟨halike.cell, hexprs, hhost, (compile_of_error hfree hc).2⟩
  · have hcoherent' := (h.consistent.op (.validate depth e bs o text) hfree).coherent
    change Store.Coherent none (validateWith depth e bs o text w).2 at hcoherent'
    unfold validateWith at hv hcoherent'
    rcases hc : compile depth e bs o text w with ⟨err | _, w₁⟩
    · rw [hc] at hv
      cases hv
      exact (hfailed hc).2.2
    · rw [hc] at hv hcoherent'
      cases hv
      obtain ⟨hvalue, hexprs⟩ := drop_of_compile hfree hcalls hc
      exact .of_coherent hcoherent hcoherent' hvalue hexprs

lemma effectless_inc (ev : Evaluator Unit) : inc.Effectless ev := by
  intro args w
  unfold HostFunction.call
  split
  · exact .refl w
  · exact .refl w

/-- Beside a text that ends too soon, one that folds a call. -/
theorem compile_atomic_put : ∃ (w : Store Unit) (es : List Event) (err : Error)
    (w₁ w₂ : Store Unit), Reachable w es ∧ w.exprs.get? 0 = none ∧
    compile 1 0 putBindings ⟨true, 4, 15⟩ ['('] w = (.error err, w₁) ∧ w₁.cell 0 = w.cell 0 ∧
    validateWith 1 0 putBindings ⟨true, 4, 15⟩ putText w = (true, w₂) ∧ w.Alike w₂ := by
  have hnew := (Reachable.empty ()).op (.newVariable 0 5) rfl
  have hfree : ((Op.newVariable 0 5).run (.empty ())).exprs.get? 0 = none := rfl
  have hfails : (compile 1 0 putBindings ⟨true, 4, 15⟩ ['(']
      ((Op.newVariable 0 5).run (.empty ()))).1.isOk = false := by
    simp only [compile, ofBindings_put]
    decide +kernel
  have hcompiles : (validateWith 1 0 putBindings ⟨true, 4, 15⟩ putText
      ((Op.newVariable 0 5).run (.empty ()))).1 = true := by
    simp only [validateWith, compile, ofBindings_put]
    decide +kernel
  have heffectless : ∀ c ∈ compileCalls 1 0 putBindings ⟨true, 4, 15⟩ putText
      ((Op.newVariable 0 5).run (.empty ())), c.function.Effectless (evaluate 1) := by
    intro c hc
    obtain ⟨hpure, b, hb, hf⟩ := mem_compileCalls hc
    simp only [putBindings, List.mem_cons, List.not_mem_nil, or_false] at hb
    rcases hb with rfl | rfl | rfl
    · obtain hput : put = c.function := Referent.function.inj hf
      rw [← hput] at hpure
      cases hpure
    · obtain hinc : inc = c.function := Referent.function.inj hf
      rw [← hinc]
      exact effectless_inc _
    · cases hf
  have hatomic := compile_atomic hnew hfree 1 putBindings ⟨true, 4, 15⟩
  rcases hc : compile 1 0 putBindings ⟨true, 4, 15⟩ ['('] ((Op.newVariable 0 5).run (.empty ()))
    with ⟨err | _, w₁⟩
  · refine ⟨_, _, err, w₁, _, hnew, hfree, hc, ((hatomic _).1 err w₁ hc).1 0,
      Prod.ext hcompiles rfl, (hatomic putText).2 _ _ rfl heffectless⟩
  · rw [hc] at hfails
    cases hfails

end Formula
