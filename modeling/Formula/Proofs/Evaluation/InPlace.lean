import Formula.Proofs.Evaluation.Afresh

/-!
Evaluations on one stack.

Here the stack of an expression is one piece of memory, which stays where it is while a program
works on it: a call reads its arguments off it, host code runs, and then the stack is cut back to
where the arguments began, whatever stands there by then. An evaluation of an expression in the
middle of another one of it works on a stack of its own. That this comes to what evaluations come to
shows that what an evaluation still needs is never overwritten.
-/

namespace Formula

variable {σ : Type} {ev ev' : Evaluator σ} {w : Store σ} {e e' : ExprId} {s : List Float}

namespace Store

/-- What is on the stack of an expression, if it is there. -/
def stack? (w : Store σ) (e : ExprId) : Option (List Float) :=
  (w.exprs.get? e).bind (·.stack)

lemma stack?_setStack_self (h : (w.exprs.get? e).isSome) (s : List Float) :
    (w.setStack e (some s)).stack? e = some s := by
  obtain ⟨c, hc⟩ := Option.isSome_iff_exists.1 h
  simp [stack?, setStack, modifyExpr, hc]

lemma stack?_setStack_of_ne (w : Store σ) (hne : e ≠ e') (s : Option (List Float)) :
    (w.setStack e s).stack? e' = w.stack? e' := by
  simp [stack?, setStack, modifyExpr, hne]

lemma isSome_of_stack? (h : w.stack? e = some s) : (w.exprs.get? e).isSome := by
  unfold stack? at h
  obtain ⟨c, hc, -⟩ := Option.bind_eq_some_iff.1 h
  rw [hc]
  rfl

lemma stack?_modifyExpr (w : Store σ) (e : ExprId) {f : Compiled σ → Compiled σ}
    (hf : ∀ c, (f c).stack = c.stack) : (w.modifyExpr e f).stack? = w.stack? := by
  funext e'
  simp only [stack?, modifyExpr, Table.get?_modify]
  split
  · rcases w.exprs.get? e' with _ | c
    · rfl
    · exact hf c
  · rfl

lemma stack?_setSlot (w : Store σ) (t : SlotId) (x : Float) :
    (w.setSlot t x).stack? = w.stack? := by
  unfold setSlot
  exact w.stack?_modifyExpr t.owner fun _ => rfl

lemma steady_stack? (e : ExprId) (s : Option (List Float)) :
    Steady fun (w : Store σ) _ => w.stack? e = s where
  host _ _ _ h := h
  emit _ _ _ h := h
  update w v x _ h := by
    rcases hl : w.listener v with _ | t
    · rwa [w.update_of_none hl]
    · rw [w.update_of_some hl]
      exact (congrFun (stack?_setSlot _ t x) e).trans h
  value _ _ _ h := h
  slot _ _ _ _ _ h := h

end Store

namespace Machine

/-- A call on the stack of expression `e`. Its arguments stay there while the function runs. -/
def callInPlace (ev : Evaluator σ) (e : ExprId) (t : Target σ) (argc : ℕ) (w : Store σ) :
    Except Error Unit × Store σ :=
  let s := (w.stack? e).getD []
  if s.length < argc then (.error (.internal (.missingValues argc s.length)), w)
  else match t.run ev (s.take argc).reverse w with
    | (.ok x, w) =>
      -- what stands there now, cut back to what was below the arguments
      let s' := (w.stack? e).getD []
      (.ok (), w.setStack e (some (x :: s'.drop (s'.length - (s.length - argc)))))
    | (.error err, w) => (.error err, w)

/-- One instruction on the stack of expression `e`. -/
def execInPlace (ev : Evaluator σ) (e : ExprId) (i : Instr σ) (w : Store σ) :
    Except Error Unit × Store σ :=
  match i with
  | .call t argc => callInPlace ev e t argc w
  | i =>
    let (r, m) := exec ev e i ⟨(w.stack? e).getD [], w⟩
    (r, m.store.setStack e (some m.stack))

def runInPlace (ev : Evaluator σ) (e : ExprId) : Program σ → Store σ → Except Error Unit × Store σ
  | [], w => (.ok (), w)
  | i :: p, w => match execInPlace ev e i w with
    | (.ok _, w) => runInPlace ev e p w
    | (.error err, w) => (.error err, w)

end Machine

/-- Evaluates a compiled expression on its stack, which is cleared first. Evaluations of the
expressions `busy` are under way, and another one of them has a stack of its own. -/
def evaluateInPlace (depth : ℕ) (busy : List ExprId) : Evaluator σ := fun e w =>
  match depth with
  | 0 => (.error (.internal .endless), w)
  | depth + 1 => match (w.exprs.get? e).bind (·.program) with
    | none => (.error (.state .disposed), w)
    | some p =>
      if e ∈ busy then
        let (r, m) := p.run (evaluateInPlace depth busy) e ⟨[], w⟩
        (r, m.store)
      else match Machine.runInPlace (evaluateInPlace depth (e :: busy)) e p
          (w.setStack e (some [])) with
        | (.ok _, w) => (Machine.result ⟨(w.stack? e).getD [], w⟩, w)
        | (.error err, w) => (.error err, w)

/-! ### What stands on a stack -/

/-- The evaluations leave what is on the stack of the expression. -/
def Evaluator.Spares (ev : Evaluator σ) (e : ExprId) : Prop :=
  ∀ e' w, (ev e' w).2.stack? e = w.stack? e

lemma Target.spares (hev : ev.Spares e) (t : Target σ) (args : List Float) (w : Store σ) :
    (t.run ev args w).2.stack? e = w.stack? e :=
  Store.keeps_target (fun e' w' => (hev e' w').trans) (Store.steady_stack? e (w.stack? e)) t args
    rfl

namespace Machine

/-- Other instructions than calls do not touch the store. -/
lemma store_exec (ev : Evaluator σ) (e : ExprId) {i : Instr σ} (hi : ∀ t argc, i ≠ .call t argc)
    (m : Machine σ) : (exec ev e i m).2.store = m.store := by
  cases i with
  | const x => rfl
  | var k => exact m.store_push _
  | neg => exact m.store_neg
  | binary o => exact m.store_binary o
  | call t argc => exact absurd rfl (hi t argc)

lemma execInPlace_of_ne {i : Instr σ} (hi : ∀ t argc, i ≠ .call t argc)
    (hs : w.stack? e = some s) : execInPlace ev e i w =
      ((exec ev e i ⟨s, w⟩).1, w.setStack e (some (exec ev e i ⟨s, w⟩).2.stack)) := by
  have hstore := store_exec ev e hi ⟨s, w⟩
  unfold execInPlace
  split
  · exact absurd rfl (hi _ _)
  · simp only [hs, Option.getD_some, hstore]

/-- On the one stack of the expression an instruction does what a machine does with its own. -/
lemma execInPlace_mirrors (hev : ev.Mirrors ev') (hspares : ev.Spares e) (hs : w.stack? e = some s)
    (i : Instr σ) : ∃ r s' w', execInPlace ev e i w = (r, w') ∧ w'.stack? e = some s' ∧
      exec ev' e i ⟨s, w.bare⟩ = (r, ⟨s', w'.bare⟩) := by
  by_cases hi : ∃ t argc, i = .call t argc
  · obtain ⟨t, argc, rfl⟩ := hi
    have hmirror := mirrors_call hev ⟨s, w⟩ t argc
    simp only [execInPlace, callInPlace, hs, Option.getD_some]
    by_cases hlen : s.length < argc
    · simp only [call, if_pos hlen] at hmirror ⊢
      exact ⟨_, s, w, rfl, hs, hmirror.symm⟩
    · have hstack := t.spares hspares (s.take argc).reverse w
      simp only [call, if_neg hlen] at hmirror ⊢
      rcases hrun : t.run ev (s.take argc).reverse w with ⟨err | x, w'⟩
      · rw [hrun] at hstack hmirror
        exact ⟨_, s, w', rfl, hstack.trans hs, hmirror.symm⟩
      · rw [hrun] at hstack hmirror
        have hs' : w'.stack? e = some s := hstack.trans hs
        -- the function has left the stack, so what is cut off are its arguments
        have hcut : s.length - (s.length - argc) = argc := by omega
        simp only [hs', Option.getD_some, hcut]
        refine ⟨_, x :: s.drop argc, _, rfl,
          Store.stack?_setStack_self (Store.isSome_of_stack? hs') _, ?_⟩
        rw [Store.bare_setStack]
        exact hmirror.symm
  · have hne : ∀ t argc, i ≠ .call t argc := fun t argc h => hi ⟨t, argc, h⟩
    have hmirror := mirrors_exec hev e i ⟨s, w⟩
    have hstore := store_exec ev e hne ⟨s, w⟩
    rw [execInPlace_of_ne hne hs]
    refine ⟨_, _, _, rfl, Store.stack?_setStack_self (Store.isSome_of_stack? hs) _, ?_⟩
    rw [Store.bare_setStack]
    exact hmirror.symm.trans (Prod.ext rfl (congrArg (Machine.mk _) (congrArg Store.bare hstore)))

/-- Work on one stack leaves the others. -/
lemma stack?_execInPlace (hne : e ≠ e') (hev : ev.Spares e') (i : Instr σ) (w : Store σ) :
    (execInPlace ev e i w).2.stack? e' = w.stack? e' := by
  have hset (w : Store σ) (s : Option (List Float)) := w.stack?_setStack_of_ne hne s
  unfold execInPlace
  split
  · rename_i t argc
    unfold callInPlace
    simp only
    split
    · rfl
    · have hstack := t.spares hev (((w.stack? e).getD []).take argc).reverse w
      split
      · rename_i hrun
        rw [hrun] at hstack
        exact (hset _ _).trans hstack
      · rename_i hrun
        rw [hrun] at hstack
        exact hstack
  · rename_i i hi
    have hstore := store_exec ev e hi ⟨(w.stack? e).getD [], w⟩
    rw [hset, hstore]

lemma runInPlace_mirrors (hev : ev.Mirrors ev') (hspares : ev.Spares e)
    (hs : w.stack? e = some s) (p : Program σ) : ∃ r s' w', runInPlace ev e p w = (r, w') ∧
      w'.stack? e = some s' ∧ runAll (exec ev' e) p ⟨s, w.bare⟩ = (r, ⟨s', w'.bare⟩) := by
  induction p generalizing w s with
  | nil => exact ⟨.ok (), s, w, rfl, hs, rfl⟩
  | cons i p ih =>
    obtain ⟨r, s', w', hexec, hs', hmachine⟩ := execInPlace_mirrors hev hspares hs i
    simp only [runInPlace, runAll, hexec, hmachine]
    rcases r with err | _
    · exact ⟨_, s', w', rfl, hs', rfl⟩
    · exact ih hs'

lemma stack?_runInPlace (hne : e ≠ e') (hev : ev.Spares e') (p : Program σ) (w : Store σ) :
    (runInPlace ev e p w).2.stack? e' = w.stack? e' := by
  induction p generalizing w with
  | nil => rfl
  | cons i p ih =>
    have hexec := stack?_execInPlace hne hev i w
    unfold runInPlace
    rcases hr : execInPlace ev e i w with ⟨err | _, w'⟩
    · rwa [hr] at hexec
    · rw [hr] at hexec
      exact (ih w').trans hexec

end Machine

/-! ### Evaluations -/

/-- Evaluations that are under way find their stacks as they have left them. -/
lemma evaluateInPlace_spares (depth : ℕ) (busy : List ExprId) :
    ∀ e ∈ busy, (evaluateInPlace depth busy : Evaluator σ).Spares e := by
  induction depth generalizing busy with
  | zero => exact fun _ _ _ _ => rfl
  | succ depth ih =>
    intro e he e' w
    unfold evaluateInPlace
    split
    · rfl
    · rename_i p _
      split
      · exact Store.keeps_run (fun j u => (ih busy e he j u).trans)
          (Store.steady_stack? e (w.stack? e)) e' p (m := ⟨[], w⟩) rfl
      · -- no evaluation of this expression is under way, so it is another one than `e`
        rename_i hfree
        have hne : e' ≠ e := fun h => hfree (h ▸ he)
        have hrun := Machine.stack?_runInPlace hne (ih (e' :: busy) e (List.mem_cons_of_mem _ he)) p
          (w.setStack e' (some []))
        rw [w.stack?_setStack_of_ne hne] at hrun
        split
        · rename_i hr
          rwa [hr] at hrun
        · rename_i hr
          rwa [hr] at hrun

/-- **One stack for each expression is enough.** -/
theorem evaluateInPlace_mirrors (depth : ℕ) (busy : List ExprId) :
    (evaluateInPlace depth busy : Evaluator σ).Mirrors (evaluateAfresh depth) := by
  induction depth generalizing busy with
  | zero => exact fun _ _ => rfl
  | succ depth ih =>
    intro e w
    rw [evaluateAfresh, w.program_bare]
    unfold evaluateInPlace
    rcases hp : (w.exprs.get? e).bind (·.program) with _ | p
    · rfl
    · simp only
      split
      · -- in the middle of another evaluation of the expression
        have hrun := p.mirrors (ih busy) e ⟨[], w⟩
        rw [← show Machine.bare ⟨[], w⟩ = ⟨[], w.bare⟩ from rfl, ← hrun]
        rfl
      · have hsome : (w.exprs.get? e).isSome := by
          obtain ⟨c, hc, -⟩ := Option.bind_eq_some_iff.1 hp
          rw [hc]
          rfl
        obtain ⟨r, s, w', hrun, hs, hmachine⟩ := Machine.runInPlace_mirrors (ih (e :: busy))
          (evaluateInPlace_spares depth (e :: busy) e List.mem_cons_self)
          (Store.stack?_setStack_self hsome []) p
        rw [Store.bare_setStack] at hmachine
        have hprogram : p.run (evaluateAfresh depth) e ⟨[], w.bare⟩ =
            Machine.finish (r, ⟨s, w'.bare⟩) := congrArg Machine.finish hmachine
        simp only [hrun, hprogram]
        rcases r with err | _
        · rfl
        · simp only [hs, Option.getD_some]
          rfl

end Formula
