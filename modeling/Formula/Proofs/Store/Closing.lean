import Formula.Proofs.Store.Log
import Formula.Render

/-!
Closing an expression is final.

What is closed never comes to life again, whatever happens later: it does not evaluate, closing or
dropping it again touches nothing, and its variables belong to whoever binds them next.
-/

namespace Formula

variable {σ : Type} {w w' : Store σ} {es : List Event} {e e' : ExprId} {depth : ℕ}
  {bs : List (Binding σ)} {o : Options} {text : Text}

namespace Op

/-- The expression that is made, if the operation makes one. -/
def starts? : Op σ → Option ExprId
  | compile _ e .. | validate _ e .. => some e
  | _ => none

/-- The expression that is closed, for good or not. -/
def ends? : Op σ → Option ExprId
  | close e | drop e => some e
  | _ => none

/-- The expression that the operation is about. -/
def subject? : Op σ → Option ExprId
  | compile _ e .. | validate _ e .. | evaluate _ e | close e | drop e => some e
  | _ => none

def runAll (w : Store σ) (os : List (Op σ)) : Store σ := os.foldl run w

/-- The disposals that are written by the operations on one expression. -/
def disposalsOf (e : ExprId) : Store σ → List (Op σ) → List Record
  | _, [] => []
  | w, o :: os => (if o.subject? = some e then o.disposals w else []) ++
      disposalsOf e (o.run w) os

end Op

/-! ### One expression while others are used -/

namespace Store

/-- What is known of an expression whose variables may be set and which may be evaluated: its
text, its program and the number of its slots. -/
def entry (w : Store σ) (e : ExprId) : Option (Text × Option (Program σ) × ℕ) :=
  (w.exprs.get? e).map fun c => (c.source, c.program, c.slots.length)

lemma lasting_entry :
    Lasting fun c : Compiled σ => (c.source, c.program, c.slots.length) where
  stack _ _ := rfl
  value _ _ _ := by simp only [List.length_modify]

lemma entry_update (w : Store σ) (v : VarId) (x : Float) : (w.update v x).2.entry = w.entry :=
  lasting_entry.update w v x

lemma entry_evaluate (depth : ℕ) (e : ExprId) (w : Store σ) :
    (evaluate depth e w).2.entry = w.entry :=
  lasting_entry.evaluate depth e w

/-- Another compilation leaves it. -/
lemma view_compile_of_ne {α : Type} {f : Compiled σ → α} (hf : Lasting f) (hne : e ≠ e') :
    (compile depth e bs o text w).2.view f e' = w.view f e' := by
  have hend := compilation (Target.calls (evaluate depth)) depth e bs o text w
  generalize compile depth e bs o text w = r at hend ⊢
  generalize gatherCompile _ depth e bs o text w = is at hend
  cases hend with
  | naming _ => rfl
  | bound _ _ => exact (w.frame_withdrawn e text _ _).view_of_ne hne
  | parse _ _ _ => exact (w.frame_withdrawn e text _ _).view_of_ne hne
  | @done table tree p w' _ _ _ _ _ hlower _ =>
    have hlowered := hf.lower depth table o.foldConstants tree (w.attached e text table.vars)
    rw [hlower] at hlowered
    have hinstalled := (Frame.install w' e text p).view_of_ne (f := f) hne
    have hattached := (w.frame_attached e text table.vars).view_of_ne (f := f) hne
    exact (hinstalled.trans (congrFun hlowered e')).trans hattached

/-- The expression is gone or closed: it has no program and no slots. -/
def Closed (w : Store σ) (e : ExprId) : Prop :=
  ∀ t p n, w.entry e = some (t, p, n) → p = none ∧ n = 0

lemma Closed.of_entry_eq (h : w.Closed e) (heq : w'.entry e = w.entry e) : w'.Closed e := by
  unfold Closed
  rwa [heq]

lemma Closed.of_gone (h : w.exprs.get? e = none) : w.Closed e := by
  intro t p n hentry
  rw [entry, h] at hentry
  cases hentry

lemma Closed.compiled (h : w.Closed e) {c : Compiled σ} (hc : w.exprs.get? e = some c) :
    c.program = none ∧ c.slots = [] := by
  obtain ⟨hp, hn⟩ := h c.source c.program c.slots.length (by rw [entry, hc]; rfl)
  exact ⟨hp, List.eq_nil_of_length_eq_zero hn⟩

lemma Closed.not_live (h : w.Closed e) : ¬w.Live e := by
  rintro ⟨c, hc, hp⟩
  rw [(h.compiled hc).1] at hp
  cases hp

lemma Closed.close_eq (h : w.Closed e) : w.close e = w := close_of_not_live h.not_live

lemma Closed.drop_eq (h : w.Closed e) : w.drop e = { w with exprs := w.exprs.erase e } := by
  unfold drop
  rw [h.close_eq]

/-- What is closed does not run. -/
lemma Closed.evaluate_eq (h : w.Closed e) (depth : ℕ) :
    evaluate (depth + 1) e w = (.error (.state .disposed), w) := by
  unfold evaluate
  rcases hc : w.exprs.get? e with _ | ⟨source, program, slots, stack⟩
  · rfl
  · obtain ⟨hp, -⟩ := h.compiled hc
    obtain rfl : program = none := hp
    rfl

/-- Evaluations on behalf of host code, with `e` refused. -/
def refusing (e : ExprId) (ev : Evaluator σ) : Evaluator σ :=
  fun e' w => if e' = e then (.error (.state .disposed), w) else ev e' w

/-- Host code is refused it too, at any time. -/
lemma Closed.script_eq (h : w.Closed e) (depth : ℕ) (s : Script σ) :
    s.run (evaluate (depth + 1)) w = s.run (refusing e (evaluate (depth + 1))) w := by
  induction s generalizing w with
  | done r => rfl
  | get next ih => exact ih w.host h
  | put a next ih => exact ih (w := { w with host := a }) h
  | value v next ih => exact ih _ h
  | isBound v next ih => exact ih _ h
  | update v x next ih => exact ih _ (h.of_entry_eq (congrFun (w.entry_update v x) e))
  | evaluate e' next ih =>
    have heval : evaluate (depth + 1) e' w = refusing e (evaluate (depth + 1)) e' w := by
      unfold refusing
      split
      · rename_i he
        rw [he, h.evaluate_eq]
      · rfl
    simp only [Script.run, ← heval]
    exact ih _ (h.of_entry_eq (congrFun (entry_evaluate (depth + 1) e' w) e))

lemma Closed.counts (h : w.Closed e) {c : Compiled σ} (hc : w.exprs.get? e = some c) :
    c.program = none ∧ c.nodeCount = 0 ∧ c.variableCount = 0 := by
  obtain ⟨hp, hs⟩ := h.compiled hc
  refine ⟨hp, ?_, ?_⟩
  · rw [Compiled.nodeCount, hp]
    rfl
  · rw [Compiled.variableCount, hs]
    rfl

lemma exprs_close_of_live {c : Compiled σ} (hc : w.exprs.get? e = some c)
    (hp : c.program.isSome) :
    (w.close e).exprs.get? e = some { c with program := none, slots := [], stack := some [] } := by
  obtain ⟨source, program, slots, stack⟩ := c
  obtain ⟨p, rfl⟩ := Option.isSome_iff_exists.1 hp
  simp [close, release, hc, modifyExpr, emit]

lemma closed_close {c : Compiled σ} (hc : w.exprs.get? e = some c) (hp : c.program.isSome) :
    (w.close e).Closed e := by
  intro t p n hentry
  rw [entry, exprs_close_of_live hc hp] at hentry
  cases hentry
  exact ⟨rfl, rfl⟩

end Store

open Store

namespace Op

/-- An operation that neither makes nor closes an expression leaves it as it is. -/
lemma view_run {α : Type} {f : Compiled σ → α} (hf : Lasting f) (o : Op σ)
    (hs : o.starts? ≠ some e) (he : o.ends? ≠ some e) (w : Store σ) :
    (o.run w).view f e = w.view f e := by
  cases o with
  | host h => rfl
  | newVariable v x => rfl
  | clone v => rfl
  | update v x => exact congrFun (hf.update w v x) e
  | increment v => exact congrFun (hf.update w v _) e
  | decrement v => exact congrFun (hf.update w v _) e
  | compile depth e' bs o text => exact view_compile_of_ne hf fun h => hs (congrArg some h)
  | validate depth e' bs o text =>
    have hne : e' ≠ e := fun h => hs (congrArg some h)
    have hcompiled : (Formula.compile depth e' bs o text w).2.view f e = w.view f e :=
      view_compile_of_ne hf hne
    simp only [run, validateWith]
    rcases hr : Formula.compile depth e' bs o text w with ⟨err | _, w'⟩
    · rwa [hr] at hcompiled
    · rw [hr] at hcompiled
      exact ((Frame.drop w' e').view_of_ne hne).trans hcompiled
  | evaluate depth e' => exact congrFun (hf.evaluate depth e' w) e
  | close e' => exact (Frame.close w e').view_of_ne fun h => he (congrArg some h)
  | drop e' => exact (Frame.drop w e').view_of_ne fun h => he (congrArg some h)

lemma entry_run (o : Op σ) (hs : o.starts? ≠ some e) (he : o.ends? ≠ some e) (w : Store σ) :
    (o.run w).entry e = w.entry e :=
  view_run lasting_entry o hs he w

/-- The same for one operation after the other. -/
lemma view_runAll {α : Type} {f : Compiled σ → α} (hf : Lasting f) {os : List (Op σ)}
    (hs : ∀ o ∈ os, o.starts? ≠ some e) (he : ∀ o ∈ os, o.ends? ≠ some e) (w : Store σ) :
    (runAll w os).view f e = w.view f e := by
  induction os generalizing w with
  | nil => rfl
  | cons o os ih =>
    have hone := view_run hf o (hs o List.mem_cons_self) (he o List.mem_cons_self) w
    have hrest := ih (fun o' ho' => hs o' (List.mem_cons_of_mem o ho'))
      (fun o' ho' => he o' (List.mem_cons_of_mem o ho')) (o.run w)
    exact hrest.trans hone

lemma eq_of_ends? {o : Op σ} (h : o.ends? = some e) : o = .close e ∨ o = .drop e := by
  cases o <;> cases h
  · exact .inl rfl
  · exact .inr rfl

/-- **Closed for good**: no operation but one that makes a new expression opens it again. -/
lemma closed_run {o : Op σ} (hs : o.starts? ≠ some e) (h : w.Closed e) : (o.run w).Closed e := by
  by_cases he : o.ends? = some e
  · rcases eq_of_ends? he with rfl | rfl
    · exact h.of_entry_eq (by rw [run, h.close_eq])
    · exact .of_gone (w.get?_drop e)
  · exact h.of_entry_eq (o.entry_run hs he w)

lemma closed_runAll {os : List (Op σ)} (hs : ∀ o ∈ os, o.starts? ≠ some e) (h : w.Closed e) :
    (runAll w os).Closed e := by
  induction os generalizing w with
  | nil => exact h
  | cons o os ih =>
    exact ih (fun o' ho' => hs o' (List.mem_cons_of_mem o ho'))
      (closed_run (hs o List.mem_cons_self) h)

/-- As long as it is not dropped, a closed expression is there to be asked. -/
lemma exists_runAll {os : List (Op σ)} (hs : ∀ o ∈ os, o.starts? ≠ some e)
    (hd : ∀ o ∈ os, o ≠ .drop e) (h : w.Closed e) (hc : ∃ c, w.exprs.get? e = some c) :
    ∃ c, (runAll w os).exprs.get? e = some c := by
  induction os generalizing w with
  | nil => exact hc
  | cons o os ih =>
    have hso := hs o List.mem_cons_self
    refine ih (fun o' ho' => hs o' (List.mem_cons_of_mem o ho'))
      (fun o' ho' => hd o' (List.mem_cons_of_mem o ho')) (closed_run hso h) ?_
    by_cases he : o.ends? = some e
    · rcases eq_of_ends? he with rfl | rfl
      · rwa [run, h.close_eq]
      · exact absurd rfl (hd _ List.mem_cons_self)
    · have hentry := o.entry_run hso he w
      obtain ⟨c, hc⟩ := hc
      rw [entry, entry, hc] at hentry
      obtain ⟨c', hc', -⟩ := Option.map_eq_some_iff.1 hentry
      exact ⟨c', hc'⟩

/-! ### One record -/

/-- What is done with an expression between its making and its end is to evaluate it. -/
lemma subject_cases {o : Op σ} (h : o.subject? = some e) (hs : o.starts? ≠ some e) :
    (∃ depth, o = .evaluate depth e) ∨ o.ends? = some e := by
  cases o <;> cases h
  · exact absurd rfl hs
  · exact absurd rfl hs
  · exact .inl ⟨_, rfl⟩
  · exact .inr rfl
  · exact .inr rfl

lemma disposalsOf_of_closed {os : List (Op σ)} (hs : ∀ o ∈ os, o.starts? ≠ some e)
    (h : w.Closed e) : disposalsOf e w os = [] := by
  induction os generalizing w with
  | nil => rfl
  | cons o os ih =>
    have hso := hs o List.mem_cons_self
    have hone : (if o.subject? = some e then o.disposals w else []) = [] := by
      split
      · rename_i hsub
        rcases subject_cases hsub hso with ⟨depth, rfl⟩ | he
        · exact disposals_evaluate w _ _
        · rcases eq_of_ends? he with rfl | rfl
          · exact (disposals_close_of_not_live h.not_live).1
          · exact (disposals_close_of_not_live h.not_live).2
      · rfl
    rw [disposalsOf, hone, List.nil_append]
    exact ih (fun o' ho' => hs o' (List.mem_cons_of_mem o ho')) (closed_run hso h)

/-- A live expression is disposed by the first operation that closes it. -/
lemma disposalsOf_of_live {os : List (Op σ)} (hs : ∀ o ∈ os, o.starts? ≠ some e) {t : Text}
    {p : Program σ} {n : ℕ} (h : w.entry e = some (t, some p, n)) :
    ((∃ o ∈ os, o.ends? = some e) → disposalsOf e w os = [.disposed t]) ∧
      ((∀ o ∈ os, o.ends? ≠ some e) → disposalsOf e w os = []) := by
  induction os generalizing w with
  | nil => exact ⟨fun ⟨o, ho, _⟩ => absurd ho List.not_mem_nil, fun _ => rfl⟩
  | cons o os ih =>
    have hso := hs o List.mem_cons_self
    have hsos : ∀ o' ∈ os, o'.starts? ≠ some e := fun o' ho' => hs o' (List.mem_cons_of_mem o ho')
    obtain ⟨⟨source, program, slots, stack⟩, hc, heq⟩ := Option.map_eq_some_iff.1 h
    cases heq
    by_cases he : o.ends? = some e
    · have hdone : (o.run w).Closed e := by
        rcases eq_of_ends? he with rfl | rfl
        · exact closed_close hc rfl
        · exact .of_gone (w.get?_drop e)
      have hone : disposalsOf e w (o :: os) = [.disposed source] := by
        rw [disposalsOf, disposalsOf_of_closed hsos hdone, List.append_nil]
        rcases eq_of_ends? he with rfl | rfl
        · exact (if_pos rfl).trans (disposals_close hc rfl).1
        · exact (if_pos rfl).trans (disposals_close hc rfl).2
      exact ⟨fun _ => hone, fun hnone => absurd he (hnone o List.mem_cons_self)⟩
    · have hone : (if o.subject? = some e then o.disposals w else []) = [] := by
        split
        · rename_i hsub
          rcases subject_cases hsub hso with ⟨depth, rfl⟩ | he'
          · exact disposals_evaluate w _ _
          · exact absurd he' he
        · rfl
      obtain ⟨hsome, hnone⟩ := ih hsos ((o.entry_run hso he w).trans h)
      rw [disposalsOf, hone, List.nil_append]
      refine ⟨fun ⟨o', ho', he'⟩ => hsome ?_, fun hall => hnone fun o' ho' =>
        hall o' (List.mem_cons_of_mem o ho')⟩
      rcases List.mem_cons.1 ho' with rfl | ho'
      · exact absurd he' he
      · exact ⟨o', ho', he'⟩

end Op

/-! ### Variables change hands -/

namespace Store

lemma cell_eq {v : VarId} (hvalue : w'.value v = w.value v)
    (hlistener : w'.listener v = w.listener v) : w'.cell v = w.cell v := by
  have heta (c : Cell) : c = ⟨c.value, c.listener⟩ := rfl
  rw [heta (w'.cell v), heta (w.cell v)]
  exact congrArg₂ Cell.mk hvalue hlistener

/-- Closing takes the listeners away that belong to the expression, and no others. -/
lemma Coherent.listener_close (h : Coherent none w) (e : ExprId) (u : VarId) (s : SlotId) :
    (w.close e).listener u = some s ↔ w.listener u = some s ∧ s.owner ≠ e := by
  by_cases hlive : w.Live e
  · obtain ⟨⟨source, program, slots, stack⟩, hc, hp⟩ := hlive
    obtain ⟨p, rfl⟩ := Option.isSome_iff_exists.1 hp
    have hclose : (w.close e).listener u = (w.release e).listener u := by
      simp only [Store.close, hc]
      rfl
    rw [hclose]
    exact h.listener_release u s
  · rw [close_of_not_live hlive]
    refine ⟨fun hs => ⟨hs, ?_⟩, And.left⟩
    rintro rfl
    exact hlive ((h.listener_iff u s).1 hs).1

/-- The variables of the expression are set free and keep their values, the others keep their
listeners too. -/
lemma Coherent.cell_close (h : Coherent none w) (e : ExprId) (v : VarId) :
    ((∃ k, w.SlotOf ⟨e, k⟩ v) → (w.close e).listener v = none) ∧
      (w.close e).value v = w.value v ∧
      ((∀ k, ¬w.SlotOf ⟨e, k⟩ v) → (w.close e).cell v = w.cell v) := by
  have hvalue : (w.close e).value v = w.value v := (Frame.close w e).value v
  refine ⟨fun ⟨k, hk⟩ => ?_, hvalue, fun hno => cell_eq hvalue (Option.ext fun s => ?_)⟩
  · have hl := (h.listener v ⟨e, k⟩).2 hk
    rcases hs : (w.close e).listener v with _ | s
    · rfl
    · obtain ⟨hs, hne⟩ := (h.listener_close e v s).1 hs
      rw [hl] at hs
      cases hs
      exact absurd rfl hne
  · rw [h.listener_close]
    refine ⟨And.left, fun hs => ⟨hs, ?_⟩⟩
    rintro rfl
    exact hno s.index ((h.listener v s).1 hs)

/-- Nothing that runs changes who listens. -/
lemma stable_listener (l : VarId → Option SlotId) :
    Stable fun (w : Store σ) _ => w.listener = l where
  host _ _ _ h := h
  stack _ _ _ _ h := h
  emit _ _ _ h := h
  update w v x _ h := (funext fun u => w.listener_update v u x).trans h
  value _ _ _ h := h
  slot _ _ _ _ _ h := h

lemma listener_lower (depth : ℕ) (table : SymbolTable σ) (fold : Bool) (tree : Expr)
    (w : Store σ) : (lower (evaluate depth) table fold tree w).2.listener = w.listener :=
  have hstable : Stable fun (w' : Store σ) _ => w'.listener = w.listener :=
    stable_listener w.listener
  hstable.lower (hstable.evaluate depth) table fold tree w [] rfl

/-- Variables that get their slots listen with them. -/
lemma listener_attachAll {vs : List (Name × VarId)} (h : w.attachAll e vs = (.ok (), w')) :
    (∀ u, u ∉ vs.map Prod.snd → w'.listener u = w.listener u) ∧
      ∀ u ∈ vs.map Prod.snd, ∃ k, w'.listener u = some ⟨e, k⟩ := by
  induction vs generalizing w with
  | nil =>
    cases h
    exact ⟨fun _ _ => rfl, fun u hu => absurd hu List.not_mem_nil⟩
  | cons nv vs ih =>
    unfold attachAll at h
    rcases w.attach_cases e nv.1 nv.2 with
      ⟨err, hr⟩ | ⟨s, hs, -, -, hok, -, hlistener, -, -⟩
    · rw [hr] at h
      cases h
    · rcases hr : w.attach e nv.1 nv.2 with ⟨err | _, w₁⟩
      · rw [hr] at hok
        cases hok
      · rw [hr] at h hlistener
        obtain ⟨hout, hin⟩ := ih h
        rw [List.map_cons]
        refine ⟨fun u hu => ?_, fun u hu => ?_⟩
        · rw [List.mem_cons, not_or] at hu
          rw [hout u hu.2, hlistener, if_neg fun h => hu.1 h.symm]
        · by_cases hrest : u ∈ vs.map Prod.snd
          · exact hin u hrest
          · obtain rfl : u = nv.2 := (List.mem_cons.1 hu).resolve_right hrest
            exact ⟨s.index, by rw [hout _ hrest, hlistener, if_pos rfl, ← hs]⟩

end Store

/-- What compiles is live and listens to its variables. -/
lemma compile_binds {table : SymbolTable σ} {tree : Expr}
    (hparse : parseWith bs o text = .ok (table, tree)) (hfree : w.Free table.vars) :
    (compile depth e bs o text w).1 = .ok () ∧ (compile depth e bs o text w).2.Live e ∧
      ∀ v ∈ boundVars bs, ∃ k, (compile depth e bs o text w).2.listener v = some ⟨e, k⟩ := by
  obtain ⟨hb, hp⟩ := parseWith_eq_ok hparse
  have hend := compilation (Target.calls (evaluate depth)) depth e bs o text w
  generalize compile depth e bs o text w = r at hend ⊢
  generalize gatherCompile _ depth e bs o text w = is at hend
  cases hend with
  | naming hb' => cases hb.symm.trans hb'
  | bound hb' hbound =>
    cases hb.symm.trans hb'
    exact absurd hfree hbound
  | parse hb' _ hp' =>
    cases hb.symm.trans hb'
    cases hp.symm.trans hp'
  | @done table' tree' p w' hb' _ _ _ hlayout hlower _ =>
    cases hb.symm.trans hb'
    refine ⟨rfl, ?_, fun v hv => ?_⟩
    · have hlowered := (w.attached e text table.vars).layout_lower depth table o.foldConstants tree'
      rw [hlower] at hlowered
      exact live_iff.2 ⟨p, _, layout_install ((congrFun hlowered e).trans hlayout) text p⟩
    · have hlistener := listener_lower depth table o.foldConstants tree'
        (w.attached e text table.vars)
      rw [hlower] at hlistener
      obtain ⟨-, w₁, hw₁, -⟩ | ⟨hnot, -⟩ :=
        attachAll_cases (w.layout_prepare e text) table.vars
      · obtain rfl : w.attached e text table.vars = w₁ := congrArg Prod.snd hw₁
        obtain ⟨k, hk⟩ := (listener_attachAll hw₁).2 v
          ((SymbolTable.perm_vars hb).mem_iff.2 hv)
        exact ⟨k, (congrFun hlistener v).trans hk⟩
      · exact absurd hfree hnot

/-- **Closing is final and touches nothing else.** Let `e` be live in a reachable store, and close
it or drop it. Its variables are unbound, keep their values and can be bound by the next
compilation. Other variables, other expressions and the host's state are as they were. Whatever is
done from then on, short of giving the number to a new expression, `e` fails to evaluate, on behalf
of host code too, has no program and counts nothing, and evaluating, closing or dropping it changes
neither a variable nor another expression. It is written to the log once that `e` was disposed: by
the first operation that closes or drops it. -/
theorem close_final (h : Reachable w es) {c : Compiled σ} (hc : w.exprs.get? e = some c)
    (hp : c.program.isSome) :
    (∀ w₁, w₁ = w.close e ∨ w₁ = w.drop e →
      (∀ v k, w.SlotOf ⟨e, k⟩ v → w₁.isBound v = false ∧ w₁.value v = w.value v) ∧
      (∀ bs o text table tree, parseWith bs o text = .ok (table, tree) → (boundVars bs).Nodup →
        (∀ v ∈ boundVars bs, w.isBound v = false ∨ ∃ k, w.SlotOf ⟨e, k⟩ v) →
        ∀ depth e', (compile depth e' bs o text w₁).1 = .ok () ∧
          (compile depth e' bs o text w₁).2.Live e' ∧
          ∀ v ∈ boundVars bs, ∃ k, (compile depth e' bs o text w₁).2.listener v = some ⟨e', k⟩) ∧
      (∀ v, (∀ k, ¬w.SlotOf ⟨e, k⟩ v) → w₁.cell v = w.cell v) ∧
      (∀ e', e' ≠ e → w₁.exprs.get? e' = w.exprs.get? e') ∧ w₁.host = w.host ∧
      ∀ os : List (Op σ), (∀ o ∈ os, o.starts? ≠ some e) →
        (∀ depth, evaluate (depth + 1) e (Op.runAll w₁ os) =
          (.error (.state .disposed), Op.runAll w₁ os)) ∧
        (∀ depth (s : Script σ), s.run (evaluate (depth + 1)) (Op.runAll w₁ os) =
          s.run (refusing e (evaluate (depth + 1))) (Op.runAll w₁ os)) ∧
        (∀ c', (Op.runAll w₁ os).exprs.get? e = some c' →
          c'.program = none ∧ c'.nodeCount = 0 ∧ c'.variableCount = 0) ∧
        (w₁ = w.close e → (∀ o ∈ os, o ≠ .drop e) →
          ∃ c', (Op.runAll w₁ os).exprs.get? e = some c') ∧
        (Op.runAll w₁ os).close e = Op.runAll w₁ os ∧
        (Op.runAll w₁ os).drop e =
          { Op.runAll w₁ os with exprs := (Op.runAll w₁ os).exprs.erase e }) ∧
    (∀ os : List (Op σ), (∀ o ∈ os, o.starts? ≠ some e) →
      ((∃ o ∈ os, o.ends? = some e) → Op.disposalsOf e w os = [.disposed c.source]) ∧
      ((∀ o ∈ os, o.ends? ≠ some e) → Op.disposalsOf e w os = [])) ∧
    ∀ depth bs o text (w₀ : Store σ), (Op.compile depth e bs o text).disposals w₀ = [] := by
  have hcoherent := h.consistent.coherent
  obtain ⟨p, hprogram⟩ := Option.isSome_iff_exists.1 hp
  have hentry : w.entry e = some (c.source, some p, c.slots.length) := by
    rw [entry, hc, Option.map_some, hprogram]
  refine ⟨fun w₁ hw₁ => ?_, fun os hs => Op.disposalsOf_of_live hs hentry,
    fun depth bs o text w₀ => Op.disposals_compile w₀ depth e bs o text⟩
  -- what closing and dropping have in common
  have hcell : w₁.cell = (w.close e).cell := by
    rcases hw₁ with rfl | rfl <;> rfl
  have hframe : Frame e w w₁ := by
    rcases hw₁ with rfl | rfl
    · exact Frame.close w e
    · exact Frame.drop w e
  have hclosed : w₁.Closed e := by
    rcases hw₁ with rfl | rfl
    · exact closed_close hc hp
    · exact .of_gone (w.get?_drop e)
  have hlistener (v : VarId) : w₁.listener v = (w.close e).listener v :=
    congrArg Cell.listener (congrFun hcell v)
  have hfreed (v : VarId) (k : ℕ) (hk : w.SlotOf ⟨e, k⟩ v) : w₁.isBound v = false := by
    rw [isBound_eq_false_iff, hlistener]
    exact (hcoherent.cell_close e v).1 ⟨k, hk⟩
  have hother (v : VarId) (hno : ∀ k, ¬w.SlotOf ⟨e, k⟩ v) : w₁.cell v = w.cell v :=
    (congrFun hcell v).trans ((hcoherent.cell_close e v).2.2 hno)
  refine ⟨fun v k hk => ⟨hfreed v k hk, hframe.value v⟩, ?_, hother,
    fun e' he' => hframe.get?_of_ne he'.symm, hframe.host, fun os hs => ?_⟩
  · intro bs o text table tree hparse hnodup hvars depth e'
    refine compile_binds hparse ((free_vars_iff (parseWith_eq_ok hparse).1).2 ?_)
    rintro (⟨v, hv, hbound⟩ | hdup)
    · have hfree : w₁.isBound v = false := by
        by_cases hk : ∃ k, w.SlotOf ⟨e, k⟩ v
        · obtain ⟨k, hk⟩ := hk
          exact hfreed v k hk
        · have hcellv := hother v fun k hk' => hk ⟨k, hk'⟩
          have hunbound := (hvars v hv).resolve_right hk
          unfold isBound at hunbound ⊢
          rwa [hcellv]
      rw [hfree] at hbound
      cases hbound
    · exact hdup hnodup
  · have hlater := Op.closed_runAll hs hclosed
    refine ⟨hlater.evaluate_eq, hlater.script_eq, fun c' hc' => hlater.counts hc',
      fun hw hd => Op.exists_runAll hs hd hclosed ?_, hlater.close_eq, hlater.drop_eq⟩
    rw [hw]
    exact ⟨_, exprs_close_of_live hc hp⟩

/-- Another text binds the variable of a closed expression. Closing that one again, or dropping it,
does not let the variable go and is not written down a second time. -/
theorem close_final_put : ∃ (w w₂ : Store Unit) (es : List Event) (c : Compiled Unit),
    Reachable w es ∧ w.exprs.get? 0 = some c ∧ c.program.isSome ∧
    w.SlotOf ⟨0, 0⟩ 0 ∧ (w.close 0).isBound 0 = false ∧
    (∃ k, (compile 1 1 putBindings ⟨true, 4, 15⟩ putText (w.close 0)).2.listener 0 =
      some ⟨1, k⟩) ∧
    w₂ = Op.runAll (w.close 0) [.compile 1 1 putBindings ⟨true, 4, 15⟩ putText, .close 0] ∧
    w₂.close 0 = w₂ ∧ w₂.drop 0 = { w₂ with exprs := w₂.exprs.erase 0 } ∧
    Op.disposalsOf 0 w [.close 0, .compile 1 1 putBindings ⟨true, 4, 15⟩ putText, .close 0,
      .drop 0] = [.disposed c.source] := by
  let compiling : Op Unit := .compile 1 0 putBindings ⟨true, 4, 15⟩ putText
  have hcompiled := ((Reachable.empty ()).op (.newVariable 0 5) rfl).op compiling rfl
  have hprogram : (((compiling.run ((Op.newVariable 0 5).run (.empty ()))).exprs.get? 0).any
      fun c => c.program.isSome) = true := by
    simp only [compiling, Op.run, compile, ofBindings_put]
    decide +kernel
  have hslot : (((compiling.run ((Op.newVariable 0 5).run (.empty ()))).slot? ⟨0, 0⟩).any
      fun a => a.var = 0) = true := by
    simp only [compiling, Op.run, compile, ofBindings_put]
    decide +kernel
  obtain ⟨c, hc, hp⟩ := (Option.any_eq_true _ _).1 hprogram
  obtain ⟨a, ha, hv⟩ := (Option.any_eq_true _ _).1 hslot
  have hof : (compiling.run ((Op.newVariable 0 5).run (.empty ()))).SlotOf ⟨0, 0⟩ 0 :=
    ⟨a, ha, of_decide_eq_true hv⟩
  obtain ⟨tree, hparse⟩ := parseWith_put
  obtain ⟨hclose, honce, -⟩ := close_final hcompiled hc hp
  obtain ⟨hfreed, hbinds, -, -, -, hlater⟩ := hclose _ (.inl rfl)
  have hrebound := (hbinds putBindings ⟨true, 4, 15⟩ putText putTable tree hparse (by decide)
    (fun v hv => .inr ⟨0, by rwa [List.mem_singleton.1 hv]⟩) 1 1).2.2 0 (by decide)
  have hstarts : ∀ o ∈ [Op.compile 1 1 putBindings ⟨true, 4, 15⟩ putText, .close 0],
      o.starts? ≠ some 0 := by simp [Op.starts?]
  obtain ⟨-, -, -, -, hagain, hdropped⟩ := hlater _ hstarts
  refine ⟨_, _, _, c, hcompiled, hc, hp, hof, (hfreed 0 0 hof).1, hrebound, rfl, hagain, hdropped,
    (honce _ (by simp [Op.starts?])).1 ⟨.close 0, List.mem_cons_self, rfl⟩⟩

end Formula
