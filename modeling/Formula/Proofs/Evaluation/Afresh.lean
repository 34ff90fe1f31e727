import Formula.Proofs.Store.Atomic
import Formula.Proofs.Store.Stacks

/-!
Evaluations with a stack of their own.

What is on the stacks of expressions, and whether they are there, makes no difference to anything
that runs: it comes to what it comes to where every evaluation has a new stack and no stack is kept.
-/

namespace Formula

variable {σ α : Type} {ev ev' : Evaluator σ} {w : Store σ} {e : ExprId}

namespace Store

/-- The store without the stacks of its expressions. -/
def bare (w : Store σ) : Store σ :=
  { w with exprs := w.exprs.map fun entry => (entry.1, entry.2.atRest) }

lemma get?_bare (w : Store σ) (e : ExprId) :
    w.bare.exprs.get? e = (w.exprs.get? e).map Compiled.atRest := by
  unfold bare
  induction w.exprs with
  | nil => rfl
  | cons entry t ih =>
    rw [List.map_cons, Table.get?, Table.get?]
    split
    · rfl
    · exact ih

lemma bare_modifyExpr (w : Store σ) (e : ExprId) {f g : Compiled σ → Compiled σ}
    (h : ∀ c, (f c).atRest = g c.atRest) : (w.modifyExpr e f).bare = w.bare.modifyExpr e g := by
  unfold bare modifyExpr Table.modify
  simp only [List.map_map]
  congr 1
  refine List.map_congr_left fun entry _ => ?_
  simp only [Function.comp_apply]
  split
  · rw [h]
  · rfl

@[simp] lemma bare_setStack (w : Store σ) (e : ExprId) (s : Option (List Float)) :
    (w.setStack e s).bare = w.bare := by
  unfold setStack bare modifyExpr Table.modify
  simp only [List.map_map]
  congr 1
  refine List.map_congr_left fun entry _ => ?_
  simp only [Function.comp_apply]
  split
  · rfl
  · rfl

lemma bare_update (w : Store σ) (v : VarId) (x : Float) :
    ((w.update v x).1, (w.update v x).2.bare) = w.bare.update v x := by
  have hlistener : w.bare.listener v = w.listener v := rfl
  rcases hl : w.listener v with _ | s
  · rw [w.update_of_none hl, w.bare.update_of_none (hlistener.trans hl)]
  · rw [w.update_of_some hl, w.bare.update_of_some (hlistener.trans hl)]
    exact Prod.ext rfl ((w.setCell v ⟨x, some s⟩).bare_modifyExpr s.owner fun _ => rfl)

lemma slotValue_bare (w : Store σ) (e : ExprId) (k : ℕ) :
    w.bare.slotValue e k = w.slotValue e k := by
  unfold slotValue
  rw [get?_bare]
  rcases w.exprs.get? e with _ | c <;> rfl

end Store

/-- Evaluations on behalf of host code come to the same, and leave the same but for stacks. -/
def Evaluator.Mirrors (ev ev' : Evaluator σ) : Prop :=
  ∀ e w, Prod.map id Store.bare (ev e w) = ev' e w.bare

/-- The machine with its own stack as the only one. -/
def Machine.bare (m : Machine σ) : Machine σ := ⟨m.stack, m.store.bare⟩

section Mirrors

variable (hev : ev.Mirrors ev')
include hev

lemma Script.mirrors (s : Script σ) (w : Store σ) :
    Prod.map id Store.bare (s.run ev w) = s.run ev' w.bare := by
  induction s generalizing w with
  | done r => rfl
  | get next ih => exact ih w.host w
  | put h next ih => exact ih { w with host := h }
  | value v next ih => exact ih (w.value v) w
  | isBound v next ih => exact ih (w.isBound v) w
  | update v x next ih =>
    simp only [Script.run, ← w.bare_update v x]
    exact ih _ _
  | evaluate e next ih =>
    simp only [Script.run, ← hev e w]
    exact ih _ _

lemma Target.mirrors (t : Target σ) (args : List Float) (w : Store σ) :
    Prod.map id Store.bare (t.run ev args w) = t.run ev' args w.bare := by
  cases t with
  | builtin b => rfl
  | host n f =>
    simp only [Target.run, ← (f.call args).mirrors hev w]
    rfl

namespace Machine

lemma mirrors_call (m : Machine σ) (t : Target σ) (argc : ℕ) :
    Prod.map id bare (m.call ev (.ok t) argc) = m.bare.call ev' (.ok t) argc := by
  have ht := t.mirrors hev (m.stack.take argc).reverse m.store
  by_cases hlen : m.stack.length < argc
  · have hlen' : m.bare.stack.length < argc := hlen
    simp only [call, if_pos hlen, if_pos hlen']
    rfl
  · have hlen' : ¬m.bare.stack.length < argc := hlen
    have hargs : t.run ev' (m.bare.stack.take argc).reverse m.bare.store =
        Prod.map id Store.bare (t.run ev (m.stack.take argc).reverse m.store) := ht.symm
    simp only [call, if_neg hlen, if_neg hlen', hargs]
    rcases t.run ev (m.stack.take argc).reverse m.store with ⟨_ | x, w⟩ <;> rfl

lemma mirrors_exec (e : ExprId) (i : Instr σ) (m : Machine σ) :
    Prod.map id bare (exec ev e i m) = exec ev' e i m.bare := by
  have hpush (r : Except Error Float) : Prod.map id bare (m.push r) = m.bare.push r := by
    cases r <;> rfl
  cases i with
  | const x => rfl
  | var k =>
    have hslot : m.bare.store.slotValue e k = m.store.slotValue e k := m.store.slotValue_bare e k
    simp only [exec, hslot]
    exact hpush _
  | neg =>
    obtain ⟨_ | ⟨a, s⟩, w⟩ := m <;> rfl
  | binary o =>
    obtain ⟨_ | ⟨b, _ | ⟨a, s⟩⟩, w⟩ := m <;> rfl
  | call t argc => exact mirrors_call hev m t argc

lemma mirrors_runAll (e : ExprId) (p : Program σ) (m : Machine σ) :
    Prod.map id bare (runAll (exec ev e) p m) = runAll (exec ev' e) p m.bare := by
  induction p generalizing m with
  | nil => rfl
  | cons i p ih =>
    simp only [runAll, ← mirrors_exec hev e i m]
    rcases exec ev e i m with ⟨_ | _, m'⟩
    · rfl
    · exact ih m'

end Machine

lemma Program.mirrors (e : ExprId) (p : Program σ) (m : Machine σ) :
    Prod.map id Machine.bare (p.run ev e m) = p.run ev' e m.bare := by
  have hrun := Machine.mirrors_runAll hev e p { m with stack := [] }
  have hempty : Machine.bare { m with stack := [] } = { m.bare with stack := [] } := rfl
  rw [hempty] at hrun
  unfold run
  rw [← hrun]
  rcases Machine.runAll (Machine.exec ev e) p { m with stack := [] } with ⟨_ | _, m'⟩ <;> rfl

end Mirrors

/-- Evaluates a compiled expression on a stack of its own. No stack is kept. -/
def evaluateAfresh (depth : ℕ) : Evaluator σ := fun e w =>
  match depth with
  | 0 => (.error (.internal .endless), w)
  | depth + 1 => match (w.exprs.get? e).bind (·.program) with
    | none => (.error (.state .disposed), w)
    | some p =>
      let (r, m) := p.run (evaluateAfresh depth) e ⟨[], w⟩
      (r, m.store)

namespace Store

lemma program_bare (w : Store σ) (e : ExprId) :
    (w.bare.exprs.get? e).bind (·.program) = (w.exprs.get? e).bind (·.program) := by
  rw [get?_bare]
  rcases w.exprs.get? e with _ | c <;> rfl

end Store

/-- **The stacks that are kept make no difference.** -/
theorem evaluate_mirrors (depth : ℕ) :
    (evaluate depth : Evaluator σ).Mirrors (evaluateAfresh depth) := by
  induction depth with
  | zero => exact fun e w => rfl
  | succ depth ih =>
    intro e w
    have hend := Store.evaluation depth e w
    generalize evaluate (depth + 1) e w = r at hend ⊢
    rw [evaluateAfresh, w.program_bare]
    cases hend with
    | dead hdead =>
      have hnone : (w.exprs.get? e).bind (·.program) = none := by
        rcases hc : w.exprs.get? e with _ | c
        · rfl
        · exact Option.not_isSome_iff_eq_none.1 fun hp => hdead ⟨c, hc, hp⟩
      rw [hnone]
      rfl
    | @busy c p r m hc hp _ hm =>
      have hrun : p.run (evaluateAfresh depth) e ⟨[], w.bare⟩ = (r, m.bare) := by
        have hmirror := p.mirrors ih e ⟨[], w⟩
        rw [hm] at hmirror
        exact hmirror.symm
      simp only [hc, Option.bind_some, hp, hrun]
      rfl
    | @free c p s r m hc hp _ hm =>
      have hrun : p.run (evaluateAfresh depth) e ⟨[], w.bare⟩ = (r, m.bare) := by
        have hmirror := p.mirrors ih e ⟨[], w.setStack e none⟩
        rw [hm, Machine.bare, Store.bare_setStack] at hmirror
        exact hmirror.symm
      simp only [hc, Option.bind_some, hp, hrun, Prod.map_apply, id_eq, Store.bare_setStack]
      rfl

end Formula
