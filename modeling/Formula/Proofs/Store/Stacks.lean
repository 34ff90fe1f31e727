import Formula.Proofs.Evaluation.Agreement
import Formula.Proofs.Evaluation.Sizing
import Formula.Proofs.Store.Twins

/-!
The stacks of expressions.

An evaluation takes the stack of its expression and gives it back, with what is on it when the run
ends. So between operations every expression has its stack, and it is never higher than the program
is sized for. Main statement: `stack_sizing_exact`.
-/

namespace Formula

variable {σ : Type} {w w' : Store σ} {es : List Event} {e e' : ExprId} {depth : ℕ}
  {bs : List (Binding σ)} {o : Options} {text : Text} {P : Compiled σ → Prop}

namespace Compiled

/-- The height that the stack of an expression is made for, zero without a program. -/
def room (c : Compiled σ) : ℕ := Program.stackHeight (c.program.getD [])

/-- The stack, unless an evaluation has it, is no higher than it is made for. -/
def Sized (c : Compiled σ) : Prop := ∀ s, c.stack = some s → s.length ≤ c.room

/-- The stack is there, and is no higher than it is made for. -/
def Settled (c : Compiled σ) : Prop := ∃ s, c.stack = some s ∧ s.length ≤ c.room

lemma settled_iff {c : Compiled σ} : c.Settled ↔ c.stack.isSome = true ∧ c.Sized := by
  unfold Settled Sized
  rcases c.stack with _ | s <;> simp

end Compiled

namespace Store

/-- What is true of every expression. -/
def All (P : Compiled σ → Prop) (w : Store σ) : Prop := ∀ e c, w.exprs.get? e = some c → P c

namespace All

lemma of_exprs_eq (h : w.All P) (heq : w'.exprs = w.exprs) : w'.All P := by
  unfold All
  rwa [heq]

lemma modifyExpr (h : w.All P) {f : Compiled σ → Compiled σ}
    (hf : ∀ c, w.exprs.get? e = some c → P c → P (f c)) : (w.modifyExpr e f).All P := by
  intro e' c hc
  simp only [Store.modifyExpr, Table.get?_modify] at hc
  split at hc
  · rename_i he
    obtain ⟨c₀, hc₀, rfl⟩ := Option.map_eq_some_iff.1 hc
    subst he
    exact hf c₀ hc₀ (h e c₀ hc₀)
  · exact h e' c hc

lemma erase (h : w.All P) (e : ExprId) : All P { w with exprs := w.exprs.erase e } := by
  intro e' c hc
  simp only [Table.get?_erase] at hc
  split at hc
  · cases hc
  · exact h e' c hc

lemma prepare (h : w.All P) (e : ExprId) (hP : P ⟨text, none, [], some []⟩) :
    (w.prepare e text).All P := by
  intro e' c hc
  simp only [Store.prepare, Table.get?_put] at hc
  split at hc
  · cases hc
    exact hP
  · exact h e' c hc

section Slots

variable (hP : ∀ (c : Compiled σ) slots, P c → P { c with slots := slots })
include hP

lemma update (h : w.All P) (v : VarId) (x : Float) : (w.update v x).2.All P := by
  rcases hl : w.listener v with _ | s
  · rwa [w.update_of_none hl]
  · rw [w.update_of_some hl]
    exact h.modifyExpr fun c _ hc => hP c _ hc

/-- What does not depend on slots stays true whatever host code does, evaluations apart. -/
lemma steady : Steady fun (w : Store σ) _ => w.All P where
  host _ _ _ h := h
  emit _ _ _ h := h
  update _ v x _ h := h.update hP v x
  value _ _ _ h := h
  slot _ _ _ _ _ h := h

lemma attachAll (h : w.All P) (e : ExprId) (vs : List (Name × VarId)) :
    (w.attachAll e vs).2.All P := by
  induction vs generalizing w with
  | nil => exact h
  | cons nv vs ih =>
    have hattach : (w.attach e nv.1 nv.2).2.All P := by
      unfold Store.attach
      split
      · exact h
      · simp only
        split
        · exact h
        · exact modifyExpr h fun c _ hc => hP c _ hc
    unfold Store.attachAll
    rcases ha : w.attach e nv.1 nv.2 with ⟨err | _, w'⟩
    · rwa [ha] at hattach
    · rw [ha] at hattach
      exact ih hattach

lemma release (h : w.All P) (e : ExprId) : (w.release e).All P := by
  unfold Store.release
  split
  · exact h
  · exact (h.of_exprs_eq (w.exprs_detachAll e 0 _)).modifyExpr fun c _ hc => hP c _ hc

lemma abandon (h : w.All P) (e : ExprId) : (w.abandon e).All P := (h.release hP e).erase e

lemma close (h : w.All P) (e : ExprId)
    (hclosed : ∀ c, P c → P { c with program := none, stack := some [] }) :
    (w.close e).All P := by
  unfold Store.close
  split
  · exact (h.release hP e).modifyExpr fun c _ hc => hclosed c hc
  · exact h

end Slots

end All

/-! ### Evaluations -/

def setStack (w : Store σ) (e : ExprId) (s : Option (List Float)) : Store σ :=
  w.modifyExpr e fun c => { c with stack := s }

/-- What an evaluation comes to. A run begins on an empty stack, whether it is the one of the
expression, which it leaves as it is in the end, or another. -/
inductive Evaluation (depth : ℕ) (e : ExprId) (w : Store σ) : Except Error Float × Store σ → Prop
  | dead : ¬w.Live e → Evaluation depth e w (.error (.state .disposed), w)
  | busy {c : Compiled σ} {p : Program σ} {r : Except Error Float} {m : Machine σ} :
      w.exprs.get? e = some c → c.program = some p → c.stack = none →
      p.run (evaluate depth) e ⟨[], w⟩ = (r, m) → Evaluation depth e w (r, m.store)
  | free {c : Compiled σ} {p : Program σ} {s : List Float} {r : Except Error Float}
      {m : Machine σ} : w.exprs.get? e = some c → c.program = some p → c.stack = some s →
      p.run (evaluate depth) e ⟨[], w.setStack e none⟩ = (r, m) →
      Evaluation depth e w (r, m.store.setStack e (some m.stack))

theorem evaluation (depth : ℕ) (e : ExprId) (w : Store σ) :
    Evaluation depth e w (evaluate (depth + 1) e w) := by
  unfold evaluate
  rcases hc : w.exprs.get? e with _ | ⟨source, program, slots, stack⟩
  · refine .dead ?_
    rintro ⟨c, hlive, -⟩
    cases hc.symm.trans hlive
  · rcases program with _ | p
    · refine .dead ?_
      rintro ⟨c, hlive, hp⟩
      cases hc.symm.trans hlive
      cases hp
    · rcases stack with _ | s
      · exact .busy hc rfl rfl rfl
      · exact .free hc rfl rfl rfl

lemma steady_outline (l : ExprId → Option (Outline σ)) :
    Steady fun (w : Store σ) _ => w.outline = l where
  host _ _ _ h := h
  emit _ _ _ h := h
  update w v x _ h := (w.outline_update v x).trans h
  value _ _ _ h := h
  slot _ _ _ _ _ h := h

section Keeps

variable {J : Store σ → Prop} {ev : Evaluator σ} (hev : ∀ e w, J w → J (ev e w).2)
include hev

/-! What evaluations keep is kept by everything that runs, whatever the events are. -/

lemma keeps_unseen (e : ExprId) (w : Store σ) :
    Keeps (fun w _ => J w) w (ev e w).2 ((fun _ _ => [] : Observer σ) e w) :=
  fun _ => hev e w

variable (hJ : Steady fun (w : Store σ) _ => J w)
include hJ

lemma keeps_target (t : Target σ) (args : List Float) (h : J w) : J (t.run ev args w).2 :=
  hJ.target (keeps_unseen hev) t args w [] h

lemma keeps_run (e : ExprId) (p : Program σ) {m : Machine σ} (h : J m.store) :
    J (p.run ev e m).2.store :=
  hJ.program (keeps_unseen hev) e p m [] h

lemma keeps_lower (table : SymbolTable σ) (fold : Bool) (tree : Expr) (h : J w) :
    J (lower ev table fold tree w).2 :=
  hJ.lower (keeps_unseen hev) table fold tree w [] h

end Keeps

/-- An evaluation gives back the stack that it has taken. -/
lemma outline_evaluate (depth : ℕ) (e : ExprId) (w : Store σ) :
    (evaluate depth e w).2.outline = w.outline := by
  induction depth generalizing e w with
  | zero => rfl
  | succ depth ih =>
    have hrun (p : Program σ) (w : Store σ) :
        (p.run (evaluate depth) e ⟨[], w⟩).2.store.outline = w.outline :=
      keeps_run (fun e w' => (ih e w').trans) (steady_outline w.outline) e p rfl
    have hend := evaluation depth e w
    generalize evaluate (depth + 1) e w = r at hend ⊢
    cases hend with
    | dead _ => rfl
    | @busy c p r m _ _ _ hm =>
      have hsame := hrun p w
      rwa [hm] at hsame
    | @free c p s r m hc hp hs hm =>
      have hsame := hrun p (w.setStack e none)
      rw [hm] at hsame
      funext j
      have hopen := w.outline_stack e none j
      have hclose := m.store.outline_stack e (some m.stack) j
      rw [← setStack] at hopen hclose
      rw [hclose, hsame, hopen]
      split
      · rename_i he
        subst he
        simp [outline, hc, Compiled.outline, hs]
      · rfl

lemma outline_run (depth : ℕ) (e : ExprId) (p : Program σ) (m : Machine σ) :
    (p.run (evaluate depth) e m).2.store.outline = m.store.outline :=
  keeps_run (fun e w => (outline_evaluate depth e w).trans) (steady_outline m.store.outline) e p
    rfl

lemma exists_of_outline {c : Compiled σ} (hc : w.exprs.get? e = some c)
    (h : w'.outline = w.outline) : ∃ c', w'.exprs.get? e = some c' ∧
      c'.program = c.program ∧ c'.stack.isSome = c.stack.isSome := by
  have houtline : w'.outline e = some c.outline := by rw [h, outline, hc, Option.map_some]
  obtain ⟨c', hc', hsame⟩ := outline_eq_some houtline
  exact ⟨c', hc', congrArg Outline.program hsame, congrArg Outline.ready hsame⟩

lemma program_of_outline {c : Compiled σ} (hc : w.exprs.get? e = some c)
    (h : w'.outline = w.outline) {c' : Compiled σ} (hc' : w'.exprs.get? e = some c') :
    c'.program = c.program := by
  obtain ⟨c'', hc'', hprogram, -⟩ := exists_of_outline hc h
  cases hc''.symm.trans hc'
  exact hprogram

/-- What an evaluation leaves on a stack has room there. -/
lemma sized_evaluate (depth : ℕ) (e : ExprId) (h : w.All Compiled.Sized) :
    (evaluate depth e w).2.All Compiled.Sized := by
  induction depth generalizing e w with
  | zero => exact h
  | succ depth ih =>
    have hrun (p : Program σ) {w : Store σ} (hw : w.All Compiled.Sized) :
        (p.run (evaluate depth) e ⟨[], w⟩).2.store.All Compiled.Sized :=
      keeps_run (fun e _ => ih e) (All.steady fun _ _ hc => hc) e p hw
    have hend := evaluation depth e w
    generalize evaluate (depth + 1) e w = r at hend ⊢
    cases hend with
    | dead _ => exact h
    | @busy c p r m _ _ _ hm =>
      have hsized := hrun p h
      rwa [hm] at hsized
    | @free c p s r m hc hp hs hm =>
      have hopen : (w.setStack e none).All Compiled.Sized :=
        h.modifyExpr fun _ _ _ s hs => by cases hs
      have hsized := hrun p hopen
      have hsame := outline_run depth e p ⟨[], w.setStack e none⟩
      have hlength := p.length_run_le (evaluate depth) e ⟨[], w.setStack e none⟩
      rw [hm] at hsized hsame hlength
      have hopened : (w.setStack e none).exprs.get? e = some { c with stack := none } := by
        simp [setStack, modifyExpr, hc]
      refine hsized.modifyExpr fun c' hc' _ s' hs' => ?_
      cases hs'
      rw [Compiled.room, program_of_outline hopened hsame hc', hp]
      exact hlength

lemma settled_of_sized (h : w.All Compiled.Settled) (hsized : w'.All Compiled.Sized)
    (houtline : w'.outline = w.outline) : w'.All Compiled.Settled := by
  intro e c hc
  obtain ⟨c₀, hc₀, -, hready⟩ := exists_of_outline hc houtline.symm
  have hthere := (Compiled.settled_iff.1 (h e c₀ hc₀)).1
  exact Compiled.settled_iff.2 ⟨hready.symm.trans hthere, hsized e c hc⟩

end Store

/-! ### Operations -/

namespace Settled

open Store

lemma sized (h : w.All Compiled.Settled) : w.All Compiled.Sized :=
  fun e c hc => (Compiled.settled_iff.1 (h e c hc)).2

lemma slots (c : Compiled σ) (slots : List Slot) (h : c.Settled) :
    Compiled.Settled { c with slots := slots } := h

lemma evaluate (h : w.All Compiled.Settled) (depth : ℕ) (e : ExprId) :
    (Formula.evaluate depth e w).2.All Compiled.Settled :=
  settled_of_sized h (sized_evaluate depth e (sized h)) (outline_evaluate depth e w)

lemma close (h : w.All Compiled.Settled) (e : ExprId) : (w.close e).All Compiled.Settled :=
  All.close slots h e fun _ _ => ⟨[], rfl, Nat.zero_le _⟩

lemma drop (h : w.All Compiled.Settled) (e : ExprId) : (w.drop e).All Compiled.Settled :=
  (close h e).erase e

lemma compile (h : w.All Compiled.Settled) :
    (Formula.compile depth e bs o text w).2.All Compiled.Settled := by
  have hattached (vs : List (Name × VarId)) : (w.attached e text vs).All Compiled.Settled :=
    (h.prepare e ⟨[], rfl, Nat.le_refl 0⟩).attachAll slots e vs
  have hwithdrawn (vs : List (Name × VarId)) (err : Error) :
      (w.withdrawn e text vs err).All Compiled.Settled :=
    ((hattached vs).abandon slots e).of_exprs_eq rfl
  have hend := compilation (Target.calls (Formula.evaluate depth)) depth e bs o text w
  generalize Formula.compile depth e bs o text w = r at hend ⊢
  generalize gatherCompile _ depth e bs o text w = is at hend
  cases hend with
  | naming _ => exact h
  | @bound table _ _ => exact hwithdrawn table.vars _
  | @parse table err _ _ _ => exact hwithdrawn table.vars _
  | @done table tree p w' _ hfree _ _ _ hlower _ =>
    have hsized := keeps_lower (fun e _ => sized_evaluate depth e) (All.steady fun _ _ hc => hc)
      table o.foldConstants tree (sized (hattached table.vars))
    have hsame := keeps_lower (fun e w' => (outline_evaluate depth e w').trans)
      (steady_outline (w.attached e text table.vars).outline) table o.foldConstants tree rfl
    rw [hlower] at hsized hsame
    have hlowered := settled_of_sized (hattached table.vars) hsized hsame
    have hattachedOutline : (w.attached e text table.vars).outline e =
        some ⟨none, table.vars, true⟩ := outline_attached hfree
    obtain ⟨c₀, hc₀, hout⟩ := outline_eq_some hattachedOutline
    have hinstalled : (w'.modifyExpr e fun c => { c with program := some p }).All
        Compiled.Settled := by
      refine hlowered.modifyExpr fun c hc hsettled => ?_
      -- until now there was no program, so there is nothing on the stack
      obtain ⟨s, hs, hle⟩ := hsettled
      have hprogram : c.program = none :=
        (program_of_outline hc₀ hsame hc).trans (congrArg Outline.program hout)
      rw [Compiled.room, hprogram] at hle
      exact ⟨s, hs, Nat.le_trans hle (Nat.zero_le _)⟩
    exact hinstalled.of_exprs_eq rfl

lemma op (h : w.All Compiled.Settled) (o : Op σ) : (o.run w).All Compiled.Settled := by
  cases o with
  | host a => exact h
  | newVariable v x => exact h
  | clone v => exact h
  | update v x => exact h.update slots v x
  | increment v => exact h.update slots v _
  | decrement v => exact h.update slots v _
  | compile depth e bs o text => exact compile h
  | validate depth e bs o text =>
    have hcompiled : (Formula.compile depth e bs o text w).2.All Compiled.Settled := compile h
    simp only [Op.run, validateWith]
    rcases hr : Formula.compile depth e bs o text w with ⟨err | _, w'⟩
    · rwa [hr] at hcompiled
    · rw [hr] at hcompiled
      exact drop hcompiled e
  | evaluate depth e => exact evaluate h depth e
  | close e => exact close h e
  | drop e => exact drop h e

end Settled

/-- Between operations every expression has its stack. -/
theorem Reachable.settled (h : Reachable w es) : w.All Compiled.Settled := by
  induction h with
  | empty host => exact fun _ _ hc => by cases hc
  | op o _ _ ih => exact Settled.op ih o

/-! ### The height of the stack -/

/-- An evaluation that takes the stack of its expression leaves there what the run has left. -/
lemma exists_stack_evaluate {c : Compiled σ} {p : Program σ} {s : List Float}
    (hc : w.exprs.get? e = some c) (hp : c.program = some p) (hs : c.stack = some s)
    (depth : ℕ) : ∃ c' s', (evaluate (depth + 1) e w).2.exprs.get? e = some c' ∧
      c'.stack = some s' ∧ s'.length ≤ p.stackHeight := by
  have hend := Store.evaluation depth e w
  have hsame := Store.outline_evaluate (depth + 1) e w
  generalize evaluate (depth + 1) e w = r at hend hsame ⊢
  cases hend with
  | dead hdead => exact absurd ⟨c, hc, by rw [hp]; rfl⟩ hdead
  | busy hc' _ hnone _ =>
    cases hc.symm.trans hc'
    cases hs.symm.trans hnone
  | @free c' p' s' r m hc' hp' _ hm =>
    cases hc.symm.trans hc'
    cases hp.symm.trans hp'
    have hlength := p.length_run_le (evaluate depth) e ⟨[], w.setStack e none⟩
    rw [hm] at hlength
    obtain ⟨d, hd, -, -⟩ := Store.exists_of_outline hc hsame
    have hget := hd
    simp only [Store.setStack, Store.modifyExpr, Table.get?_modify, if_true] at hget
    obtain ⟨d₀, -, rfl⟩ := Option.map_eq_some_iff.1 hget
    exact ⟨_, m.stack, hd, rfl, hlength⟩

/-- **Stacks are sized exactly.** The program that a tree of a text is lowered to, with constants
folded or not, counts the height of its stack without ever taking more than there is, and ends at
height one. At every point of a run of it the stack is as high as the instructions so far say. A run
that does not fail gets as high as the program is sized for, and none gets higher, nor does the
stack of an expression with this program, between any operations. -/
theorem stack_sizing_exact {table : SymbolTable σ} {tree : Expr}
    (h : parseWith bs o text = .ok (table, tree)) (fold : Bool) (ev₀ : Evaluator σ)
    (w₀ : Store σ) : ∃ p w₁, lower ev₀ table fold tree w₀ = (.ok p, w₁) ∧
    (∀ k i, p[k]? = some i → i.pops ≤ (Program.heights (p.take k) 0 0).1) ∧
    (∀ k, ((Program.heights (p.take k) 0 0).1 : ℤ) = Program.effect (p.take k)) ∧
    (p.heights 0 0).1 = 1 ∧ p.effect = 1 ∧
    (∀ ev e w, p.Measured ev e w) ∧
    (∀ depth e (w : Store σ) c s, w.exprs.get? e = some c → c.program = some p →
      c.stack = some s → ∃ c' s', (evaluate (depth + 1) e w).2.exprs.get? e = some c' ∧
        c'.stack = some s' ∧ s'.length ≤ p.stackHeight) ∧
    ∀ (w : Store σ) es e c, Reachable w es → w.exprs.get? e = some c → c.program = some p →
      ∃ s, c.stack = some s ∧ s.length ≤ p.stackHeight := by
  obtain ⟨p, w₁, hlower, hp⟩ := lower_yields (fits_of_parseWith h) ev₀ fold w₀
  obtain ⟨hheight, heffect⟩ := Program.Leaves.heights_eq hp
  refine ⟨p, w₁, hlower, fun k i hi => Program.Leaves.pops_le hp hi, fun k => ?_, hheight, heffect,
    p.measured, fun depth e w c s hc hprogram hs => exists_stack_evaluate hc hprogram hs depth,
    fun w es e c hreach hc hprogram => ?_⟩
  · obtain ⟨m, hm⟩ := Program.Leaves.take hp k
    obtain ⟨hheight, heffect⟩ := Program.Leaves.heights_eq hm
    rw [hheight, heffect]
  · obtain ⟨s, hs, hle⟩ := hreach.settled e c hc
    rw [Compiled.room, hprogram] at hle
    exact ⟨s, hs, hle⟩

/-- The program of `put(inc(2*3))-x`, with constants folded while it is built. -/
theorem stack_sizing_exact_put : ∃ tree p w₁,
    parseWith putBindings ⟨true, 4, 15⟩ putText = .ok (putTable, tree) ∧
    lower (evaluate 1) putTable true tree (.empty ()) = (.ok p, w₁) ∧
    p.effect = 1 ∧ p.Measured (evaluate 1) 0 putStore := by
  obtain ⟨tree, htree⟩ := parseWith_put
  obtain ⟨p, w₁, hlower, -, -, -, heffect, hmeasured, -⟩ :=
    stack_sizing_exact htree true (evaluate 1) (.empty ())
  exact ⟨tree, p, w₁, htree, hlower, heffect, hmeasured _ _ _⟩

end Formula
