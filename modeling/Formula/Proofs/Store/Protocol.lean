import Formula.Proofs.Fits
import Formula.Proofs.Store.Journal
import Mathlib.Logic.ExistsUnique

/-!
What the surrounding program can do with variables and expressions, in any order.

Whatever it does, a variable listens with one slot of a live expression or not at all, and
evaluations see the values that were set last.
-/

namespace Formula

variable {σ : Type} {w w' : Store σ} {es : List Event} {e : ExprId}

inductive Op (σ : Type) where
  | host (h : σ)
  | newVariable (v : VarId) (x : Float)
  | clone (v : VarId)
  | update (v : VarId) (x : Float)
  | increment (v : VarId)
  | decrement (v : VarId)
  | compile (depth : ℕ) (e : ExprId) (bs : List (Binding σ)) (o : Options) (text : Text)
  | validate (depth : ℕ) (e : ExprId) (bs : List (Binding σ)) (o : Options) (text : Text)
  | evaluate (depth : ℕ) (e : ExprId)
  | close (e : ExprId)
  | drop (e : ExprId)

namespace Op

/-- New variables and expressions get numbers that are free. -/
def Allowed (w : Store σ) : Op σ → Prop
  | newVariable v _ => w.cells.get? v = none
  | compile _ e .. => w.exprs.get? e = none
  | validate _ e .. => w.exprs.get? e = none
  | _ => True

def run (w : Store σ) : Op σ → Store σ
  | host h => { w with host := h }
  | newVariable v x => w.newVariable v x
  | clone _ => w
  | update v x => (w.update v x).2
  | increment v => (w.increment v).2
  | decrement v => (w.decrement v).2
  | compile depth e bs o text => (Formula.compile depth e bs o text w).2
  | validate depth e bs o text => (validateWith depth e bs o text w).2
  | evaluate depth e => (Formula.evaluate depth e w).2
  | close e => w.close e
  | drop e => w.drop e

/-- A compilation opens its expression if it succeeds. -/
def opening (e : ExprId) : Except Error Unit → List Event
  | .ok _ => [.opened e]
  | .error _ => []

def events (w : Store σ) : Op σ → List Event
  | newVariable v x => [.set v x]
  | update v x => w.updateEvents v x
  | increment v => w.updateEvents v (w.value v + 1)
  | decrement v => w.updateEvents v (w.value v - 1)
  | compile depth e bs o text =>
    compileEvents depth e bs o text w ++ opening e (Formula.compile depth e bs o text w).1
  | validate depth e bs o text =>
    -- what was compiled is dropped at once
    compileEvents depth e bs o text w ++ match (validateWith depth e bs o text w).1 with
      | true => [.opened e, .closed e]
      | false => []
  | evaluate depth e => evaluateEvents depth e w
  | close e => [.closed e]
  | drop e => [.closed e]
  | host _ => []
  | clone _ => []

end Op

/-- The stores that a program can come to, with all that happened on the way. -/
inductive Reachable : Store σ → List Event → Prop
  | empty (host : σ) : Reachable (.empty host) []
  | op {w : Store σ} {es : List Event} (o : Op σ) : Reachable w es → o.Allowed w →
      Reachable (o.run w) (es ++ o.events w)

/-! ### Every operation keeps the invariant -/

namespace Consistent

lemma attachAll (h : Consistent (some e) w es) (vs : List (Name × VarId)) :
    Consistent (some e) (w.attachAll e vs).2 es :=
  ⟨h.coherent.attachAll vs,
    h.journal.congr (Store.Frame.attachAll w e vs).value (w.live_attachAll e vs)⟩

/-- A finished program brings its expression to life. -/
lemma install (h : Consistent (some e) w es) {n : ℕ} {program : Option (Program σ)}
    (hlayout : w.layout e = some (program, n)) (text : Text) (p : Program σ) :
    Consistent none (w.install e text p) (es ++ [.opened e]) := by
  refine ⟨h.coherent.install text p, h.journal.snoc (by simp) (by simp) (fun _ => rfl) fun e' => ?_⟩
  rw [Store.live_install hlayout, lives_opened, h.journal.lives]

/-- Whether it compiles or not, nothing of a text is left that does not belong there. -/
lemma compile (h : Consistent none w es) (hfree : w.exprs.get? e = none) (depth : ℕ)
    (bs : List (Binding σ)) (o : Options) (text : Text) :
    Consistent none (Formula.compile depth e bs o text w).2
      (es ++ (compileEvents depth e bs o text w ++
        Op.opening e (Formula.compile depth e bs o text w).1)) := by
  have hstable : Stable (Consistent (some e) : Store σ → List Event → Prop) := stable
  -- what failed is given back, and only the log tells
  have hfail {w : Store σ} {es : List Event} (h : Consistent (some e) w es) (hdead : ¬w.Live e)
      (err : Error) : Consistent none ((w.abandon e).emit (.failed text err)) es := by
    have hlive (e' : ExprId) : (w.abandon e).Live e' ↔ w.Live e' := by
      rw [w.live_abandon, and_iff_right_iff_imp]
      rintro hlive rfl
      exact hdead hlive
    have habandon : Consistent none (w.abandon e) es :=
      ⟨h.coherent.abandon, h.journal.congr (w.value_release e) hlive⟩
    have hemit := stable.emit (w.abandon e) (.failed text err) es habandon
    rwa [List.append_nil] at hemit
  unfold Formula.compile compileEvents
  rcases SymbolTable.ofBindings bs with err | table
  · simpa [Op.opening] using h
  · have hlive := Store.live_prepare hfree text
    have hprepared : Consistent (some e) (w.prepare e text) es :=
      ⟨h.coherent.prepare hfree text, h.journal.congr (fun _ => rfl) hlive⟩
    have hattached := hprepared.attachAll table.vars
    have hdead : ¬((w.prepare e text).attachAll e table.vars).2.Live e := by
      rw [Store.live_attachAll, hlive]
      exact Store.not_live_of_gone hfree
    simp only [build]
    rcases Store.attachAll_cases (w.layout_prepare e text) table.vars with
      ⟨-, w₁, hr, hlayout⟩ | ⟨-, w₁, hr⟩
    · rw [hr] at hattached hdead ⊢
      rcases parse table.resolve o text with err | tree
      · simpa [Op.opening] using hfail hattached hdead (.parse err)
      · have hlower := hstable.lower (hstable.evaluate depth) table o.foldConstants tree w₁ es
          hattached
        have hlayout₁ := w₁.layout_lower depth table o.foldConstants tree
        simp only
        rcases hs : Formula.lower (Formula.evaluate depth) table o.foldConstants tree w₁ with
          ⟨err | p, w₂⟩
        · rw [hs] at hlower hlayout₁
          have hdead₂ : ¬w₂.Live e := by
            rw [Store.live_iff, hlayout₁, hlayout]
            simp
          simpa [Op.opening] using hfail hlower hdead₂ err
        · rw [hs] at hlower hlayout₁
          rw [← List.append_assoc]
          exact hlower.install ((congrFun hlayout₁ e).trans hlayout) text p
    · rw [hr] at hattached hdead ⊢
      simpa [Op.opening] using hfail hattached hdead (.state .alreadyBound)

lemma close (h : Consistent none w es) (e : ExprId) :
    Consistent none (w.close e) (es ++ [.closed e]) := by
  refine ⟨(h.coherent.close e).1, h.journal.snoc (by simp) (by simp)
    (Store.Frame.close w e).value fun e' => ?_⟩
  rw [w.live_close, lives_closed, h.journal.lives]

lemma drop (h : Consistent none w es) (e : ExprId) :
    Consistent none (w.drop e) (es ++ [.closed e]) := by
  refine ⟨h.coherent.drop e, h.journal.snoc (by simp) (by simp)
    (Store.Frame.drop w e).value fun e' => ?_⟩
  rw [w.live_drop, lives_closed, h.journal.lives]

lemma newVariable (h : Consistent none w es) {v : VarId} (hfree : w.cells.get? v = none)
    (x : Float) : Consistent none (w.newVariable v x) (es ++ [.set v x]) := by
  refine ⟨h.coherent.newVariable hfree x, h.journal.set (fun u => ?_) fun _ => .rfl⟩
  unfold Store.newVariable Store.value
  rw [Store.cell_setCell]
  split <;> rfl

lemma update (h : Consistent none w es) (v : VarId) (x : Float) :
    Consistent none (w.update v x).2 (es ++ w.updateEvents v x) :=
  stable.update w v x es h

lemma op (h : Consistent none w es) (o : Op σ) (ho : o.Allowed w) :
    Consistent none (o.run w) (es ++ o.events w) := by
  cases o with
  | host s => exact stable.host w s es h
  | newVariable v x => exact h.newVariable ho x
  | clone v => simpa [Op.run, Op.events] using h
  | update v x => exact h.update v x
  | increment v => exact h.update v _
  | decrement v => exact h.update v _
  | compile depth e bs o text => exact h.compile ho depth bs o text
  | validate depth e bs o text =>
    have hcompiled := h.compile ho depth bs o text
    simp only [Op.run, Op.events, validateWith]
    rcases hr : Formula.compile depth e bs o text w with ⟨err | _, w'⟩
    · rwa [hr] at hcompiled
    · rw [hr] at hcompiled
      simpa [Op.opening] using hcompiled.drop e
  | evaluate depth e => exact stable.evaluate depth e w es h
  | close e => exact h.close e
  | drop e => exact h.drop e

end Consistent

theorem Reachable.consistent (h : Reachable w es) : Consistent none w es := by
  induction h with
  | empty host => exact ⟨.empty host, .empty host⟩
  | op o _ ho ih => exact ih.op o ho

/-! ### What the invariant says -/

namespace Store.Coherent

/-- At rest every slot is one of a live expression. -/
lemma listener_iff (h : Coherent none w) (v : VarId) (s : SlotId) :
    w.listener v = some s ↔ w.Live s.owner ∧ w.SlotOf s v := by
  rw [h.listener]
  refine ⟨fun hs => ⟨?_, hs⟩, And.right⟩
  obtain ⟨a, ha, -⟩ := hs
  rcases h.live s a ha with hbusy | hlive
  · cases hbusy
  · exact hlive

lemma isBound_iff_exists (h : Coherent none w) (v : VarId) :
    w.isBound v = true ↔ ∃ e, w.Live e ∧ ∃ k, w.SlotOf ⟨e, k⟩ v := by
  rw [w.isBound_iff]
  constructor
  · rintro ⟨s, hs⟩
    obtain ⟨hlive, hslot⟩ := (h.listener_iff v s).1 hs
    exact ⟨s.owner, hlive, s.index, hslot⟩
  · rintro ⟨e, hlive, k, hslot⟩
    exact ⟨⟨e, k⟩, (h.listener_iff v ⟨e, k⟩).2 ⟨hlive, hslot⟩⟩

lemma isBound_iff_existsUnique (h : Coherent none w) (v : VarId) :
    w.isBound v = true ↔ ∃! e, w.Live e ∧ ∃ k, w.SlotOf ⟨e, k⟩ v := by
  rw [h.isBound_iff_exists]
  constructor
  · rintro ⟨e, hlive, k, hslot⟩
    refine ⟨e, ⟨hlive, k, hslot⟩, ?_⟩
    rintro e' ⟨-, k', hslot'⟩
    exact congrArg SlotId.owner (h.eq_of_slotOf hslot' hslot)
  · rintro ⟨e, he, -⟩
    exact ⟨e, he⟩

end Store.Coherent

lemma Store.update_ok_iff (w : Store σ) (v : VarId) (x : Float) :
    (w.update v x).1 = .ok () ↔ w.isBound v = true := by
  rw [w.isBound_iff]
  rcases hl : w.listener v with _ | s
  · simp [update_of_none w hl]
  · simp [update_of_some w hl]

lemma Store.update_of_error {v : VarId} {x : Float} {err : Error}
    (h : (w.update v x).1 = .error err) : (w.update v x).2 = w := by
  rcases hl : w.listener v with _ | s
  · rw [update_of_none w hl]
  · rw [update_of_some w hl] at h
    cases h

/-- **The binding protocol** holds in every reachable store. A variable is bound if and only if
exactly one live expression has a slot for it, and its listener is that slot; an expression lives
from the compilation that opens it until it is closed or dropped. No two slots belong to one
variable, and what is read from a slot is what the variable holds. A variable can be set if and
only if it belongs to a live expression, and where that fails nothing changes. The value of a
variable is the one that was set last, and so is what an evaluation and the code that it calls are
given whenever they read it. -/
theorem binding_protocol (h : Reachable w es) :
    (∀ v, w.isBound v = true ↔ ∃! e, Lives e es ∧ ∃ k, w.SlotOf ⟨e, k⟩ v) ∧
    (∀ v s, w.listener v = some s ↔ Lives s.owner es ∧ w.SlotOf s v) ∧
    (∀ v s t, w.SlotOf s v → w.SlotOf t v → s = t) ∧
    (∀ v s, w.SlotOf s v → w.slotValue s.owner s.index = .ok (w.value v)) ∧
    (∀ v x r, r = w.update v x ∨ r = w.increment v ∨ r = w.decrement v →
      (r.1 = .ok () ↔ ∃ e, Lives e es ∧ ∃ k, w.SlotOf ⟨e, k⟩ v) ∧
        ∀ err, r.1 = .error err → r.2 = w) ∧
    (∀ v, w.value v = lastSet v es) ∧
    ∀ depth e before v x after, evaluateEvents depth e w = before ++ .read v x :: after →
      x = some (lastSet v (es ++ before)) := by
  obtain ⟨hcoherent, hjournal⟩ := h.consistent
  simp only [← hjournal.lives]
  refine ⟨hcoherent.isBound_iff_existsUnique, hcoherent.listener_iff,
    fun v s t hs ht => hcoherent.eq_of_slotOf hs ht, ?_, fun v x r hr => ?_,
    hjournal.value, fun depth e before v x after hread => ?_⟩
  · rintro v s ⟨a, ha, rfl⟩
    rw [w.slotValue_of_slot? ha, hcoherent.value s a ha]
  · have hset : ∃ y, r = w.update v y := by
      rcases hr with rfl | rfl | rfl
      · exact ⟨x, rfl⟩
      · exact ⟨w.value v + 1, rfl⟩
      · exact ⟨w.value v - 1, rfl⟩
    obtain ⟨y, rfl⟩ := hset
    refine ⟨?_, fun err herr => Store.update_of_error herr⟩
    rw [w.update_ok_iff, hcoherent.isBound_iff_exists]
  · have hevaluated := (h.consistent.op (.evaluate depth e) trivial).journal
    refine hevaluated.reads (es ++ before) v x after ?_
    change es ++ evaluateEvents depth e w = _
    rw [hread, List.append_assoc]

def Event.isRead (v : VarId) : Event → Bool
  | read u _ => u = v
  | _ => false

/-- The text sets its variable and then reads it. -/
theorem binding_protocol_put : ∃ (w : Store Unit) (es : List Event), Reachable w es ∧
    w.isBound 0 = true ∧ (∃! e, Lives e es ∧ ∃ k, w.SlotOf ⟨e, k⟩ 0) ∧
    ∃ before x after, evaluateEvents 1 0 w = before ++ .read 0 x :: after ∧
      x = some (lastSet 0 (es ++ before)) := by
  let compiling : Op Unit := .compile 1 0 putBindings ⟨true, 4, 15⟩ putText
  have hnew := (Reachable.empty ()).op (.newVariable 0 5) rfl
  have hcompiled := hnew.op compiling rfl
  have hbound : (compiling.run ((Op.newVariable 0 5).run (.empty ()))).isBound 0 = true := by
    simp only [compiling, Op.run, compile, ofBindings_put]
    decide +kernel
  have hread : (evaluateEvents 1 0 (compiling.run ((Op.newVariable 0 5).run (.empty ())))).any
      (Event.isRead 0) = true := by
    simp only [compiling, Op.run, compile, ofBindings_put]
    decide +kernel
  obtain ⟨hexists, -, -, -, -, -, hlast⟩ := binding_protocol hcompiled
  obtain ⟨ev, hmem, hev⟩ := List.any_eq_true.1 hread
  cases ev with
  | read v x =>
    obtain rfl : v = 0 := by simpa [Event.isRead] using hev
    obtain ⟨before, after, heq⟩ := List.append_of_mem hmem
    exact ⟨_, _, hcompiled, hbound, (hexists 0).1 hbound, before, x, after, heq,
      hlast 1 0 before 0 x after heq⟩
  | _ => cases hev

end Formula
