import Formula.Proofs.Store.Coherent
import Formula.Proofs.Store.Lifetimes

/-!
Everything that happened so far.

Whoever reads a variable, or a slot that belongs to it, is given what was set last.
-/

namespace Formula

variable {σ : Type} {w w' : Store σ} {busy : Option ExprId} {es before after : List Event}
  {v : VarId} {x : Float}

/-- The last value that was set, or zero. -/
def lastSet (v : VarId) (es : List Event) : Float :=
  es.foldl (fun x ev => match ev with
    | .set u y => if u = v then y else x
    | _ => x) 0

/-- Only setting sets a value. -/
lemma lastSet_snoc {ev : Event} (h : ∀ u x, ev ≠ .set u x) (v : VarId) (es : List Event) :
    lastSet v (es ++ [ev]) = lastSet v es := by
  unfold lastSet
  rw [List.foldl_append]
  cases ev with
  | set u x => exact absurd rfl (h u x)
  | _ => rfl

lemma lastSet_set (u v : VarId) (x : Float) (es : List Event) :
    lastSet v (es ++ [.set u x]) = if u = v then x else lastSet v es := by
  unfold lastSet
  rw [List.foldl_append]
  rfl

/-- The variables have the values that were set last, every reader was given the value that had
been set last by then, and the expressions that live are those that were opened and not closed
since. -/
structure Journal (w : Store σ) (es : List Event) : Prop where
  value : ∀ v, w.value v = lastSet v es
  reads : ∀ before v x after, es = before ++ .read v x :: after → x = some (lastSet v before)
  lives : ∀ e, w.Live e ↔ Lives e es

namespace Journal

lemma congr (h : Journal w es) (hvalue : ∀ v, w'.value v = w.value v)
    (hlive : ∀ e, w'.Live e ↔ w.Live e) : Journal w' es :=
  ⟨fun v => (hvalue v).trans (h.value v), h.reads, fun e => (hlive e).trans (h.lives e)⟩

lemma read (h : Journal w es) (v : VarId) : Journal w (es ++ [.read v (some (w.value v))]) := by
  refine ⟨fun u => ?_, fun before u x after heq => ?_, fun e => by rw [lives_read, h.lives e]⟩
  · rw [lastSet_snoc (by simp)]
    exact h.value u
  · rcases snoc_eq_append_cons heq with ⟨rfl, hev, -⟩ | ⟨after', -, hes⟩
    · cases hev
      exact congrArg some (h.value v)
    · exact h.reads before u x after' hes

lemma set (h : Journal w es) (hvalue : ∀ u, w'.value u = if v = u then x else w.value u)
    (hlive : ∀ e, w'.Live e ↔ w.Live e) : Journal w' (es ++ [.set v x]) := by
  refine ⟨fun u => ?_, fun before u y after heq => ?_, fun e => ?_⟩
  · rw [lastSet_set, hvalue, h.value u]
  · rcases snoc_eq_append_cons heq with ⟨-, hev, -⟩ | ⟨after', -, hes⟩
    · cases hev
    · exact h.reads before u y after' hes
  · rw [lives_set, hlive, h.lives e]

/-- An expression comes to life, or its life ends. -/
lemma snoc (h : Journal w es) {ev : Event} (hset : ∀ u x, ev ≠ .set u x)
    (hread : ∀ u x, ev ≠ .read u x) (hvalue : ∀ v, w'.value v = w.value v)
    (hlive : ∀ e, w'.Live e ↔ Lives e (es ++ [ev])) : Journal w' (es ++ [ev]) := by
  refine ⟨fun u => ?_, fun before u y after heq => ?_, hlive⟩
  · rw [lastSet_snoc hset, hvalue, h.value u]
  · rcases snoc_eq_append_cons heq with ⟨-, hev, -⟩ | ⟨after', -, hes⟩
    · exact absurd hev (hread u y)
    · exact h.reads before u y after' hes

/-- An update is a set if it succeeds, and else nothing. -/
lemma update (h : Journal w es) (v : VarId) (x : Float) :
    Journal (w.update v x).2 (es ++ w.updateEvents v x) := by
  unfold Store.updateEvents
  rcases hl : w.listener v with _ | s
  · rw [Store.update_of_none w hl]
    simpa using h
  · have hbound : w.isBound v = true := w.isBound_iff.2 ⟨s, hl⟩
    have hok : (w.update v x).1 = .ok () := by
      rw [Store.update_of_some w hl]
    simp only [hok]
    refine h.set (fun u => ?_) fun e => Store.live_congr (congrFun (lasting_program.update w v x) e)
    rw [Store.value_update]
    simp [hbound]

lemma empty (host : σ) : Journal (Store.empty host) [] :=
  ⟨fun _ => rfl, fun before v x after h => by simp at h,
    fun e => iff_of_false (Store.not_live_of_gone rfl) fun ⟨_, _, h, _⟩ => by simp at h⟩

end Journal

/-- The invariant of the store and of all that happened so far. -/
structure Consistent (busy : Option ExprId) (w : Store σ) (es : List Event) : Prop where
  coherent : w.Coherent busy
  journal : Journal w es

namespace Consistent

/-- No code that runs on the store can break it. -/
lemma stable : Stable (Consistent busy : Store σ → List Event → Prop) where
  host w h es hw := by
    rw [List.append_nil]
    exact ⟨⟨hw.coherent.listener, hw.coherent.value, hw.coherent.live⟩,
      hw.journal.congr (fun _ => rfl) fun _ => .rfl⟩
  stack w e s es hw := by
    have hlive (e' : ExprId) :
        (w.modifyExpr e fun c => { c with stack := s }).Live e' ↔ w.Live e' :=
      Store.live_congr (congrFun (w.view_modifyExpr e fun c => lasting_program.stack c s) e')
    rw [List.append_nil]
    refine ⟨hw.coherent.congr (w.slot?_stack e s) (fun _ => rfl) (fun _ => rfl) fun t a _ ht => ?_,
      hw.journal.congr (fun _ => rfl) hlive⟩
    exact ht.imp_right (hlive _).2
  emit w r es hw := by
    rw [List.append_nil]
    exact ⟨⟨hw.coherent.listener, hw.coherent.value, hw.coherent.live⟩,
      hw.journal.congr (fun _ => rfl) fun _ => .rfl⟩
  update w v x es hw := ⟨hw.coherent.update v x, hw.journal.update v x⟩
  value w v es hw := ⟨hw.coherent, hw.journal.read v⟩
  slot w s a ha es hw := by
    rw [hw.coherent.value s a ha]
    exact ⟨hw.coherent, hw.journal.read a.var⟩

end Consistent

end Formula
