import Formula.Proofs.Store.Layout

/-!
How long expressions live.

A compilation opens an expression, and closing or dropping it closes it. What has a program in the
store is what was opened and not closed since, whatever else was done in the meantime.
-/

namespace Formula

variable {σ : Type} {w w' : Store σ} {es before after : List Event} {e e' : ExprId}

/-- Where something occurs in a list that ends in `ev'`. -/
lemma snoc_eq_append_cons {ev ev' : Event} (h : es ++ [ev'] = before ++ ev :: after) :
    (es = before ∧ ev' = ev ∧ after = []) ∨
      ∃ after', after = after' ++ [ev'] ∧ es = before ++ ev :: after' := by
  rcases List.eq_nil_or_concat after with rfl | ⟨after', b, rfl⟩
  · obtain ⟨hes, hev⟩ := List.append_inj' h rfl
    exact .inl ⟨hes, List.singleton_inj.1 hev, rfl⟩
  · rw [List.concat_eq_append, ← List.cons_append, ← List.append_assoc] at h
    obtain ⟨hes, hev⟩ := List.append_inj' h rfl
    rw [List.concat_eq_append, List.singleton_inj.1 hev]
    exact .inr ⟨after', rfl, hes⟩

/-- The expression was opened, and it was not closed since. -/
def Lives (e : ExprId) (es : List Event) : Prop :=
  ∃ before after, es = before ++ .opened e :: after ∧ .closed e ∉ after

/-- An event that does not open the expression lets it live, or closes it. -/
lemma lives_snoc {ev : Event} (h : ev ≠ .opened e) :
    Lives e (es ++ [ev]) ↔ ev ≠ .closed e ∧ Lives e es := by
  constructor
  · rintro ⟨before, after, heq, hafter⟩
    rcases snoc_eq_append_cons heq with ⟨-, hev, -⟩ | ⟨after', rfl, hes⟩
    · exact absurd hev h
    · rw [List.mem_append, not_or, List.mem_singleton] at hafter
      exact ⟨fun hev => hafter.2 hev.symm, before, after', hes, hafter.1⟩
  · rintro ⟨hev, before, after, rfl, hafter⟩
    refine ⟨before, after ++ [ev], List.append_assoc .., ?_⟩
    rw [List.mem_append, not_or, List.mem_singleton]
    exact ⟨hafter, fun h => hev h.symm⟩

@[simp] lemma lives_set (v : VarId) (x : Float) : Lives e (es ++ [.set v x]) ↔ Lives e es := by
  rw [lives_snoc (by simp)]
  simp

@[simp] lemma lives_read (v : VarId) (x : Option Float) :
    Lives e (es ++ [.read v x]) ↔ Lives e es := by
  rw [lives_snoc (by simp)]
  simp

@[simp] lemma lives_closed : Lives e (es ++ [.closed e']) ↔ e' ≠ e ∧ Lives e es := by
  rw [lives_snoc (by simp)]
  simp

@[simp] lemma lives_opened : Lives e (es ++ [.opened e']) ↔ e' = e ∨ Lives e es := by
  by_cases he : e' = e
  · subst he
    exact iff_of_true ⟨es, [], rfl, List.not_mem_nil⟩ (.inl rfl)
  · rw [lives_snoc (by simpa using he)]
    simp [he]

/-! ### What has a program -/

lemma lasting_program : Lasting (Compiled.program : Compiled σ → Option (Program σ)) :=
  ⟨fun _ _ => rfl, fun _ _ _ => rfl⟩

namespace Store

lemma live_congr (h : w'.view Compiled.program e = w.view Compiled.program e) :
    w'.Live e ↔ w.Live e := by
  have hview (w : Store σ) : w.Live e ↔ ∃ p, w.view Compiled.program e = some (some p) := by
    unfold Live view
    rcases w.exprs.get? e with _ | c
    · simp
    · simp [Option.isSome_iff_exists]
  rw [hview, hview, h]

lemma not_live_of_gone (h : w.exprs.get? e = none) : ¬w.Live e := by
  rintro ⟨c, hc, -⟩
  rw [h] at hc
  cases hc

/-- The number of a new expression is free, and it has no program yet. -/
lemma live_prepare (hfree : w.exprs.get? e = none) (text : Text) (e' : ExprId) :
    (w.prepare e text).Live e' ↔ w.Live e' := by
  by_cases he : e = e'
  · subst he
    refine iff_of_false ?_ (not_live_of_gone hfree)
    rw [live_iff, layout_prepare]
    simp
  · exact live_congr ((Frame.prepare w e text).view_of_ne he)

lemma live_attachAll (w : Store σ) (e : ExprId) (vs : List (Name × VarId)) (e' : ExprId) :
    (w.attachAll e vs).2.Live e' ↔ w.Live e' := by
  induction vs generalizing w with
  | nil => rfl
  | cons nv vs ih =>
    have hattach : (w.attach e nv.1 nv.2).2.Live e' ↔ w.Live e' := by
      refine live_congr ?_
      unfold Store.attach
      split
      · rfl
      · simp only
        split
        · rfl
        · refine (congrFun (view_modifyExpr _ e fun _ => ?_) e').trans ?_
          · rfl
          · rfl
    unfold Store.attachAll
    rcases hr : w.attach e nv.1 nv.2 with ⟨err | _, w'⟩
    · rwa [hr] at hattach
    · rw [hr] at hattach
      exact (ih w').trans hattach

/-- With its program an expression comes to life. -/
lemma live_install {n : ℕ} {program : Option (Program σ)} (h : w.layout e = some (program, n))
    (text : Text) (p : Program σ) (e' : ExprId) :
    (w.install e text p).Live e' ↔ e = e' ∨ w.Live e' := by
  by_cases he : e = e'
  · subst he
    exact iff_of_true (live_iff.2 ⟨p, n, layout_install h text p⟩) (.inl rfl)
  · rw [live_congr ((Frame.install w e text p).view_of_ne he)]
    simp [he]

/-- Where only `e` changes and has no program any more, the others live on. -/
lemma Frame.live_iff (h : Frame e w w') (hdead : ¬w'.Live e) (e' : ExprId) :
    w'.Live e' ↔ e ≠ e' ∧ w.Live e' := by
  by_cases he : e = e'
  · subst he
    exact iff_of_false hdead fun h => h.1 rfl
  · rw [live_congr (h.view_of_ne he)]
    simp [he]

lemma live_abandon (w : Store σ) (e e' : ExprId) : (w.abandon e).Live e' ↔ e ≠ e' ∧ w.Live e' :=
  (Frame.abandon w e).live_iff (not_live_of_gone (w.get?_abandon e)) e'

lemma live_close (w : Store σ) (e e' : ExprId) : (w.close e).Live e' ↔ e ≠ e' ∧ w.Live e' :=
  (Frame.close w e).live_iff (w.not_live_close e) e'

lemma live_drop (w : Store σ) (e e' : ExprId) : (w.drop e).Live e' ↔ e ≠ e' ∧ w.Live e' :=
  (Frame.drop w e).live_iff (not_live_of_gone (w.get?_drop e)) e'

end Store

end Formula
