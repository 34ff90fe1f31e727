import Formula.Proofs.Store.Views

/-!
What stays of the expressions while others come and go.

Nothing that runs changes a program or the number of slots of an expression. Compiling, closing
and dropping change one expression and leave the others, the values of variables and the host as
they are.
-/

namespace Formula

namespace Table

variable {κ α : Type} [DecidableEq κ]

lemma erase_cons (e : κ × α) (t : Table κ α) (k : κ) :
    erase (e :: t) k = if e.1 = k then t.erase k else e :: t.erase k := by
  unfold erase
  split
  · rename_i he
    simp [he]
  · rename_i he
    simp [he]

lemma erase_put (t : Table κ α) (k : κ) (a : α) : (t.put k a).erase k = t.erase k := by
  induction t with
  | nil => simp [put, erase]
  | cons e t ih =>
    rw [put]
    split
    · rename_i he
      rw [erase_cons, erase_cons, if_pos rfl, if_pos he]
    · rename_i he
      rw [erase_cons, erase_cons, if_neg he, if_neg he, ih]

lemma erase_modify (t : Table κ α) (k : κ) (f : α → α) : (t.modify k f).erase k = t.erase k := by
  induction t with
  | nil => rfl
  | cons e t ih =>
    unfold modify at ih ⊢
    rw [List.map_cons, erase_cons, erase_cons, ih]
    by_cases he : e.1 = k
    · simp [he]
    · simp [he]

/-- A key that does not occur cannot be taken away. -/
lemma erase_of_get?_eq_none {t : Table κ α} {k : κ} (h : t.get? k = none) : t.erase k = t := by
  induction t with
  | nil => rfl
  | cons e t ih =>
    rw [get?] at h
    split at h
    · cases h
    · rename_i he
      rw [erase_cons, if_neg he, ih h]

end Table

/-- For every expression there is, its program and the number of its slots. -/
abbrev Layout (σ : Type) := ExprId → Option (Option (Program σ) × ℕ)

namespace Store

variable {σ : Type} {w w' w'' : Store σ} {e e' : ExprId} {n : ℕ} {program : Option (Program σ)}

def layout (w : Store σ) : Layout σ :=
  fun e => (w.exprs.get? e).map fun c => (c.program, c.slots.length)

lemma layout_eq_some (h : w.layout e = some (program, n)) :
    ∃ c, w.exprs.get? e = some c ∧ c.program = program ∧ c.slots.length = n := by
  obtain ⟨c, hc, hpair⟩ := Option.map_eq_some_iff.1 h
  cases hpair
  exact ⟨c, hc, rfl, rfl⟩

lemma live_iff : w.Live e ↔ ∃ p n, w.layout e = some (some p, n) := by
  constructor
  · rintro ⟨c, hc, hp⟩
    obtain ⟨p, hp⟩ := Option.isSome_iff_exists.1 hp
    exact ⟨p, c.slots.length, by rw [layout, hc, Option.map_some, hp]⟩
  · rintro ⟨p, n, h⟩
    obtain ⟨c, hc, hp, -⟩ := layout_eq_some h
    exact ⟨c, hc, by rw [hp]; rfl⟩

lemma lasting_layout : Lasting fun c : Compiled σ => (c.program, c.slots.length) where
  stack _ _ := rfl
  value _ _ _ := by simp only [List.length_modify]

lemma layout_update (w : Store σ) (v : VarId) (x : Float) :
    (w.update v x).2.layout = w.layout :=
  lasting_layout.update w v x

lemma layout_evaluate (depth : ℕ) (e : ExprId) (w : Store σ) :
    (evaluate depth e w).2.layout = w.layout :=
  lasting_layout.evaluate depth e w

lemma layout_target (depth : ℕ) (t : Target σ) (args : List Float) (w : Store σ) :
    (t.run (evaluate depth) args w).2.layout = w.layout :=
  lasting_layout.target depth t args w

lemma layout_stack (w : Store σ) (e : ExprId) (s : Option (List Float)) :
    (w.modifyExpr e fun c => { c with stack := s }).layout = w.layout :=
  w.view_modifyExpr e fun c => lasting_layout.stack c s

lemma layout_lowerStep (depth : ℕ) (table : SymbolTable σ) (fold : Bool) (s : Step)
    (p : Program σ) (w : Store σ) :
    (Lowering.step (evaluate depth) table fold s p w).2.layout = w.layout :=
  lasting_layout.lowerStep depth table fold s p w

lemma layout_lower (depth : ℕ) (table : SymbolTable σ) (fold : Bool) (tree : Expr)
    (w : Store σ) : (lower (evaluate depth) table fold tree w).2.layout = w.layout :=
  lasting_layout.lower depth table fold tree w

/-! ### One expression apart -/

/-- From `w` to `w'` only the expression `e` has changed, listeners, and the log. -/
structure Frame (e : ExprId) (w w' : Store σ) : Prop where
  exprs : w'.exprs.erase e = w.exprs.erase e
  host : w'.host = w.host
  value : ∀ v, w'.value v = w.value v

namespace Frame

lemma refl (e : ExprId) (w : Store σ) : Frame e w w := ⟨rfl, rfl, fun _ => rfl⟩

lemma trans (h : Frame e w w') (h' : Frame e w' w'') : Frame e w w'' where
  exprs := h'.exprs.trans h.exprs
  host := h'.host.trans h.host
  value v := (h'.value v).trans (h.value v)

lemma get?_of_ne (h : Frame e w w') (hne : e ≠ e') : w'.exprs.get? e' = w.exprs.get? e' := by
  have herase := congrArg (Table.get? · e') h.exprs
  simpa only [Table.get?_erase, if_neg hne] using herase

lemma view_of_ne {α : Type} {f : Compiled σ → α} (h : Frame e w w') (hne : e ≠ e') :
    w'.view f e' = w.view f e' := by
  unfold view
  rw [h.get?_of_ne hne]

lemma layout_of_ne (h : Frame e w w') (hne : e ≠ e') : w'.layout e' = w.layout e' :=
  h.view_of_ne hne

/-- What is gone after it came has left nothing. -/
lemma exprs_eq (h : Frame e w w') (hfree : w.exprs.get? e = none)
    (hfree' : w'.exprs.get? e = none) : w'.exprs = w.exprs := by
  rw [← Table.erase_of_get?_eq_none hfree', h.exprs, Table.erase_of_get?_eq_none hfree]

lemma modifyExpr (w : Store σ) (e : ExprId) (f : Compiled σ → Compiled σ) :
    Frame e w (w.modifyExpr e f) :=
  ⟨Table.erase_modify w.exprs e f, rfl, fun _ => rfl⟩

lemma emit (w : Store σ) (e : ExprId) (r : Record) : Frame e w (w.emit r) :=
  ⟨rfl, rfl, fun _ => rfl⟩

lemma prepare (w : Store σ) (e : ExprId) (text : Text) : Frame e w (w.prepare e text) :=
  ⟨Table.erase_put w.exprs e _, rfl, fun _ => rfl⟩

/-- A listener may be set or cleared if the value stays. -/
lemma setCell (w : Store σ) (e : ExprId) (v : VarId) (s : Option SlotId) :
    Frame e w (w.setCell v ⟨w.value v, s⟩) := by
  refine ⟨rfl, rfl, fun u => ?_⟩
  unfold Store.value
  rw [cell_setCell]
  split
  · rename_i hu
    rw [← hu]
  · rfl

lemma attach (w : Store σ) (e : ExprId) (name : Name) (v : VarId) :
    Frame e w (w.attach e name v).2 := by
  unfold Store.attach
  split
  · exact refl e w
  · simp only
    split
    · exact refl e w
    · exact (setCell w e v _).trans (modifyExpr _ e _)

lemma attachAll (w : Store σ) (e : ExprId) (vs : List (Name × VarId)) :
    Frame e w (w.attachAll e vs).2 := by
  induction vs generalizing w with
  | nil => exact refl e w
  | cons nv vs ih =>
    have hframe := attach w e nv.1 nv.2
    unfold Store.attachAll
    rcases h : w.attach e nv.1 nv.2 with ⟨err | _, w'⟩
    · rwa [h] at hframe
    · rw [h] at hframe
      exact hframe.trans (ih w')

lemma detachAll (w : Store σ) (e : ExprId) (k : ℕ) (ss : List Slot) :
    Frame e w (w.detachAll e k ss) := by
  refine ⟨by rw [exprs_detachAll], ?_, value_detachAll w e k ss⟩
  induction ss generalizing w k with
  | nil => rfl
  | cons a ss ih =>
    have hhost : (w.detach ⟨e, k⟩ a.var).host = w.host := by
      unfold Store.detach
      simp only
      split
      · rfl
      · rfl
    rw [Store.detachAll, ih, hhost]

lemma release (w : Store σ) (e : ExprId) : Frame e w (w.release e) := by
  unfold Store.release
  split
  · exact refl e w
  · exact (detachAll w e 0 _).trans (modifyExpr _ e _)

lemma erase (w : Store σ) (e : ExprId) : Frame e w { w with exprs := w.exprs.erase e } := by
  refine ⟨?_, rfl, fun _ => rfl⟩
  exact Table.erase_of_get?_eq_none (by simp)

lemma abandon (w : Store σ) (e : ExprId) : Frame e w (w.abandon e) :=
  (release w e).trans (erase _ e)

lemma install (w : Store σ) (e : ExprId) (text : Text) (p : Program σ) :
    Frame e w (w.install e text p) :=
  (modifyExpr w e _).trans (emit _ e _)

lemma close (w : Store σ) (e : ExprId) : Frame e w (w.close e) := by
  unfold Store.close
  split
  · exact ((release w e).trans (modifyExpr _ e _)).trans (emit _ e _)
  · exact refl e w

lemma drop (w : Store σ) (e : ExprId) : Frame e w (w.drop e) :=
  (close w e).trans (erase _ e)

end Frame

/-! ### The one expression -/

lemma layout_modifyExpr_self (w : Store σ) (e : ExprId) (f : Compiled σ → Compiled σ) :
    (w.modifyExpr e f).layout e =
      (w.exprs.get? e).map fun c => ((f c).program, (f c).slots.length) := by
  unfold layout modifyExpr
  simp only [Table.get?_modify, if_true]
  rcases w.exprs.get? e with _ | c
  · rfl
  · rfl

lemma layout_prepare (w : Store σ) (e : ExprId) (text : Text) :
    (w.prepare e text).layout e = some (none, 0) := by
  simp [layout, prepare]

lemma layout_install (h : w.layout e = some (program, n)) (text : Text) (p : Program σ) :
    (w.install e text p).layout e = some (some p, n) := by
  obtain ⟨c, hc, -, rfl⟩ := layout_eq_some h
  have hself := w.layout_modifyExpr_self e fun c => { c with program := some p }
  rw [hc] at hself
  exact hself

lemma get?_abandon (w : Store σ) (e : ExprId) : (w.abandon e).exprs.get? e = none := by
  simp [abandon]

lemma get?_drop (w : Store σ) (e : ExprId) : (w.drop e).exprs.get? e = none := by
  simp [drop]

/-- What is closed has no program. -/
lemma not_live_close (w : Store σ) (e : ExprId) : ¬(w.close e).Live e := by
  rw [live_iff]
  rintro ⟨p, n, h⟩
  unfold close at h
  split at h
  · have hself := (w.release e).layout_modifyExpr_self e
      fun c => { c with program := none, stack := some [] }
    have heq := hself.symm.trans h
    obtain ⟨c, -, hc⟩ := Option.map_eq_some_iff.1 heq
    cases hc
  · rename_i hdead
    obtain ⟨⟨source, program, slots, stack⟩, hc, rfl, -⟩ := layout_eq_some h
    exact hdead _ _ _ _ hc

/-! ### Attaching variables -/

/-- No variable of the list has a listener, and none occurs twice. -/
def Free (w : Store σ) (vs : List (Name × VarId)) : Prop :=
  (∀ nv ∈ vs, w.listener nv.2 = none) ∧ (vs.map Prod.snd).Nodup

lemma attach_of_bound (h : w.layout e = some (program, n)) {v : VarId}
    (hl : w.listener v ≠ none) (name : Name) :
    w.attach e name v = (.error (.state .alreadyBound), w) := by
  obtain ⟨c, hc, -⟩ := layout_eq_some h
  have hbound : (w.cell v).listener.isSome = true := Option.isSome_iff_ne_none.2 hl
  simp [attach, hc, hbound]

lemma attach_of_free (h : w.layout e = some (program, n)) {v : VarId}
    (hl : w.listener v = none) (name : Name) :
    ∃ w', w.attach e name v = (.ok (), w') ∧ w'.layout e = some (program, n + 1) ∧
      ∀ u, w'.listener u = none ↔ u ≠ v ∧ w.listener u = none := by
  obtain ⟨c, hc, rfl, rfl⟩ := layout_eq_some h
  have hfree : (w.cell v).listener.isSome = false := by
    change (w.listener v).isSome = false
    rw [hl]
    rfl
  refine ⟨_, by simp only [attach, hc, hfree]; rfl, ?_, fun u => ?_⟩
  · rw [layout_modifyExpr_self]
    simp [setCell, hc]
  · simp only [listener, cell_modifyExpr, cell_setCell]
    by_cases hu : v = u
    · simp [hu]
    · have hu' : u ≠ v := fun h => hu h.symm
      simp [hu, hu']

/-- Variables that are free get their slots. Else one is bound already. -/
lemma attachAll_cases (h : w.layout e = some (program, n)) (vs : List (Name × VarId)) :
    (w.Free vs ∧ ∃ w', w.attachAll e vs = (.ok (), w') ∧
      w'.layout e = some (program, n + vs.length)) ∨
    (¬w.Free vs ∧ ∃ w', w.attachAll e vs = (.error (.state .alreadyBound), w')) := by
  induction vs generalizing w n with
  | nil => exact .inl ⟨⟨nofun, .nil⟩, w, rfl, h⟩
  | cons nv vs ih =>
    obtain ⟨name, v⟩ := nv
    by_cases hl : w.listener v = none
    · obtain ⟨w', hw', hlayout, hlistener⟩ := attach_of_free h hl name
      have hfree : w.Free ((name, v) :: vs) ↔ w'.Free vs := by
        unfold Free
        simp only [hlistener, List.mem_cons, forall_eq_or_imp, hl, true_and, List.map_cons,
          List.nodup_cons, List.mem_map, not_exists, not_and]
        grind
      simp only [attachAll, hw', hfree]
      rcases ih hlayout with ⟨hvs, w'', heq, hslots⟩ | ⟨hvs, w'', heq⟩
      · refine .inl ⟨hvs, w'', heq, ?_⟩
        rw [hslots, List.length_cons, Nat.add_right_comm, Nat.add_assoc]
      · exact .inr ⟨hvs, w'', heq⟩
    · refine .inr ⟨fun hfree => hl (hfree.1 (name, v) (by simp)), w, ?_⟩
      simp only [attachAll, attach_of_bound h hl]

end Store

end Formula
