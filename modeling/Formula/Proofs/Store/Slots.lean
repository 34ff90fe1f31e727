import Formula.Engine
import Mathlib.Data.Nat.Notation
import Mathlib.Tactic.Lemma

/-!
Slots by their number, and what the operations of the store do to slots, listeners and values.
-/

namespace Formula

namespace Store

variable {σ : Type} (w : Store σ)

def slot? (s : SlotId) : Option Slot :=
  (w.exprs.get? s.owner).bind fun c => c.slots[s.index]?

def listener (v : VarId) : Option SlotId := (w.cell v).listener

/-- The slot is there and belongs to the variable. -/
def SlotOf (s : SlotId) (v : VarId) : Prop := ∃ a, w.slot? s = some a ∧ a.var = v

/-- Neither closed nor dropped. -/
def Live (e : ExprId) : Prop := ∃ c, w.exprs.get? e = some c ∧ c.program.isSome

lemma slotValue_of_slot? {e : ExprId} {k : ℕ} {a : Slot} (h : w.slot? ⟨e, k⟩ = some a) :
    w.slotValue e k = .ok a.value := by
  unfold slot? at h
  simp only at h
  simp only [slotValue, h]

lemma isBound_iff {v : VarId} : w.isBound v = true ↔ ∃ s, w.listener v = some s := by
  unfold isBound listener
  rw [Option.isSome_iff_exists]

lemma slot?_modifyExpr (e : ExprId) (f : Compiled σ → Compiled σ)
    (hf : ∀ c, (f c).slots = c.slots) (s : SlotId) :
    (w.modifyExpr e f).slot? s = w.slot? s := by
  unfold slot? modifyExpr
  simp only [Table.get?_modify]
  split
  · rcases w.exprs.get? s.owner with _ | c
    · rfl
    · simp [hf]
  · rfl

lemma slot?_stack (e : ExprId) (s : Option (List Float)) (t : SlotId) :
    (w.modifyExpr e fun c => { c with stack := s }).slot? t = w.slot? t :=
  w.slot?_modifyExpr e (fun c => { c with stack := s }) (fun _ => rfl) t

lemma slot?_setSlot (s t : SlotId) (x : Float) :
    (w.setSlot s x).slot? t =
      if s = t then (w.slot? t).map fun a => { a with value := x } else w.slot? t := by
  obtain ⟨e, k⟩ := s
  obtain ⟨e', k'⟩ := t
  unfold setSlot slot? modifyExpr
  simp only [Table.get?_modify, SlotId.mk.injEq]
  by_cases he : e = e'
  · subst he
    rcases w.exprs.get? e with _ | c
    · simp
    · by_cases hk : k = k'
      · subst hk
        simp
      · simp [hk, List.getElem?_modify_ne]
  · simp [he]

lemma live_modifyExpr (e : ExprId) (f : Compiled σ → Compiled σ)
    (hf : ∀ c, c.program.isSome → (f c).program.isSome) {e' : ExprId} (h : w.Live e') :
    (w.modifyExpr e f).Live e' := by
  obtain ⟨c, hc, hp⟩ := h
  unfold Live modifyExpr
  simp only [Table.get?_modify]
  split
  · exact ⟨f c, by rw [hc]; rfl, hf c hp⟩
  · exact ⟨c, hc, hp⟩

lemma live_modifyExpr_of_ne {e e' : ExprId} (hne : e ≠ e') (f : Compiled σ → Compiled σ) :
    (w.modifyExpr e f).Live e' ↔ w.Live e' := by
  unfold Live modifyExpr
  simp only [Table.get?_modify, if_neg hne]

/-! ### Updates -/

lemma update_of_none {v : VarId} (h : w.listener v = none) (x : Float) :
    w.update v x = (.error (.state .unbound), w) := by
  change (w.cell v).listener = none at h
  simp only [update, h]

lemma update_of_some {v : VarId} {s : SlotId} (h : w.listener v = some s) (x : Float) :
    w.update v x = (.ok (), (w.setCell v ⟨x, some s⟩).setSlot s x) := by
  change (w.cell v).listener = some s at h
  simp only [update, h]

@[simp] lemma listener_update (v u : VarId) (x : Float) :
    (w.update v x).2.listener u = w.listener u := by
  rcases h : w.listener v with _ | s
  · rw [update_of_none w h]
  · rw [update_of_some w h]
    by_cases hu : v = u
    · subst hu
      simp [listener, setSlot] at h ⊢
      exact h.symm
    · simp [listener, setSlot, hu]

lemma slot?_update (v : VarId) (x : Float) (t : SlotId) :
    (w.update v x).2.slot? t =
      if w.listener v = some t then (w.slot? t).map fun a => { a with value := x }
      else w.slot? t := by
  rcases h : w.listener v with _ | s
  · rw [update_of_none w h]
    simp
  · rw [update_of_some w h]
    simp only [slot?_setSlot, Option.some.injEq]
    rfl

lemma slotOf_update (v u : VarId) (x : Float) (s : SlotId) :
    (w.update v x).2.SlotOf s u ↔ w.SlotOf s u := by
  unfold SlotOf
  rw [slot?_update]
  split
  · rcases w.slot? s with _ | a
    · simp
    · simp
  · rfl

lemma live_update (v : VarId) (x : Float) {e : ExprId} (h : w.Live e) :
    (w.update v x).2.Live e := by
  rcases hl : w.listener v with _ | s
  · rwa [update_of_none w hl]
  · rw [update_of_some w hl]
    refine live_modifyExpr (w.setCell v ⟨x, some s⟩) s.owner _ (fun c hp => ?_) h
    exact hp

/-! ### Attaching and releasing -/

lemma slot?_snoc {e : ExprId} {c : Compiled σ} (hc : w.exprs.get? e = some c) (a : Slot)
    (t : SlotId) :
    (w.modifyExpr e fun c => { c with slots := c.slots ++ [a] }).slot? t =
      if t = ⟨e, c.slots.length⟩ then some a else w.slot? t := by
  obtain ⟨e', k⟩ := t
  unfold slot? modifyExpr
  simp only [Table.get?_modify, SlotId.mk.injEq]
  by_cases he : e = e'
  · subst he
    simp only [hc, if_true, true_and, Option.map_some, Option.bind_some]
    rcases Nat.lt_trichotomy k c.slots.length with hlt | rfl | hgt
    · rw [List.getElem?_append_left hlt, if_neg (by omega)]
    · rw [List.getElem?_append_right (Nat.le_refl _), Nat.sub_self, if_pos rfl]
      rfl
    · have hlen : (c.slots ++ [a]).length ≤ k := by
        rw [List.length_append, List.length_singleton]
        omega
      rw [List.getElem?_eq_none hlen, List.getElem?_eq_none (by omega), if_neg (by omega)]
  · have he' : ¬e' = e := fun h => he h.symm
    simp [he, he']

/-- Where attaching succeeds, a variable without listener gets the next slot. Where it fails
nothing changes. -/
lemma attach_cases (e : ExprId) (n : Name) (v : VarId) :
    (∃ err, w.attach e n v = (.error err, w)) ∨
    ∃ s, s.owner = e ∧ w.slot? s = none ∧ w.listener v = none ∧
      (w.attach e n v).1 = .ok () ∧
      (∀ t, (w.attach e n v).2.slot? t =
        if t = s then some ⟨n, v, w.value v⟩ else w.slot? t) ∧
      (∀ u, (w.attach e n v).2.listener u = if v = u then some s else w.listener u) ∧
      (∀ u, (w.attach e n v).2.value u = w.value u) ∧
      ∀ e', w.Live e' → (w.attach e n v).2.Live e' := by
  rcases hc : w.exprs.get? e with _ | c
  · exact .inl ⟨.state .disposed, by simp [attach, hc]⟩
  · rcases hl : (w.cell v).listener with _ | s
    · have hattach : w.attach e n v =
          (.ok (), (w.setCell v ⟨w.value v, some ⟨e, c.slots.length⟩⟩).modifyExpr e
            fun c => { c with slots := c.slots ++ [⟨n, v, w.value v⟩] }) := by
        simp [attach, hc, hl, value]
      right
      refine ⟨⟨e, c.slots.length⟩, rfl, by simp [slot?, hc], hl, by rw [hattach], fun t => ?_,
        fun u => ?_, fun u => ?_, fun e' he' => ?_⟩
      · rw [hattach]
        exact slot?_snoc (w.setCell v ⟨w.value v, some ⟨e, c.slots.length⟩⟩) hc _ t
      · rw [hattach]
        simp only [listener, cell_modifyExpr, cell_setCell]
        split
        · rfl
        · rfl
      · rw [hattach]
        simp only [value, cell_modifyExpr, cell_setCell]
        split
        · rename_i hu
          rw [hu]
        · rfl
      · rw [hattach]
        refine live_modifyExpr (w.setCell v ⟨w.value v, some ⟨e, c.slots.length⟩⟩) e _
          (fun c hp => ?_) he'
        exact hp
    · exact .inl ⟨.state .alreadyBound, by simp [attach, hc, hl]⟩

@[simp] lemma exprs_detach (s : SlotId) (v : VarId) : (w.detach s v).exprs = w.exprs := by
  unfold detach
  simp only
  split <;> rfl

@[simp] lemma value_detach (s : SlotId) (v u : VarId) : (w.detach s v).value u = w.value u := by
  unfold detach value
  simp only
  split
  · rw [cell_setCell]
    split
    · rename_i hu
      rw [hu]
    · rfl
  · rfl

lemma listener_detach (s : SlotId) (v u : VarId) :
    (w.detach s v).listener u =
      if v = u ∧ w.listener v = some s then none else w.listener u := by
  unfold detach listener
  by_cases hl : (w.cell v).listener = some s
  · by_cases hu : v = u
    · subst hu
      simp [hl]
    · simp [hl, hu]
  · simp [hl]

@[simp] lemma exprs_detachAll (e : ExprId) (k : ℕ) (ss : List Slot) :
    (w.detachAll e k ss).exprs = w.exprs := by
  induction ss generalizing w k with
  | nil => rfl
  | cons a ss ih => rw [detachAll, ih, exprs_detach]

@[simp] lemma value_detachAll (e : ExprId) (k : ℕ) (ss : List Slot) (u : VarId) :
    (w.detachAll e k ss).value u = w.value u := by
  induction ss generalizing w k with
  | nil => rfl
  | cons a ss ih => rw [detachAll, ih, value_detach]

/-- A variable stays with its listener unless that is one of the slots. -/
lemma listener_detachAll_of_ne {e : ExprId} {k : ℕ} {ss : List Slot} {u : VarId}
    (h : ∀ j a, ss[j]? = some a → a.var = u → w.listener u ≠ some ⟨e, k + j⟩) :
    (w.detachAll e k ss).listener u = w.listener u := by
  induction ss generalizing w k with
  | nil => rfl
  | cons a ss ih =>
    have hhead : (w.detach ⟨e, k⟩ a.var).listener u = w.listener u := by
      rw [listener_detach, if_neg]
      rintro ⟨rfl, hl⟩
      exact h 0 a rfl rfl hl
    rw [detachAll, ih, hhead]
    intro j b hb hu
    rw [hhead]
    have hnext := h (j + 1) b hb hu
    rwa [show k + (j + 1) = k + 1 + j by omega] at hnext

/-- A variable whose listener is one of the slots loses it. -/
lemma listener_detachAll_of_eq {e : ExprId} {k j : ℕ} {ss : List Slot} {a : Slot}
    (ha : ss[j]? = some a) (h : w.listener a.var = some ⟨e, k + j⟩) :
    (w.detachAll e k ss).listener a.var = none := by
  induction ss generalizing w k j with
  | nil => cases ha
  | cons b ss ih =>
    rw [detachAll]
    cases j with
    | zero =>
      obtain rfl : b = a := Option.some.inj ha
      have hnone : (w.detach ⟨e, k⟩ b.var).listener b.var = none := by
        rw [listener_detach, if_pos ⟨rfl, h⟩]
      rw [listener_detachAll_of_ne, hnone]
      intro j a _ _
      rw [hnone]
      exact nofun
    | succ j =>
      refine ih _ ha ?_
      rw [listener_detach, if_neg, h, show k + (j + 1) = k + 1 + j by omega]
      rintro ⟨hv, hl⟩
      rw [hv, h] at hl
      simp only [Option.some.injEq, SlotId.mk.injEq, true_and] at hl
      omega

@[simp] lemma value_release (e : ExprId) (u : VarId) : (w.release e).value u = w.value u := by
  unfold release
  split
  · rfl
  · exact w.value_detachAll e 0 _ u

lemma live_release (e : ExprId) {e' : ExprId} (h : w.Live e') : (w.release e).Live e' := by
  unfold release
  split
  · exact h
  · rename_i c hc
    refine live_modifyExpr (w.detachAll e 0 c.slots) e _ (fun c hp => ?_) ?_
    · exact hp
    · unfold Live
      rwa [exprs_detachAll]

lemma slot?_release (e : ExprId) (t : SlotId) :
    (w.release e).slot? t = if t.owner = e then none else w.slot? t := by
  unfold release slot?
  rcases hc : w.exprs.get? e with _ | c
  · by_cases ht : t.owner = e
    · simp [ht, hc]
    · simp [ht]
  · by_cases ht : t.owner = e
    · simp [modifyExpr, ht, hc]
    · have ht' : ¬e = t.owner := fun h => ht h.symm
      simp [modifyExpr, ht, ht']

end Store

end Formula
