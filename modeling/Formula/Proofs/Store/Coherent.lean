import Formula.Proofs.Store.Slots

/-!
Listeners and slots that belong together.

A variable listens with one slot, the slot belongs to that variable and holds its value. An
expression that is being compiled has slots before it has a program; every other slot belongs to
a live expression.
-/

namespace Formula

variable {σ : Type} {w w' : Store σ} {busy busy' : Option ExprId} {e : ExprId}

namespace Store

/-- Listeners are the slots there are, and slots hold the values of their variables. Slots of the
expression `busy` need no program. -/
structure Coherent (busy : Option ExprId) (w : Store σ) : Prop where
  listener : ∀ v s, w.listener v = some s ↔ w.SlotOf s v
  value : ∀ s a, w.slot? s = some a → a.value = w.value a.var
  live : ∀ s a, w.slot? s = some a → busy = some s.owner ∨ w.Live s.owner

namespace Coherent

/-- Slots, listeners and values stay, and no expression with slots is lost. -/
lemma congr (h : Coherent busy w) (hslot : ∀ s, w'.slot? s = w.slot? s)
    (hlistener : ∀ v, w'.listener v = w.listener v) (hvalue : ∀ v, w'.value v = w.value v)
    (hlive : ∀ s a, w.slot? s = some a → busy = some s.owner ∨ w.Live s.owner →
      busy' = some s.owner ∨ w'.Live s.owner) : Coherent busy' w' := by
  refine ⟨fun v s => ?_, fun s a ha => ?_, fun s a ha => ?_⟩
  · unfold SlotOf
    rw [hlistener, hslot]
    exact h.listener v s
  · rw [hslot] at ha
    rw [hvalue]
    exact h.value s a ha
  · rw [hslot] at ha
    exact hlive s a ha (h.live s a ha)

lemma eq_of_slotOf (h : Coherent busy w) {s t : SlotId} {v : VarId} (hs : w.SlotOf s v)
    (ht : w.SlotOf t v) : s = t := by
  have hl := (h.listener v s).2 hs
  rw [(h.listener v t).2 ht] at hl
  exact (Option.some.inj hl).symm

lemma slot?_eq_none (h : Coherent none w) (hlive : ¬w.Live e) (k : ℕ) :
    w.slot? ⟨e, k⟩ = none := by
  rcases hs : w.slot? ⟨e, k⟩ with _ | a
  · rfl
  · rcases h.live _ a hs with hbusy | hl
    · cases hbusy
    · exact absurd hl hlive

/-! ### What the store does -/

lemma update (h : Coherent busy w) (v : VarId) (x : Float) :
    Coherent busy (w.update v x).2 := by
  refine ⟨fun u s => ?_, fun s a ha => ?_, fun s a ha => ?_⟩
  · rw [listener_update, slotOf_update]
    exact h.listener u s
  · rw [value_update]
    rw [slot?_update] at ha
    split at ha
    · rename_i hl
      obtain ⟨b, hb, rfl⟩ := Option.map_eq_some_iff.1 ha
      obtain ⟨b', hb', hv⟩ := (h.listener v s).1 hl
      obtain rfl : b = b' := Option.some.inj (hb.symm.trans hb')
      have hbound : w.isBound v = true := w.isBound_iff.2 ⟨s, hl⟩
      rw [if_pos ⟨hv.symm, hbound⟩]
    · rename_i hl
      have hne : v ≠ a.var := by
        rintro rfl
        exact hl ((h.listener _ s).2 ⟨a, ha, rfl⟩)
      rw [if_neg fun hu => hne hu.1]
      exact h.value s a ha
  · obtain ⟨b, hb, -⟩ := (w.slotOf_update v a.var x s).1 ⟨a, ha, rfl⟩
    rcases h.live s b hb with hbusy | hlive
    · exact .inl hbusy
    · exact .inr (w.live_update v x hlive)

/-- A variable without listener gets the next slot. -/
lemma attach (h : Coherent (some e) w) (n : Name) (v : VarId) :
    Coherent (some e) (w.attach e n v).2 := by
  rcases w.attach_cases e n v with
    ⟨err, hr⟩ | ⟨s, hs, hfree, hl, -, hslot, hlistener, hvalue, hlive⟩
  · rwa [hr]
  · refine ⟨fun u t => ?_, fun t a ha => ?_, fun t a ha => ?_⟩
    · unfold SlotOf
      rw [hlistener, hslot]
      by_cases ht : t = s
      · subst ht
        rw [if_pos rfl]
        by_cases hu : v = u
        · simp [hu]
        · have hother : w.listener u ≠ some t := by
            intro hu'
            obtain ⟨a, ha, -⟩ := (h.listener u t).1 hu'
            rw [hfree] at ha
            cases ha
          simp [hu, hother]
      · rw [if_neg ht]
        by_cases hu : v = u
        · subst hu
          have hno : ¬w.SlotOf t v := by
            intro hv
            rw [← h.listener, hl] at hv
            cases hv
          have hst : s ≠ t := fun hst => ht hst.symm
          rw [if_pos rfl]
          exact ⟨fun heq => absurd (Option.some.inj heq) hst, fun hv => absurd hv hno⟩
        · rw [if_neg hu]
          exact h.listener u t
    · rw [hvalue]
      rw [hslot] at ha
      split at ha
      · cases ha
        rfl
      · exact h.value t a ha
    · rw [hslot] at ha
      split at ha
      · rename_i ht
        left
        rw [ht, hs]
      · rcases h.live t a ha with hbusy | hlive'
        · exact .inl hbusy
        · exact .inr (hlive _ hlive')

lemma attachAll (h : Coherent (some e) w) (vs : List (Name × VarId)) :
    Coherent (some e) (w.attachAll e vs).2 := by
  induction vs generalizing w with
  | nil => exact h
  | cons nv vs ih =>
    have hnv := h.attach nv.1 nv.2
    unfold Store.attachAll
    rcases hr : w.attach e nv.1 nv.2 with ⟨err | _, w'⟩
    · rwa [hr] at hnv
    · rw [hr] at hnv
      exact ih hnv

/-- An expression that has no slots may go. -/
lemma erase (h : Coherent none w) (hfree : ∀ k, w.slot? ⟨e, k⟩ = none) :
    Coherent none { w with exprs := w.exprs.erase e } := by
  have hne {s : SlotId} {a : Slot} (ha : w.slot? s = some a) : e ≠ s.owner := by
    rintro rfl
    rw [hfree s.index] at ha
    cases ha
  refine h.congr (fun s => ?_) (fun _ => rfl) (fun _ => rfl) fun s a ha hs => ?_
  · unfold slot?
    simp only [Table.get?_erase]
    split
    · rename_i hs
      subst hs
      exact (hfree s.index).symm
    · rfl
  · rcases hs with hbusy | hlive
    · cases hbusy
    · right
      unfold Live at hlive ⊢
      simpa only [Table.get?_erase, if_neg (hne ha)] using hlive

/-- The number of a new expression must be free. -/
lemma prepare (h : Coherent none w) (hfree : w.exprs.get? e = none) (text : Text) :
    Coherent (some e) (w.prepare e text) := by
  have hslot (s : SlotId) : (w.prepare e text).slot? s = w.slot? s := by
    unfold Store.prepare slot?
    simp only [Table.get?_put]
    split
    · rename_i hs
      rw [← hs, hfree]
      rfl
    · rfl
  refine h.congr hslot (fun _ => rfl) (fun _ => rfl) fun s a _ hs => ?_
  rcases hs with hbusy | hlive
  · cases hbusy
  · by_cases hs : e = s.owner
    · exact .inl (congrArg some hs)
    · right
      unfold Live Store.prepare at *
      simpa only [Table.get?_put, if_neg hs] using hlive

/-- With its program an expression comes to life. -/
lemma install (h : Coherent (some e) w) (text : Text) (p : Program σ) :
    Coherent none (w.install e text p) := by
  let f (c : Compiled σ) : Compiled σ := { c with program := some p }
  have hslot (s : SlotId) : (w.install e text p).slot? s = w.slot? s :=
    w.slot?_modifyExpr e f (fun _ => rfl) s
  refine h.congr hslot (fun _ => rfl) (fun _ => rfl) fun s a ha hs => .inr ?_
  rcases hs with hbusy | hlive
  · obtain rfl := Option.some.inj hbusy
    obtain ⟨c, hc, -⟩ := Option.bind_eq_some_iff.1 ha
    refine ⟨f c, ?_, rfl⟩
    change (w.exprs.modify s.owner f).get? s.owner = _
    rw [Table.get?_modify, if_pos rfl, hc]
    rfl
  · exact w.live_modifyExpr e f (fun _ _ => rfl) hlive

lemma listener_release (h : Coherent busy w) (u : VarId) (s : SlotId) :
    (w.release e).listener u = some s ↔ w.listener u = some s ∧ s.owner ≠ e := by
  have howner {t : SlotId} (ht : w.listener u = some t) : ∃ c a, w.exprs.get? t.owner = some c ∧
      c.slots[t.index]? = some a ∧ a.var = u := by
    obtain ⟨a, ha, hu⟩ := (h.listener u t).1 ht
    obtain ⟨c, hc, hget⟩ := Option.bind_eq_some_iff.1 ha
    exact ⟨c, a, hc, hget, hu⟩
  unfold release
  rcases hc : w.exprs.get? e with _ | c
  · refine ⟨fun hs => ⟨hs, ?_⟩, And.left⟩
    rintro rfl
    obtain ⟨c, a, hc', -⟩ := howner hs
    rw [hc] at hc'
    cases hc'
  · change (w.detachAll e 0 c.slots).listener u = some s ↔ _
    by_cases hlost : ∃ k, w.listener u = some ⟨e, k⟩
    · obtain ⟨k, hk⟩ := hlost
      obtain ⟨c', a, hc', ha, rfl⟩ := howner hk
      obtain rfl : c = c' := Option.some.inj (hc.symm.trans hc')
      have hk' : w.listener a.var = some ⟨e, 0 + k⟩ := by
        rw [hk, Nat.zero_add]
      rw [listener_detachAll_of_eq w ha hk', hk]
      constructor
      · exact nofun
      · rintro ⟨heq, hne⟩
        cases heq
        exact absurd rfl hne
    · rw [listener_detachAll_of_ne w fun j a _ _ hl => hlost ⟨_, hl⟩]
      refine ⟨fun hs => ⟨hs, ?_⟩, And.left⟩
      rintro rfl
      exact hlost ⟨s.index, hs⟩

/-- An expression lets go of its variables and slots. -/
lemma release (h : Coherent busy w) (hbusy : ∀ e', busy = some e' → e' = e) :
    Coherent none (w.release e) := by
  have hslot {s : SlotId} {a : Slot} (ha : (w.release e).slot? s = some a) :
      s.owner ≠ e ∧ w.slot? s = some a := by
    rw [slot?_release] at ha
    split at ha
    · cases ha
    · exact ⟨by assumption, ha⟩
  refine ⟨fun v s => ?_, fun s a ha => ?_, fun s a ha => ?_⟩
  · rw [h.listener_release, h.listener]
    unfold SlotOf
    rw [slot?_release]
    by_cases hs : s.owner = e
    · simp [hs]
    · simp [hs]
  · obtain ⟨-, ha⟩ := hslot ha
    rw [value_release]
    exact h.value s a ha
  · obtain ⟨hne, ha⟩ := hslot ha
    rcases h.live s a ha with hb | hlive
    · exact absurd (hbusy _ hb) hne
    · exact .inr (w.live_release e hlive)

lemma slot?_release_self (w : Store σ) (e : ExprId) (k : ℕ) :
    (w.release e).slot? ⟨e, k⟩ = none := by
  rw [slot?_release, if_pos rfl]

lemma abandon (h : Coherent (some e) w) : Coherent none (w.abandon e) := by
  have hreleased := h.release fun _ he => (Option.some.inj he).symm
  exact hreleased.erase (slot?_release_self w e)

/-- Closing leaves no slots, whether the expression was live or not. -/
lemma close (h : Coherent none w) (e : ExprId) :
    Coherent none (w.close e) ∧ ∀ k, (w.close e).slot? ⟨e, k⟩ = none := by
  unfold Store.close
  split
  · have hreleased : Coherent none (w.release e) := h.release nofun
    let f (c : Compiled σ) : Compiled σ := { c with program := none, stack := some [] }
    have hslot (s : SlotId) : ((w.release e).modifyExpr e f).slot? s = (w.release e).slot? s :=
      (w.release e).slot?_modifyExpr e f (fun _ => rfl) s
    have hnone := slot?_release_self w e
    refine ⟨hreleased.congr hslot (fun _ => rfl) (fun _ => rfl) fun s a ha hs => ?_, fun k => ?_⟩
    · rcases hs with hbusy | hlive
      · cases hbusy
      · have hne : e ≠ s.owner := by
          rintro rfl
          rw [hnone s.index] at ha
          cases ha
        exact .inr (((w.release e).live_modifyExpr_of_ne hne f).2 hlive)
    · exact (hslot _).trans (hnone k)
  · rename_i hdead
    refine ⟨h, h.slot?_eq_none ?_⟩
    rintro ⟨⟨source, program, slots, stack⟩, hc, hp⟩
    obtain ⟨p, rfl⟩ := Option.isSome_iff_exists.1 hp
    exact hdead _ _ _ _ hc

lemma drop (h : Coherent none w) (e : ExprId) : Coherent none (w.drop e) := by
  obtain ⟨hclosed, hfree⟩ := h.close e
  exact hclosed.erase hfree

/-- A new variable has no listener yet. -/
lemma newVariable (h : Coherent none w) {v : VarId} (hfree : w.cells.get? v = none)
    (x : Float) : Coherent none (w.newVariable v x) := by
  have hnone : w.listener v = none := by
    simp [Store.listener, cell, hfree]
  have hlistener (u : VarId) : (w.newVariable v x).listener u = w.listener u := by
    unfold Store.newVariable Store.listener at *
    rw [cell_setCell]
    split
    · rename_i hu
      rw [← hu, hnone]
    · rfl
  refine ⟨fun u s => ?_, fun s a ha => ?_, h.live⟩
  · rw [hlistener]
    exact h.listener u s
  · have hne : v ≠ a.var := by
      rintro rfl
      have hl := (h.listener a.var s).2 ⟨a, ha, rfl⟩
      rw [hnone] at hl
      cases hl
    have hvalue : (w.newVariable v x).value a.var = w.value a.var := by
      unfold Store.newVariable Store.value
      rw [cell_setCell, if_neg hne]
    rw [hvalue]
    exact h.value s a ha

lemma empty (host : σ) : Coherent none (Store.empty host) :=
  ⟨fun _ _ => ⟨nofun, nofun⟩, nofun, nofun⟩

end Coherent

end Store

end Formula
