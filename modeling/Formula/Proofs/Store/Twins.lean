import Formula.Proofs.Parser.Names
import Formula.Proofs.Store.Log
import Formula.Render

/-!
One text compiled with two lists of bindings.

Only the bindings that the text names matter, and their order does not. Where the two lists have
the same for each of its words, the two expressions differ in the numbers of their slots and in the
variables that only one of them holds. Who touches such a variable can tell the two apart; nobody
else can.
-/

namespace Formula

open Store SymbolTable

variable {σ : Type} {w w' : Store σ} {es : List Event} {e : ExprId} {depth : ℕ}
  {bs bs' : List (Binding σ)} {o : Options} {text : Text} {busy : Option ExprId}

/-! ### Outlines -/

/-- What a run of an expression depends on, but for the values of variables: the program, what the
slots are for, and whether the stack is there. -/
structure Outline (σ : Type) where
  program : Option (Program σ)
  vars : List (Name × VarId)
  ready : Bool

def Slot.symbol (a : Slot) : Name × VarId := (a.name, a.var)

/-- The value in a slot is no part of what the slot is for. -/
lemma Slot.map_symbol_modify (slots : List Slot) (k : ℕ) (x : Float) :
    (slots.modify k fun a => { a with value := x }).map Slot.symbol = slots.map Slot.symbol := by
  refine List.ext_getElem? fun i => ?_
  simp only [List.getElem?_map, List.getElem?_modify]
  split
  · rcases slots[i]? with _ | a
    · rfl
    · rfl
  · simp

def Compiled.outline (c : Compiled σ) : Outline σ :=
  ⟨c.program, c.slots.map Slot.symbol, c.stack.isSome⟩

namespace Store

def outline (w : Store σ) (e : ExprId) : Option (Outline σ) :=
  (w.exprs.get? e).map Compiled.outline

lemma outline_modifyExpr (w : Store σ) (e : ExprId) (f : Compiled σ → Compiled σ)
    (g : Outline σ → Outline σ) (hf : ∀ c, (f c).outline = g c.outline) (j : ExprId) :
    (w.modifyExpr e f).outline j = if e = j then (w.outline j).map g else w.outline j := by
  unfold outline modifyExpr
  simp only [Table.get?_modify]
  split
  · rw [Option.map_map, Option.map_map]
    exact congrFun (congrArg Option.map (funext hf)) _
  · rfl

/-- Setting a variable leaves all outlines. -/
lemma outline_update (w : Store σ) (v : VarId) (x : Float) :
    (w.update v x).2.outline = w.outline := by
  rcases h : w.listener v with _ | s
  · rw [update_of_none w h]
  · rw [update_of_some w h]
    refine (w.setCell v ⟨x, some s⟩).view_modifyExpr s.owner fun c => ?_
    simp only [Compiled.outline, Slot.map_symbol_modify]

lemma host_update (w : Store σ) (v : VarId) (x : Float) : (w.update v x).2.host = w.host := by
  rcases h : w.listener v with _ | s
  · rw [update_of_none w h]
  · rw [update_of_some w h]
    rfl

lemma outline_stack (w : Store σ) (e : ExprId) (s : Option (List Float)) (j : ExprId) :
    (w.modifyExpr e fun c => { c with stack := s }).outline j =
      if e = j then (w.outline j).map fun x => { x with ready := s.isSome } else w.outline j :=
  w.outline_modifyExpr e (fun c => { c with stack := s }) _ (fun _ => rfl) j

lemma outline_eq_some {x : Outline σ} (h : w.outline e = some x) :
    ∃ c, w.exprs.get? e = some c ∧ c.outline = x :=
  Option.map_eq_some_iff.1 h

namespace Coherent

/-- What is read from a slot is the value of its variable. -/
lemma slotValue_eq (h : w.Coherent busy) (e : ExprId) (k : ℕ) :
    w.slotValue e k = match (w.outline e).bind fun x => x.vars[k]? with
      | some nv => .ok (w.value nv.2)
      | none => .error (.state .disposed) := by
  have hslot : ((w.outline e).bind fun x => x.vars[k]?) = (w.slot? ⟨e, k⟩).map Slot.symbol := by
    unfold outline slot?
    rcases w.exprs.get? e with _ | c
    · rfl
    · exact List.getElem?_map ..
  rw [hslot]
  rcases hs : w.slot? ⟨e, k⟩ with _ | a
  · unfold slot? at hs
    simp only at hs
    simp only [slotValue, hs, Option.map_none]
  · rw [slotValue_of_slot? w hs, h.value _ _ hs]
    rfl

/-- A variable is bound if some expression has a slot for it. -/
lemma isBound_iff_outline (h : w.Coherent busy) (v : VarId) :
    w.isBound v = true ↔ ∃ j x, w.outline j = some x ∧ v ∈ x.vars.map Prod.snd := by
  rw [w.isBound_iff]
  constructor
  · rintro ⟨s, hs⟩
    obtain ⟨a, ha, rfl⟩ := (h.listener v s).1 hs
    obtain ⟨c, hc, hget⟩ := Option.bind_eq_some_iff.1 ha
    refine ⟨s.owner, c.outline, by rw [outline, hc]; rfl, ?_⟩
    exact List.mem_map_of_mem (List.mem_map_of_mem (List.mem_of_getElem? hget))
  · rintro ⟨j, x, hx, hv⟩
    obtain ⟨c, hc, rfl⟩ := outline_eq_some hx
    obtain ⟨nv, hnv, rfl⟩ := List.mem_map.1 hv
    obtain ⟨a, ha, rfl⟩ := List.mem_map.1 hnv
    obtain ⟨k, hk⟩ := List.mem_iff_getElem?.1 ha
    refine ⟨⟨j, k⟩, (h.listener _ _).2 ⟨a, ?_, rfl⟩⟩
    unfold slot?
    simp only [hc, Option.bind_some, hk]

end Coherent

end Store

/-! ### Twins -/

/-- Expressions are the same but for `e`, which has slots for `vs` in one store and for `vs'` in
the other. Its programs differ at most in the numbers of slots. -/
structure AlikeBut (r : Rights σ) (P : Target σ → Prop) (e : ExprId)
    (vs vs' : List (Name × VarId)) (l l' : ExprId → Option (Outline σ)) : Prop where
  others : ∀ j, j ≠ e → l j = l' j
  calls : ∀ j x p, j ≠ e → l j = some x → x.program = some p → r.evals j →
    ∀ t argc, .call t argc ∈ p → t.Tied r
  self : ∃ q q' b, l e = some ⟨q, vs, b⟩ ∧ l' e = some ⟨q', vs', b⟩ ∧
    Option.Rel (Program.Like P (Shares vs vs')) q q'

/-- Stores with the same values and the same state of the host, where `e` was compiled with two
lists of bindings. -/
structure Twins (r : Rights σ) (P : Target σ → Prop) (busy : Option ExprId) (e : ExprId)
    (vs vs' : List (Name × VarId)) (w w' : Store σ) : Prop where
  value : ∀ v, w.value v = w'.value v
  host : w.host = w'.host
  coherent : w.Coherent busy
  coherent' : w'.Coherent busy
  alike : AlikeBut r P e vs vs' w.outline w'.outline

namespace Twins

variable {r : Rights σ} {P : Target σ → Prop} {vs vs' : List (Name × VarId)}

/-- Whether a variable is bound differs only if one of the lists has it and the other has not. -/
lemma isBound_eq (h : Twins r P busy e vs vs' w w') {v : VarId}
    (hv : v ∈ vs.map Prod.snd ↔ v ∈ vs'.map Prod.snd) : w.isBound v = w'.isBound v := by
  obtain ⟨q, q', b, hq, hq', -⟩ := h.alike.self
  rw [Bool.eq_iff_iff, h.coherent.isBound_iff_outline, h.coherent'.isBound_iff_outline]
  constructor
  · rintro ⟨j, x, hx, hmem⟩
    by_cases hj : j = e
    · subst hj
      cases hq.symm.trans hx
      exact ⟨j, _, hq', hv.1 hmem⟩
    · exact ⟨j, x, (h.alike.others j hj).symm.trans hx, hmem⟩
  · rintro ⟨j, x, hx, hmem⟩
    by_cases hj : j = e
    · subst hj
      cases hq'.symm.trans hx
      exact ⟨j, _, hq, hv.2 hmem⟩
    · exact ⟨j, x, (h.alike.others j hj).trans hx, hmem⟩

/-- Host code that touches no variable that only one list has, and programs, run the same. -/
lemma tie (hhost : r.host = Eq)
    (hvars : ∀ v, r.vars v → (v ∈ vs.map Prod.snd ↔ v ∈ vs'.map Prod.snd))
    (hP : r.evals e → ∀ t, P t → t.Tied r) :
    Tie r (fun j => if j = e then Shares vs vs' else Eq) (Twins r P busy e vs vs') where
  host h := by
    rw [hhost]
    exact h.host
  put h hh := by
    rw [hhost] at hh
    exact ⟨h.value, hh, ⟨h.coherent.listener, h.coherent.value, h.coherent.live⟩,
      ⟨h.coherent'.listener, h.coherent'.value, h.coherent'.live⟩, h.alike⟩
  value h _ := h.value _
  isBound h hv := h.isBound_eq (hvars _ hv)
  update {w w' v} x h hv := by
    have hbound := h.isBound_eq (hvars v hv)
    refine ⟨?_, fun u => ?_, ?_, h.coherent.update v x, h.coherent'.update v x, ?_⟩
    · unfold isBound at hbound
      unfold Store.update
      rcases hl : (w.cell v).listener with _ | s
      · rcases hl' : (w'.cell v).listener with _ | s'
        · rfl
        · simp [hl, hl'] at hbound
      · rcases hl' : (w'.cell v).listener with _ | s'
        · simp [hl, hl'] at hbound
        · rfl
    · rw [value_update, value_update, hbound, h.value]
    · rw [host_update, host_update, h.host]
    · rw [outline_update, outline_update]
      exact h.alike
  stack {w w' j} s h _ := by
    have hcoherent {w : Store σ} (hw : w.Coherent busy) :
        (w.modifyExpr j fun c => { c with stack := s }).Coherent busy :=
      hw.congr (w.slot?_stack j s) (fun _ => rfl) (fun _ => rfl) fun _ _ _ hlive =>
        hlive.imp_right (w.live_modifyExpr j (fun c => { c with stack := s }) fun _ hp => hp)
    refine ⟨h.value, h.host, hcoherent h.coherent, hcoherent h.coherent', ⟨fun i hi => ?_,
      fun i x p hi hx hp => ?_, ?_⟩⟩
    · rw [outline_stack, outline_stack, h.alike.others i hi]
    · rw [outline_stack] at hx
      split at hx
      · obtain ⟨y, hy, rfl⟩ := Option.map_eq_some_iff.1 hx
        exact h.alike.calls i y p hi hy hp
      · exact h.alike.calls i x p hi hx hp
    · obtain ⟨q, q', b, hq, hq', hlike⟩ := h.alike.self
      rw [outline_stack, outline_stack, hq, hq']
      split
      · exact ⟨q, q', s.isSome, rfl, rfl, hlike⟩
      · exact ⟨q, q', b, rfl, rfl, hlike⟩
  entry {w w' j} h hj := by
    by_cases hje : j = e
    · subst hje
      obtain ⟨q, q', b, hq, hq', hlike⟩ := h.alike.self
      obtain ⟨c, hc, hout⟩ := outline_eq_some hq
      obtain ⟨c', hc', hout'⟩ := outline_eq_some hq'
      obtain rfl : c.program = q := congrArg Outline.program hout
      obtain rfl : c'.program = q' := congrArg Outline.program hout'
      have hready : c.stack.isSome = b := congrArg Outline.ready hout
      have hready' : c'.stack.isSome = b := congrArg Outline.ready hout'
      rw [hc, hc', if_pos rfl]
      refine .some ⟨?_, hready.trans hready'.symm⟩
      generalize c.program = q at hlike ⊢
      generalize c'.program = q' at hlike ⊢
      cases hlike with
      | none => exact .none
      | some hp => exact .some (hp.mono (hP hj))
    · have hsame := h.alike.others j hje
      rw [if_neg hje]
      rcases hc : w.exprs.get? j with _ | c
      · rcases hc' : w'.exprs.get? j with _ | c'
        · exact .none
        · simp [outline, hc, hc'] at hsame
      · rcases hc' : w'.exprs.get? j with _ | c'
        · simp [outline, hc, hc'] at hsame
        · have hout : c.outline = c'.outline := by simpa [outline, hc, hc'] using hsame
          have hprogram : c.program = c'.program := congrArg Outline.program hout
          refine .some ⟨?_, congrArg Outline.ready hout⟩
          rw [← hprogram]
          rcases hp : c.program with _ | p
          · exact .none
          · exact .some (Program.like_self (h.alike.calls j c.outline p hje
              (by rw [outline, hc]; rfl) hp hj))
  slot {w w' j k k'} h _ hk := by
    rw [h.coherent.slotValue_eq, h.coherent'.slotValue_eq]
    by_cases hje : j = e
    · subst hje
      rw [if_pos rfl] at hk
      obtain ⟨nv, hnv, hnv'⟩ := hk
      obtain ⟨q, q', b, hq, hq', -⟩ := h.alike.self
      simp only [hq, hq', Option.bind_some, hnv, hnv', h.value]
    · rw [if_neg hje] at hk
      obtain rfl : k = k' := hk
      simp only [h.alike.others j hje, h.value]
  emit _ h _ := ⟨h.value, h.host, ⟨h.coherent.listener, h.coherent.value, h.coherent.live⟩,
    ⟨h.coherent'.listener, h.coherent'.value, h.coherent'.live⟩, h.alike⟩

end Twins

/-! ### Two compilations -/

namespace Store

lemma outline_attach {q : Option (Program σ)} {us : List (Name × VarId)} {b : Bool} {n : Name}
    {v : VarId} (h : w.outline e = some ⟨q, us, b⟩) (hok : w.attach e n v = (.ok (), w')) :
    w'.outline e = some ⟨q, us ++ [(n, v)], b⟩ := by
  obtain ⟨c, hc, -⟩ := outline_eq_some h
  simp only [attach, hc] at hok
  split at hok
  · cases hok
  · cases hok
    have hmodify := outline_modifyExpr
      (w.setCell v { w.cell v with listener := some ⟨e, c.slots.length⟩ }) e
      (fun c => { c with slots := c.slots ++ [⟨n, v, (w.cell v).value⟩] })
      (fun x => { x with vars := x.vars ++ [(n, v)] })
      (fun c => by simp only [Compiled.outline, List.map_append]; rfl) e
    rw [hmodify, if_pos rfl]
    exact congrArg (Option.map _) h

lemma outline_attachAll {q : Option (Program σ)} {us vs : List (Name × VarId)} {b : Bool}
    (h : w.outline e = some ⟨q, us, b⟩) (hok : w.attachAll e vs = (.ok (), w')) :
    w'.outline e = some ⟨q, us ++ vs, b⟩ := by
  induction vs generalizing w us with
  | nil =>
    cases hok
    rwa [List.append_nil]
  | cons nv vs ih =>
    unfold attachAll at hok
    rcases hone : w.attach e nv.1 nv.2 with ⟨err | _, w₁⟩
    · rw [hone] at hok
      cases hok
    · rw [hone] at hok
      have hrest := ih (outline_attach h hone) hok
      rwa [List.append_assoc] at hrest

lemma outline_attached {vs : List (Name × VarId)} (h : w.Free vs) :
    (w.attached e text vs).outline e = some ⟨none, vs, true⟩ := by
  have hprepared : (w.prepare e text).outline e = some ⟨none, [], true⟩ := by
    simp [outline, prepare, Compiled.outline]
  rcases attachAll_cases (w.layout_prepare e text) vs with ⟨-, w₁, hw₁, -⟩ | ⟨hbound, -⟩
  · have hattached := outline_attachAll hprepared hw₁
    rwa [attached, hw₁]
  · exact absurd h hbound

lemma Frame.outline_of_ne {j : ExprId} (h : Frame e w w') (hj : j ≠ e) :
    w'.outline j = w.outline j := by
  unfold outline
  rw [h.get?_of_ne hj.symm]

end Store

/-- A text that parses, with variables that are free, is lowered and installed. -/
lemma compile_of_parse {table : SymbolTable σ} {tree : Expr} (hb : ofBindings bs = .ok table)
    (hfree : w.Free table.vars) (hp : parse table.resolve o text = .ok tree) (depth : ℕ)
    (e : ExprId) :
    ∃ p w₁, lower (evaluate depth) table o.foldConstants tree (w.attached e text table.vars) =
        (.ok p, w₁) ∧
      compile depth e bs o text w = (.ok (), w₁.install e text p) ∧
      compileInvocations depth e bs o text w =
        Lowering.gather (evaluate depth)
          (Target.invocations (evaluate depth) (evaluateInvocations depth)) table o.foldConstants
          tree.steps [] (w.attached e text table.vars) := by
  have hend := compilation (Target.invocations (evaluate depth) (evaluateInvocations depth)) depth
    e bs o text w
  unfold compileInvocations
  generalize compile depth e bs o text w = r at hend ⊢
  generalize gatherCompile _ depth e bs o text w = is at hend ⊢
  cases hend with
  | naming hb' => cases hb.symm.trans hb'
  | bound hb' hbound =>
    cases hb.symm.trans hb'
    exact absurd hfree hbound
  | parse hb' _ hp' =>
    cases hb.symm.trans hb'
    cases hp.symm.trans hp'
  | done hb' _ hp' _ _ hlower _ =>
    cases hb.symm.trans hb'
    cases hp.symm.trans hp'
    exact ⟨_, _, hlower, rfl, rfl⟩

namespace Twins

variable {r : Rights σ} {P Q : Target σ → Prop} {vs vs' : List (Name × VarId)}

/-- Before anything is lowered. -/
lemma attached (hw : w.Coherent none) (he : w.exprs.get? e = none)
    (hcalls : ∀ j x p, w.outline j = some x → x.program = some p → r.evals j →
      ∀ t argc, .call t argc ∈ p → t.Tied r) (hvs : w.Free vs) (hvs' : w.Free vs') :
    Twins r P (some e) e vs vs' (w.attached e text vs) (w.attached e text vs') := by
  have hframe := w.frame_attached e text vs
  have hframe' := w.frame_attached e text vs'
  refine ⟨fun v => (hframe.value v).trans (hframe'.value v).symm,
    hframe.host.trans hframe'.host.symm, (hw.prepare he text).attachAll vs,
    (hw.prepare he text).attachAll vs', ⟨fun j hj => ?_, fun j x p hj hx hp hev => ?_, ?_⟩⟩
  · exact (hframe.outline_of_ne hj).trans (hframe'.outline_of_ne hj).symm
  · exact hcalls j x p ((hframe.outline_of_ne hj).symm.trans hx) hp hev
  · exact ⟨none, none, true, outline_attached hvs, outline_attached hvs', .none⟩

/-- With their programs the two expressions come to life. -/
lemma install (h : Twins r Q (some e) e vs vs' w w') {p p' : Program σ}
    (hp : Program.Like P (Shares vs vs') p p') (text : Text) :
    Twins r P none e vs vs' (w.install e text p) (w'.install e text p') := by
  have hout (w : Store σ) (p : Program σ) (j : ExprId) : (w.install e text p).outline j =
      if e = j then (w.outline j).map fun x => { x with program := some p } else w.outline j :=
    w.outline_modifyExpr e (fun c => { c with program := some p }) _ (fun _ => rfl) j
  refine ⟨h.value, h.host, h.coherent.install text p, h.coherent'.install text p',
    ⟨fun j hj => ?_, fun j x q hj hx hq => ?_, ?_⟩⟩
  · rw [hout, hout, if_neg hj.symm, if_neg hj.symm, h.alike.others j hj]
  · rw [hout, if_neg hj.symm] at hx
    exact h.alike.calls j x q hj hx hq
  · obtain ⟨q, q', b, hq, hq', -⟩ := h.alike.self
    rw [hout, hout, if_pos rfl, if_pos rfl, hq, hq']
    exact ⟨some p, some p', b, rfl, rfl, .some hp⟩

/-- **Both compile**, to expressions that differ in numbers only. -/
theorem compile {table table' : SymbolTable σ} {tree tree' : Expr}
    (hb : ofBindings bs = .ok table) (hb' : ofBindings bs' = .ok table')
    (hfree : w.Free table.vars) (hfree' : w.Free table'.vars)
    (hp : parse table.resolve o text = .ok tree) (hp' : parse table'.resolve o text = .ok tree')
    (htree : Expr.Like P (Shares table.vars table'.vars) table table' tree tree')
    (hw : w.Coherent none) (he : w.exprs.get? e = none) (hhost : r.host = Eq)
    (hvars : ∀ v, r.vars v →
      (v ∈ table.vars.map Prod.snd ↔ v ∈ table'.vars.map Prod.snd))
    (hcalls : ∀ j x p, w.outline j = some x → x.program = some p → r.evals j →
      ∀ t argc, .call t argc ∈ p → t.Tied r)
    (hfold : o.foldConstants = true → ∀ t, P t → t.isPure = true → t.Tied r) (depth : ℕ) :
    ∃ w₁ w₁', Formula.compile depth e bs o text w = (.ok (), w₁) ∧
      Formula.compile depth e bs' o text w = (.ok (), w₁') ∧ w₁.Live e ∧
      Twins r P none e table.vars table'.vars w₁ w₁' ∧
      compileInvocations depth e bs o text w = compileInvocations depth e bs' o text w := by
  obtain ⟨p, w₁, hlower, hcompile, hcalls₁⟩ := compile_of_parse hb hfree hp depth e
  obtain ⟨p', w₁', hlower', hcompile', hcalls₁'⟩ := compile_of_parse hb' hfree' hp' depth e
  have hattached : Twins r (fun _ => False) (some e) e table.vars table'.vars
      (w.attached e text table.vars) (w.attached e text table'.vars) :=
    .attached hw he hcalls hfree hfree'
  have htie : Tie r (fun j => if j = e then Shares table.vars table'.vars else Eq)
      (Twins r (fun _ => False) (some e) e table.vars table'.vars) :=
    tie hhost hvars fun _ _ ht => ht.elim
  obtain ⟨hlowered, hsame⟩ := htie.lower (htie.evaluate depth) hfold htree hattached
  rw [hlower, hlower'] at hlowered
  cases hlowered with
  | ok hlike h₁ =>
    obtain ⟨q, -, b, hq, -⟩ := h₁.alike.self
    obtain ⟨c, hc, -⟩ := outline_eq_some hq
    have hlayout : w₁.layout e = some (c.program, c.slots.length) := by
      rw [layout, hc]
      rfl
    exact ⟨_, _, hcompile, hcompile', live_iff.2 ⟨p, _, layout_install hlayout text p⟩,
      h₁.install hlike text, hcalls₁.trans (hsame.trans hcalls₁'.symm)⟩

/-- The two expressions. -/
lemma exists_programs (h : Twins r P busy e vs vs' w w') (hlive : w.Live e) :
    ∃ c c' p p', w.exprs.get? e = some c ∧ w'.exprs.get? e = some c' ∧
      c.slots.map Slot.symbol = vs ∧ c'.slots.map Slot.symbol = vs' ∧
      c.program = some p ∧ c'.program = some p' ∧ Program.Like P (Shares vs vs') p p' := by
  obtain ⟨q, q', b, hq, hq', hlike⟩ := h.alike.self
  obtain ⟨c, hc, hout⟩ := outline_eq_some hq
  obtain ⟨c', hc', hout'⟩ := outline_eq_some hq'
  obtain rfl : c.program = q := congrArg Outline.program hout
  obtain rfl : c'.program = q' := congrArg Outline.program hout'
  have hvs : c.slots.map Slot.symbol = vs := congrArg Outline.vars hout
  have hvs' : c'.slots.map Slot.symbol = vs' := congrArg Outline.vars hout'
  obtain ⟨p, hp⟩ : ∃ p, c.program = some p := by
    obtain ⟨c₁, hc₁, hsome⟩ := hlive
    cases hc.symm.trans hc₁
    exact Option.isSome_iff_exists.1 hsome
  rw [hp] at hlike
  rcases hp' : c'.program with _ | p'
  · rw [hp'] at hlike
    cases hlike
  · rw [hp'] at hlike
    cases hlike with
    | some hlike => exact ⟨c, c', p, p', hc, hc', hvs, hvs', hp, hp', hlike⟩

/-- Other values and another state of the host, the same in both stores. -/
lemma of_outline {u u' : Store σ} (h : Twins r P none e vs vs' w w') (hu : u.outline = w.outline)
    (hu' : u'.outline = w'.outline) (hcoherent : u.Coherent none) (hcoherent' : u'.Coherent none)
    (hvalue : ∀ v, u.value v = u'.value v) (hhost : u.host = u'.host) :
    Twins r P none e vs vs' u u' :=
  ⟨hvalue, hhost, hcoherent, hcoherent', hu ▸ hu' ▸ h.alike⟩

end Twins

/-! ### What two twins look like -/

section Render

variable {P : Target σ → Prop} {ss ss' : List Slot} {p p' : Program σ}

/-- A slot is shown by the name of its variable. -/
lemma slotText_eq {k k' : ℕ} (h : Shares (ss.map Slot.symbol) (ss'.map Slot.symbol) k k') :
    slotText ss k = slotText ss' k' := by
  obtain ⟨nv, hk, hk'⟩ := h
  rw [List.getElem?_map] at hk hk'
  obtain ⟨a, ha, rfl⟩ := Option.map_eq_some_iff.1 hk
  obtain ⟨a', ha', hsame⟩ := Option.map_eq_some_iff.1 hk'
  have hname : a'.name = a.name := congrArg Prod.fst hsame
  simp only [slotText, ha, ha', hname]

lemma Instr.render_eq {i i' : Instr σ}
    (h : Instr.Like P (Shares (ss.map Slot.symbol) (ss'.map Slot.symbol)) i i')
    (s : List Text) : i.render ss s = i'.render ss' s := by
  cases h with
  | var hk => simp only [Instr.render, slotText_eq hk]
  | const x => rfl
  | neg =>
    cases s with
    | nil => rfl
    | cons a s => rfl
  | binary o =>
    rcases s with _ | ⟨b, _ | ⟨a, s⟩⟩
    · rfl
    · rfl
    · rfl
  | call argc _ => rfl

lemma Program.render_eq
    (h : Program.Like P (Shares (ss.map Slot.symbol) (ss'.map Slot.symbol)) p p') :
    p.render ss = p'.render ss' := by
  have hfold (s : List Text) : p.foldlM (fun s i => i.render ss s) s =
      p'.foldlM (fun s i => i.render ss' s) s := by
    induction h generalizing s with
    | nil => rfl
    | cons hi _ ih =>
      rw [List.foldlM_cons, List.foldlM_cons, Instr.render_eq hi]
      exact congrArg _ (funext ih)
  unfold Program.render
  rw [hfold]

end Render

end Formula
