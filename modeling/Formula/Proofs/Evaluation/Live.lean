import Formula.Proofs.Evaluation.Agreement
import Formula.Proofs.Evaluation.Named
import Formula.Proofs.Store.Closing
import Formula.Proofs.Store.Twins

/-!
Live expressions.

A compiled expression keeps the program of its text until it is closed, and one slot for each
variable of its table. Evaluating it comes to what the tree of the program means (`evaluate_live`).
-/

namespace Formula

variable {σ : Type} {w w₁ : Store σ} {es : List Event} {depth : ℕ} {e : ExprId}
  {bs : List (Binding σ)} {o : Options} {text : Text} {table : SymbolTable σ} {tree : Expr}
  {p : Program σ}

/-- What an expression displays: the program, and what its slots are for. -/
def Compiled.face (c : Compiled σ) : Option (Program σ) × List (Name × VarId) :=
  (c.program, c.slots.map Slot.symbol)

lemma lasting_face : Lasting (Compiled.face (σ := σ)) where
  stack _ _ := rfl
  value _ _ _ := by simp only [Compiled.face, Slot.map_symbol_modify]

/-- A compilation that succeeds leaves the program of the text, with the slots of the table. -/
lemma exists_compiled (h : compile depth e bs o text w = (.ok (), w₁)) :
    ∃ table tree p w', parseWith bs o text = .ok (table, tree) ∧
      lower (evaluate depth) table o.foldConstants tree (w.attached e text table.vars) =
        (.ok p, w') ∧
      w₁.view Compiled.face e = some (some p, table.vars) := by
  have hend := compilation (Target.calls (evaluate depth)) depth e bs o text w
  rw [h] at hend
  generalize gatherCompile _ depth e bs o text w = is at hend
  generalize hr : ((.ok (), w₁) : Except Error Unit × Store σ) = r at hend
  cases hend with
  | naming _ | bound _ _ | parse _ _ _ => cases hr
  | @done table tree p w' hb hfree hp _ _ hlower _ =>
    cases hr
    refine ⟨table, tree, p, w', parseWith_of_parse hb hp, hlower, ?_⟩
    have hlowered := lasting_face.lower depth table o.foldConstants tree
      (w.attached e text table.vars)
    rw [hlower] at hlowered
    have houtline : (w.attached e text table.vars).outline e = some ⟨none, table.vars, true⟩ :=
      Store.outline_attached hfree
    obtain ⟨c, hc, hout⟩ := Store.outline_eq_some houtline
    have hface : w'.view Compiled.face e = some (none, table.vars) := by
      rw [hlowered, Store.view, hc]
      exact congrArg (fun x : Outline σ => some (x.program, x.vars)) hout
    obtain ⟨c', hc', hface'⟩ := Option.map_eq_some_iff.1 hface
    have hslots : c'.slots.map Slot.symbol = table.vars := congrArg Prod.snd hface'
    simp [Store.view, Store.install, Store.modifyExpr, Store.emit, hc', Compiled.face, hslots]

/-- The program is that of the tree of the text, folded if constants are to be folded. -/
lemma exists_built (h : compile depth e bs o text w = (.ok (), w₁)) :
    ∃ table tree built p, parseWith bs o text = .ok (table, tree) ∧
      built = (if o.foldConstants then
        (tree.fold (evaluate depth) table (w.attached e text table.vars)).value else tree) ∧
      built.Named table ∧ built.code table = .ok p ∧
      List.Forall₂ (Lowering.Codes table) built.steps p ∧
      w₁.view Compiled.face e = some (some p, table.vars) := by
  obtain ⟨table, tree, p, w', hparse, hlower, hface⟩ := exists_compiled h
  have hnamed := Expr.named_of_parseWith hparse
  cases hfold : o.foldConstants with
  | false =>
    obtain ⟨q, hcode, hcodes, hplain⟩ := Lowering.exists_codes hnamed.fits
    rw [hfold, hplain] at hlower
    cases hlower
    exact ⟨table, tree, tree, p, hparse, rfl, hnamed, hcode, hcodes, hface⟩
  | true =>
    have hfolded := hnamed.fold (evaluate depth) (w.attached e text table.vars)
    obtain ⟨q, hcode, hlower', -⟩ := Lowering.exists_lower (evaluate depth) hnamed.fits
      (w.attached e text table.vars)
    rw [hfold, hlower'] at hlower
    cases hlower
    obtain ⟨q, hcode', hcodes, -⟩ := Lowering.exists_codes hfolded.fits
    cases hcode.symm.trans hcode'
    exact ⟨table, tree, _, p, hparse, rfl, hfolded, hcode, hcodes, hface⟩

/-- It keeps them until it is closed. -/
lemma exists_live (h : w₁.view Compiled.face e = some (some p, table.vars)) {os : List (Op σ)}
    (hstarts : ∀ op ∈ os, op.starts? ≠ some e) (hends : ∀ op ∈ os, op.ends? ≠ some e) :
    ∃ c, (Op.runAll w₁ os).exprs.get? e = some c ∧ c.program = some p ∧
      c.slots.map Slot.symbol = table.vars := by
  have hlater := Op.view_runAll lasting_face hstarts hends w₁
  obtain ⟨c, hc, hface⟩ := Option.map_eq_some_iff.1 (hlater.trans h)
  exact ⟨c, hc, congrArg Prod.fst hface, congrArg Prod.snd hface⟩

lemma SymbolTable.tracks_of_slots {busy : Option ExprId} (h : w.Coherent busy) {c : Compiled σ}
    (hc : w.exprs.get? e = some c) (hslots : c.slots.map Slot.symbol = table.vars) :
    table.Tracks e w := by
  have hslot {k : ℕ} {n : Name} {v : VarId} (hk : table.vars[k]? = some (n, v)) :
      ∃ a, w.slot? ⟨e, k⟩ = some a ∧ a.var = v := by
    rw [← hslots, List.getElem?_map] at hk
    obtain ⟨a, ha, hsymbol⟩ := Option.map_eq_some_iff.1 hk
    refine ⟨a, ?_, congrArg Prod.snd hsymbol⟩
    simp only [Store.slot?, hc, Option.bind_some, ha]
  refine ⟨fun k n v hk => ?_, fun k n v hk u => ?_⟩
  · obtain ⟨a, ha, rfl⟩ := hslot hk
    exact ⟨a, ha, h.value _ _ ha⟩
  · obtain ⟨a, ha, rfl⟩ := hslot hk
    rw [h.listener]
    constructor
    · rintro ⟨a', ha', rfl⟩
      cases ha.symm.trans ha'
      rfl
    · rintro rfl
      exact ⟨a, ha, rfl⟩

/-- An evaluation runs the program, with the stack of the expression taken away if it is there. -/
lemma exists_run {c : Compiled σ} (hc : w.exprs.get? e = some c) (hp : c.program = some p)
    (htracks : table.Tracks e w) (depth : ℕ) :
    ∃ s w', (evaluate (depth + 1) e w).1 = (p.run (evaluate depth) e ⟨s, w'⟩).1 ∧
      w'.value = w.value ∧ w'.host = w.host ∧ table.Tracks e w' := by
  obtain ⟨source, program, slots, stack⟩ := c
  obtain rfl : program = some p := hp
  cases stack with
  | none =>
    refine ⟨[], w, ?_, rfl, rfl, htracks⟩
    unfold evaluate
    simp only [hc]
  | some s =>
    have hstable : Stable fun (w : Store σ) _ => table.Tracks e w := SymbolTable.Tracks.stable
    refine ⟨s, w.modifyExpr e fun c => { c with stack := none }, ?_, rfl, rfl,
      hstable.stack w e none [] htracks⟩
    unfold evaluate
    simp only [hc]

/-- **An evaluation comes to what the tree means**, wherever variables and host have the state that
they have now. -/
theorem evaluate_live (h : w₁.view Compiled.face e = some (some p, table.vars)) {os : List (Op σ)}
    (hstarts : ∀ op ∈ os, op.starts? ≠ some e) (hends : ∀ op ∈ os, op.ends? ≠ some e)
    (hreach : Reachable (Op.runAll w₁ os) es) (hfits : tree.Fits table)
    (hcodes : List.Forall₂ (Lowering.Codes table) tree.steps p) (depth : ℕ) :
    ∃ w', w'.value = (Op.runAll w₁ os).value ∧ w'.host = (Op.runAll w₁ os).host ∧
      (evaluate (depth + 1) e (Op.runAll w₁ os)).1 =
        (tree.meaning (evaluate depth) table w').result := by
  obtain ⟨c, hc, hp, hslots⟩ := exists_live h hstarts hends
  have htracks := SymbolTable.tracks_of_slots hreach.consistent.coherent hc hslots
  obtain ⟨s, w', hrun, hvalue, hhost, htracks'⟩ := exists_run hc hp htracks depth
  exact ⟨w', hvalue, hhost,
    hrun.trans (Program.run_eq_meaning hfits hcodes depth htracks' s).1⟩

end Formula
