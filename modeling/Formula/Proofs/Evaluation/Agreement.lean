import Formula.Proofs.Evaluation.Building
import Formula.Proofs.Evaluation.Meaning
import Formula.Proofs.Store.Events

/-!
The two ways of evaluating a text agree.

A program reads the slots of its expression, and the walk over the tree reads the variables. As
long as each slot listens to its variable both read the same, and instruction and step do the
same to the machine.
-/

namespace Formula

variable {σ : Type} {table : SymbolTable σ} {e : ExprId} {w : Store σ}

/-! ### Slots that follow their variables -/

/-- Expression `e` has a slot for each variable of the table. The slot holds the value of the
variable and is its listener, and no other variable has it for a listener. -/
structure SymbolTable.Tracks (table : SymbolTable σ) (e : ExprId) (w : Store σ) : Prop where
  value : ∀ k n v, table.vars[k]? = some (n, v) →
    ∃ a, w.slot? ⟨e, k⟩ = some a ∧ a.value = w.value v
  listener : ∀ k n v, table.vars[k]? = some (n, v) →
    ∀ u, w.listener u = some ⟨e, k⟩ ↔ u = v

namespace SymbolTable.Tracks

lemma update (h : table.Tracks e w) (v : VarId) (x : Float) :
    table.Tracks e (w.update v x).2 := by
  refine ⟨fun k n u hk => ?_, fun k n u hk u' => ?_⟩
  · obtain ⟨a, ha, hvalue⟩ := h.value k n u hk
    have hlistener := h.listener k n u hk v
    rw [Store.slot?_update, Store.value_update, ha]
    by_cases hv : v = u
    · have hl := hlistener.2 hv
      have hbound : w.isBound v = true := w.isBound_iff.2 ⟨_, hl⟩
      exact ⟨{ a with value := x }, by rw [if_pos hl]; rfl, by rw [if_pos ⟨hv, hbound⟩]⟩
    · have hl : w.listener v ≠ some ⟨e, k⟩ := fun hl => hv (hlistener.1 hl)
      exact ⟨a, by rw [if_neg hl], by rw [if_neg fun hu => hv hu.1, hvalue]⟩
  · rw [Store.listener_update]
    exact h.listener k n u hk u'

/-- Nothing that runs makes slots lose their variables. -/
lemma stable : Stable fun (w : Store σ) _ => table.Tracks e w where
  host _ _ _ h := ⟨h.value, h.listener⟩
  stack w e' s _ h := by
    refine ⟨fun k n v hk => ?_, h.listener⟩
    rw [Store.slot?_stack]
    exact h.value k n v hk
  emit _ _ _ h := ⟨h.value, h.listener⟩
  update _ v x _ h := h.update v x
  value _ _ _ h := h
  slot _ _ _ _ _ h := h

end SymbolTable.Tracks

/-! ### Instructions and steps -/

open Lowering

variable {ev : Evaluator σ} {ss : List Step} {q : Program σ}

lemma exec_eq_step {s : Step} {i : Instr σ} (hcode : Codes table s i) {m : Machine σ}
    (h : table.Tracks e m.store) : Machine.exec ev e i m = Machine.step ev table s m := by
  cases hcode with
  | const x => rfl
  | @var k nv hk =>
    obtain ⟨a, ha, hvalue⟩ := h.value k nv.1 nv.2 hk
    have hread : table.slotValue? m.store k = some a.value := by
      rw [SymbolTable.slotValue?, hk, hvalue]
      rfl
    simp only [Machine.exec, Machine.step, m.store.slotValue_of_slot? ha, hread]
  | neg => rfl
  | binary o => rfl
  | call n hc => simp only [Machine.exec, Machine.step, hc]

lemma execCalls_eq_stepCalls {s : Step} {i : Instr σ} (hcode : Codes table s i)
    (m : Machine σ) : Machine.execCalls ev i m = Machine.stepCalls ev table s m := by
  cases hcode with
  | call n hc => simp only [Machine.execCalls, Machine.stepCalls, hc]
  | _ => rfl

/-- While the slots follow their variables, the program does what the steps do. -/
lemma runAll_codes (depth : ℕ) (hcodes : List.Forall₂ (Codes table) ss q) (m : Machine σ)
    (h : table.Tracks e m.store) :
    Machine.runAll (Machine.exec (evaluate depth) e) q m =
        Machine.runAll (Machine.step (evaluate depth) table) ss m ∧
      Machine.gather (Machine.exec (evaluate depth) e) (Machine.execCalls (evaluate depth)) q m =
        Machine.gather (Machine.step (evaluate depth) table)
          (Machine.stepCalls (evaluate depth) table) ss m := by
  induction hcodes generalizing m with
  | nil => exact ⟨rfl, rfl⟩
  | @cons s i ss q hcode _ ih =>
    have hstep : Machine.exec (evaluate depth) e i m = Machine.step (evaluate depth) table s m :=
      exec_eq_step hcode h
    have hcalls : Machine.execCalls (evaluate depth) i m =
        Machine.stepCalls (evaluate depth) table s m := execCalls_eq_stepCalls hcode m
    have hnext : table.Tracks e (Machine.step (evaluate depth) table s m).2.store := by
      have hstable : Stable fun (w : Store σ) _ => table.Tracks e w := SymbolTable.Tracks.stable
      rw [← hstep]
      exact hstable.exec (hstable.evaluate depth) e i m [] h
    simp only [Machine.runAll, Machine.gather, hstep, hcalls]
    rcases hs : Machine.step (evaluate depth) table s m with ⟨err | _, m'⟩
    · exact ⟨rfl, rfl⟩
    · rw [hs] at hnext
      obtain ⟨hrun, hgather⟩ := ih m' hnext
      exact ⟨hrun, by simp only [hgather]⟩

/-- Where the machine ends that follows a trail to one value. -/
lemma Machine.Follows.finish {r : Trail σ Float}
    (h : Machine.Follows ev table ss ⟨[], w⟩ [] (fun x => [x]) r) :
    (Machine.finish (Machine.runAll (Machine.step ev table) ss ⟨[], w⟩)).1 = r.result ∧
      (Machine.finish (Machine.runAll (Machine.step ev table) ss ⟨[], w⟩)).2.store = r.store := by
  rcases hr : r.result with err | x
  · obtain ⟨s, hrun⟩ := h.error err hr
    rw [hrun]
    exact ⟨rfl, rfl⟩
  · rw [h.ok x hr]
    exact ⟨rfl, rfl⟩

/-- The walk over a tree comes to what the tree means. -/
lemma Expr.eval_eq_meaning {tree : Expr} (h : tree.Fits table) (w : Store σ) :
    tree.eval ev table w = ((tree.meaning ev table w).result, (tree.meaning ev table w).store) := by
  have hfollows : Machine.Follows ev table tree.steps ⟨[], w⟩ [] (fun x => [x])
      (tree.meaning ev table w) := Machine.follows_meaning h [] w
  obtain ⟨hresult, hstore⟩ := hfollows.finish
  rw [Expr.eval_eq]
  exact Prod.ext hresult hstore

/-- So does the program of the tree, while the slots follow their variables. -/
lemma Program.run_eq_meaning {tree : Expr} (h : tree.Fits table)
    (hcodes : List.Forall₂ (Codes table) tree.steps q) (depth : ℕ) (htracks : table.Tracks e w)
    (s : List Float) :
    let r := tree.meaning (evaluate depth) table w
    (q.run (evaluate depth) e ⟨s, w⟩).1 = r.result ∧
      (q.run (evaluate depth) e ⟨s, w⟩).2.store = r.store ∧
      q.calls (evaluate depth) e ⟨s, w⟩ = r.calls := by
  have hfollows : Machine.Follows (evaluate depth) table tree.steps ⟨[], w⟩ [] (fun x => [x])
      (tree.meaning (evaluate depth) table w) := Machine.follows_meaning h [] w
  obtain ⟨hresult, hstore⟩ := hfollows.finish
  obtain ⟨hrun, hcalls⟩ := runAll_codes depth hcodes ⟨[], w⟩ htracks
  unfold Program.run Program.calls
  simp only [hrun, hcalls]
  exact ⟨hresult, hstore, hfollows.calls⟩

/-- **The evaluators agree**: for a parsed text the walk over the tree and the unfolded program
come to what the tree means, make the same calls, and leave the same store. A call that fails is
the last one, and its failure is the result. -/
theorem eval_and_run_eq_meaning {bs : List (Binding σ)} {o : Options} {text : Text}
    {tree : Expr} (hparse : parseWith bs o text = .ok (table, tree)) (depth : ℕ)
    (h : table.Tracks e w) :
    let r := tree.meaning (evaluate depth) table w
    r.StopsAtFailure table ∧
      tree.eval (evaluate depth) table w = (r.result, r.store) ∧
      tree.calls (evaluate depth) table w = r.calls ∧
      ∃ q, (∀ ev₀ w, lower ev₀ table false tree w = (.ok q, w)) ∧
        ∀ s, (q.run (evaluate depth) e ⟨s, w⟩).1 = r.result ∧
          (q.run (evaluate depth) e ⟨s, w⟩).2.store = r.store ∧
          q.calls (evaluate depth) e ⟨s, w⟩ = r.calls := by
  have hfits := fits_of_parseWith hparse
  obtain ⟨q, -, hplain⟩ := Plain.exists_of_fits hfits
  refine ⟨.meaning hfits w, Expr.eval_eq_meaning hfits w, ?_, q, fun ev₀ w' => ?_,
    Program.run_eq_meaning hfits hplain.codes depth h⟩
  · rw [Expr.calls_eq]
    exact (Machine.follows_meaning hfits [] w).calls
  · have hlower := (hplain.adds ev₀).lower_plain w'
    rwa [List.reverse_reverse] at hlower

/-- Variable zero has the value five, and the one slot of expression zero listens to it. -/
def putStore : Store Unit where
  cells := [(0, ⟨5, some ⟨0, 0⟩⟩)]
  exprs := [(0, ⟨putText, none, [⟨xName, 0, 5⟩], some []⟩)]
  log := []
  host := ()

lemma tracks_put : putTable.Tracks 0 putStore := by
  refine ⟨fun k n v hk => ?_, fun k n v hk u => ?_⟩
  · match k with
    | 0 =>
      cases hk
      exact ⟨_, rfl, rfl⟩
    | k + 1 => cases hk
  · match k with
    | 0 =>
      cases hk
      by_cases hu : u = 0
      · subst hu
        exact ⟨fun _ => rfl, fun _ => rfl⟩
      · have hnone : putStore.listener u = none := by
          have hne : ¬0 = u := fun h => hu h.symm
          simp [Store.listener, Store.cell, putStore, Table.get?, hne]
        simp [hnone, hu]
    | k + 1 => cases hk

theorem eval_and_run_put : ∃ tree q,
    parseWith putBindings ⟨true, 4, 15⟩ putText = .ok (putTable, tree) ∧
    putTable.Tracks 0 putStore ∧
    lower (evaluate 1) putTable false tree putStore = (.ok q, putStore) ∧
    (tree.eval (evaluate 1) putTable putStore).1 =
      (tree.meaning (evaluate 1) putTable putStore).result ∧
    (q.run (evaluate 1) 0 ⟨[], putStore⟩).1 =
      (tree.meaning (evaluate 1) putTable putStore).result := by
  obtain ⟨tree, hparse⟩ := parseWith_put
  obtain ⟨-, heval, -, q, hlower, hrun⟩ := eval_and_run_eq_meaning hparse 1 tracks_put
  exact ⟨tree, q, hparse, tracks_put, hlower _ _, by rw [heval], (hrun []).1⟩

end Formula
