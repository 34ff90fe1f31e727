import Formula.Proofs.Evaluation.Lockstep
import Formula.Proofs.Store.Compilation

/-!
What is written to the log.

The log only grows. Nothing that runs writes that an expression was disposed, and a compilation
does not either: only closing and dropping do.
-/

namespace Formula

variable {σ : Type} {w w' : Store σ} {e : ExprId} {depth : ℕ}

def Record.isDisposal : Record → Bool
  | disposed _ => true
  | _ => false

lemma Record.isDisposal_of_trace {record : Record} (h : record.level = .trace) :
    record.isDisposal = false := by
  cases record with
  | foldedOperator | foldedCall | leftCall => rfl
  | compiled | failed | disposed => cases h

/-! ### All code stays in step with itself -/

lemma Script.spares_of_forall_not {P : VarId → Prop} (h : ∀ v, ¬P v) (s : Script σ) :
    s.Spares P := by
  induction s with
  | done x => trivial
  | get next ih => exact ih
  | put a next ih => exact ih
  | value v next ih => exact ⟨h v, ih⟩
  | isBound v next ih => exact ⟨h v, ih⟩
  | update v x next ih => exact ⟨h v, ih⟩
  | evaluate e next ih => exact ih

/-- All rights. -/
abbrev Rights.all : Rights σ := .sparing fun _ => False

lemma Target.tied_all (t : Target σ) : t.Tied .all := by
  cases t with
  | builtin b => trivial
  | host n f => exact fun args => ((f.code args).spares_of_forall_not fun _ => id).tied

lemma Program.like_self {P : Target σ → Prop} {p : Program σ}
    (h : ∀ t argc, .call t argc ∈ p → P t) : Program.Like P Eq p p := by
  refine List.forall₂_same.2 fun i hi => ?_
  cases i with
  | const x => exact .const x
  | var k => exact .var rfl
  | neg => exact .neg
  | binary o => exact .binary o
  | call t argc => exact .call argc (h t argc hi)

lemma Compiled.like_self {P : Target σ → Prop} {c : Compiled σ}
    (h : ∀ p, c.program = some p → ∀ t argc, .call t argc ∈ p → P t) : c.Like P Eq c := by
  refine ⟨?_, rfl⟩
  rcases hp : c.program with _ | p
  · exact .none
  · exact .some (Program.like_self (h p hp))

lemma Step.like_self {P : Target σ → Prop} {table : SymbolTable σ} {tree : Expr}
    (h : tree.Fits table) (hP : ∀ c t, table.target c = .ok t → P t) :
    List.Forall₂ (Step.Like P Eq table table) tree.steps tree.steps := by
  refine List.forall₂_same.2 fun s hs => ?_
  have hvalid := (Expr.leaves_of_fits h).forall_valid s (List.mem_reverse.2 hs)
  cases hvalid with
  | const x => exact .const x
  | var _ => exact .var rfl
  | neg => exact .neg
  | binary o => exact .binary o
  | call ht _ => exact .call _ ht ht (hP _ _ ht)

namespace Store

/-- The records that an expression was disposed. -/
def disposals (w : Store σ) : List Record := w.log.filter Record.isDisposal

lemma disposals_emit (w : Store σ) {record : Record} (h : record.isDisposal = false) :
    (w.emit record).disposals = w.disposals :=
  List.filter_cons_of_neg (by rw [h]; exact Bool.false_ne_true)

/-- A run beside itself, as far as disposals have been written. -/
lemma tie_disposals (w₀ : Store σ) :
    Tie .all (fun _ => Eq) fun (w w' : Store σ) => w = w' ∧ w.disposals = w₀.disposals where
  host h := congrArg Store.host h.1
  put h hh := by
    obtain ⟨rfl, h⟩ := h
    obtain rfl : _ = _ := hh
    exact ⟨rfl, h⟩
  value h _ := by rw [h.1]
  isBound h _ := by rw [h.1]
  update {w w' v} x h _ := by
    obtain ⟨rfl, h⟩ := h
    refine ⟨rfl, rfl, ?_⟩
    rcases hl : w.listener v with _ | s
    · rwa [update_of_none w hl]
    · rwa [update_of_some w hl]
  stack s h _ := by
    obtain ⟨rfl, h⟩ := h
    exact ⟨rfl, h⟩
  entry {w w' e} h _ := by
    rw [← h.1]
    rcases w.exprs.get? e with _ | c
    · exact .none
    · exact .some (Compiled.like_self fun p _ t _ _ => t.tied_all)
  slot h _ hk := by rw [h.1, hk]
  emit record h ht := by
    obtain ⟨rfl, h⟩ := h
    exact ⟨rfl, (disposals_emit _ (Record.isDisposal_of_trace ht)).trans h⟩

lemma disposals_evaluate (depth : ℕ) (e : ExprId) (w : Store σ) :
    (evaluate depth e w).2.disposals = w.disposals :=
  ((tie_disposals w).evaluate depth e w w trivial ⟨rfl, rfl⟩).1.2.2

lemma disposals_lower (depth : ℕ) {table : SymbolTable σ} (fold : Bool) {tree : Expr}
    (h : tree.Fits table) (w : Store σ) :
    (lower (evaluate depth) table fold tree w).2.disposals = w.disposals := by
  have htie := tie_disposals w
  have hsteps : List.Forall₂ (Step.Like (fun _ => True) Eq table table) tree.steps tree.steps :=
    Step.like_self h fun _ _ _ => trivial
  have hw : w = w ∧ w.disposals = w.disposals := ⟨rfl, rfl⟩
  obtain ⟨hlowered, -⟩ := htie.lower (htie.evaluate depth)
    (fun (_ : fold = true) t _ _ => t.tied_all) hsteps hw
  generalize lower (evaluate depth) table fold tree w = x at hlowered ⊢
  cases hlowered with
  | ok _ hw => exact hw.2
  | error _ hw => exact hw.2

/-! ### Records of operations -/

lemma log_attachAll (w : Store σ) (e : ExprId) (vs : List (Name × VarId)) :
    (w.attachAll e vs).2.log = w.log := by
  induction vs generalizing w with
  | nil => rfl
  | cons nv vs ih =>
    have hattach : (w.attach e nv.1 nv.2).2.log = w.log := by
      unfold attach
      split
      · rfl
      · simp only
        split <;> rfl
    unfold attachAll
    rcases h : w.attach e nv.1 nv.2 with ⟨err | _, w'⟩
    · rw [h] at hattach
      exact hattach
    · rw [h] at hattach
      exact (ih w').trans hattach

lemma log_release (w : Store σ) (e : ExprId) : (w.release e).log = w.log := by
  have hdetach (w : Store σ) (k : ℕ) (ss : List Slot) : (w.detachAll e k ss).log = w.log := by
    induction ss generalizing w k with
    | nil => rfl
    | cons a ss ih =>
      have hone : (w.detach ⟨e, k⟩ a.var).log = w.log := by
        unfold detach
        simp only
        split <;> rfl
      rw [detachAll, ih, hone]
  unfold release
  split
  · rfl
  · exact hdetach w 0 _

lemma log_attached (w : Store σ) (e : ExprId) (text : Text) (vs : List (Name × VarId)) :
    (w.attached e text vs).log = w.log :=
  log_attachAll _ e vs

lemma log_withdrawn (w : Store σ) (e : ExprId) (text : Text) (vs : List (Name × VarId))
    (err : Error) : (w.withdrawn e text vs err).log = .failed text err :: w.log :=
  congrArg (_ :: ·) ((log_release _ e).trans (w.log_attached e text vs))

/-- Closing what is not live changes nothing. -/
lemma close_of_not_live (h : ¬w.Live e) : w.close e = w := by
  unfold close
  split
  · rename_i hc
    exact absurd ⟨_, hc, rfl⟩ h
  · rfl

lemma log_close_of_live {c : Compiled σ} (hc : w.exprs.get? e = some c)
    (hp : c.program.isSome) : (w.close e).log = .disposed c.source :: w.log := by
  obtain ⟨source, program, slots, stack⟩ := c
  obtain ⟨p, rfl⟩ := Option.isSome_iff_exists.1 hp
  simp only [close, hc]
  exact congrArg (Record.disposed source :: ·) (w.log_release e)

/-- The log never shrinks. -/
lemma stable_log (l : List Record) : Stable fun (w : Store σ) _ => l <:+ w.log where
  host _ _ _ h := h
  stack _ _ _ _ h := h
  emit _ r _ h := h.trans (List.suffix_cons r _)
  update w v x _ h := by
    rcases hl : w.listener v with _ | s
    · rwa [update_of_none w hl]
    · rwa [update_of_some w hl]
  value _ _ _ h := h
  slot _ _ _ _ _ h := h

lemma suffix_update (w : Store σ) (v : VarId) (x : Float) : w.log <:+ (w.update v x).2.log :=
  (stable_log w.log).update w v x [] (List.suffix_refl _)

lemma suffix_evaluate (depth : ℕ) (e : ExprId) (w : Store σ) :
    w.log <:+ (evaluate depth e w).2.log :=
  (stable_log w.log).evaluate depth e w [] (List.suffix_refl _)

lemma suffix_close (w : Store σ) (e : ExprId) : w.log <:+ (w.close e).log := by
  by_cases hlive : w.Live e
  · obtain ⟨c, hc, hp⟩ := hlive
    rw [log_close_of_live hc hp]
    exact List.suffix_cons _ _
  · exact (close_of_not_live hlive).symm ▸ List.suffix_refl _

end Store

open Store

variable {bs : List (Binding σ)} {o : Options} {text : Text}

/-- A compilation adds to the log, and no disposals. -/
lemma log_compile (w : Store σ) (depth : ℕ) (e : ExprId) (bs : List (Binding σ)) (o : Options)
    (text : Text) : w.log <:+ (compile depth e bs o text w).2.log ∧
      (compile depth e bs o text w).2.disposals = w.disposals := by
  have hfailed (vs : List (Name × VarId)) (err : Error) :
      w.log <:+ (w.withdrawn e text vs err).log ∧
        (w.withdrawn e text vs err).disposals = w.disposals := by
    rw [disposals, log_withdrawn]
    exact ⟨List.suffix_cons _ _, List.filter_cons_of_neg (by simp [Record.isDisposal])⟩
  have hend := compilation (Target.calls (evaluate depth)) depth e bs o text w
  generalize compile depth e bs o text w = r at hend ⊢
  generalize gatherCompile _ depth e bs o text w = is at hend
  cases hend with
  | naming _ => exact ⟨List.suffix_refl _, rfl⟩
  | bound _ _ => exact hfailed _ _
  | parse _ _ _ => exact hfailed _ _
  | @done table tree p w' _ _ _ hfits _ hlower _ =>
    have hlog := w.log_attached e text table.vars
    have hsuffix := (stable_log w.log).lower ((stable_log w.log).evaluate depth) table
      o.foldConstants tree (w.attached e text table.vars) [] (hlog ▸ List.suffix_refl _)
    have hdisposals := disposals_lower depth o.foldConstants hfits (w.attached e text table.vars)
    rw [hlower] at hdisposals hsuffix
    refine ⟨hsuffix.trans (List.suffix_cons _ _), ?_⟩
    rw [install, disposals_emit _ rfl]
    exact hdisposals.trans (congrArg (List.filter _) hlog)

namespace Op

/-- The records that an operation adds to the log, the newest first. -/
def records (w : Store σ) (o : Op σ) : List Record :=
  (o.run w).log.take ((o.run w).log.length - w.log.length)

lemma suffix_run (w : Store σ) (o : Op σ) : w.log <:+ (o.run w).log := by
  cases o with
  | host h => exact List.suffix_refl _
  | newVariable v x => exact List.suffix_refl _
  | clone v => exact List.suffix_refl _
  | update v x => exact w.suffix_update v x
  | increment v => exact w.suffix_update v _
  | decrement v => exact w.suffix_update v _
  | compile depth e bs o text => exact (log_compile w depth e bs o text).1
  | validate depth e bs o text =>
    have hcompiled := (log_compile w depth e bs o text).1
    simp only [run, validateWith]
    rcases hr : Formula.compile depth e bs o text w with ⟨err | _, w'⟩
    · rwa [hr] at hcompiled
    · rw [hr] at hcompiled
      exact hcompiled.trans (w'.suffix_close e)
  | evaluate depth e => exact suffix_evaluate depth e w
  | close e => exact w.suffix_close e
  | drop e => exact w.suffix_close e

/-- The log after an operation is the log before it, with its records in front. -/
theorem log_run (w : Store σ) (o : Op σ) : (o.run w).log = o.records w ++ w.log := by
  obtain ⟨rs, hrs⟩ := suffix_run w o
  have htake : o.records w = rs := by
    rw [records, ← hrs, List.length_append, Nat.add_sub_cancel, List.take_left]
  rw [htake, hrs]

/-- The disposals among the records of an operation. -/
def disposals (w : Store σ) (o : Op σ) : List Record := (o.records w).filter Record.isDisposal

lemma disposals_of_run {o : Op σ} {rs : List Record}
    (h : (o.run w).disposals = rs ++ w.disposals) : o.disposals w = rs := by
  rw [Store.disposals, log_run, List.filter_append] at h
  exact List.append_cancel_right h

lemma disposals_compile (w : Store σ) (depth : ℕ) (e : ExprId) (bs : List (Binding σ))
    (o : Options) (text : Text) : (compile depth e bs o text).disposals w = [] :=
  disposals_of_run (log_compile w depth e bs o text).2

lemma disposals_evaluate (w : Store σ) (depth : ℕ) (e : ExprId) :
    (evaluate depth e).disposals w = [] :=
  disposals_of_run (Store.disposals_evaluate depth e w)

/-- Closing writes down what was live, and so does dropping. -/
lemma disposals_close {c : Compiled σ} (hc : w.exprs.get? e = some c) (hp : c.program.isSome) :
    (close e).disposals w = [.disposed c.source] ∧ (drop e).disposals w = [.disposed c.source] := by
  have hlog := log_close_of_live hc hp
  have hclosed : (w.close e).disposals = [.disposed c.source] ++ w.disposals := by
    rw [Store.disposals, hlog]
    rfl
  exact ⟨disposals_of_run hclosed, disposals_of_run hclosed⟩

lemma disposals_close_of_not_live (h : ¬w.Live e) :
    (close e).disposals w = [] ∧ (drop e).disposals w = [] := by
  have hclosed : (w.close e).disposals = [] ++ w.disposals := by
    rw [close_of_not_live h]
    rfl
  exact ⟨disposals_of_run hclosed, disposals_of_run hclosed⟩

end Op

end Formula
