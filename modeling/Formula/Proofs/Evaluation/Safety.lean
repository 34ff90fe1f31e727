import Formula.Proofs.Evaluation.Heights
import Formula.Proofs.Evaluation.Invocations
import Formula.Proofs.Store.Layout

/-!
What is compiled runs without a fault of its own.

A machine that finds all that its instructions need either goes on or stops at a host function
that failed. No function is called with another number of arguments than it takes, neither by the
machine nor by the host code that it runs.
-/

namespace Formula

variable {σ α : Type}

/-! ### Calls -/

/-- The function gets as many arguments as it takes. -/
def Invocation.Exact (i : Invocation σ) : Prop := i.args.length = i.target.arity

/-- One of the calls was of a host function that failed in its own words, and `err` reports them
under its name. -/
def Reports (is : List (Invocation σ)) (err : Error) : Prop :=
  ∃ i ∈ is, ∃ n f msg, i.target = .host n f ∧ i.result = .error (.evaluation n.text msg) ∧
    err = .evaluation n.text msg

/-- All calls are exact, and what fails is a host function. -/
structure Faultless (r : Except Error α) (is : List (Invocation σ)) : Prop where
  exact : ∀ i ∈ is, i.Exact
  failure : ∀ err, r = .error err → Reports is err

lemma Reports.append_right {is js : List (Invocation σ)} {err : Error} (h : Reports js err) :
    Reports (is ++ js) err := by
  obtain ⟨i, hi, hreport⟩ := h
  exact ⟨i, List.mem_append_right is hi, hreport⟩

/-- Every program leaves one value and finds its slots. -/
def Layout.Sound (l : Layout σ) : Prop := ∀ e p n, l e = some (some p, n) → p.Yields n

/-! ### Host code -/

section Nested

variable {l : Layout σ} {depth : ℕ} {w : Store σ}

/-- The evaluations that host code asks for make exact calls only. -/
abbrev NestedExact (l : Layout σ) (depth : ℕ) : Prop :=
  ∀ e w, w.layout = l → ∀ i ∈ evaluateInvocations depth e w, i.Exact

lemma Script.exact (hnested : NestedExact l depth) (s : Script σ) (hw : w.layout = l) :
    ∀ i ∈ s.invocations (Formula.evaluate depth) (evaluateInvocations depth) w, i.Exact := by
  induction s generalizing w with
  | done r => exact List.forall_mem_nil _
  | get next ih => exact ih _ hw
  | put h next ih => exact ih hw
  | value v next ih => exact ih _ hw
  | isBound v next ih => exact ih _ hw
  | update v x next ih => exact ih _ ((w.layout_update v x).trans hw)
  | evaluate e next ih =>
    exact List.forall_mem_append.2
      ⟨hnested e w hw, ih _ ((w.layout_evaluate depth e).trans hw)⟩

lemma Target.faultless (hnested : NestedExact l depth) (t : Target σ) {args : List Float}
    (harity : t.arity = args.length) (hw : w.layout = l) :
    Faultless (t.run (evaluate depth) args w).1
      (t.invocations (evaluate depth) (evaluateInvocations depth) args w) := by
  refine ⟨fun i hi => ?_, fun err herr => ?_⟩
  · rcases List.mem_cons.1 hi with rfl | hi
    · exact harity.symm
    · cases t with
      | builtin b => cases hi
      | host n f => exact Script.exact hnested (f.call args) hw i hi
  · refine ⟨_, List.mem_cons_self, ?_⟩
    cases t with
    | builtin b => cases herr
    | host n f =>
      have hresult : (Target.run (evaluate depth) (.host n f) args w).1 =
          ((f.call args).run (evaluate depth) w).1.mapError (.evaluation n.text) := rfl
      rw [hresult] at herr ⊢
      rcases hrun : ((f.call args).run (evaluate depth) w).1 with msg | x
      · rw [hrun] at herr
        cases herr
        exact ⟨n, f, msg, rfl, rfl, rfl⟩
      · rw [hrun] at herr
        cases herr

/-! ### Machines -/

namespace Machine

/-- What a step or a run comes to that does not go wrong: the layout is the same, and there are
`n` values on the stack unless a host function failed. -/
structure Safe (l : Layout σ) (n : ℕ) (out : Except Error Unit × Machine σ)
    (is : List (Invocation σ)) : Prop extends Faultless out.1 is where
  layout : out.2.store.layout = l
  height : out.1 = .ok () → out.2.stack.length = n

variable {m : Machine σ} {n : ℕ} {err : Error} {is : List (Invocation σ)}

lemma Safe.ok (his : ∀ i ∈ is, i.Exact) (hm : m.store.layout = l) (hlen : m.stack.length = n) :
    Safe l n (.ok (), m) is :=
  ⟨⟨his, fun _ herr => by cases herr⟩, hm, fun _ => hlen⟩

lemma Safe.error (his : ∀ i ∈ is, i.Exact) (herr : Reports is err) (hm : m.store.layout = l) :
    Safe l n (.error err, m) is := by
  refine ⟨⟨his, fun err' heq => ?_⟩, hm, fun hok => by cases hok⟩
  cases heq
  exact herr

lemma safe_push (hm : m.store.layout = l) {r : Except Error Float} {x : Float}
    (hr : r = .ok x) : Safe l (m.stack.length + 1) (m.push r) [] := by
  subst hr
  exact .ok (List.forall_mem_nil _) hm rfl

lemma safe_neg (hm : m.store.layout = l) (hle : 1 ≤ m.stack.length) :
    Safe l (m.stack.length - 1 + 1) m.neg [] := by
  obtain ⟨_ | ⟨a, s⟩, w⟩ := m
  · cases hle
  · exact .ok (List.forall_mem_nil _) hm rfl

lemma safe_binary (hm : m.store.layout = l) (hle : 2 ≤ m.stack.length) (o : Operator) :
    Safe l (m.stack.length - 2 + 1) (m.binary o) [] := by
  obtain ⟨_ | ⟨b, _ | ⟨a, s⟩⟩, w⟩ := m
  · cases hle
  · simp at hle
  · exact .ok (List.forall_mem_nil _) hm rfl

lemma safe_call (hnested : NestedExact l depth) (hm : m.store.layout = l) {t : Target σ}
    {argc : ℕ} (harity : t.arity = argc) (hle : argc ≤ m.stack.length) :
    Safe l (m.stack.length - argc + 1) (m.call (evaluate depth) (.ok t) argc)
      (m.atCall (Target.invocations (evaluate depth) (evaluateInvocations depth)) (.ok t)
        argc) := by
  have hlen : t.arity = (m.stack.take argc).reverse.length := by
    rw [List.length_reverse, List.length_take_of_le hle, harity]
  have hcall := Target.faultless hnested t hlen hm
  have hlayout := (m.store.layout_target depth t (m.stack.take argc).reverse).trans hm
  simp only [call, atCall, if_neg (Nat.not_lt.2 hle)]
  rcases hrun : t.run (evaluate depth) (m.stack.take argc).reverse m.store with ⟨err | x, w⟩
  · rw [hrun] at hcall hlayout
    exact .error hcall.exact (hcall.failure err rfl) hlayout
  · rw [hrun] at hlayout
    exact .ok hcall.exact hlayout (by simp)

/-- A run is safe if its steps are. -/
lemma safe_runAll {ι : Type} {pops : ι → ℕ} {valid : ι → Prop} {is : List ι}
    {step : ι → Machine σ → Except Error Unit × Machine σ}
    {observe : ι → Machine σ → List (Invocation σ)}
    (hstep : ∀ i m, valid i → pops i ≤ m.stack.length → m.store.layout = l →
      Safe l (m.stack.length - pops i + 1) (step i m) (observe i m))
    (h : Leaves pops valid is n) (hw : w.layout = l) :
    Safe l n (runAll step is.reverse ⟨[], w⟩) (gather step observe is.reverse ⟨[], w⟩) := by
  induction h with
  | nil => exact .ok (List.forall_mem_nil _) hw rfl
  | @cons i is n hi hle _ ih =>
    rw [List.reverse_cons, runAll_append, gather_append]
    rcases hrun : runAll step is.reverse ⟨[], w⟩ with ⟨err | _, m⟩
    · rw [hrun] at ih
      simp only [List.append_nil]
      exact .error ih.exact (ih.failure err rfl) ih.layout
    · rw [hrun] at ih
      have hheight : m.stack.length = n := ih.height rfl
      have hnext := hstep i m hi (hheight ▸ hle) ih.layout
      have hexact := List.forall_mem_append.2 ⟨ih.exact, hnext.exact⟩
      rw [hheight] at hnext
      simp only [runAll, gather]
      rcases hs : step i m with ⟨err | _, m'⟩
      · rw [hs] at hnext
        simp only [List.append_nil]
        exact .error hexact (hnext.failure err rfl).append_right hnext.layout
      · rw [hs] at hnext
        simp only [List.append_nil]
        exact .ok hexact hnext.layout (hnext.height rfl)

/-- The one value that is left is the result. -/
lemma Safe.finish {out : Except Error Unit × Machine σ} {is : List (Invocation σ)}
    (h : Safe l 1 out is) : Faultless (finish out).1 is := by
  rcases out with ⟨err | _, m⟩
  · refine ⟨h.exact, fun err' herr => h.failure err' ?_⟩
    obtain rfl : err = err' := Except.error.inj herr
    rfl
  · have hheight : m.stack.length = 1 := h.height rfl
    obtain ⟨x, hx⟩ := List.length_eq_one_iff.1 hheight
    refine ⟨h.exact, fun err herr => ?_⟩
    simp only [Machine.finish, result, hx] at herr
    cases herr

lemma safe_step (hnested : NestedExact l depth) {table : SymbolTable σ} {s : Step}
    (hs : s.Valid table) (hle : s.pops ≤ m.stack.length) (hm : m.store.layout = l) :
    Safe l (m.stack.length - s.pops + 1) (step (evaluate depth) table s m)
      (stepInvocations (evaluate depth) (evaluateInvocations depth) table s m) := by
  cases hs with
  | const x => exact safe_push hm rfl
  | @var k nv hk =>
    have hvalue : table.slotValue? m.store k = some (m.store.value nv.2) := by
      simp [SymbolTable.slotValue?, hk]
    exact safe_push hm (by rw [hvalue])
  | neg => exact safe_neg hm hle
  | binary o => exact safe_binary hm hle o
  | call hc harity =>
    simp only [step, stepInvocations, hc]
    exact safe_call hnested hm harity hle

lemma safe_exec (hnested : NestedExact l depth) {e : ExprId} {slots : ℕ}
    {program : Option (Program σ)} (he : l e = some (program, slots)) {i : Instr σ}
    (hi : i.Valid slots) (hle : i.pops ≤ m.stack.length) (hm : m.store.layout = l) :
    Safe l (m.stack.length - i.pops + 1) (exec (evaluate depth) e i m)
      (execInvocations (evaluate depth) (evaluateInvocations depth) i m) := by
  cases hi with
  | const x => exact safe_push hm rfl
  | @var k hk =>
    obtain ⟨c, hc, -, rfl⟩ := Store.layout_eq_some ((congrFun hm e).trans he)
    have hslot : m.store.slot? ⟨e, k⟩ = some c.slots[k] := by
      simp [Store.slot?, hc, hk]
    exact safe_push hm (m.store.slotValue_of_slot? hslot)
  | neg => exact safe_neg hm hle
  | binary o => exact safe_binary hm hle o
  | call harity => exact safe_call hnested hm harity hle

end Machine

/-! ### Trees and programs -/

/-- A tree that fits its table has a value, unless a host function fails. -/
lemma Expr.faultless (hnested : NestedExact l depth) {table : SymbolTable σ} {tree : Expr}
    (h : tree.Fits table) (hw : w.layout = l) :
    Faultless (tree.eval (evaluate depth) table w).1
      (tree.invocations (evaluate depth) (evaluateInvocations depth) table w) := by
  have hrun := Machine.safe_runAll (fun _ _ => Machine.safe_step hnested) (leaves_of_fits h) hw
  rw [List.reverse_reverse] at hrun
  rw [Expr.eval_eq, Expr.invocations_eq]
  exact hrun.finish

lemma Program.faultless (hnested : NestedExact l depth) {e : ExprId} {slots : ℕ}
    {program : Option (Program σ)} (he : l e = some (program, slots)) {p : Program σ}
    (hp : p.Yields slots) (s : List Float) (hw : w.layout = l) :
    Faultless (p.run (evaluate depth) e ⟨s, w⟩).1
      (p.invocations (evaluate depth) (evaluateInvocations depth) e ⟨s, w⟩) := by
  have hrun := Machine.safe_runAll (fun _ _ => Machine.safe_exec hnested he) hp hw
  rw [List.reverse_reverse] at hrun
  exact hrun.finish

/-! ### Folding -/

namespace Lowering

variable {table : SymbolTable σ} {fold : Bool}

/-- What is folded is called with the arguments it takes, too. -/
lemma exact_steps (hnested : NestedExact l depth) {ss : List Step}
    (hss : ∀ s ∈ ss, s.Valid table) (p : Program σ) (hw : w.layout = l) :
    ∀ i ∈ gather (evaluate depth)
        (Target.invocations (evaluate depth) (evaluateInvocations depth)) table fold ss p w,
      i.Exact := by
  induction ss generalizing p w with
  | nil => exact List.forall_mem_nil _
  | cons s ss ih =>
    have hs := hss s (by simp)
    have hlayout := (w.layout_lowerStep depth table fold s p).trans hw
    rw [gather]
    refine List.forall_mem_append.2 ⟨?_, ?_⟩
    · rcases step_cases (evaluate depth) (Target.invocations _ _) table fold s p w with
        ⟨hnone, -⟩ | ⟨c, t, xs, r, rfl, ht, -, hcall, -⟩
      · rw [hnone]
        exact List.forall_mem_nil _
      · rw [hcall]
        cases hs with
        | call hc harity =>
          cases ht.symm.trans hc
          exact (Target.faultless hnested t harity hw).exact
    · rcases hstep : step (evaluate depth) table fold s p w with ⟨err | q, w'⟩
      · exact List.forall_mem_nil _
      · rw [hstep] at hlayout
        exact ih (fun s hs => hss s (List.mem_cons_of_mem _ hs)) q hlayout

end Lowering

end Nested

section Evaluations

variable {l : Layout σ} (hsound : l.Sound) {w : Store σ}
include hsound

lemma faultless_of_layout {depth : ℕ} (hnested : NestedExact l depth) {e : ExprId}
    {p : Program σ} {n : ℕ} (he : l e = some (some p, n)) (hw : w.layout = l) :
    Faultless (evaluate (depth + 1) e w).1 (evaluateInvocations (depth + 1) e w) := by
  have hp := hsound e p n he
  obtain ⟨c, hc, hprogram, -⟩ := Store.layout_eq_some ((congrFun hw e).trans he)
  obtain ⟨source, program, slots, stack⟩ := c
  obtain rfl : program = some p := hprogram
  unfold evaluate evaluateInvocations
  simp only [hc]
  rcases stack with _ | s
  · exact Program.faultless hnested he hp [] hw
  · have hopen : (w.modifyExpr e fun c => { c with stack := none }).layout = l :=
      (w.layout_stack e none).trans hw
    exact Program.faultless hnested he hp s hopen

/-- However deep evaluations nest, all their calls are exact. -/
lemma nestedExact (depth : ℕ) : NestedExact l depth := by
  induction depth with
  | zero => exact fun _ _ _ => List.forall_mem_nil _
  | succ depth ih =>
    intro e w hw
    rcases hl : l e with _ | ⟨_ | p, n⟩
    · have hnone : w.exprs.get? e = none := Option.map_eq_none_iff.1 ((congrFun hw e).trans hl)
      simp only [evaluateInvocations, hnone]
      exact List.forall_mem_nil _
    · obtain ⟨⟨source, program, slots, stack⟩, hc, rfl, -⟩ :=
        Store.layout_eq_some ((congrFun hw e).trans hl)
      simp only [evaluateInvocations, hc]
      exact List.forall_mem_nil _
    · exact (faultless_of_layout hsound ih hl hw).exact

end Evaluations

end Formula
