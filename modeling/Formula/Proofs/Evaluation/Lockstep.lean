import Formula.Proofs.Evaluation.Invocations
import Mathlib.Data.List.Forall2

/-!
Two runs side by side.

Host code runs on two stores at once, with host states that are the same to it. If it keeps to
what it may touch, every step comes to the same on both. A relation between stores that the
smallest steps keep is then kept by everything that runs: both runs have the same results, make the
same calls, and the programs that are lowered differ at most in the numbers of their slots.
-/

namespace Formula

variable {σ : Type}

/-- What host code may touch, and which states of the host are the same to it. -/
structure Rights (σ : Type) where
  host : σ → σ → Prop
  vars : VarId → Prop
  evals : ExprId → Prop

/-- Two scripts keep to their rights, and do the same as long as they are answered the same. -/
inductive Script.Tied (r : Rights σ) : Script σ → Script σ → Prop
  | done (x : Except String Float) : Tied r (.done x) (.done x)
  | get {next next' : σ → Script σ} : (∀ h h', r.host h h' → Tied r (next h) (next' h')) →
      Tied r (.get next) (.get next')
  | put {h h' : σ} {next next' : Script σ} : r.host h h' → Tied r next next' →
      Tied r (.put h next) (.put h' next')
  | value {v : VarId} {next next' : Float → Script σ} : r.vars v →
      (∀ x, Tied r (next x) (next' x)) → Tied r (.value v next) (.value v next')
  | isBound {v : VarId} {next next' : Bool → Script σ} : r.vars v →
      (∀ b, Tied r (next b) (next' b)) → Tied r (.isBound v next) (.isBound v next')
  | update {v : VarId} {x : Float} {next next' : Except Error Unit → Script σ} : r.vars v →
      (∀ a, Tied r (next a) (next' a)) → Tied r (.update v x next) (.update v x next')
  | evaluate {e : ExprId} {next next' : Except Error Float → Script σ} : r.evals e →
      (∀ a, Tied r (next a) (next' a)) → Tied r (.evaluate e next) (.evaluate e next')

/-- The function keeps to its rights. -/
def Target.Tied (r : Rights σ) : Target σ → Prop
  | .builtin _ => True
  | .host _ f => ∀ args, (f.code args).Tied r (f.code args)

/-- The same instruction, but for the number of a slot. Calls are of functions with `P`. -/
inductive Instr.Like (P : Target σ → Prop) (slots : ℕ → ℕ → Prop) : Instr σ → Instr σ → Prop
  | const (x : Float) : Like P slots (.const x) (.const x)
  | var {k k' : ℕ} : slots k k' → Like P slots (.var k) (.var k')
  | neg : Like P slots .neg .neg
  | binary (o : Operator) : Like P slots (.binary o) (.binary o)
  | call {t : Target σ} (argc : ℕ) : P t → Like P slots (.call t argc) (.call t argc)

abbrev Program.Like (P : Target σ → Prop) (slots : ℕ → ℕ → Prop) :
    Program σ → Program σ → Prop :=
  List.Forall₂ (Instr.Like P slots)

/-- Two expressions that run alike. What is on a stack is thrown away by a run. -/
structure Compiled.Like (P : Target σ → Prop) (slots : ℕ → ℕ → Prop) (c c' : Compiled σ) :
    Prop where
  program : Option.Rel (Program.Like P slots) c.program c'.program
  stack : c.stack.isSome = c'.stack.isSome

/-- The steps that host code, programs and folding are made of keep the relation `R`, if they are
within the rights `r`. Programs of an expression may number its slots in two ways. -/
structure Tie (r : Rights σ) (slots : ExprId → ℕ → ℕ → Prop) (R : Store σ → Store σ → Prop) :
    Prop where
  host : ∀ {w w'}, R w w' → r.host w.host w'.host
  put : ∀ {w w' h h'}, R w w' → r.host h h' → R { w with host := h } { w' with host := h' }
  value : ∀ {w w' v}, R w w' → r.vars v → w.value v = w'.value v
  isBound : ∀ {w w' v}, R w w' → r.vars v → w.isBound v = w'.isBound v
  update : ∀ {w w' v} x, R w w' → r.vars v →
    (w.update v x).1 = (w'.update v x).1 ∧ R (w.update v x).2 (w'.update v x).2
  stack : ∀ {w w' e} s, R w w' → r.evals e →
    R (w.modifyExpr e fun c => { c with stack := s })
      (w'.modifyExpr e fun c => { c with stack := s })
  entry : ∀ {w w' e}, R w w' → r.evals e →
    Option.Rel (Compiled.Like (Target.Tied r) (slots e)) (w.exprs.get? e) (w'.exprs.get? e)
  slot : ∀ {w w' e k k'}, R w w' → r.evals e → slots e k k' → w.slotValue e k = w'.slotValue e k'
  emit : ∀ {w w'} record, R w w' → record.level = .trace → R (w.emit record) (w'.emit record)

/-- The same answer, and stores that are related. -/
def Ends {α : Type} (R : Store σ → Store σ → Prop) (x x' : α × Store σ) : Prop :=
  x.1 = x'.1 ∧ R x.2 x'.2

/-- The same answer, the same stack, and stores that are related. -/
def Machine.Ends {α : Type} (R : Store σ → Store σ → Prop) (x x' : α × Machine σ) : Prop :=
  x.1 = x'.1 ∧ x.2.stack = x'.2.stack ∧ R x.2.store x'.2.store

lemma Ends.cases {ε α : Type} {R : Store σ → Store σ → Prop} {x x' : Except ε α × Store σ}
    (h : Ends R x x') :
    (∃ err w w', x = (.error err, w) ∧ x' = (.error err, w') ∧ R w w') ∨
    ∃ a w w', x = (.ok a, w) ∧ x' = (.ok a, w') ∧ R w w' := by
  obtain ⟨r, w⟩ := x
  obtain ⟨r', w'⟩ := x'
  obtain ⟨rfl, hw⟩ := h
  cases r with
  | error err => exact .inl ⟨err, w, w', rfl, rfl, hw⟩
  | ok a => exact .inr ⟨a, w, w', rfl, rfl, hw⟩

lemma Machine.Ends.cases {ε α : Type} {R : Store σ → Store σ → Prop}
    {x x' : Except ε α × Machine σ} (h : Machine.Ends R x x') :
    (∃ err s w w', x = (.error err, ⟨s, w⟩) ∧ x' = (.error err, ⟨s, w'⟩) ∧ R w w') ∨
    ∃ a s w w', x = (.ok a, ⟨s, w⟩) ∧ x' = (.ok a, ⟨s, w'⟩) ∧ R w w' := by
  obtain ⟨r, s, w⟩ := x
  obtain ⟨r', s', w'⟩ := x'
  obtain ⟨rfl, rfl, hw⟩ := h
  cases r with
  | error err => exact .inl ⟨err, _, w, w', rfl, rfl, hw⟩
  | ok a => exact .inr ⟨a, _, w, w', rfl, rfl, hw⟩

/-- Evaluations on behalf of scripts stay in step. -/
def Evaluator.InStep (r : Rights σ) (R : Store σ → Store σ → Prop) (ev : Evaluator σ)
    (inv : Recorder σ) : Prop :=
  ∀ e w w', r.evals e → R w w' → Ends R (ev e w) (ev e w') ∧ inv e w = inv e w'

namespace Tie

variable {r : Rights σ} {slots : ExprId → ℕ → ℕ → Prop} {R : Store σ → Store σ → Prop}
  {ev : Evaluator σ} {inv : Recorder σ} {w w' : Store σ} {e : ExprId} {P : Target σ → Prop}

lemma script (hR : Tie r slots R) (hev : ev.InStep r R inv) {s s' : Script σ} (hs : s.Tied r s')
    (hw : R w w') : Ends R (s.run ev w) (s'.run ev w') ∧
      s.invocations ev inv w = s'.invocations ev inv w' := by
  induction hs generalizing w w' with
  | done x => exact ⟨⟨rfl, hw⟩, rfl⟩
  | get _ ih => exact ih _ _ (hR.host hw) hw
  | put hh _ ih => exact ih (hR.put hw hh)
  | @value v next next' hv _ ih =>
    have hvalue := hR.value hw hv
    simp only [Script.run, Script.invocations, hvalue]
    exact ih _ hw
  | @isBound v next next' hv _ ih =>
    have hbound := hR.isBound hw hv
    simp only [Script.run, Script.invocations, hbound]
    exact ih _ hw
  | @update v x next next' hv _ ih =>
    obtain ⟨hanswer, hstore⟩ := hR.update x hw hv
    simp only [Script.run, Script.invocations, hanswer]
    exact ih _ hstore
  | @evaluate e next next' he _ ih =>
    obtain ⟨⟨hanswer, hstore⟩, hcalls⟩ := hev e _ _ he hw
    obtain ⟨hends, hrest⟩ := ih (ev e w').1 hstore
    simp only [Script.run, Script.invocations, hanswer, hcalls]
    exact ⟨hends, congrArg _ hrest⟩

lemma target (hR : Tie r slots R) (hev : ev.InStep r R inv) {t : Target σ} (ht : t.Tied r)
    (args : List Float) (hw : R w w') : Ends R (t.run ev args w) (t.run ev args w') ∧
      t.invocations ev inv args w = t.invocations ev inv args w' := by
  cases t with
  | builtin b => exact ⟨⟨rfl, hw⟩, rfl⟩
  | host n f =>
    have hcall : (f.call args).Tied r (f.call args) := by
      unfold HostFunction.call
      split
      · exact ht args
      · exact .done _
    obtain ⟨⟨hanswer, hstore⟩, hcalls⟩ := hR.script hev hcall hw
    refine ⟨⟨congrArg (Except.mapError _) hanswer, hstore⟩, ?_⟩
    simp only [Target.invocations, Target.run, hcalls, hanswer]

/-! ### Programs -/

lemma exec (hR : Tie r slots R) (hev : ev.InStep r R inv) (he : r.evals e) {i i' : Instr σ}
    (hi : Instr.Like (Target.Tied r) (slots e) i i') (s : List Float) (hw : R w w') :
    Machine.Ends R (Machine.exec ev e i ⟨s, w⟩) (Machine.exec ev e i' ⟨s, w'⟩) ∧
      Machine.execInvocations ev inv i ⟨s, w⟩ = Machine.execInvocations ev inv i' ⟨s, w'⟩ := by
  cases hi with
  | const x => exact ⟨⟨rfl, rfl, hw⟩, rfl⟩
  | var hk =>
    refine ⟨?_, rfl⟩
    simp only [Machine.exec, hR.slot hw he hk]
    rcases w'.slotValue e _ with err | x
    · exact ⟨rfl, rfl, hw⟩
    · exact ⟨rfl, rfl, hw⟩
  | neg =>
    refine ⟨?_, rfl⟩
    rcases s with _ | ⟨a, s⟩
    · exact ⟨rfl, rfl, hw⟩
    · exact ⟨rfl, rfl, hw⟩
  | binary o =>
    refine ⟨?_, rfl⟩
    rcases s with _ | ⟨b, _ | ⟨a, s⟩⟩
    · exact ⟨rfl, rfl, hw⟩
    · exact ⟨rfl, rfl, hw⟩
    · exact ⟨rfl, rfl, hw⟩
  | @call t argc ht =>
    simp only [Machine.exec, Machine.execInvocations, Machine.call, Machine.atCall]
    by_cases hlen : s.length < argc
    · simp only [if_pos hlen]
      exact ⟨⟨rfl, rfl, hw⟩, trivial⟩
    · obtain ⟨hends, hcalls⟩ := hR.target hev ht (s.take argc).reverse hw
      simp only [if_neg hlen]
      refine ⟨?_, hcalls⟩
      rcases hends.cases with ⟨err, w₁, w₁', hx, hx', h₁⟩ | ⟨x, w₁, w₁', hx, hx', h₁⟩
      · rw [hx, hx']
        exact ⟨rfl, rfl, h₁⟩
      · rw [hx, hx']
        exact ⟨rfl, rfl, h₁⟩

lemma runAll (hR : Tie r slots R) (hev : ev.InStep r R inv) (he : r.evals e) {p p' : Program σ}
    (hp : Program.Like (Target.Tied r) (slots e) p p') (s : List Float) (hw : R w w') :
    Machine.Ends R (Machine.runAll (Machine.exec ev e) p ⟨s, w⟩)
        (Machine.runAll (Machine.exec ev e) p' ⟨s, w'⟩) ∧
      Machine.gather (Machine.exec ev e) (Machine.execInvocations ev inv) p ⟨s, w⟩ =
        Machine.gather (Machine.exec ev e) (Machine.execInvocations ev inv) p' ⟨s, w'⟩ := by
  induction hp generalizing s w w' with
  | nil => exact ⟨⟨rfl, rfl, hw⟩, rfl⟩
  | @cons i i' p p' hi _ ih =>
    obtain ⟨hends, hcalls⟩ := hR.exec hev he hi s hw
    simp only [Machine.runAll, Machine.gather, hcalls]
    rcases hends.cases with ⟨err, s₁, w₁, w₁', hx, hx', h₁⟩ | ⟨_, s₁, w₁, w₁', hx, hx', h₁⟩
    · rw [hx, hx']
      exact ⟨⟨rfl, rfl, h₁⟩, rfl⟩
    · rw [hx, hx']
      obtain ⟨hends, hrest⟩ := ih s₁ h₁
      exact ⟨hends, congrArg _ hrest⟩

lemma program (hR : Tie r slots R) (hev : ev.InStep r R inv) (he : r.evals e) {p p' : Program σ}
    (hp : Program.Like (Target.Tied r) (slots e) p p') (s s' : List Float) (hw : R w w') :
    Machine.Ends R (p.run ev e ⟨s, w⟩) (p'.run ev e ⟨s', w'⟩) ∧
      p.invocations ev inv e ⟨s, w⟩ = p'.invocations ev inv e ⟨s', w'⟩ := by
  obtain ⟨hends, hcalls⟩ := hR.runAll hev he hp [] hw
  refine ⟨?_, hcalls⟩
  unfold Program.run
  rcases hends.cases with ⟨err, s₁, w₁, w₁', hx, hx', h₁⟩ | ⟨_, s₁, w₁, w₁', hx, hx', h₁⟩
  · simp only [hx, hx']
    exact ⟨rfl, rfl, h₁⟩
  · simp only [hx, hx']
    exact ⟨rfl, rfl, h₁⟩

/-- **Evaluations stay in step**, however deep they nest. -/
theorem evaluate (hR : Tie r slots R) (depth : ℕ) :
    (Formula.evaluate depth).InStep r R (evaluateInvocations depth) := by
  induction depth with
  | zero => exact fun _ _ _ _ hw => ⟨⟨rfl, hw⟩, rfl⟩
  | succ depth ih =>
    intro e w w' he hw
    have hentry := hR.entry hw he
    unfold Formula.evaluate evaluateInvocations
    generalize w.exprs.get? e = c at hentry ⊢
    generalize w'.exprs.get? e = c' at hentry ⊢
    cases hentry with
    | none => exact ⟨⟨rfl, hw⟩, rfl⟩
    | @some c c' hc =>
      obtain ⟨source, program, cells, stack⟩ := c
      obtain ⟨source', program', cells', stack'⟩ := c'
      obtain ⟨hprogram, hstack⟩ := hc
      simp only at hprogram hstack ⊢
      cases hprogram with
      | none => exact ⟨⟨rfl, hw⟩, rfl⟩
      | @some p p' hp =>
        rcases stack with _ | stack
        · rcases stack' with _ | stack'
          · obtain ⟨⟨hanswer, -, hstore⟩, hcalls⟩ := hR.program ih he hp [] [] hw
            exact ⟨⟨hanswer, hstore⟩, hcalls⟩
          · cases hstack
        · rcases stack' with _ | stack'
          · cases hstack
          · obtain ⟨⟨hanswer, hstack, hstore⟩, hcalls⟩ :=
              hR.program ih he hp stack stack' (hR.stack none hw he)
            refine ⟨⟨hanswer, ?_⟩, hcalls⟩
            simp only [hstack]
            exact hR.stack _ hstore he

end Tie

/-! ### Lowering -/

/-- The same step, but for the numbers of slots and functions: where it is a call both tables have
the same function, with `P`. -/
inductive Step.Like (P : Target σ → Prop) (slots : ℕ → ℕ → Prop) (table table' : SymbolTable σ) :
    Step → Step → Prop
  | const (x : Float) : Like P slots table table' (.const x) (.const x)
  | var {k k' : ℕ} : slots k k' → Like P slots table table' (.var k) (.var k')
  | neg : Like P slots table table' .neg .neg
  | binary (o : Operator) : Like P slots table table' (.binary o) (.binary o)
  | call {c c' : Callee} {t : Target σ} (argc : ℕ) : table.target c = .ok t →
      table'.target c' = .ok t → P t → Like P slots table table' (.call c argc) (.call c' argc)

/-- Programs that differ at most in the numbers of their slots, or the same error. -/
inductive Lowered (P : Target σ → Prop) (slots : ℕ → ℕ → Prop) (R : Store σ → Store σ → Prop) :
    Except Error (Program σ) × Store σ → Except Error (Program σ) × Store σ → Prop
  | ok {p p' : Program σ} {w w' : Store σ} : Program.Like P slots p p' → R w w' →
      Lowered P slots R (.ok p, w) (.ok p', w')
  | error (err : Error) {w w' : Store σ} : R w w' →
      Lowered P slots R (.error err, w) (.error err, w')

section Lower

variable {P : Target σ → Prop} {vars : ℕ → ℕ → Prop} {p p' : Program σ}

lemma Program.Like.constants (h : Program.Like P vars p p') :
    p.mapM Instr.constant? = p'.mapM Instr.constant? := by
  induction h with
  | nil => rfl
  | @cons i i' p p' hi _ ih =>
    have hconst : i.constant? = i'.constant? := by cases hi <;> rfl
    rw [List.mapM_cons, List.mapM_cons, hconst, ih]

lemma Program.Like.mono {Q : Target σ → Prop} (hQ : ∀ t, P t → Q t)
    (h : Program.Like P vars p p') : Program.Like Q vars p p' := by
  refine h.imp fun i i' hi => ?_
  cases hi with
  | const x => exact .const x
  | var hk => exact .var hk
  | neg => exact .neg
  | binary o => exact .binary o
  | call argc ht => exact .call argc (hQ _ ht)

lemma Program.Like.calls (h : Program.Like P vars p p') :
    ∀ t argc, .call t argc ∈ p → P t := by
  induction h with
  | nil => exact nofun
  | cons hi _ ih =>
    intro t argc hmem
    rcases List.mem_cons.1 hmem with rfl | hmem
    · cases hi with
      | call _ ht => exact ht
    · exact ih t argc hmem

lemma Program.Like.eq (h : Program.Like P Eq p p') : p = p' := by
  refine List.forall₂_eq_eq_eq ▸ h.imp fun i i' hi => ?_
  cases hi with
  | var hk => rw [hk]
  | _ => rfl

namespace Tie

variable {r : Rights σ} {slots : ExprId → ℕ → ℕ → Prop} {R : Store σ → Store σ → Prop}
  {ev : Evaluator σ} {inv : Recorder σ} {w w' : Store σ} {fold : Bool}
  {table table' : SymbolTable σ}

/-- What is folded is run on both stores. -/
lemma lowerCall (hR : Tie r slots R) (hev : ev.InStep r R inv) {t : Target σ} (ht : P t)
    (hfold : fold = true → t.isPure = true → t.Tied r) (argc : ℕ)
    (hp : Program.Like P vars p p') (hw : R w w') :
    Lowered P vars R (Lowering.call ev fold t argc p w) (Lowering.call ev fold t argc p' w') ∧
      Lowering.atCall (Target.invocations ev inv) fold t argc p w =
        Lowering.atCall (Target.invocations ev inv) fold t argc p' w' := by
  have hargs : (p.take argc).reverse.mapM Instr.constant? =
      (p'.take argc).reverse.mapM Instr.constant? :=
    Program.Like.constants (List.rel_reverse (List.forall₂_take argc hp))
  unfold Lowering.call Lowering.atCall Lowering.foldCall
  rw [hp.length_eq, hargs]
  by_cases hlen : p'.length < argc
  · simp only [if_pos hlen]
    exact ⟨.error _ hw, trivial⟩
  · simp only [if_neg hlen]
    by_cases hpure : fold && t.isPure
    · simp only [if_pos hpure]
      obtain ⟨hf, hpure⟩ := Bool.and_eq_true_iff.1 hpure
      rcases (p'.take argc).reverse.mapM Instr.constant? with _ | xs
      · exact ⟨.ok (.cons (.call argc ht) hp) hw, rfl⟩
      · by_cases hroom : maxArity < xs.length
        · simp only [if_pos hroom]
          exact ⟨.error _ hw, trivial⟩
        · obtain ⟨hends, hcalls⟩ := hR.target hev (hfold hf hpure) xs hw
          simp only [if_neg hroom]
          refine ⟨?_, hcalls⟩
          rcases hends.cases with ⟨err, w₁, w₁', hx, hx', h₁⟩ | ⟨x, w₁, w₁', hx, hx', h₁⟩
          · rw [hx, hx']
            exact .ok (.cons (.call argc ht) hp) (hR.emit _ h₁ rfl)
          · rw [hx, hx']
            exact .ok (.cons (.const x) (List.forall₂_drop argc hp)) (hR.emit _ h₁ rfl)
    · simp only [if_neg hpure]
      exact ⟨.ok (.cons (.call argc ht) hp) hw, trivial⟩

lemma lowerStep (hR : Tie r slots R) (hev : ev.InStep r R inv)
    (hfold : fold = true → ∀ t, P t → t.isPure = true → t.Tied r) {s s' : Step}
    (hs : Step.Like P vars table table' s s') (hp : Program.Like P vars p p') (hw : R w w') :
    Lowered P vars R (Lowering.step ev table fold s p w)
        (Lowering.step ev table' fold s' p' w') ∧
      Lowering.atStep (Target.invocations ev inv) table fold s p w =
        Lowering.atStep (Target.invocations ev inv) table' fold s' p' w' := by
  cases hs with
  | const x => exact ⟨.ok (.cons (.const x) hp) hw, rfl⟩
  | var hk => exact ⟨.ok (.cons (.var hk) hp) hw, rfl⟩
  | neg =>
    refine ⟨?_, rfl⟩
    have hkeep : Program.Like P vars (.neg :: p) (.neg :: p') := .cons .neg hp
    cases fold with
    | false => exact .ok hkeep hw
    | true =>
      cases hp with
      | nil => exact .ok hkeep hw
      | cons hi hp =>
        cases hi with
        | const x => exact .ok (.cons (.const _) hp) hw
        | _ => exact .ok hkeep hw
  | binary o =>
    refine ⟨?_, rfl⟩
    have hkeep : Program.Like P vars (.binary o :: p) (.binary o :: p') := .cons (.binary o) hp
    cases fold with
    | false => exact .ok hkeep hw
    | true =>
      cases hp with
      | nil => exact .ok hkeep hw
      | cons hb hp =>
        cases hb with
        | const b =>
          cases hp with
          | nil => exact .ok hkeep hw
          | cons ha hp =>
            cases ha with
            | const a => exact .ok (.cons (.const _) hp) (hR.emit _ hw rfl)
            | _ => exact .ok hkeep hw
        | _ => exact .ok hkeep hw
  | @call c c' t argc hc hc' ht =>
    simp only [Lowering.step, Lowering.atStep, hc, hc']
    exact hR.lowerCall hev ht (fun hf => hfold hf t ht) argc hp hw

lemma lowerSteps (hR : Tie r slots R) (hev : ev.InStep r R inv)
    (hfold : fold = true → ∀ t, P t → t.isPure = true → t.Tied r) {ss ss' : List Step}
    (hs : List.Forall₂ (Step.Like P vars table table') ss ss') (hp : Program.Like P vars p p')
    (hw : R w w') :
    Lowered P vars R (Lowering.steps ev table fold ss p w)
        (Lowering.steps ev table' fold ss' p' w') ∧
      Lowering.gather ev (Target.invocations ev inv) table fold ss p w =
        Lowering.gather ev (Target.invocations ev inv) table' fold ss' p' w' := by
  induction hs generalizing p p' w w' with
  | nil => exact ⟨.ok hp hw, rfl⟩
  | @cons s s' ss ss' hs _ ih =>
    obtain ⟨hstep, hcalls⟩ := hR.lowerStep hev hfold hs hp hw
    simp only [Lowering.steps, Lowering.gather, hcalls]
    generalize Lowering.step ev table fold s p w = x at hstep ⊢
    generalize Lowering.step ev table' fold s' p' w' = x' at hstep ⊢
    cases hstep with
    | error err hw => exact ⟨.error err hw, rfl⟩
    | ok hp hw =>
      obtain ⟨hends, hrest⟩ := ih hp hw
      exact ⟨hends, congrArg _ hrest⟩

/-- **Trees are lowered in step.** -/
theorem lower (hR : Tie r slots R) (hev : ev.InStep r R inv)
    (hfold : fold = true → ∀ t, P t → t.isPure = true → t.Tied r) {tree tree' : Expr}
    (ht : List.Forall₂ (Step.Like P vars table table') tree.steps tree'.steps) (hw : R w w') :
    Lowered P vars R (Formula.lower ev table fold tree w) (Formula.lower ev table' fold tree' w') ∧
      Lowering.gather ev (Target.invocations ev inv) table fold tree.steps [] w =
        Lowering.gather ev (Target.invocations ev inv) table' fold tree'.steps [] w' := by
  obtain ⟨hlowered, hcalls⟩ := hR.lowerSteps hev hfold ht .nil hw
  refine ⟨?_, hcalls⟩
  rw [lower_eq, lower_eq]
  generalize Lowering.steps ev table fold tree.steps [] w = x at hlowered ⊢
  generalize Lowering.steps ev table' fold tree'.steps [] w' = x' at hlowered ⊢
  cases hlowered with
  | ok hp hw => exact .ok (List.rel_reverse hp) hw
  | error err hw => exact .error err hw

end Tie

end Lower

/-! ### Host code that spares variables -/

/-- The script touches no variable with `P`, whatever it is answered: it does not read it, ask
whether it is bound, or set it. -/
def Script.Spares (P : VarId → Prop) : Script σ → Prop
  | done _ => True
  | get next => ∀ h, (next h).Spares P
  | put _ next => next.Spares P
  | value v next => ¬P v ∧ ∀ x, (next x).Spares P
  | isBound v next => ¬P v ∧ ∀ b, (next b).Spares P
  | update v _ next => ¬P v ∧ ∀ a, (next a).Spares P
  | evaluate _ next => ∀ a, (next a).Spares P

def HostFunction.Spares (P : VarId → Prop) (f : HostFunction σ) : Prop :=
  ∀ args, (f.code args).Spares P

/-- All rights but to touch a variable with `P`. -/
def Rights.sparing (P : VarId → Prop) : Rights σ where
  host := Eq
  vars v := ¬P v
  evals _ := True

lemma Script.Spares.tied {P : VarId → Prop} {s : Script σ} (h : s.Spares P) :
    s.Tied (.sparing P) s := by
  induction s with
  | done x => exact .done x
  | get next ih =>
    refine .get fun a a' ha => ?_
    obtain rfl : a = a' := ha
    exact ih a (h a)
  | put a next ih => exact .put rfl (ih h)
  | value v next ih => exact .value h.1 fun x => ih x (h.2 x)
  | isBound v next ih => exact .isBound h.1 fun b => ih b (h.2 b)
  | update v x next ih => exact .update h.1 fun a => ih a (h.2 a)
  | evaluate e next ih => exact .evaluate trivial fun a => ih a (h a)

end Formula
