import Formula.Proofs.Evaluation.Building

/-!
Folding constants does not change what a program does.

While a program is built, the code of an operand is either one constant or ends in an
instruction that is none. So a constant at the end is always a whole operand, and what replaces
it does what the code it stands for would do.
-/

namespace Formula

variable {σ : Type} {ev₀ ev : Evaluator σ} {e : ExprId} {table : SymbolTable σ}

/-! ### Programs that do the same -/

def Call.isImpure (c : Call σ) : Bool := !c.function.isPure

/-- From every machine the two programs come to the same machine with the same result, and
make the same calls of impure functions. -/
def Program.Same (ev : Evaluator σ) (e : ExprId) (p q : Program σ) : Prop :=
  ∀ m, Machine.runAll (Machine.exec ev e) p m = Machine.runAll (Machine.exec ev e) q m ∧
    (Machine.gather (Machine.exec ev e) (Machine.execCalls ev) p m).filter Call.isImpure =
      (Machine.gather (Machine.exec ev e) (Machine.execCalls ev) q m).filter Call.isImpure

namespace Program.Same

variable {p p' q q' r : Program σ}

lemma refl (p : Program σ) : Same ev e p p := fun _ => ⟨rfl, rfl⟩

lemma trans (h : Same ev e p q) (h' : Same ev e q r) : Same ev e p r :=
  fun m => ⟨(h m).1.trans (h' m).1, (h m).2.trans (h' m).2⟩

lemma append (hp : Same ev e p p') (hq : Same ev e q q') : Same ev e (p ++ q) (p' ++ q') := by
  intro m
  obtain ⟨hrun, hcalls⟩ := hp m
  rw [Machine.runAll_append, Machine.runAll_append, Machine.gather_append,
    Machine.gather_append, List.filter_append, List.filter_append, hcalls, hrun]
  rcases Machine.runAll (Machine.exec ev e) p' m with ⟨_ | _, m'⟩
  · exact ⟨rfl, rfl⟩
  · exact ⟨(hq m').1, by rw [(hq m').2]⟩

lemma neg (x : Float) : Same ev e [.const (-x)] [.const x, .neg] := fun _ => ⟨rfl, rfl⟩

lemma binary (o : Operator) (a b : Float) :
    Same ev e [.const (o.apply a b)] [.const a, .const b, .binary o] := fun _ => ⟨rfl, rfl⟩

end Program.Same

/-! ### Calls that depend on their arguments only -/

/-- The result is a function of the arguments, and nothing else changes. -/
def HostFunction.ByArguments (ev : Evaluator σ) (f : HostFunction σ)
    (g : List Float → Except String Float) : Prop :=
  ∀ args w, (f.call args).run ev w = (g args, w)

/-- Code that answers without a request depends on its arguments only. -/
lemma HostFunction.byArguments_of_done {f : HostFunction σ} {r : List Float → Except String Float}
    (h : ∀ args, f.code args = .done (r args)) :
    ∃ g, f.ByArguments ev₀ g ∧ f.ByArguments ev g := by
  have hcall (args : List Float) : ∃ r, f.call args = .done r := by
    unfold call
    split
    · exact ⟨_, h args⟩
    · exact ⟨_, rfl⟩
  obtain ⟨g, hg⟩ := Classical.skolem.1 hcall
  exact ⟨g, fun args w => by rw [hg]; rfl, fun args w => by rw [hg]; rfl⟩

/-- Every function of the table that is marked pure is a function of its arguments, whether
it runs for the compiler or for an evaluation. -/
def SymbolTable.PureByArguments (ev₀ ev : Evaluator σ) (table : SymbolTable σ) : Prop :=
  ∀ i n f, table.functionAt? i = some (n, f) → f.isPure →
    ∃ g, f.ByArguments ev₀ g ∧ f.ByArguments ev g

lemma SymbolTable.PureByArguments.target (hpure : table.PureByArguments ev₀ ev) {c : Callee}
    {t : Target σ} (hc : table.target c = .ok t) (ht : t.isPure) :
    ∃ g : List Float → Except Error Float,
      (∀ args w, t.run ev₀ args w = (g args, w)) ∧ ∀ args w, t.run ev args w = (g args, w) := by
  cases c with
  | builtin b =>
    cases hc
    exact ⟨fun args => .ok (b.call args), fun _ _ => rfl, fun _ _ => rfl⟩
  | bound i =>
    unfold SymbolTable.target at hc
    simp only at hc
    split at hc
    · rename_i n f hf
      cases hc
      obtain ⟨g, h₀, h⟩ := hpure i n f hf ht
      refine ⟨fun args => (g args).mapError (.evaluation n.text), fun args w => ?_,
        fun args w => ?_⟩
      · simp [Target.run, h₀ args w]
      · simp [Target.run, h args w]
    · cases hc

/-- Constants are pushed one after the other. -/
lemma runAll_constants (xs : List Float) (m : Machine σ) :
    Machine.runAll (Machine.exec ev e) (xs.map .const) m =
      (.ok (), ⟨xs.reverse ++ m.stack, m.store⟩) := by
  induction xs generalizing m with
  | nil => rfl
  | cons x xs ih =>
    simp only [List.map_cons, Machine.runAll, Machine.exec, Machine.push, ih]
    simp

lemma gather_constants (xs : List Float) (m : Machine σ) :
    Machine.gather (Machine.exec ev e) (Machine.execCalls ev) (xs.map .const) m = [] := by
  induction xs generalizing m with
  | nil => rfl
  | cons x xs ih =>
    simp only [List.map_cons, Machine.gather, Machine.exec, Machine.push, ih]
    rfl

lemma filter_calls_of_isPure {t : Target σ} (ht : t.isPure) (args : List Float)
    (w : Store σ) : (t.calls ev args w).filter Call.isImpure = [] := by
  cases t with
  | builtin b => rfl
  | host n f =>
    change f.isPure = true at ht
    simp [Target.calls, Call.isImpure, ht]

/-- A pure call of constants does what the constant it comes to does. -/
lemma Program.Same.call {t : Target σ} (ht : t.isPure) {xs : List Float} {x : Float}
    (hrun : ∀ w, t.run ev xs w = (.ok x, w)) :
    Same ev e [.const x] (xs.map .const ++ [.call t xs.length]) := by
  intro m
  rw [Machine.runAll_append, Machine.gather_append, runAll_constants, gather_constants]
  constructor
  · simp [Machine.runAll, Machine.exec, Machine.push, Machine.call_args, hrun]
  · simp only [Machine.gather, Machine.exec, Machine.execCalls, Machine.atCall_args,
      Machine.call_args, hrun, Machine.push, List.nil_append, List.append_nil,
      filter_calls_of_isPure ht, List.filter_nil]

/-! ### Operands -/

namespace Lowering

variable {ss us : List Step} {r s : Program σ}

/-- The code of one operand: it ends in no constant unless it is one. -/
def Whole : Program σ → Prop
  | [] => False
  | i :: r => i.constant? = none ∨ r = []

lemma Whole.cases (h : Whole r) :
    (∃ x, r = [.const x]) ∨ ∃ i s, r = i :: s ∧ i.constant? = none := by
  cases r with
  | nil => cases h
  | cons i r =>
    rcases h with h | rfl
    · exact .inr ⟨i, r, rfl, h⟩
    · cases i with
      | const x => exact .inl ⟨x, rfl⟩
      | _ => exact .inr ⟨_, [], rfl, rfl⟩

lemma eq_constants_of_mapM {l : Program σ} {xs : List Float}
    (h : l.mapM Instr.constant? = some xs) : l = xs.map .const := by
  induction l generalizing xs with
  | nil =>
    cases h
    rfl
  | cons i l ih =>
    rw [List.mapM_cons] at h
    cases i with
    | const x =>
      rcases hl : l.mapM Instr.constant? with _ | ys
      · rw [hl] at h
        cases h
      · rw [hl] at h
        cases h
        rw [ih hl, List.map_cons]
    | _ => cases h

/-- If as many instructions as there are operands are constants, so are the operands. -/
lemma eq_singletons_of_take {rs : List (Program σ)} {p : Program σ} {ys : List Float}
    (hrs : ∀ r ∈ rs, Whole r) (h : (rs.flatten ++ p).take rs.length = ys.map .const) :
    rs = ys.map fun y => [.const y] := by
  induction rs generalizing ys with
  | nil =>
    simp only [List.length_nil, List.take_zero] at h
    rw [List.map_eq_nil_iff.1 h.symm, List.map_nil]
  | cons r rs ih =>
    have hrest : ∀ r ∈ rs, Whole r := fun r hr => hrs r (List.mem_cons_of_mem _ hr)
    rcases (hrs r (by simp)).cases with ⟨x, rfl⟩ | ⟨i, s, rfl, hi⟩
    · cases ys with
      | nil => simp at h
      | cons y ys =>
        simp only [List.flatten_cons, List.cons_append, List.length_cons, List.take_succ_cons,
          List.map_cons, List.cons.injEq, Instr.const.injEq] at h
        obtain ⟨rfl, h⟩ := h
        rw [ih hrest h, List.map_cons]
    · cases ys with
      | nil => simp at h
      | cons y ys =>
        simp only [List.flatten_cons, List.cons_append, List.length_cons, List.take_succ_cons,
          List.map_cons, List.cons.injEq] at h
        rw [h.1] at hi
        cases hi

lemma flatten_singletons (ys : List Float) :
    (ys.map fun y => ([.const y] : Program σ)).flatten = ys.map .const := by
  induction ys with
  | nil => rfl
  | cons y ys ih => simp [ih]

lemma length_le_length_flatten {rs : List (Program σ)} (hrs : ∀ r ∈ rs, r ≠ []) :
    rs.length ≤ rs.flatten.length := by
  induction rs with
  | nil => simp
  | cons r rs ih =>
    have hr := List.length_pos_iff.2 (hrs r (by simp))
    have := ih fun r hr => hrs r (List.mem_cons_of_mem _ hr)
    simp only [List.length_cons, List.flatten_cons, List.length_append]
    omega

/-- What the two ways of building make of the same steps: `r` with folding, `s` without. -/
structure Built (ev₀ ev : Evaluator σ) (table : SymbolTable σ) (ss : List Step)
    (r s : Program σ) : Prop where
  folded : Adds ev₀ table true ss r
  plain : Adds ev₀ table false ss s
  same : ∀ e, Program.Same ev e r.reverse s.reverse

/-- What they make of a tree. -/
structure Folds (ev₀ ev : Evaluator σ) (table : SymbolTable σ) (ss : List Step)
    (r s : Program σ) : Prop extends Built ev₀ ev table ss r s where
  whole : Whole r
  ne_nil : s ≠ []

namespace Built

lemma append {us : List Step} {r' s' : Program σ} (h : Built ev₀ ev table ss r s)
    (h' : Built ev₀ ev table us r' s') :
    Built ev₀ ev table (ss ++ us) (r' ++ r) (s' ++ s) where
  folded := h.folded.append h'.folded
  plain := h.plain.append h'.plain
  same e := by
    rw [List.reverse_append, List.reverse_append]
    exact (h.same e).append (h'.same e)

variable {st : Step} {i : Instr σ}

/-- A last step that is not folded. -/
lemma keep (h : Built ev₀ ev table ss r s)
    (hplain : Adds ev₀ table false (ss ++ [st]) (i :: s)) (hi : i.constant? = none)
    (hstep : ∀ p w, ∃ records, step ev₀ table true st (r ++ p) w =
      (.ok (i :: (r ++ p)), { w with log := records ++ w.log })) :
    Folds ev₀ ev table (ss ++ [st]) (i :: r) (i :: s) where
  folded := h.folded.snoc fun p w => by
    obtain ⟨records, hrecords⟩ := hstep p w
    exact ⟨records, nofun, hrecords⟩
  plain := hplain
  whole := .inl hi
  ne_nil := List.cons_ne_nil _ _
  same e := by
    rw [List.reverse_cons, List.reverse_cons]
    exact (h.same e).append (.refl [i])

/-- A last step that a constant takes the place of, with all its operands. -/
lemma fold (h : Built ev₀ ev table ss r s)
    (hplain : Adds ev₀ table false (ss ++ [st]) (i :: s)) {x : Float}
    (hx : ∀ e, Program.Same ev e [.const x] (r.reverse ++ [i]))
    (hstep : ∀ p w, ∃ records, step ev₀ table true st (r ++ p) w =
      (.ok (.const x :: p), { w with log := records ++ w.log })) :
    Folds ev₀ ev table (ss ++ [st]) [.const x] (i :: s) where
  folded := h.folded.snoc fun p w => by
    obtain ⟨records, hrecords⟩ := hstep p w
    exact ⟨records, nofun, hrecords⟩
  plain := hplain
  whole := .inr rfl
  ne_nil := List.cons_ne_nil _ _
  same e := by
    have hlast : (i :: s).reverse = s.reverse ++ [i] := List.reverse_cons
    rw [hlast]
    exact (hx e).trans ((h.same e).append (.refl [i]))

end Built

namespace Folds

lemma const (x : Float) : Folds ev₀ ev table [.const x] [.const x] [.const x] where
  folded := .const x
  plain := .const x
  same _ := .refl _
  whole := .inr rfl
  ne_nil := List.cons_ne_nil _ _

lemma var (k : ℕ) : Folds ev₀ ev table [.var k] [.var k] [.var k] where
  folded := .var k
  plain := .var k
  same _ := .refl _
  whole := .inr rfl
  ne_nil := List.cons_ne_nil _ _

lemma neg (h : Folds ev₀ ev table ss r s) :
    ∃ r', Folds ev₀ ev table (ss ++ [.neg]) r' (.neg :: s) := by
  rcases h.whole.cases with ⟨x, rfl⟩ | ⟨i, r, rfl, hi⟩
  · exact ⟨_, h.fold h.plain.neg (fun _ => .neg x) fun _ _ => ⟨[], rfl⟩⟩
  · refine ⟨_, h.keep h.plain.neg rfl fun p w => ⟨[], ?_⟩⟩
    cases i with
    | const x => cases hi
    | _ => rfl

lemma binary {ss₁ ss₂ : List Step} {r₁ r₂ s₁ s₂ : Program σ} (o : Operator)
    (h₁ : Folds ev₀ ev table ss₁ r₁ s₁) (h₂ : Folds ev₀ ev table ss₂ r₂ s₂) :
    ∃ r', Folds ev₀ ev table (ss₁ ++ ss₂ ++ [.binary o]) r' (.binary o :: (s₂ ++ s₁)) := by
  have h := h₁.append h₂.toBuilt
  have hplain := h.plain.binary o
  rcases h₂.whole.cases with ⟨b, rfl⟩ | ⟨i, r₂, rfl, hi⟩
  · rcases h₁.whole.cases with ⟨a, rfl⟩ | ⟨j, r₁, rfl, hj⟩
    · exact ⟨_, h.fold hplain (fun _ => .binary o a b) fun p w =>
        ⟨[.foldedOperator o a b (o.apply a b)], rfl⟩⟩
    · refine ⟨_, h.keep hplain rfl fun p w => ⟨[], ?_⟩⟩
      cases j with
      | const x => cases hj
      | _ => rfl
  · refine ⟨_, h.keep hplain rfl fun p w => ⟨[], ?_⟩⟩
    cases i with
    | const x => cases hi
    | _ => rfl

end Folds

/-- What they make of the operands of a call, the last one first. -/
structure FoldsAll (ev₀ ev : Evaluator σ) (table : SymbolTable σ) (ss : List Step)
    (rs vs : List (Program σ)) : Prop extends Built ev₀ ev table ss rs.flatten vs.flatten where
  whole : ∀ r ∈ rs, Whole r
  ne_nil : ∀ s ∈ vs, s ≠ []
  length_eq : rs.length = vs.length

lemma FoldsAll.nil : FoldsAll ev₀ ev table [] [] [] where
  folded := .nil
  plain := .nil
  same _ := .refl _
  whole := nofun
  ne_nil := nofun
  length_eq := rfl

lemma FoldsAll.cons {us : List Step} {rs vs : List (Program σ)}
    (hs : FoldsAll ev₀ ev table us rs vs) (h : Folds ev₀ ev table ss r s) :
    FoldsAll ev₀ ev table (ss ++ us) (rs ++ [r]) (vs ++ [s]) where
  toBuilt := by simpa using h.append hs.toBuilt
  whole := by simpa [or_imp, forall_and] using ⟨hs.whole, h.whole⟩
  ne_nil := by simpa [or_imp, forall_and] using ⟨hs.ne_nil, h.ne_nil⟩
  length_eq := by simp [hs.length_eq]

lemma Whole.ne_nil (h : Whole r) : r ≠ [] := by
  rintro rfl
  cases h

lemma reverse_mapM_constants (ys : List Float) :
    ((ys.map .const : Program σ).reverse).mapM Instr.constant? = some ys.reverse := by
  rw [← List.map_reverse]
  induction ys.reverse with
  | nil => rfl
  | cons y ys ih => simp [List.mapM_cons, ih, Instr.constant?]

/-- A pure call whose operands are not all constants. -/
lemma call_of_mapM_eq_none {t : Target σ} {argc : ℕ} {p : Program σ} {w : Store σ}
    (hle : argc ≤ p.length) (h : (p.take argc).reverse.mapM Instr.constant? = none) :
    call ev₀ fold t argc p w = (.ok (.call t argc :: p), w) := by
  unfold call
  rw [if_neg (Nat.not_lt.2 hle)]
  split
  · simp only [foldCall, h]
  · rfl

/-- A pure call of constants. -/
lemma call_constants {t : Target σ} (ht : t.isPure) {ys : List Float}
    (harity : ys.length ≤ maxArity) (p : Program σ) (w : Store σ) :
    call ev₀ true t ys.length (ys.map .const ++ p) w = match t.run ev₀ ys.reverse w with
      | (.ok x, w) => (.ok (.const x :: p), w.emit (.foldedCall t.name x))
      | (.error err, w) => (.ok (.call t ys.length :: (ys.map .const ++ p)),
          w.emit (.leftCall t.name err)) := by
  have hlen : ys.length = (ys.map .const : Program σ).length := by simp
  have hle : ¬(ys.map .const ++ p : Program σ).length < ys.length := by simp
  have hroom : ¬maxArity < ys.reverse.length := by simpa using harity
  unfold call
  rw [if_neg hle, ht]
  simp only [Bool.and_true, ite_true, foldCall]
  rw [List.take_left' hlen.symm, List.drop_left' hlen.symm, reverse_mapM_constants]
  simp only [if_neg hroom]
  rcases t.run ev₀ ys.reverse w with ⟨_ | _, w'⟩ <;> rfl

/-- Not all the operands that a call finds are constants unless all its operands are. -/
lemma mapM_constant?_eq_none {rs : List (Program σ)} (hrs : ∀ r ∈ rs, Whole r)
    (hconst : ¬∃ ys : List Float, rs = ys.map fun y => [.const y]) (p : Program σ) :
    ((rs.flatten ++ p).take rs.length).reverse.mapM Instr.constant? = none := by
  rcases hm : ((rs.flatten ++ p).take rs.length).reverse.mapM Instr.constant? with _ | xs
  · rfl
  · have hxs := eq_constants_of_mapM hm
    rw [List.reverse_eq_iff, ← List.map_reverse] at hxs
    exact absurd ⟨_, eq_singletons_of_take hrs hxs⟩ hconst

lemma FoldsAll.call (hpure : table.PureByArguments ev₀ ev) {rs vs : List (Program σ)}
    (h : FoldsAll ev₀ ev table ss rs vs) {c : Callee} {t : Target σ} {n : ℕ}
    (hc : table.target c = .ok t) (harity : t.arity = n) (hn : n = vs.length) :
    ∃ r', Folds ev₀ ev table (ss ++ [.call c n]) r' (.call t n :: vs.flatten) := by
  have hlen : n = rs.length := hn.trans h.length_eq.symm
  have hle (p : Program σ) : n ≤ (rs.flatten ++ p).length := by
    have := length_le_length_flatten fun r hr => (h.whole r hr).ne_nil
    rw [List.length_append, hlen]
    omega
  have hplain : Adds ev₀ table false (ss ++ [.call c n]) (.call t n :: vs.flatten) :=
    h.plain.call hc (hn ▸ length_le_length_flatten h.ne_nil)
  have hstep (p : Program σ) (w : Store σ) :
      step ev₀ table true (.call c n) p w = Lowering.call ev₀ true t n p w := by
    simp only [step, hc]
  by_cases ht : t.isPure
  · by_cases hconst : ∃ ys : List Float, rs = ys.map fun y => [.const y]
    · obtain ⟨ys, rfl⟩ := hconst
      obtain rfl : n = ys.length := by simpa using hlen
      have hroom : ys.length ≤ maxArity := harity ▸ t.arity_le
      obtain ⟨g, hg₀, hg⟩ := hpure.target hc ht
      rcases hx : g ys.reverse with err | x
      · -- the call fails now, and will fail again
        refine ⟨_, h.keep hplain rfl fun p w => ⟨[.leftCall t.name err], ?_⟩⟩
        rw [hstep, flatten_singletons, call_constants ht hroom, hg₀, hx]
        rfl
      · refine ⟨[.const x], h.fold hplain (fun e => ?_) fun p w =>
          ⟨[.foldedCall t.name x], ?_⟩⟩
        · have hone : Program.Same ev e [.const x]
              ((ys.reverse.map .const) ++ [.call t ys.reverse.length]) :=
            .call ht fun w => by rw [hg, hx]
          rwa [List.length_reverse, List.map_reverse, ← flatten_singletons] at hone
        · rw [hstep, flatten_singletons, call_constants ht hroom, hg₀, hx]
          rfl
    · refine ⟨_, h.keep hplain rfl fun p w => ⟨[], ?_⟩⟩
      have hnone := mapM_constant?_eq_none h.whole hconst p
      rw [← hlen] at hnone
      rw [hstep]
      exact call_of_mapM_eq_none (hle p) hnone
  · refine ⟨_, h.keep hplain rfl fun p w => ⟨[], ?_⟩⟩
    rw [hstep]
    exact call_kept (hle p) (by simpa using ht)

lemma foldsAll_of_fits {as : List Expr}
    (h : ∀ a ∈ as, ∃ r s, Folds ev₀ ev table a.steps r s) :
    ∃ rs vs, FoldsAll ev₀ ev table (Expr.stepsList as) rs vs ∧ as.length = vs.length := by
  induction as with
  | nil => exact ⟨[], [], .nil, rfl⟩
  | cons a as ih =>
    obtain ⟨r, s, ha⟩ := h a (by simp)
    obtain ⟨rs, vs, has, hlen⟩ := ih fun b hb => h b (List.mem_cons_of_mem _ hb)
    refine ⟨rs ++ [r], vs ++ [s], ?_, by simp [hlen]⟩
    rw [Expr.stepsList_cons]
    exact has.cons ha

/-- Every tree that fits is built either way, and what comes out does the same. -/
lemma folds_of_fits (hpure : table.PureByArguments ev₀ ev) {tree : Expr}
    (h : tree.Fits table) : ∃ r s, Folds ev₀ ev table tree.steps r s := by
  induction h with
  | const x => exact ⟨_, _, .const x⟩
  | var _ => exact ⟨_, _, .var _⟩
  | neg _ ih =>
    obtain ⟨r, s, ha⟩ := ih
    obtain ⟨r', hr'⟩ := ha.neg
    rw [Expr.steps_neg]
    exact ⟨r', _, hr'⟩
  | binary _ _ ih₁ ih₂ =>
    obtain ⟨r₁, s₁, ha⟩ := ih₁
    obtain ⟨r₂, s₂, hb⟩ := ih₂
    obtain ⟨r', hr'⟩ := ha.binary _ hb
    rw [Expr.steps_binary]
    exact ⟨r', _, hr'⟩
  | call hc harity _ ih =>
    obtain ⟨rs, vs, has, hlen⟩ := foldsAll_of_fits ih
    obtain ⟨r', hr'⟩ := has.call hpure hc harity hlen
    rw [Expr.steps_call]
    exact ⟨r', _, hr'⟩

end Lowering

open Lowering in
/-- **Folding keeps the meaning**: with and without it a parsed text becomes a program. If
functions that are marked pure depend on their arguments only, then from every machine both
programs end in the same result and the same machine, and make the same calls of impure
functions. Folding itself leaves the store as it is but for the log. -/
theorem lower_fold {bs : List (Binding σ)} {o : Options} {text : Text} {tree : Expr}
    (hparse : parseWith bs o text = .ok (table, tree))
    (hpure : table.PureByArguments ev₀ ev) :
    ∃ p q, (∀ w, ∃ records, lower ev₀ table true tree w =
        (.ok p, { w with log := records ++ w.log })) ∧
      (∀ w, lower ev₀ table false tree w = (.ok q, w)) ∧
      ∀ e m, p.run ev e m = q.run ev e m ∧
        (p.calls ev e m).filter Call.isImpure = (q.calls ev e m).filter Call.isImpure := by
  obtain ⟨r, s, h⟩ := folds_of_fits hpure (fits_of_parseWith hparse)
  refine ⟨r.reverse, s.reverse, fun w => ?_, fun w => ?_, fun e m => ?_⟩
  · obtain ⟨records, -, hlower⟩ := h.folded.lower w
    exact ⟨records, hlower⟩
  · exact h.plain.lower_plain w
  · obtain ⟨hrun, hcalls⟩ := h.same e { m with stack := [] }
    refine ⟨?_, hcalls⟩
    unfold Program.run
    rw [hrun]

lemma pureByArguments_put (ev₀ ev : Evaluator Unit) : putTable.PureByArguments ev₀ ev := by
  intro i n f hf hpure
  match i with
  | 0 =>
    cases hf
    cases hpure
  | 1 =>
    cases hf
    exact HostFunction.byArguments_of_done fun _ => rfl
  | 2 => cases hf
  | i + 3 => cases hf

theorem lower_fold_put : ∃ tree p q,
    parseWith putBindings ⟨true, 4, 15⟩ putText = .ok (putTable, tree) ∧
    putTable.PureByArguments (evaluate 0) (evaluate 1) ∧
    (∀ w, ∃ records, lower (evaluate 0) putTable true tree w =
      (.ok p, { w with log := records ++ w.log })) ∧
    (∀ w, lower (evaluate 0) putTable false tree w = (.ok q, w)) ∧
    ∀ e m, p.run (evaluate 1) e m = q.run (evaluate 1) e m := by
  obtain ⟨tree, hparse⟩ := parseWith_put
  have hpure := pureByArguments_put (evaluate 0) (evaluate 1)
  obtain ⟨p, q, hp, hq, hsame⟩ := lower_fold hparse hpure
  exact ⟨tree, p, q, hparse, hpure, hp, hq, fun e m => (hsame e m).1⟩

end Formula
