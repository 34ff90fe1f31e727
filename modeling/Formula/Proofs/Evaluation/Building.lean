import Formula.Proofs.Evaluation.Pending
import Formula.Proofs.Fits
import Mathlib.Data.List.Forall2

/-!
Building a program, one step after the other.

Every tree that fits its table is built. Without folding each step becomes the instruction that
does the same.
-/

namespace Formula

namespace Lowering

variable {σ : Type} {ev₀ : Evaluator σ} {table : SymbolTable σ} {fold : Bool}
  {ss us : List Step} {r s : Program σ} {tree : Expr}

lemma steps_append (ss us : List Step) (p : Program σ) (w : Store σ) :
    steps ev₀ table fold (ss ++ us) p w = match steps ev₀ table fold ss p w with
      | (.ok p, w) => steps ev₀ table fold us p w
      | (.error err, w) => (.error err, w) := by
  induction ss generalizing p w with
  | nil => rfl
  | cons s ss ih =>
    simp only [List.cons_append, steps]
    rcases step ev₀ table fold s p w with ⟨_ | p', w'⟩
    · rfl
    · exact ih p' w'

/-- The steps add the code `r`, last instruction first, whatever is there. The store stays but
for the log, which only folding writes. -/
def Adds (ev₀ : Evaluator σ) (table : SymbolTable σ) (fold : Bool) (ss : List Step)
    (r : Program σ) : Prop :=
  ∀ p w, ∃ records, (fold = false → records = []) ∧
    steps ev₀ table fold ss p w = (.ok (r ++ p), { w with log := records ++ w.log })

namespace Adds

lemma nil : Adds ev₀ table fold [] [] := fun _ _ => ⟨[], fun _ => rfl, rfl⟩

lemma const (x : Float) : Adds ev₀ table fold [.const x] [.const x] :=
  fun _ _ => ⟨[], fun _ => rfl, rfl⟩

lemma var (k : ℕ) : Adds ev₀ table fold [.var k] [.var k] := fun _ _ => ⟨[], fun _ => rfl, rfl⟩

lemma append (h : Adds ev₀ table fold ss r) (h' : Adds ev₀ table fold us s) :
    Adds ev₀ table fold (ss ++ us) (s ++ r) := by
  intro p w
  obtain ⟨l, hl, h⟩ := h p w
  obtain ⟨l', hl', h'⟩ := h' (r ++ p) { w with log := l ++ w.log }
  refine ⟨l' ++ l, fun hf => by simp [hl hf, hl' hf], ?_⟩
  rw [steps_append, h]
  simp only
  rw [h']
  simp

/-- A last step that sees the code of its operands. -/
lemma snoc (h : Adds ev₀ table fold ss r) {st : Step}
    (hst : ∀ p w, ∃ records, (fold = false → records = []) ∧
      step ev₀ table fold st (r ++ p) w = (.ok (s ++ p), { w with log := records ++ w.log })) :
    Adds ev₀ table fold (ss ++ [st]) s := by
  intro p w
  obtain ⟨l, hl, h⟩ := h p w
  obtain ⟨l', hl', h'⟩ := hst p { w with log := l ++ w.log }
  refine ⟨l' ++ l, fun hf => by simp [hl hf, hl' hf], ?_⟩
  rw [steps_append, h]
  simp only [steps]
  rw [h']
  simp

lemma neg (h : Adds ev₀ table false ss r) : Adds ev₀ table false (ss ++ [.neg]) (.neg :: r) :=
  h.snoc fun _ _ => ⟨[], fun _ => rfl, rfl⟩

lemma binary (h : Adds ev₀ table false ss r) (o : Operator) :
    Adds ev₀ table false (ss ++ [.binary o]) (.binary o :: r) :=
  h.snoc fun _ _ => ⟨[], fun _ => rfl, rfl⟩

end Adds

/-- A call that is not folded. -/
lemma call_kept {t : Target σ} {argc : ℕ} {p : Program σ} {w : Store σ}
    (hle : argc ≤ p.length) (h : (fold && t.isPure) = false) :
    call ev₀ fold t argc p w = (.ok (.call t argc :: p), w) := by
  unfold call
  rw [if_neg (Nat.not_lt.2 hle), h]
  rfl

lemma Adds.call (h : Adds ev₀ table false ss r) {c : Callee} {t : Target σ} {n : ℕ}
    (hc : table.target c = .ok t) (hn : n ≤ r.length) :
    Adds ev₀ table false (ss ++ [.call c n]) (.call t n :: r) := by
  refine h.snoc fun p w => ⟨[], fun _ => rfl, ?_⟩
  have hle : n ≤ (r ++ p).length := by
    rw [List.length_append]
    omega
  simp only [step, hc]
  exact call_kept hle rfl

lemma Adds.lower (h : Adds ev₀ table fold tree.steps r) (w : Store σ) :
    ∃ records, (fold = false → records = []) ∧
      lower ev₀ table fold tree w = (.ok r.reverse, { w with log := records ++ w.log }) := by
  obtain ⟨records, hrecords, hsteps⟩ := h [] w
  refine ⟨records, hrecords, ?_⟩
  rw [lower_eq, hsteps, List.append_nil]
  rfl

/-- Without folding nothing else changes. -/
lemma Adds.lower_plain (h : Adds ev₀ table false tree.steps r) (w : Store σ) :
    Formula.lower ev₀ table false tree w = (.ok r.reverse, w) := by
  obtain ⟨records, hnil, hlower⟩ := h.lower w
  rw [hlower, hnil rfl]
  rfl

/-! ### One instruction for each step -/

/-- The instruction that does what the step does. -/
inductive Codes (table : SymbolTable σ) : Step → Instr σ → Prop
  | const (x : Float) : Codes table (.const x) (.const x)
  | var {k : ℕ} {nv : Name × VarId} : table.vars[k]? = some nv → Codes table (.var k) (.var k)
  | neg : Codes table .neg .neg
  | binary (o : Operator) : Codes table (.binary o) (.binary o)
  | call {c : Callee} {t : Target σ} (n : ℕ) : table.target c = .ok t →
      Codes table (.call c n) (.call t n)

/-- The program of the steps when nothing is folded. -/
structure Plain (table : SymbolTable σ) (ss : List Step) (q : Program σ) : Prop where
  codes : List.Forall₂ (Codes table) ss q
  adds : ∀ ev₀, Adds ev₀ table false ss q.reverse

namespace Plain

variable {p q : Program σ}

lemma append (h : Plain table ss p) (h' : Plain table us q) :
    Plain table (ss ++ us) (p ++ q) where
  codes := List.rel_append h.codes h'.codes
  adds ev₀ := by
    rw [List.reverse_append]
    exact (h.adds ev₀).append (h'.adds ev₀)

lemma snoc (h : Plain table ss p) {st : Step} {i : Instr σ} (hcode : Codes table st i)
    (hadds : ∀ ev₀, Adds ev₀ table false (ss ++ [st]) (i :: p.reverse)) :
    Plain table (ss ++ [st]) (p ++ [i]) where
  codes := List.rel_append h.codes (.cons hcode .nil)
  adds ev₀ := by
    rw [List.reverse_append]
    exact hadds ev₀

lemma exists_of_args {as : List Expr} (h : ∀ a ∈ as, ∃ q, q ≠ [] ∧ Plain table a.steps q) :
    ∃ q, as.length ≤ q.length ∧ Plain table (Expr.stepsList as) q := by
  induction as with
  | nil => exact ⟨[], Nat.le_refl 0, .nil, fun _ => .nil⟩
  | cons a as ih =>
    obtain ⟨p, hne, hp⟩ := h a (by simp)
    obtain ⟨q, hlen, hq⟩ := ih fun b hb => h b (List.mem_cons_of_mem _ hb)
    have hpos := List.length_pos_iff.2 hne
    rw [Expr.stepsList_cons]
    refine ⟨p ++ q, ?_, hp.append hq⟩
    rw [List.length_append, List.length_cons]
    omega

/-- A tree that fits its table is built as it stands. -/
lemma exists_of_fits (h : tree.Fits table) : ∃ q, q ≠ [] ∧ Plain table tree.steps q := by
  induction h with
  | const x => exact ⟨[.const x], List.cons_ne_nil _ _, .cons (.const x) .nil, fun _ => .const x⟩
  | var hk => exact ⟨[.var _], List.cons_ne_nil _ _, .cons (.var hk) .nil, fun _ => .var _⟩
  | neg _ ih =>
    obtain ⟨q, -, hq⟩ := ih
    rw [Expr.steps_neg]
    exact ⟨q ++ [.neg], by simp, hq.snoc .neg fun ev₀ => (hq.adds ev₀).neg⟩
  | binary _ _ ih₁ ih₂ =>
    obtain ⟨p, -, hp⟩ := ih₁
    obtain ⟨q, -, hq⟩ := ih₂
    have hpq := hp.append hq
    rw [Expr.steps_binary]
    exact ⟨p ++ q ++ [.binary _], by simp,
      hpq.snoc (.binary _) fun ev₀ => (hpq.adds ev₀).binary _⟩
  | call hc _ _ ih =>
    obtain ⟨q, hlen, hq⟩ := exists_of_args ih
    rw [Expr.steps_call]
    exact ⟨q ++ [.call _ _], by simp,
      hq.snoc (.call _ hc) fun ev₀ => (hq.adds ev₀).call hc (by simpa using hlen)⟩

end Plain

end Lowering

end Formula
