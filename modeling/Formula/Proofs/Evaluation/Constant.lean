import Formula.Proofs.Evaluation.Agreement
import Formula.Proofs.Store.Compilation
import Formula.Render

/-!
Texts without variables and host functions.

Such a text has a value that depends on nothing. Checking, interpreting and compiling fail for the
same texts, and what is compiled, folded or not, evaluates to the value that interpreting gives.
-/

namespace Formula

variable {σ : Type} {a b tree : Expr} {as : List Expr} {x y : Float} {xs : List Float}

/-! ### Values of trees -/

namespace Expr

/-- The tree has the value `x` wherever it is evaluated, and folds to it. -/
structure Denotes (tree : Expr) (x : Float) : Prop where
  meaning : ∀ {σ : Type} (ev : Evaluator σ) table w, tree.meaning ev table w = .still (.ok x) w
  folds : ∀ {σ : Type} (ev₀ : Evaluator σ) table,
    Lowering.Adds ev₀ table true tree.steps [.const x]

/-- So do the arguments of a call. -/
structure DenotesAll (as : List Expr) (xs : List Float) : Prop where
  length : xs.length = as.length
  meanings : ∀ {σ : Type} (ev : Evaluator σ) table w,
    Expr.meanings ev table as w = .still (.ok xs) w
  folds : ∀ {σ : Type} (ev₀ : Evaluator σ) table,
    Lowering.Adds ev₀ table true (stepsList as) (xs.reverse.map .const)

lemma DenotesAll.nil : DenotesAll [] [] := by
  refine ⟨rfl, fun ev table w => ?_, fun _ _ => .nil⟩
  rw [Expr.meanings]

lemma DenotesAll.cons (h : a.Denotes x) (hs : DenotesAll as xs) :
    DenotesAll (a :: as) (x :: xs) where
  length := by rw [List.length_cons, List.length_cons, hs.length]
  meanings ev table w := by
    rw [Expr.meanings, h.meaning, Trail.bind]
    simp only [Trail.still, hs.meanings, Trail.bind, List.append_nil]
  folds ev₀ table := by
    rw [stepsList_cons, List.reverse_cons, List.map_append]
    exact (h.folds ev₀ table).append (hs.folds ev₀ table)

namespace Denotes

lemma const (x : Float) : (Expr.const x).Denotes x := by
  refine ⟨fun ev table w => ?_, fun _ _ => .const x⟩
  rw [Expr.meaning]

lemma neg (h : a.Denotes x) : (Expr.neg a).Denotes (-x) where
  meaning ev table w := by
    rw [Expr.meaning, h.meaning]
    rfl
  folds ev₀ table := by
    rw [steps_neg]
    exact (h.folds ev₀ table).snoc fun _ _ => ⟨[], by simp, rfl⟩

lemma binary (o : Operator) (h : a.Denotes x) (h' : b.Denotes y) :
    (Expr.binary o a b).Denotes (o.apply x y) where
  meaning ev table w := by
    rw [Expr.meaning, h.meaning, Trail.bind]
    simp only [Trail.still, h'.meaning, Trail.bind, List.append_nil]
  folds ev₀ table := by
    rw [steps_binary]
    exact ((h.folds ev₀ table).append (h'.folds ev₀ table)).snoc fun _ _ =>
      ⟨[.foldedOperator o x y (o.apply x y)], by simp, rfl⟩

/-- Builtins never fail. -/
lemma call {f : Builtin} (hs : DenotesAll as xs) (harity : f.arity = as.length) :
    (Expr.call (.builtin f) as).Denotes (f.call xs) where
  meaning ev table w := by
    rw [Expr.meaning, hs.meanings, Trail.bind]
    rfl
  folds {σ} ev₀ table := by
    have hroom : xs.reverse.length ≤ maxArity := by
      rw [List.length_reverse, hs.length, ← harity]
      exact Target.arity_le (σ := σ) (.builtin f)
    rw [steps_call, ← hs.length, ← List.length_reverse]
    refine (hs.folds ev₀ table).snoc fun p w => ⟨[.foldedCall f.name (f.call xs)], by simp, ?_⟩
    change Lowering.call ev₀ true (.builtin f) xs.reverse.length _ w = _
    rw [Lowering.call_constants rfl hroom, List.reverse_reverse]
    rfl

lemma exists_of_args (h : ∀ a ∈ as, ∃ x, a.Denotes x) : ∃ xs, DenotesAll as xs := by
  induction as with
  | nil => exact ⟨[], .nil⟩
  | cons a as ih =>
    obtain ⟨x, hx⟩ := h a (by simp)
    obtain ⟨xs, hxs⟩ := ih fun b hb => h b (List.mem_cons_of_mem _ hb)
    exact ⟨x :: xs, .cons hx hxs⟩

/-- Where no names are bound every tree has a value. -/
lemma exists_of_fits (h : tree.Fits ([] : SymbolTable σ)) : ∃ x, tree.Denotes x := by
  induction h with
  | const x => exact ⟨x, .const x⟩
  | var hk => cases hk
  | neg _ ih =>
    obtain ⟨x, hx⟩ := ih
    exact ⟨-x, hx.neg⟩
  | binary _ _ ih₁ ih₂ =>
    obtain ⟨x, hx⟩ := ih₁
    obtain ⟨y, hy⟩ := ih₂
    exact ⟨_, .binary _ hx hy⟩
  | @call c as t hc harity _ ih =>
    obtain ⟨xs, hxs⟩ := exists_of_args ih
    cases c with
    | builtin f =>
      cases hc
      exact ⟨f.call xs, .call hxs harity⟩
    | bound i => cases hc

end Denotes

end Expr

/-! ### Programs and interpretations -/

section Modes

variable {w : Store σ} {e : ExprId} {o : Options} {text : Text}

/-- Whoever walks the tree finds its value. -/
lemma Expr.Denotes.eval (hd : tree.Denotes x) {table : SymbolTable σ} (h : tree.Fits table)
    (ev : Evaluator σ) : (tree.eval ev table w).1 = .ok x := by
  rw [Expr.eval_eq_meaning h, hd.meaning]
  rfl

lemma SymbolTable.Tracks.nil (e : ExprId) (w : Store σ) :
    SymbolTable.Tracks ([] : SymbolTable σ) e w where
  value _ _ _ hk := by cases hk
  listener _ _ _ hk := by cases hk

/-- The program of a tree without names comes to the value of the tree, folded or not. -/
lemma Expr.Denotes.run_of_lower (hd : tree.Denotes x) (h : tree.Fits ([] : SymbolTable σ))
    {ev₀ : Evaluator σ} {fold : Bool} {p : Program σ} {w' : Store σ}
    (hlower : lower ev₀ [] fold tree w = (.ok p, w')) :
    (fold = true → p = [.const x]) ∧
      ∀ depth s (w : Store σ), (p.run (evaluate depth) e ⟨s, w⟩).1 = .ok x := by
  cases fold with
  | true =>
    obtain ⟨records, -, hfolded⟩ := (hd.folds ev₀ []).lower w
    rw [hlower] at hfolded
    cases hfolded
    exact ⟨fun _ => rfl, fun _ _ _ => rfl⟩
  | false =>
    refine ⟨nofun, fun depth s w₁ => ?_⟩
    obtain ⟨q, -, hplain⟩ := Lowering.Plain.exists_of_fits h
    have hkept := (hplain.adds ev₀).lower_plain w
    rw [hlower, List.reverse_reverse] at hkept
    cases hkept
    have hsteps := (runAll_codes depth hplain.codes ⟨[], w₁⟩ (.nil e w₁)).1
    unfold Program.run
    simp only [hsteps]
    have heval : (tree.eval (evaluate depth) [] w₁).1 = .ok x := hd.eval h (evaluate depth)
    rwa [Expr.eval_eq] at heval

/-- An expression evaluates to what its program comes to. -/
lemma evaluate_of_run {p : Program σ} {c : Compiled σ} (hc : w.exprs.get? e = some c)
    (hp : c.program = some p)
    (hrun : ∀ depth s (w : Store σ), (p.run (evaluate depth) e ⟨s, w⟩).1 = .ok x) (depth : ℕ) :
    (evaluate (depth + 1) e w).1 = .ok x := by
  obtain ⟨source, program, slots, stack⟩ := c
  obtain rfl : program = some p := hp
  unfold evaluate
  simp only [hc]
  rcases stack with _ | s
  · exact hrun depth [] w
  · exact hrun depth s _

lemma ofBindings_nil : SymbolTable.ofBindings ([] : List (Binding σ)) = .ok [] :=
  SymbolTable.ofBindings_of_sorted rfl .nil

/-- Without bindings all that can be wrong is the text. -/
lemma compile_nil (depth : ℕ) (e : ExprId) (o : Options) (text : Text) (w : Store σ) :
    (∃ err, parse constantNames.resolve o text = .error err ∧
      (compile depth e [] o text w).1 = .error (.parse err)) ∨
    ∃ tree p w₁ w₂, parse constantNames.resolve o text = .ok tree ∧
      tree.Fits ([] : SymbolTable σ) ∧
      lower (evaluate depth) [] o.foldConstants tree w₁ = (.ok p, w₂) ∧
      w₂.layout e = some (none, 0) ∧
      compile depth e [] o text w = (.ok (), w₂.install e text p) := by
  have hend := compilation (Target.calls (evaluate depth)) depth e [] o text w
  generalize compile depth e [] o text w = r at hend ⊢
  generalize gatherCompile _ depth e [] o text w = is at hend
  cases hend with
  | naming hb =>
    rw [ofBindings_nil] at hb
    cases hb
  | bound hb hfree =>
    cases ofBindings_nil.symm.trans hb
    exact absurd ⟨nofun, .nil⟩ hfree
  | parse hb _ hp =>
    cases ofBindings_nil.symm.trans hb
    exact .inl ⟨_, hp, rfl⟩
  | @done table tree p w₂ hb _ hp hfits hlayout hlower _ =>
    cases ofBindings_nil.symm.trans hb
    have hlowered := (w.attached e text []).layout_lower depth [] o.foldConstants tree
    have hstore : (lower (evaluate depth) [] o.foldConstants tree (w.attached e text [])).2 = w₂ :=
      congrArg Prod.snd hlower
    rw [hstore] at hlowered
    exact .inr ⟨tree, p, _, w₂, hp, hfits, hlower, (congrFun hlowered e).trans hlayout, rfl⟩

end Modes

/-- **The constant modes agree**: a text is valid if and only if it can be interpreted, and if and
only if it compiles, and interpreting and compiling it fail in the same way. If a text has a value,
whatever it compiles to evaluates to that value from then on, and with folding it is compiled to
the value alone. -/
theorem constant_modes_agree (o : Options) (text : Text) (depth : ℕ) (e : ExprId)
    (w : Store σ) :
    let r := compile depth e [] o text w
    (validate o text = true ↔ ∃ v, interpret o text = .ok v) ∧
    ((∃ v, interpret o text = .ok v) ↔ r.1 = .ok ()) ∧
    (∀ err, interpret o text = .error err ↔ r.1 = .error err) ∧
    ∀ v, interpret o text = .ok v →
      ∃ c p, r.2.exprs.get? e = some c ∧ c.program = some p ∧
        (o.foldConstants = true → p = [.const v] ∧ c.isConstant = true ∧ c.nodeCount = 1) ∧
        ∀ (w' : Store σ) c' depth', w'.exprs.get? e = some c' → c'.program = some p →
          (evaluate (depth' + 1) e w').1 = .ok v := by
  rcases compile_nil depth e o text w with
    ⟨err, hp, hr⟩ | ⟨tree, p, w₁, w₂, hp, hfits, hlower, hlayout, hr⟩
  · have hinterpret : interpret o text = .error (.parse err) := by simp only [interpret, hp]
    have hvalidate : validate o text = false := by
      unfold validate
      rw [hp]
      rfl
    simp [hinterpret, hvalidate, hr]
  · have hfits' : tree.Fits constantNames :=
      fits_of_parseWith (parseWith_of_parse ofBindings_nil hp)
    obtain ⟨x, hd⟩ := Expr.Denotes.exists_of_fits hfits
    have hinterpret : interpret o text = .ok x := by
      simp only [interpret, hp]
      exact hd.eval hfits' (evaluate 0)
    have hvalidate : validate o text = true := by
      unfold validate
      rw [hp]
      rfl
    obtain ⟨hfolded, hrun⟩ := hd.run_of_lower hfits hlower
    obtain ⟨c, hc, hprogram, -⟩ := Store.layout_eq_some (Store.layout_install hlayout text p)
    simp only [hinterpret, hvalidate, hr]
    refine ⟨by simp, by simp, by simp, fun v hv => ?_⟩
    cases hv
    refine ⟨c, p, hc, hprogram, fun hfold => ?_, fun w' c' depth' hc' hp' =>
      evaluate_of_run hc' hp' hrun depth'⟩
    obtain rfl := hfolded hfold
    unfold Compiled.isConstant Compiled.nodeCount
    rw [hprogram]
    exact ⟨rfl, rfl, rfl⟩

/-- The text `2*3` compiles to its value. -/
theorem constant_modes_product : ∃ v c,
    let w := (compile 1 0 [] ⟨true, 4, 15⟩ ['2', '*', '3'] (Store.empty ())).2
    interpret ⟨true, 4, 15⟩ ['2', '*', '3'] = .ok v ∧ w.exprs.get? 0 = some c ∧
      c.program = some [.const v] ∧ (evaluate 1 0 w).1 = .ok v := by
  have hvalid : validate ⟨true, 4, 15⟩ ['2', '*', '3'] = true := by decide +kernel
  obtain ⟨hiff, -, -, hmodes⟩ :=
    constant_modes_agree ⟨true, 4, 15⟩ ['2', '*', '3'] 1 0 (Store.empty ())
  obtain ⟨v, hv⟩ := hiff.1 hvalid
  obtain ⟨c, p, hc, hp, hfolded, heval⟩ := hmodes v hv
  obtain rfl := (hfolded rfl).1
  exact ⟨v, c, hv, hc, hp, heval _ c 0 hc hp⟩

end Formula
