import Formula.Proofs.Display.RoundTrip
import Formula.Proofs.Evaluation.Residue

/-!
What is displayed for a folded expression.

The displayed text parses, and signs of constants have become operations. That changes no value,
unless a constant with a sign is raised to a power: there the sign is read after the power. Main
statement: `display_folded`.
-/

namespace Formula

variable {σ α β : Type} {ev : Evaluator σ} {w w₁ : Store σ} {es : List Event} {depth : ℕ}
  {e : ExprId} {bs : List (Binding σ)} {o : Options} {text : Text} {table : SymbolTable σ}
  {tree : Expr} {p : Program σ}

/-! ### Functions without effects -/

/-- A call of the function changes nothing, and what it comes to depends on the arguments, on the
values of variables and on the state of the host. -/
def HostFunction.Quiet (ev : Evaluator σ) (f : HostFunction σ) : Prop :=
  ∃ g : List Float → (VarId → Float) → σ → Except String Float,
    ∀ args w, (f.call args).run ev w = (g args w.value w.host, w)

/-- The functions of the table have no effects. -/
def SymbolTable.Quiet (ev : Evaluator σ) (table : SymbolTable σ) : Prop :=
  ∀ i n f, table.functionAt? i = some (n, f) → f.Quiet ev

/-- The computation changes nothing, and what it comes to depends on the values of variables and on
the state of the host. -/
structure Trail.Quiet (F : Store σ → Trail σ α) : Prop where
  store : ∀ w, (F w).store = w
  result : ∀ w w' : Store σ, w.value = w'.value → w.host = w'.host → (F w).result = (F w').result

namespace Trail.Quiet

lemma still {r : Store σ → Except Error α}
    (h : ∀ w w' : Store σ, w.value = w'.value → w.host = w'.host → r w = r w') :
    Quiet fun w => Trail.still (r w) w :=
  ⟨fun _ => rfl, h⟩

lemma bind {F : Store σ → Trail σ α} {f : α → Store σ → Trail σ β} (hF : Quiet F)
    (hf : ∀ x, Quiet (f x)) : Quiet fun w => (F w).bind f where
  store w := by
    unfold Trail.bind
    rcases (F w).result with err | x
    · exact hF.store w
    · exact ((hf x).store _).trans (hF.store w)
  result w w' hvalue hhost := by
    unfold Trail.bind
    rw [hF.result w w' hvalue hhost, hF.store, hF.store]
    rcases (F w').result with err | x
    · rfl
    · exact (hf x).result w w' hvalue hhost

lemma target {c : Callee} {t : Target σ} (hquiet : table.Quiet ev) (hc : table.target c = .ok t)
    (xs : List Float) : Quiet (t.trail ev xs) := by
  cases t with
  | builtin b => exact ⟨fun _ => rfl, fun _ _ _ _ => rfl⟩
  | host n f =>
    obtain ⟨g, hg⟩ : f.Quiet ev := by
      cases c with
      | builtin b => cases hc
      | bound i =>
        unfold SymbolTable.target at hc
        simp only at hc
        split at hc
        · rename_i hf
          cases hc
          exact hquiet i n f hf
        · cases hc
    have hrun (w : Store σ) : (Target.host n f).run ev xs w =
        ((g xs w.value w.host).mapError (.evaluation n.text), w) := by
      simp only [Target.run, hg]
    refine ⟨fun w => ?_, fun w w' hvalue hhost => ?_⟩
    · simp only [Target.trail, hrun]
    · simp only [Target.trail, hrun, hvalue, hhost]

lemma meanings {as : List Expr} (h : ∀ a ∈ as, Quiet (a.meaning ev table)) :
    Quiet (Expr.meanings ev table as) := by
  induction as with
  | nil => exact still (r := fun _ => .ok []) fun _ _ _ _ => rfl
  | cons a as ih =>
    have has := ih fun b hb => h b (List.mem_cons_of_mem _ hb)
    exact (h a List.mem_cons_self).bind fun x => has.bind fun xs => still fun _ _ _ _ => rfl

/-- A tree that calls such functions only is such a computation. -/
lemma meaning (hquiet : table.Quiet ev) (h : tree.Fits table) :
    Quiet (tree.meaning ev table) := by
  induction h with
  | const x => exact still (r := fun _ => .ok x) fun _ _ _ _ => rfl
  | @var k nv hk =>
    have hmeaning : (Expr.var k).meaning ev table =
        fun w => Trail.still (.ok (w.value nv.2)) w := by
      funext w
      simp only [Expr.meaning, SymbolTable.slotValue?, hk, Option.map_some]
    rw [hmeaning]
    exact still fun w w' hvalue _ => by rw [hvalue]
  | neg _ ih => exact ih.bind fun x => still fun _ _ _ _ => rfl
  | binary _ _ ih₁ ih₂ => exact ih₁.bind fun x => ih₂.bind fun y => still fun _ _ _ _ => rfl
  | @call c as t hc _ _ ih =>
    have hmeaning : (Expr.call c as).meaning ev table =
        fun w => (Expr.meanings ev table as w).bind (t.trail ev) := by
      funext w
      simp only [Expr.meaning, hc]
    rw [hmeaning]
    exact (meanings ih).bind (target hquiet hc)

end Trail.Quiet

/-! ### Signs -/

namespace Expr

lemma mem_nodesList {as : List Expr} {a n : Expr} (ha : a ∈ as) (hn : n ∈ a.nodes) :
    n ∈ nodesList as := by
  induction as with
  | nil => cases ha
  | cons b as ih =>
    rw [nodesList]
    rcases List.mem_cons.1 ha with rfl | ha
    · exact List.mem_append_left _ hn
    · exact List.mem_append_right _ (ih ha)

/-- No constant with a sign is raised to a power. -/
def SignFreePowers (e : Expr) : Prop :=
  ∀ x b, binary .pow (const x) b ∈ e.nodes → isSigned x = false

lemma meanings_reread {as : List Expr}
    (h : ∀ a ∈ as, ∀ w, a.reread.meaning ev table w = a.meaning ev table w) (w : Store σ) :
    meanings ev table (rereadList as) w = meanings ev table as w := by
  induction as generalizing w with
  | nil => rfl
  | cons a as ih =>
    have has (w : Store σ) := ih (fun b hb => h b (List.mem_cons_of_mem _ hb)) w
    rw [rereadList, meanings, meanings, h a List.mem_cons_self]
    simp only [has]

/-- **Reading signs as operations** changes nothing, unless the sign of a constant is read after a
power. -/
lemma meaning_reread {e : Expr} (h : e.SignFreePowers) (w : Store σ) :
    e.reread.meaning ev table w = e.meaning ev table w := by
  induction e using Expr.induct generalizing w with
  | const x =>
    rw [reread]
    split
    · rename_i hsign
      rw [meaning, meaning, meaning]
      simp [Trail.bind, Trail.still, neg_neg_of_isSigned hsign]
    · rfl
  | var k => rfl
  | neg a ih =>
    have ha := ih fun x b hx => h x b (by rw [nodes]; exact List.mem_append_left _ hx)
    rw [reread, meaning, meaning, ha]
  | binary o a b ih₁ ih₂ =>
    have ha := ih₁ fun x c hx => h x c (by
      rw [nodes]
      exact List.mem_append_left _ (List.mem_append_left _ hx))
    have hb := ih₂ fun x c hx => h x c (by
      rw [nodes]
      exact List.mem_append_left _ (List.mem_append_right _ hx))
    have hsame : (rereadBinary o a a.reread b.reread).meaning ev table w =
        (binary o a.reread b.reread).meaning ev table w := by
      unfold rereadBinary
      split
      · rename_i x
        have hx : isSigned x = false := h x b (by
          rw [nodes]
          exact List.mem_append_right _ (List.mem_singleton_self _))
        rw [reread, hx]
        rfl
      · rfl
    rw [reread, hsame, meaning, meaning, ha]
    simp only [hb]
  | call c as ih =>
    have has (w : Store σ) : meanings ev table (rereadList as) w = meanings ev table as w :=
      meanings_reread (fun a ha => ih a ha fun x b hx =>
        h x b (by rw [nodes]; exact List.mem_append_left _ (mem_nodesList ha hx))) w
    rw [reread, meaning, meaning, has]

/-- The constants of a tree are those of its program. -/
lemma constants_of_codes {P : Float → Prop} (h : List.Forall₂ (Lowering.Codes table) tree.steps p)
    (hp : ∀ x, Instr.const x ∈ p → P x) : tree.Constants P := by
  unfold Constants
  generalize tree.steps = ss at h
  induction h with
  | nil => exact fun x hx => absurd hx List.not_mem_nil
  | cons hs _ ih =>
    have hrest := ih fun x hx => hp x (List.mem_cons_of_mem _ hx)
    intro x hx
    rcases List.mem_cons.1 hx with rfl | hx
    · cases hs
      exact hp x List.mem_cons_self
    · exact hrest x hx

end Expr

/-- **What is displayed for a folded expression.** Let a text compile with folding to a program
whose constants are finite. As long as the expression is not closed it is displayed, and with bounds
that are large enough the displayed text parses with the same names. If no constant with a sign is
raised to a power and no function has an effect, the tree that is read has the value that the
expression has, or fails as it does, whatever the variables are set to. -/
theorem display_folded (hcompile : compile depth e bs o text w = (.ok (), w₁))
    (hfold : o.foldConstants = true)
    (hfinite : ∀ c p x, w₁.exprs.get? e = some c → c.program = some p → .const x ∈ p → IsFinite x)
    (os : List (Op σ)) (hstarts : ∀ op ∈ os, op.starts? ≠ some e)
    (hends : ∀ op ∈ os, op.ends? ≠ some e) (hreach : Reachable (Op.runAll w₁ os) es) :
    ∃ table tree folded p c shown levels, parseWith bs o text = .ok (table, tree) ∧
      folded = (tree.fold (evaluate depth) table (w.attached e text table.vars)).value ∧
      folded.code table = .ok p ∧ (Op.runAll w₁ os).exprs.get? e = some c ∧
      c.program = some p ∧ c.display? = some shown ∧
      (∀ o' : Options, byteLength shown ≤ o'.maxLength → levels ≤ o'.maxDepth →
        parse table.resolve o' shown = .ok folded.reread) ∧
      (folded.SignFreePowers → ∀ depth, table.Quiet (evaluate depth) →
        (folded.reread.eval (evaluate depth) table (Op.runAll w₁ os)).1 =
          (evaluate (depth + 1) e (Op.runAll w₁ os)).1) := by
  obtain ⟨table, tree, folded, p, hparse, hfolded, hnamed, hcode, hcodes, hface⟩ :=
    exists_built hcompile
  obtain ⟨c, hc, hp, hslots⟩ := exists_live hface hstarts hends
  rw [hfold] at hfolded
  have hconstants : folded.Constants IsFinite := by
    obtain ⟨c₁, hc₁, hface₁⟩ := Option.map_eq_some_iff.1 hface
    exact Expr.constants_of_codes hcodes fun x =>
      hfinite c₁ p x hc₁ (congrArg Prod.fst hface₁)
  obtain ⟨levels, hlevels⟩ := (Expr.fragment_shown hslots hnamed hconstants).1.term.expr.parse
  refine ⟨table, tree, folded, p, c, _, levels, hparse, hfolded, hcode, hc, hp,
    display?_eq hnamed.fits hcode hp, hlevels, fun hpowers depth' hquiet => ?_⟩
  have hreread : folded.reread.Fits table := by
    have hb := (parseWith_eq_ok hparse).1
    exact fits_of_parseWith (parseWith_of_parse hb
      (hlevels ⟨true, levels, _⟩ (Nat.le_refl _) (Nat.le_refl _)))
  obtain ⟨w', hvalue, hhost, heval⟩ :=
    evaluate_live hface hstarts hends hreach hnamed.fits hcodes depth'
  rw [Expr.eval_eq_meaning hreread, Expr.meaning_reread hpowers, heval]
  exact (Trail.Quiet.meaning hquiet hnamed.fits).result _ _ hvalue.symm hhost.symm

/-! ### A constant with a sign -/

def nextBindings : List (Binding Unit) :=
  [⟨['n', 'e', 'x', 't'], .function inc⟩, ⟨['x'], .variable 0⟩]

def nextTable : SymbolTable Unit :=
  [⟨⟨['n', 'e', 'x', 't'], rfl, by decide⟩, .function inc⟩, ⟨xName, .variable 0 0⟩]

/-- The text `-2*x+next(3)`. -/
def nextText : Text := ['-', '2', '*', 'x', '+', 'n', 'e', 'x', 't', '(', '3', ')']

lemma ofBindings_next : SymbolTable.ofBindings nextBindings = .ok nextTable := by
  have hnames : SymbolTable.readNames maxBindings nextBindings =
      .ok [(⟨['n', 'e', 'x', 't'], rfl, by decide⟩, .function inc), (xName, .variable 0)] := rfl
  rw [SymbolTable.ofBindings_of_sorted hnames (by decide)]
  rfl

lemma quiet_next (ev : Evaluator Unit) : nextTable.Quiet ev := by
  intro i n f hf
  match i with
  | 0 =>
    cases hf
    obtain ⟨g, -, hg⟩ : ∃ g, inc.ByArguments ev g ∧ inc.ByArguments ev g :=
      HostFunction.byArguments_of_done fun _ => rfl
    exact ⟨fun args _ _ => g args, hg⟩
  | 1 => cases hf
  | i + 2 => cases hf

def Instr.isFinite : Instr σ → Bool
  | const x => decide (IsFinite x)
  | _ => true

def Expr.isPower : Expr → Bool
  | binary .pow _ _ => true
  | _ => false

/-- The folded text is `((-2 * x) + 4)`, and evaluates as the expression does. -/
theorem display_folded_next : ∃ (w₁ : Store Unit) (es : List Event) (folded : Expr)
    (c : Compiled Unit) (shown : Text) (levels : ℕ),
    compile 1 0 nextBindings ⟨true, 4, 15⟩ nextText ((Op.newVariable 0 5).run (.empty ())) =
      (.ok (), w₁) ∧
    Reachable (Op.runAll w₁ [.update 0 7]) es ∧ folded.SignFreePowers ∧
    c.display? = some shown ∧
    (∀ o' : Options, byteLength shown ≤ o'.maxLength → levels ≤ o'.maxDepth →
      parse nextTable.resolve o' shown = .ok folded.reread) ∧
    (folded.reread.eval (evaluate 1) nextTable (Op.runAll w₁ [.update 0 7])).1 =
      (evaluate 2 0 (Op.runAll w₁ [.update 0 7])).1 := by
  let compiling : Op Unit := .compile 1 0 nextBindings ⟨true, 4, 15⟩ nextText
  let w₀ : Store Unit := (Op.newVariable 0 5).run (.empty ())
  have hcompiled := ((Reachable.empty ()).op (.newVariable 0 5) rfl).op compiling rfl
  obtain ⟨es, hlater⟩ : ∃ es, Reachable ((Op.update 0 7).run (compiling.run w₀)) es :=
    ⟨_, hcompiled.op (.update 0 7) trivial⟩
  have hok : (compile 1 0 nextBindings ⟨true, 4, 15⟩ nextText w₀).1.isOk := by
    simp only [w₀, compile, ofBindings_next]
    decide +kernel
  have hfinite : (((compile 1 0 nextBindings ⟨true, 4, 15⟩ nextText w₀).2.exprs.get? 0).all
      fun c => c.program.all fun p => p.all Instr.isFinite) = true := by
    simp only [w₀, compile, ofBindings_next]
    decide +kernel
  have hpowers : ((parse nextTable.resolve ⟨true, 4, 15⟩ nextText).toOption.all fun tree =>
      (tree.fold (evaluate 1) nextTable (w₀.attached 0 nextText nextTable.vars)).value.nodes.all
        fun n => !n.isPower) = true := by
    decide +kernel
  have hrun : compiling.run w₀ = (compile 1 0 nextBindings ⟨true, 4, 15⟩ nextText w₀).2 := rfl
  rcases hcompile : compile 1 0 nextBindings ⟨true, 4, 15⟩ nextText w₀ with ⟨err | _, w₁⟩
  · rw [hcompile] at hok
    cases hok
  · rw [hcompile] at hfinite hrun
    rw [hrun] at hlater
    obtain ⟨table, tree, folded, p, c, shown, levels, hparse, rfl, -, -, -, hshown, hread, heval⟩ :=
      display_folded hcompile rfl (fun c p x hc hp hx => by
        rw [hc, Option.all_some, hp, Option.all_some, List.all_eq_true] at hfinite
        exact of_decide_eq_true (hfinite _ hx)) [.update 0 7]
        (by simp [Op.starts?]) (by simp [Op.ends?]) hlater
    obtain ⟨hb, hp⟩ := parseWith_eq_ok hparse
    cases ofBindings_next.symm.trans hb
    have hsigns : (tree.fold (evaluate 1) nextTable
        (w₀.attached 0 nextText nextTable.vars)).value.SignFreePowers := by
      intro x b hmem
      rw [hp] at hpowers
      have hnot := List.all_eq_true.1 hpowers _ hmem
      cases hnot
    exact ⟨w₁, es, _, c, shown, levels, rfl, hlater, hsigns, hshown, hread,
      heval hsigns 1 (quiet_next _)⟩

end Formula
