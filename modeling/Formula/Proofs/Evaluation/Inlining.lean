import Formula.Proofs.Evaluation.Constant
import Formula.Proofs.Evaluation.Live
import Formula.Proofs.Parser.Substitution

/-!
Writing the values of variables into a text.

A text that calls nothing but builtins can be interpreted when literals of their values have taken
the places of its variables. That comes to what the compiled text evaluates to.
Main statement: `substitution`.
-/

namespace Formula

variable {σ : Type} {table : SymbolTable σ} {value : VarId → Float}

/-! ### Trees that call builtins only -/

namespace Expr

variable {a b tree closed : Expr} {as bs : List Expr} {x y : Float} {xs : List Float} {f : Builtin}

/-- With these values of the variables the tree comes to `x`, and nothing is called. -/
def Means (table : SymbolTable σ) (value : VarId → Float) (tree : Expr) (x : Float) : Prop :=
  ∀ ev w, w.value = value → tree.meaning ev table w = .still (.ok x) w

/-- So do the arguments of a call. -/
def AllMean (table : SymbolTable σ) (value : VarId → Float) (as : List Expr) (xs : List Float) :
    Prop :=
  ∀ ev w, w.value = value → meanings ev table as w = .still (.ok xs) w

namespace Means

lemma const (x : Float) : (const x).Means table value x := fun _ _ _ => by rw [meaning]

lemma var {k : ℕ} {nv : Name × VarId} (hk : table.vars[k]? = some nv) :
    (var k).Means table value (value nv.2) := by
  rintro ev w rfl
  simp only [meaning, SymbolTable.slotValue?, hk, Option.map_some]

lemma neg (h : a.Means table value x) : (neg a).Means table value (-x) := by
  intro ev w hw
  rw [meaning, h ev w hw]
  rfl

lemma binary (o : Operator) (h : a.Means table value x) (h' : b.Means table value y) :
    (binary o a b).Means table value (o.apply x y) := by
  intro ev w hw
  rw [meaning, h ev w hw, Trail.bind]
  simp only [Trail.still, h' ev w hw, Trail.bind, List.append_nil]

lemma call (h : AllMean table value as xs) :
    (call (.builtin f) as).Means table value (f.call xs) := by
  intro ev w hw
  rw [meaning, h ev w hw, Trail.bind]
  rfl

end Means

namespace AllMean

lemma nil : AllMean table value [] [] := fun _ _ _ => by rw [meanings]

lemma cons (h : a.Means table value x) (hs : AllMean table value as xs) :
    AllMean table value (a :: as) (x :: xs) := by
  intro ev w hw
  rw [meanings, h ev w hw, Trail.bind]
  simp only [Trail.still, hs ev w hw, Trail.bind, List.append_nil]

lemma constants (xs : List Float) : AllMean table value (xs.map .const) xs := by
  induction xs with
  | nil => exact .nil
  | cons x xs ih => exact .cons (.const x) ih

end AllMean

/-! Folding one node changes nothing. -/

lemma Means.foldedNeg (h : a.Means table value x) : a.foldedNeg.Means table value (-x) := by
  intro ev w hw
  cases a with
  | const y =>
    have hconst := h ev w hw
    rw [meaning] at hconst
    cases hconst
    exact Means.const _ ev w hw
  | _ => exact h.neg ev w hw

lemma Means.foldedBinary (o : Operator) (h : a.Means table value x) (h' : b.Means table value y)
    (w₀ : Store σ) : (Expr.foldedBinary o a b w₀).value.Means table value (o.apply x y) := by
  unfold Expr.foldedBinary
  split
  · intro ev w hw
    have hx := h ev w hw
    have hy := h' ev w hw
    rw [meaning] at hx hy
    cases hx
    cases hy
    exact Means.const _ ev w hw
  · exact h.binary o h'

lemma Means.foldedCall (h : AllMean table value as xs) (ev₀ : Evaluator σ) (w₀ : Store σ) :
    (Expr.foldedCall ev₀ table (.builtin f) as w₀).value.Means table value (f.call xs) := by
  have hc : table.target (.builtin f) = .ok (.builtin f) := rfl
  rcases foldedCall_cases ev₀ hc as w₀ with
    ⟨-, hfold⟩ | ⟨ys, w', -, hys, ⟨x, hrun, hfold⟩ | ⟨err, hrun, -⟩⟩
  · rw [hfold]
    exact .call h
  · rw [hfold]
    intro ev w hw
    have hsame := (h ev w hw).symm
    rw [Lowering.constants_of_mapM hys, AllMean.constants ys ev w hw] at hsame
    cases hsame
    cases hrun
    exact Means.const _ ev w hw
  · cases hrun

/-- The tree comes to `x`, folded or not, and so does the closed tree. -/
structure Inlines (table : SymbolTable σ) (value : VarId → Float) (tree closed : Expr)
    (x : Float) : Prop where
  closed : closed.Denotes x
  plain : tree.Means table value x
  folded : ∀ ev₀ w₀, (tree.fold ev₀ table w₀).value.Means table value x

/-- So do the arguments of a call. -/
structure InlinesAll (table : SymbolTable σ) (value : VarId → Float) (as bs : List Expr)
    (xs : List Float) : Prop where
  closed : DenotesAll bs xs
  plain : AllMean table value as xs
  folded : ∀ ev₀ w₀, AllMean table value (foldList ev₀ table as w₀).value xs

lemma InlinesAll.nil : InlinesAll table value [] [] [] where
  closed := .nil
  plain := .nil
  folded ev₀ w₀ := by
    rw [foldList]
    exact .nil

lemma InlinesAll.cons (h : a.Inlines table value b x) (hs : InlinesAll table value as bs xs) :
    InlinesAll table value (a :: as) (b :: bs) (x :: xs) where
  closed := .cons h.closed hs.closed
  plain := .cons h.plain hs.plain
  folded ev₀ w₀ := by
    rw [foldList]
    exact .cons (h.folded ev₀ w₀) (hs.folded ev₀ _)

lemma exists_inlinesAll {g : ℕ → Expr} (h : ∀ a ∈ as, ∃ x, a.Inlines table value (a.assign g) x) :
    ∃ xs, InlinesAll table value as (as.map (assign g)) xs := by
  induction as with
  | nil => exact ⟨[], .nil⟩
  | cons a as ih =>
    obtain ⟨x, hx⟩ := h a List.mem_cons_self
    obtain ⟨xs, hxs⟩ := ih fun b hb => h b (List.mem_cons_of_mem _ hb)
    exact ⟨x :: xs, .cons hx hxs⟩

/-- **A tree whose variables have values**, and which has builtins for its only functions, comes to
what the tree comes to with the values in place of the variables. -/
theorem exists_inlines (h : tree.Fits table) {g : ℕ → Float}
    (hg : ∀ k nv, table.vars[k]? = some nv → g k = value nv.2)
    (hclosed : (tree.assign fun k => const (g k)).Fits constantNames) :
    ∃ x, tree.Inlines table value (tree.assign fun k => const (g k)) x := by
  induction h with
  | const x =>
    rw [assign_const]
    refine ⟨x, .const x, .const x, fun ev₀ w₀ => ?_⟩
    rw [fold]
    exact .const x
  | @var k nv hk =>
    rw [assign_var, hg k nv hk]
    refine ⟨_, .const _, .var hk, fun ev₀ w₀ => ?_⟩
    rw [fold]
    exact .var hk
  | neg _ ih =>
    rw [assign_neg] at hclosed ⊢
    cases hclosed with
    | neg hclosed =>
      obtain ⟨x, hx⟩ := ih hclosed
      refine ⟨-x, hx.closed.neg, hx.plain.neg, fun ev₀ w₀ => ?_⟩
      rw [fold]
      exact (hx.folded ev₀ w₀).foldedNeg
  | @binary o a b _ _ ih₁ ih₂ =>
    rw [assign_binary] at hclosed ⊢
    cases hclosed with
    | binary hclosed₁ hclosed₂ =>
      obtain ⟨x, hx⟩ := ih₁ hclosed₁
      obtain ⟨y, hy⟩ := ih₂ hclosed₂
      refine ⟨_, hx.closed.binary o hy.closed, hx.plain.binary o hy.plain, fun ev₀ w₀ => ?_⟩
      rw [fold]
      exact (hx.folded ev₀ w₀).foldedBinary o (hy.folded ev₀ _) _
  | @call c as t hc harity _ ih =>
    rw [assign_call] at hclosed ⊢
    cases hclosed with
    | call hc' harity' hclosed =>
      obtain ⟨xs, hxs⟩ := exists_inlinesAll fun a ha =>
        ih a ha (hclosed _ (List.mem_map_of_mem ha))
      -- without names there are no functions but builtins
      cases c with
      | bound i => cases hc'
      | builtin f =>
        cases hc'
        refine ⟨f.call xs, .call hxs.closed harity', .call hxs.plain, fun ev₀ w₀ => ?_⟩
        rw [fold]
        exact .foldedCall (hxs.folded ev₀ w₀) ev₀ _

end Expr

/-! ### Texts -/

variable {t : Text} {tree : Expr} {s : Substitution} {w : Store σ} {name : Text}

/-- The names of the text stand for variables and builtins. -/
def SymbolTable.NamesBuiltins (table : SymbolTable σ) (t : Text) : Prop :=
  ∀ tok ∈ lexed t, tok.kind = .word → (∃ k, table.resolve tok.text = some (.variable k)) ∨
    ∃ f n, table.resolve tok.text = some (.function (.builtin f) n)

/-- A builtin stands for itself unless its name is bound. -/
lemma SymbolTable.resolve_builtin {f : Builtin} {n : ℕ}
    (h : table.resolve name = some (.function (.builtin f) n)) :
    constantNames.resolve name = table.resolve name := by
  unfold resolve at h ⊢
  split at h
  · obtain ⟨s, -, hs⟩ := Option.map_eq_some_iff.1 h
    split at hs <;> cases hs
  · rfl

/-- Every variable of the text is replaced by a literal of its value, and nothing else is. -/
def Substitution.Writes (s : Substitution) (table : SymbolTable σ) (w : Store σ) (t : Text) :
    Prop :=
  ∀ tok ∈ lexed t, (tok.slot? table.resolve = none → s tok = none) ∧
    ∀ k, tok.slot? table.resolve = some k → ∃ u x, s tok = some (u, .const x) ∧
      munch u = (.ok (.number x), u) ∧ table.slotValue? w k = some x

/-- The digits of their values in place of variables. -/
def Substitution.digits (table : SymbolTable σ) (w : Store σ) : Substitution := fun tok =>
  (tok.slot? table.resolve).bind fun k =>
    (table.slotValue? w k).map fun x => (printPlain x, .const x)

/-- The digits of a finite value without a sign are a literal. -/
lemma Substitution.writes_digits (hnumbered : table.Numbered)
    (hvalues : ∀ tok ∈ lexed t, ∀ k x, tok.slot? table.resolve = some k →
      table.slotValue? w k = some x → IsFinite x ∧ isSigned x = false) :
    (digits table w).Writes table w t := by
  intro tok htok
  unfold digits
  refine ⟨fun hslot => by rw [hslot]; rfl, fun k hslot => ?_⟩
  obtain ⟨nv, hk⟩ := hnumbered.vars_of_resolve (Token.slot?_eq_some.1 hslot).2
  have hvalue : table.slotValue? w k = some (w.value nv.2) := by
    rw [SymbolTable.slotValue?, hk]
    rfl
  obtain ⟨hfinite, hsign⟩ := hvalues tok htok k _ hslot hvalue
  obtain ⟨b, hb, hx⟩ := hfinite.exists_eq
  rw [hsign] at hx
  refine ⟨printPlain (w.value nv.2), w.value nv.2, ?_, ?_, hvalue⟩
  · rw [hslot, Option.bind_some, hvalue, Option.map_some]
  · rw [hx]
    exact munch_printPlain hb

/-- A text with literals for its variables reads as its tree with the values in their places. -/
lemma Substitution.Writes.fragment (hs : s.Writes table w t) {o : Options}
    (h : parse table.resolve o t = .ok tree) (hnames : table.NamesBuiltins t) :
    Fragment constantNames.resolve .expr (s.apply t)
      [tree.assign fun k => .const ((table.slotValue? w k).getD 0)] := by
  have hts : ∀ tok ∈ lexed t, s.Carries table.resolve constantNames.resolve tok := by
    intro tok htok
    obtain ⟨hother, hvariable⟩ := hs tok htok
    refine ⟨fun u e hput => ?_, fun hput hk => ?_⟩
    · rcases hslot : tok.slot? table.resolve with _ | k
      · cases (hother hslot).symm.trans hput
      · obtain ⟨u', x, hput', hmunch, -⟩ := hvariable k hslot
        cases hput'.symm.trans hput
        exact ⟨⟨k, rfl⟩, .number hmunch⟩
    · rcases hnames tok htok hk with ⟨k, hr⟩ | ⟨f, n, hr⟩
      · obtain ⟨u, x, hput', -⟩ := hvariable k (Token.slot?_eq_some.2 ⟨hk, hr⟩)
        cases hput'.symm.trans hput
      · exact SymbolTable.resolve_builtin hr
  obtain ⟨hleaves, hfragment⟩ := Substitution.fragment_apply h hts
  have hvalues : (lexed t).filterMap (s.leaf? table.resolve) =
      tree.leaves.map fun k => .const ((table.slotValue? w k).getD 0) := by
    rw [hleaves, List.map_filterMap]
    refine List.filterMap_congr fun tok htok => ?_
    unfold Substitution.leaf?
    rcases hslot : tok.slot? table.resolve with _ | k
    · rfl
    · obtain ⟨u, x, hput, -, hx⟩ := (hs tok htok).2 k hslot
      rw [Option.map_some, Option.map_some, hput, hx]
      rfl
  rwa [hvalues] at hfragment

/-- **Substitution in a text is substitution in its tree.** Where names of a text that stand for
variables are replaced by literals or by expressions in parentheses, the new text parses, with
bounds that are large enough, to the tree with the constants or the trees of the expressions in
place of those variables. So if a text has no other names than variables and builtins, and the
variables have finite values without a sign, then it can be interpreted with literals of the values
in their places, and that comes to what the compiled text evaluates to. -/
theorem substitution {o : Options} (h : parse table.resolve o t = .ok tree) :
    (∀ s : Substitution, s.Fits table.resolve t →
      tree.leaves = (lexed t).filterMap (Token.slot? table.resolve) ∧
      ∃ levels, ∀ o' : Options, byteLength (s.apply t) ≤ o'.maxLength → levels ≤ o'.maxDepth →
        parse table.resolve o' (s.apply t) =
          .ok (tree.fill ((lexed t).filterMap (s.leaf? table.resolve)))) ∧
    ∀ (depth : ℕ) (e : ExprId) (bs : List (Binding σ)) (o : Options) (w w₁ : Store σ)
      (os : List (Op σ)) (es : List Event), SymbolTable.ofBindings bs = .ok table →
      compile depth e bs o t w = (.ok (), w₁) → (∀ op ∈ os, op.starts? ≠ some e) →
      (∀ op ∈ os, op.ends? ≠ some e) → Reachable (Op.runAll w₁ os) es →
      table.NamesBuiltins t →
      (∀ tok ∈ lexed t, ∀ k x, tok.slot? table.resolve = some k →
        table.slotValue? (Op.runAll w₁ os) k = some x → IsFinite x ∧ isSigned x = false) →
      (∃ s : Substitution, s.Writes table (Op.runAll w₁ os) t) ∧
      ∀ s : Substitution, s.Writes table (Op.runAll w₁ os) t → ∃ levels, ∀ o' : Options,
        byteLength (s.apply t) ≤ o'.maxLength → levels ≤ o'.maxDepth → ∀ depth,
          interpret o' (s.apply t) = (evaluate (depth + 1) e (Op.runAll w₁ os)).1 := by
  refine ⟨fun s hs => Substitution.parse_apply h hs, fun depth e bs o w w₁ os es hb hcompile
    hstarts hends hreach hnames hvalues => ⟨?_, fun s hs => ?_⟩⟩
  · exact ⟨_, Substitution.writes_digits (SymbolTable.numbered_of_bindings hb) hvalues⟩
  obtain ⟨table', tree, built, p, hparse, hbuilt, hnamed, -, hcodes, hface⟩ :=
    exists_built hcompile
  obtain ⟨hb', hp⟩ := parseWith_eq_ok hparse
  cases hb.symm.trans hb'
  obtain ⟨levels, hlevels⟩ := (hs.fragment hp hnames).parse
  have hfits : (tree.assign fun k =>
      .const ((table.slotValue? (Op.runAll w₁ os) k).getD 0)).Fits constantNames :=
    fits_of_parseWith (parseWith_of_parse ofBindings_nil
      (hlevels ⟨true, levels, _⟩ (Nat.le_refl _) (Nat.le_refl _)))
  obtain ⟨x, hx⟩ : ∃ x, tree.Inlines table (Op.runAll w₁ os).value _ x :=
    Expr.exists_inlines (fits_of_parseWith hparse)
      (fun k nv hk => by rw [SymbolTable.slotValue?, hk]; rfl) hfits
  have hmeans : built.Means table (Op.runAll w₁ os).value x := by
    rw [hbuilt]
    split
    · exact hx.folded _ _
    · exact hx.plain
  refine ⟨levels, fun o' hlength hdepth depth => ?_⟩
  obtain ⟨w', hvalue, -, heval⟩ :=
    evaluate_live hface hstarts hends hreach hnamed.fits hcodes depth
  rw [heval, hmeans _ w' hvalue, interpret, hlevels o' hlength hdepth]
  exact hx.closed.eval hfits _

/-- The text `-x^2*abs(x)`. -/
def absText : Text := ['-', 'x', '^', '2', '*', 'a', 'b', 's', '(', 'x', ')']

/-- The text `(1-x)` for every variable, if `1-x` has the tree `a`. -/
def complements (a : Expr) : Substitution := fun tok =>
  (tok.slot? putTable.resolve).map fun _ => (parens ['1', '-', 'x'], a)

lemma namesBuiltins_abs : putTable.NamesBuiltins absText := by
  have hnames : ∀ tok ∈ lexed absText, tok.kind = .word →
      putTable.resolve tok.text = some (.variable 0) ∨
        putTable.resolve tok.text = some (.function (.builtin .abs) 1) := by
    decide +kernel
  intro tok htok hk
  rcases hnames tok htok hk with hr | hr
  · exact .inl ⟨_, hr⟩
  · exact .inr ⟨_, _, hr⟩

/-- The one variable of the table is variable zero. -/
lemma slotValue_put {w : Store Unit} {k : ℕ} {x : Float}
    (hx : putTable.slotValue? w k = some x) : x = w.value 0 := by
  obtain ⟨nv, hk, rfl⟩ := Option.map_eq_some_iff.1 hx
  cases k with
  | zero =>
    cases hk
    rfl
  | succ k => cases hk

/-- It can be interpreted with digits in place of `x`, and read with `(1-x)` in its place. -/
theorem substitution_abs : ∃ (tree a : Expr) (s : Substitution) (w₁ : Store Unit)
    (es : List Event) (levels : ℕ),
    parse putTable.resolve ⟨true, 4, 15⟩ absText = .ok tree ∧
    (complements a).Fits putTable.resolve absText ∧
    (∀ o' : Options, byteLength ((complements a).apply absText) ≤ o'.maxLength →
      levels ≤ o'.maxDepth → parse putTable.resolve o' ((complements a).apply absText) =
        .ok (tree.fill ((lexed absText).filterMap ((complements a).leaf? putTable.resolve)))) ∧
    compile 1 0 putBindings ⟨true, 4, 15⟩ absText ((Op.newVariable 0 5).run (.empty ())) =
      (.ok (), w₁) ∧
    Reachable (Op.runAll w₁ [.update 0 7]) es ∧
    s.Writes putTable (Op.runAll w₁ [.update 0 7]) absText ∧
    ∃ levels, ∀ o' : Options, byteLength (s.apply absText) ≤ o'.maxLength →
      levels ≤ o'.maxDepth →
        interpret o' (s.apply absText) = (evaluate 1 0 (Op.runAll w₁ [.update 0 7])).1 := by
  let compiling : Op Unit := .compile 1 0 putBindings ⟨true, 4, 15⟩ absText
  let w₀ : Store Unit := (Op.newVariable 0 5).run (.empty ())
  have hcompiled := ((Reachable.empty ()).op (.newVariable 0 5) rfl).op compiling rfl
  obtain ⟨es, hlater⟩ : ∃ es, Reachable ((Op.update 0 7).run (compiling.run w₀)) es :=
    ⟨_, hcompiled.op (.update 0 7) trivial⟩
  have hok : (compile 1 0 putBindings ⟨true, 4, 15⟩ absText w₀).1.isOk := by
    simp only [w₀, compile, ofBindings_put]
    decide +kernel
  have hvalue : IsFinite (((Op.update 0 7).run (compiling.run w₀)).value 0) ∧
      isSigned (((Op.update 0 7).run (compiling.run w₀)).value 0) = false := by
    simp only [w₀, compiling, Op.run, compile, ofBindings_put]
    decide +kernel
  have htree : (parse putTable.resolve ⟨true, 4, 15⟩ absText).isOk := by decide +kernel
  have hone : (parse putTable.resolve ⟨true, 4, 15⟩ ['1', '-', 'x']).isOk := by decide +kernel
  rcases hparse : parse putTable.resolve ⟨true, 4, 15⟩ absText with err | tree
  · rw [hparse] at htree
    cases htree
  rcases ha : parse putTable.resolve ⟨true, 4, 15⟩ ['1', '-', 'x'] with err | a
  · rw [ha] at hone
    cases hone
  have hfits : (complements a).Fits putTable.resolve absText := by
    intro tok _ u e hput
    obtain ⟨k, hk, hpair⟩ := Option.map_eq_some_iff.1 hput
    cases hpair
    exact ⟨⟨k, hk⟩, .group ha⟩
  have hrun : compiling.run w₀ = (compile 1 0 putBindings ⟨true, 4, 15⟩ absText w₀).2 := rfl
  rcases hcompile : compile 1 0 putBindings ⟨true, 4, 15⟩ absText w₀ with ⟨err | _, w₁⟩
  · rw [hcompile] at hok
    cases hok
  rw [hcompile] at hrun
  rw [hrun] at hlater hvalue
  obtain ⟨hread, hinterpret⟩ := substitution hparse
  obtain ⟨-, levels, hlevels⟩ := hread (complements a) hfits
  obtain ⟨⟨s, hs⟩, heval⟩ := hinterpret 1 0 putBindings ⟨true, 4, 15⟩ w₀ w₁ [.update 0 7] es
    ofBindings_put hcompile (by simp [Op.starts?]) (by simp [Op.ends?]) hlater namesBuiltins_abs
    fun _ _ _ _ _ hx => slotValue_put hx ▸ hvalue
  obtain ⟨levels', hlevels'⟩ := heval s hs
  exact ⟨tree, a, s, w₁, es, levels, rfl, hfits, hlevels, rfl, hlater, hs, levels',
    fun o' hlength hdepth => hlevels' o' hlength hdepth 0⟩

end Formula
