import Formula.Proofs.Evaluation.Live
import Formula.Proofs.Parser.NodeTokens

/-!
The size of programs.

A step of a tree adds one instruction to the program, and if something is folded takes others away.
So a program is as long as its tree is large, or shorter, and the tokens of the text say how large
that is. Main statement: `program_size_linear`.
-/

namespace Formula

variable {σ : Type} {ev : Evaluator σ} {table : SymbolTable σ} {fold : Bool} {w w' : Store σ}

/-! ### Steps -/

/-- A tree has a step for every node. -/
lemma Expr.length_steps (e : Expr) : e.steps.length = e.size := by
  induction e using Expr.induct with
  | const x => rfl
  | var k => rfl
  | neg a ih => rw [steps_neg, List.length_append, ih]; rfl
  | binary o a b iha ihb => rw [steps_binary, List.length_append, List.length_append, iha, ihb]; rfl
  | call c as ih =>
    have hargs : (stepsList as).length = sizeList as := by
      induction as with
      | nil => rfl
      | cons a as ihas =>
        rw [stepsList_cons, List.length_append, ih a List.mem_cons_self,
          ihas fun b hb => ih b (List.mem_cons_of_mem _ hb)]
        rfl
    rw [steps_call, List.length_append, hargs]
    rfl

namespace Lowering

variable {p q : Program σ}

/-- Code of `n` instructions has become code of `m`: longer by `k` of them, or by less if constants
are folded. -/
def Grows (fold : Bool) (n k m : ℕ) : Prop := m ≤ n + k ∧ (fold = false → m = n + k)

lemma Grows.push (n : ℕ) : Grows fold n 1 (n + 1) := ⟨Nat.le_refl _, fun _ => rfl⟩

lemma Grows.trans {n k m l r : ℕ} (h : Grows fold n k m) (h' : Grows fold m l r) :
    Grows fold n (k + l) r :=
  ⟨by have := h.1; have := h'.1; omega, fun hf => by have := h.2 hf; have := h'.2 hf; omega⟩

lemma length_call {t : Target σ} {argc : ℕ} (h : call ev fold t argc p w = (.ok q, w')) :
    Grows fold p.length 1 q.length := by
  unfold call at h
  split at h
  · cases h
  · split at h
    · rename_i hfold
      split at h
      · -- the value takes the place of the arguments
        cases h
        refine ⟨?_, fun hoff => by simp [hoff] at hfold⟩
        rw [List.length_cons, List.length_drop]
        omega
      · cases h
        exact .push _
      · cases h
    · cases h
      exact .push _

/-- A step adds one instruction at most, and without folding just one. -/
lemma length_step {s : Step} (h : step ev table fold s p w = (.ok q, w')) :
    Grows fold p.length 1 q.length := by
  cases s with
  | const x =>
    cases h
    exact .push _
  | var k =>
    cases h
    exact .push _
  | neg =>
    simp only [step] at h
    split at h
    · cases h
      exact ⟨by simp, by simp⟩
    · cases h
      exact .push _
  | binary o =>
    simp only [step] at h
    split at h
    · cases h
      exact ⟨by simp, by simp⟩
    · cases h
      exact .push _
  | call c argc =>
    simp only [step] at h
    split at h
    · exact length_call h
    · cases h

lemma length_steps {ss : List Step} (h : steps ev table fold ss p w = (.ok q, w')) :
    Grows fold p.length ss.length q.length := by
  induction ss generalizing p w with
  | nil =>
    cases h
    exact ⟨Nat.le_refl _, fun _ => rfl⟩
  | cons s ss ih =>
    simp only [steps] at h
    rcases hs : step ev table fold s p w with ⟨err | p', w₁⟩
    · rw [hs] at h
      cases h
    · rw [hs] at h
      have hgrows := (length_step hs).trans (ih h)
      rwa [Nat.add_comm 1 ss.length] at hgrows

/-- The program of a tree is no longer than the tree is large, and without folding just as long. -/
theorem length_lower {tree : Expr} (h : lower ev table fold tree w = (.ok p, w')) :
    p.length ≤ tree.size ∧ (fold = false → p.length = tree.size) := by
  rw [lower_eq] at h
  rcases hs : steps ev table fold tree.steps [] w with ⟨err | q, w₁⟩
  · rw [hs] at h
    cases h
  · rw [hs] at h
    cases h
    have hgrows := length_steps hs
    rw [List.length_nil, Expr.length_steps, Grows, Nat.zero_add] at hgrows
    rwa [List.length_reverse]

end Lowering

/-! ### Compiled texts -/

variable {w₁ : Store σ} {e : ExprId} {depth : ℕ} {bs : List (Binding σ)} {o : Options} {text : Text}

lemma compile_ok_iff (hb : SymbolTable.ofBindings bs = .ok table) :
    (compile depth e bs o text w).1 = .ok () ↔
      w.Free table.vars ∧ ∃ tree, parse table.resolve o text = .ok tree := by
  have hends : (¬w.Free table.vars ∧ (compile depth e bs o text w).1 = _) ∨ _ :=
    compile_of_table hb
  rcases hends with ⟨hfree, hr⟩ | ⟨hfree, ⟨err, hp, hr⟩ | ⟨tree, hp, hr⟩⟩
  · simp [hfree, hr]
  · simp [hr, hp]
  · simp [hfree, hr, hp]

/-- What compiles with folding compiles without, and the other way round. -/
lemma exists_compile_of_fold (h : compile depth e bs o text w = (.ok (), w₁)) (fold : Bool) :
    ∃ w₂, compile depth e bs { o with foldConstants := fold } text w = (.ok (), w₂) := by
  obtain ⟨table, tree, p, w', hparse, -⟩ := exists_compiled h
  obtain ⟨hb, -⟩ := parseWith_eq_ok hparse
  have hok := (compile_ok_iff hb).1 (congrArg Prod.fst h)
  -- the parser does not look whether constants are to be folded
  have hfold : (compile depth e bs { o with foldConstants := fold } text w).1 = .ok () :=
    (compile_ok_iff hb).2 hok
  exact ⟨_, Prod.ext hfold rfl⟩

/-- **Programs are no longer than their texts.** Let a text compile, with constants folded or not.
Then it compiles either way. Without folding the program has an instruction for every number, every
name and every operator of the text but for plus signs in front of an operand, and with folding it
has no more than that, as long as it is there. So it has no more instructions than the text has
tokens, and than the bound on its length. -/
theorem program_size_linear (hcompile : compile depth e bs o text w = (.ok (), w₁)) :
    ∃ ts, Words text ts ∧ nodeTokens ts ≤ ts.length ∧ ts.length ≤ byteLength text ∧
      byteLength text ≤ o.maxLength ∧
      ∀ fold, ∃ w₂, compile depth e bs { o with foldConstants := fold } text w = (.ok (), w₂) ∧
        ∀ os : List (Op σ), (∀ op ∈ os, op.starts? ≠ some e) → (∀ op ∈ os, op.ends? ≠ some e) →
          ∃ c, (Op.runAll w₂ os).exprs.get? e = some c ∧ c.isClosed = false ∧
            c.nodeCount ≤ nodeTokens ts ∧ (fold = false → c.nodeCount = nodeTokens ts) := by
  obtain ⟨table, tree, -, -, hparse, -, -⟩ := exists_compiled hcompile
  obtain ⟨-, hp⟩ := parseWith_eq_ok hparse
  obtain ⟨ts, hw, hsize⟩ := size_of_parse hp
  obtain ⟨hlength, -⟩ := reads_of_parse hp
  refine ⟨ts, hw, nodeTokens_le_length ts, hw.length_le, hlength, fun fold => ?_⟩
  obtain ⟨w₂, hcompile₂⟩ := exists_compile_of_fold hcompile fold
  refine ⟨w₂, hcompile₂, fun os hstarts hends => ?_⟩
  obtain ⟨table', tree', p, w', hparse', hlower, hface⟩ := exists_compiled hcompile₂
  have hsame : parseWith bs o text = .ok (table', tree') := hparse'
  cases hparse.symm.trans hsame
  obtain ⟨c, hc, hprogram, -⟩ := exists_live hface hstarts hends
  obtain ⟨hle, heq⟩ := Lowering.length_lower hlower
  rw [hsize] at hle heq
  have hcount : c.nodeCount = p.length := by simp [Compiled.nodeCount, hprogram]
  rw [← hcount] at hle heq
  exact ⟨c, hc, by simp [Compiled.isClosed, hprogram], hle, heq⟩

/-- The text `+inc(-2)+x`. -/
def plusText : Text := ['+', 'i', 'n', 'c', '(', '-', '2', ')', '+', 'x']

/-- The first plus sign of `+inc(-2)+x` leaves no instruction, and the second does. -/
theorem program_size_linear_plus : ∃ ts, Words plusText ts ∧ nodeTokens ts = 5 ∧
    (∃ (w₁ : Store Unit) (c : Compiled Unit),
      compile 1 0 putBindings ⟨true, 4, 10⟩ plusText (.empty ()) = (.ok (), w₁) ∧
      (Op.runAll w₁ [.update 0 7, .evaluate 2 0]).exprs.get? 0 = some c ∧ c.nodeCount ≤ 5) ∧
    ∃ (w₂ : Store Unit) (c : Compiled Unit),
      compile 1 0 putBindings ⟨false, 4, 10⟩ plusText (.empty ()) = (.ok (), w₂) ∧
      w₂.exprs.get? 0 = some c ∧ c.nodeCount = 5 := by
  have hok : (compile 1 0 putBindings ⟨true, 4, 10⟩ plusText (.empty ())).1.isOk := by
    simp only [compile, ofBindings_put]
    decide +kernel
  have hcount : (tokenize plusText).toOption.map (fun ts => nodeTokens ts.dropLast) = some 5 := by
    decide +kernel
  rcases hcompile : compile 1 0 putBindings ⟨true, 4, 10⟩ plusText (.empty ()) with ⟨err | _, w₁⟩
  · rw [hcompile] at hok
    cases hok
  · obtain ⟨ts, hw, -, -, -, hboth⟩ := program_size_linear hcompile
    obtain ⟨last, htokens, hlast⟩ := hw
    have hfive : nodeTokens ts = 5 := by
      rw [htokens] at hcount
      simpa [Except.toOption] using hcount
    obtain ⟨w₁', hcompile', hfolded⟩ := hboth true
    obtain ⟨w₂, hcompile₂, hplain⟩ := hboth false
    cases hcompile.symm.trans hcompile'
    obtain ⟨c, hc, -, hle, -⟩ :=
      hfolded [.update 0 7, .evaluate 2 0] (by simp [Op.starts?]) (by simp [Op.ends?])
    obtain ⟨c₂, hc₂, -, -, heq⟩ := hplain [] (by simp) (by simp)
    exact ⟨ts, ⟨last, htokens, hlast⟩, hfive, ⟨w₁, c, rfl, hc, hfive ▸ hle⟩, w₂, c₂, hcompile₂, hc₂,
      (heq rfl).trans hfive⟩

end Formula
