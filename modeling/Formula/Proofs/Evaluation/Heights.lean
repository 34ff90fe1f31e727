import Formula.Proofs.Evaluation.Folding

/-!
The height of the stack.

An instruction takes some values from the stack and leaves one. The steps of a tree find all the
values that they take, and leave one value in the end. So does the program that the tree becomes,
whatever has been folded and whatever host code did meanwhile.
-/

namespace Formula

section Leaves

variable {ι : Type} {pops : ι → ℕ} {valid : ι → Prop} {i : ι} {is js : List ι} {m n : ℕ}

/-- The instructions, the last one first, leave `n` values where there were none. All are valid
and find the values that they take. -/
inductive Leaves (pops : ι → ℕ) (valid : ι → Prop) : List ι → ℕ → Prop
  | nil : Leaves pops valid [] 0
  | cons {i : ι} {is : List ι} {n : ℕ} : valid i → pops i ≤ n → Leaves pops valid is n →
      Leaves pops valid (i :: is) (n - pops i + 1)

namespace Leaves

/-- One more instruction. -/
lemma snoc (h : Leaves pops valid is n) (hi : valid i) (hle : pops i ≤ n)
    (hm : m = n - pops i + 1) : Leaves pops valid (i :: is) m :=
  hm ▸ h.cons hi hle

lemma push (h : Leaves pops valid is n) (hi : valid i) (hpops : pops i = 0) :
    Leaves pops valid (i :: is) (n + 1) :=
  h.snoc hi (by omega) (by omega)

/-- What was there before stays below. -/
lemma append (h : Leaves pops valid is m) (h' : Leaves pops valid js n) :
    Leaves pops valid (js ++ is) (m + n) := by
  induction h' with
  | nil => exact h
  | cons hi hle _ ih => exact ih.snoc hi (by omega) (by omega)

/-- Code that goes on has left something before. -/
lemma of_append (h : Leaves pops valid (js ++ is) n) : ∃ m, Leaves pops valid is m := by
  induction js generalizing n with
  | nil => exact ⟨n, h⟩
  | cons j js ih =>
    cases h with
    | cons _ _ h => exact ih h

lemma forall_valid (h : Leaves pops valid is n) : ∀ i ∈ is, valid i := by
  induction h with
  | nil => exact List.forall_mem_nil _
  | cons hi _ _ ih => exact List.forall_mem_cons.2 ⟨hi, ih⟩

lemma le_length (h : Leaves pops valid is n) : n ≤ is.length := by
  induction h with
  | nil => exact Nat.le_refl 0
  | cons _ _ _ ih =>
    rw [List.length_cons]
    omega

end Leaves

end Leaves

variable {σ : Type} {table : SymbolTable σ}

/-! ### Trees -/

namespace Step

def pops : Step → ℕ
  | const _ => 0
  | var _ => 0
  | neg => 1
  | binary _ => 2
  | call _ argc => argc

/-- The step reads a variable of the table, or calls a function with the number of arguments
that the function takes. -/
inductive Valid (table : SymbolTable σ) : Step → Prop
  | const (x : Float) : Valid table (.const x)
  | var {k : ℕ} {nv : Name × VarId} : table.vars[k]? = some nv → Valid table (.var k)
  | neg : Valid table .neg
  | binary (o : Operator) : Valid table (.binary o)
  | call {c : Callee} {t : Target σ} {n : ℕ} : table.target c = .ok t → t.arity = n →
      Valid table (.call c n)

end Step

/-- Steps, the last one first, that fit the table and leave `n` values. -/
abbrev SymbolTable.Leaves (table : SymbolTable σ) : List Step → ℕ → Prop :=
  Formula.Leaves Step.pops (Step.Valid table)

namespace Expr

lemma leaves_of_args {as : List Expr} (h : ∀ a ∈ as, table.Leaves a.steps.reverse 1) :
    table.Leaves (stepsList as).reverse as.length := by
  induction as with
  | nil => exact .nil
  | cons a as ih =>
    have has := ih fun b hb => h b (List.mem_cons_of_mem _ hb)
    rw [stepsList_cons, List.reverse_append, List.length_cons, Nat.add_comm]
    exact (h a (by simp)).append has

/-- A tree leaves its value. -/
lemma leaves_of_fits {tree : Expr} (h : tree.Fits table) :
    table.Leaves tree.steps.reverse 1 := by
  induction h with
  | const x => exact Leaves.nil.push (.const x) rfl
  | var hk => exact Leaves.nil.push (.var hk) rfl
  | neg _ ih =>
    rw [steps_neg, List.reverse_append]
    exact ih.snoc .neg (Nat.le_refl 1) rfl
  | binary _ _ ih₁ ih₂ =>
    rw [steps_binary, List.reverse_append, List.reverse_append]
    exact (ih₁.append ih₂).snoc (.binary _) (Nat.le_refl 2) rfl
  | @call c as t hc harity _ ih =>
    rw [steps_call, List.reverse_append]
    exact (leaves_of_args ih).snoc (.call hc harity) (Nat.le_refl as.length)
      (by simp [Step.pops])

end Expr

/-! ### Programs -/

/-- The instruction reads one of so many slots, or calls a function with the number of arguments
that the function takes. -/
inductive Instr.Valid (slots : ℕ) : Instr σ → Prop
  | const (x : Float) : Valid slots (.const x)
  | var {k : ℕ} : k < slots → Valid slots (.var k)
  | neg : Valid slots .neg
  | binary (o : Operator) : Valid slots (.binary o)
  | call {t : Target σ} {n : ℕ} : t.arity = n → Valid slots (.call t n)

namespace Program

/-- Code, the last instruction first, that leaves `n` values. -/
abbrev Leaves (slots : ℕ) : Program σ → ℕ → Prop :=
  Formula.Leaves Instr.pops (Instr.Valid slots)

/-- The program leaves one value. It finds all that it needs on the stack and in its slots. -/
def Yields (p : Program σ) (slots : ℕ) : Prop := Leaves slots p.reverse 1

variable {slots n : ℕ} {p : Program σ}

/-- Constants leave what they are. -/
lemma leaves_constants {xs : List Float} (h : Leaves slots (xs.map .const ++ p) n) :
    ∃ m, n = m + xs.length ∧ Leaves slots p m := by
  induction xs generalizing n with
  | nil => exact ⟨n, rfl, h⟩
  | cons x xs ih =>
    rw [List.map_cons, List.cons_append] at h
    cases h with
    | cons _ _ h =>
      obtain ⟨m, rfl, hm⟩ := ih h
      exact ⟨m, by simp [Instr.pops]; omega, hm⟩

end Program

namespace Lowering

variable {slots n : ℕ} {p : Program σ} (ev₀ : Evaluator σ) (fold : Bool)

/-- A call that is added finds its arguments in the code before it, or is folded with them. -/
lemma call_leaves {t : Target σ} {argc : ℕ} (harity : t.arity = argc)
    (hp : p.Leaves slots n) (hle : argc ≤ n) (w : Store σ) :
    ∃ q w', call ev₀ fold t argc p w = (.ok q, w') ∧ q.Leaves slots (n - argc + 1) := by
  have hlen : argc ≤ p.length := Nat.le_trans hle hp.le_length
  have hkeep : Program.Leaves slots (.call t argc :: p) (n - argc + 1) :=
    hp.cons (.call harity) hle
  by_cases hfold : (fold && t.isPure) = true
  · obtain ⟨rfl, ht⟩ : fold = true ∧ t.isPure = true := by simpa using hfold
    rcases hm : (p.take argc).reverse.mapM Instr.constant? with _ | xs
    · exact ⟨_, w, call_of_mapM_eq_none hlen hm, hkeep⟩
    · -- the arguments are the constants `xs`
      have htake : p.take argc = xs.reverse.map .const := by
        rw [List.map_reverse, ← eq_constants_of_mapM hm, List.reverse_reverse]
      have hsplit : p = xs.reverse.map .const ++ p.drop argc := by
        rw [← htake, List.take_append_drop]
      have hargc : xs.reverse.length = argc := by
        have hcount := congrArg List.length htake
        rw [List.length_take_of_le hlen, List.length_map] at hcount
        exact hcount.symm
      generalize xs.reverse = ys at hsplit hargc
      generalize p.drop argc = rest at hsplit
      subst hsplit
      subst hargc
      obtain ⟨m, rfl, hrest⟩ := Program.leaves_constants hp
      have hroom : ys.length ≤ maxArity := harity ▸ t.arity_le
      rw [call_constants ht hroom]
      rcases t.run ev₀ ys.reverse w with ⟨err | x, w'⟩
      · exact ⟨_, _, rfl, hkeep⟩
      · refine ⟨_, _, rfl, ?_⟩
        rw [Nat.add_sub_cancel]
        exact hrest.push (.const x) rfl
  · exact ⟨_, w, call_kept hlen (Bool.eq_false_iff.2 hfold), hkeep⟩

/-- What a step leaves, the code leaves that is added for it. -/
lemma step_leaves {s : Step} (hs : s.Valid table) (hp : p.Leaves table.vars.length n)
    (hle : s.pops ≤ n) (w : Store σ) :
    ∃ q w', step ev₀ table fold s p w = (.ok q, w') ∧
      q.Leaves table.vars.length (n - s.pops + 1) := by
  cases hs with
  | const x => exact ⟨_, w, rfl, hp.push (.const x) rfl⟩
  | @var k nv hk =>
    have hlt : k < table.vars.length := (List.getElem?_eq_some_iff.1 hk).1
    exact ⟨_, w, rfl, hp.push (.var hlt) rfl⟩
  | neg =>
    simp only [step]
    split
    · rename_i x p
      obtain ⟨m, rfl, hp'⟩ : ∃ m, n = m + [x].length ∧ Program.Leaves _ p m :=
        Program.leaves_constants hp
      exact ⟨_, w, rfl, hp'.push (.const (-x)) rfl⟩
    · exact ⟨_, w, rfl, hp.cons .neg hle⟩
  | binary o =>
    simp only [step]
    split
    · rename_i b a p
      obtain ⟨m, rfl, hp'⟩ : ∃ m, n = m + [b, a].length ∧ Program.Leaves _ p m :=
        Program.leaves_constants hp
      exact ⟨_, _, rfl, hp'.push (.const (o.apply a b)) rfl⟩
    · exact ⟨_, w, rfl, hp.cons (.binary o) hle⟩
  | call hc harity =>
    simp only [step, hc]
    exact call_leaves ev₀ fold harity hp hle w

lemma steps_leaves {ss : List Step} (h : table.Leaves ss n) (w : Store σ) :
    ∃ q w', steps ev₀ table fold ss.reverse [] w = (.ok q, w') ∧
      q.Leaves table.vars.length n := by
  induction h with
  | nil => exact ⟨[], w, rfl, .nil⟩
  | cons hs hle _ ih =>
    obtain ⟨p, w', hsteps, hp⟩ := ih
    obtain ⟨q, w'', hstep, hq⟩ := step_leaves ev₀ fold hs hp hle w'
    refine ⟨q, w'', ?_, hq⟩
    rw [List.reverse_cons, steps_append, hsteps]
    simp only [steps, hstep]

end Lowering

/-- **A tree that fits becomes a program** that leaves one value. -/
theorem lower_yields {tree : Expr} (h : tree.Fits table) (ev₀ : Evaluator σ) (fold : Bool)
    (w : Store σ) :
    ∃ p w', lower ev₀ table fold tree w = (.ok p, w') ∧ p.Yields table.vars.length := by
  obtain ⟨q, w', hsteps, hq⟩ := Lowering.steps_leaves ev₀ fold (Expr.leaves_of_fits h) w
  rw [List.reverse_reverse] at hsteps
  refine ⟨q.reverse, w', ?_, ?_⟩
  · rw [lower_eq, hsteps]
    rfl
  · rwa [Program.Yields, List.reverse_reverse]

end Formula
