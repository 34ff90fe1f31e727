import Formula.Proofs.Evaluation.FoldTree

/-!
What folding leaves of a tree.

Main statement: `lower_eq_fold`. With folding the compiler makes the program of the folded tree
and calls the functions that folding it calls; without folding it makes the program of the tree
itself and calls nothing. In the folded tree nothing is left to compute but calls that have failed,
and it is a constant unless the tree has a variable or an impure call, or a call failed.
-/

namespace Formula

variable {σ : Type} {ev : Evaluator σ} {table : SymbolTable σ}

namespace Expr

mutual
/-- The nodes of the tree, operands before the node. -/
def nodes : Expr → List Expr
  | const x => [const x]
  | var k => [var k]
  | neg a => nodes a ++ [neg a]
  | binary o a b => nodes a ++ nodes b ++ [binary o a b]
  | call c as => nodesList as ++ [call c as]
def nodesList : List Expr → List Expr
  | [] => []
  | a :: as => nodes a ++ nodesList as
end

/-- The host function that a node calls. -/
def site? (table : SymbolTable σ) : Expr → Option (Name × HostFunction σ)
  | call (.bound i) _ => table.functionAt? i
  | _ => none

/-- The node does not keep a tree from being a constant: it is no variable, and no call of an
impure function. -/
def Steady (table : SymbolTable σ) (n : Expr) : Prop :=
  (∀ k, n ≠ var k) ∧ ∀ c as t, n = call c as → table.target c = .ok t → t.isPure

/-- Nothing is left to compute at the node: it is no operator with constant operands, and if it is
a call of a pure function with constant arguments then that call was made and failed. -/
def Settled (table : SymbolTable σ) (calls : List (Call σ)) (n : Expr) : Prop :=
  (∀ x, n ≠ neg (const x)) ∧ (∀ o x y, n ≠ binary o (const x) (const y)) ∧
  ∀ c t xs, n = call c (xs.map const) → table.target c = .ok t → t.isPure →
    ∃ name f msg, t = .host name f ∧ ⟨name, f, xs, .error msg⟩ ∈ calls

end Expr

/-! ### Calls and what comes of them -/

lemma Target.calls_ok {t : Target σ} {xs : List Float} {x : Float} {w w' : Store σ}
    (h : t.run ev xs w = (.ok x, w')) : ∀ c ∈ t.calls ev xs w, ∃ y, c.result = .ok y := by
  cases t with
  | builtin b => exact fun c hc => absurd hc List.not_mem_nil
  | host n f =>
    intro c hc
    obtain rfl := List.mem_singleton.1 hc
    have hresult : ((f.call xs).run ev w).1.mapError (Error.evaluation n.text) = .ok x :=
      congrArg Prod.fst h
    rcases hrun : ((f.call xs).run ev w).1 with msg | y
    · rw [hrun] at hresult
      cases hresult
    · exact ⟨y, rfl⟩

lemma Target.calls_error {t : Target σ} {xs : List Float} {err : Error} {w w' : Store σ}
    (h : t.run ev xs w = (.error err, w')) :
    ∃ n f msg, t = .host n f ∧ t.calls ev xs w = [⟨n, f, xs, .error msg⟩] := by
  cases t with
  | builtin b => cases h
  | host n f =>
    have hresult : ((f.call xs).run ev w).1.mapError (Error.evaluation n.text) = .error err :=
      congrArg Prod.fst h
    rcases hrun : ((f.call xs).run ev w).1 with msg | y
    · exact ⟨n, f, msg, rfl, by rw [Target.calls, hrun]⟩
    · rw [hrun] at hresult
      cases hresult

lemma Target.calls_isPure {t : Target σ} (ht : t.isPure) (xs : List Float) (w : Store σ) :
    ∀ c ∈ t.calls ev xs w, c.function.isPure := by
  cases t with
  | builtin b => exact fun c hc => absurd hc List.not_mem_nil
  | host n f =>
    intro c hc
    obtain rfl := List.mem_singleton.1 hc
    exact ht

namespace Expr

open Lowering (constants_of_mapM mapM_constants)

variable {a b : Expr} {as : List Expr} {c : Callee} {t : Target σ} {w : Store σ}
  {calls calls' : List (Call σ)} {n : Expr}

lemma Settled.mono (h : n.Settled table calls) (hsub : calls ⊆ calls') :
    n.Settled table calls' := by
  refine ⟨h.1, h.2.1, fun c t xs hn hc ht => ?_⟩
  obtain ⟨name, f, msg, rfl, hmem⟩ := h.2.2 c t xs hn hc ht
  exact ⟨name, f, msg, rfl, hsub hmem⟩

/-! ### Nothing is left to compute -/

/-- All nodes of the tree are settled. -/
def AllSettled (table : SymbolTable σ) (calls : List (Call σ)) (e : Expr) : Prop :=
  ∀ n ∈ e.nodes, n.Settled table calls

lemma AllSettled.mono (h : a.AllSettled table calls) (hsub : calls ⊆ calls') :
    a.AllSettled table calls' := fun n hn => (h n hn).mono hsub

lemma allSettled_const (x : Float) : (const x).AllSettled table calls := by
  intro n hn
  obtain rfl := List.mem_singleton.1 hn
  exact ⟨fun _ => nofun, fun _ _ _ => nofun, fun _ _ _ => nofun⟩

lemma allSettled_var (k : ℕ) : (var k).AllSettled table calls := by
  intro n hn
  obtain rfl := List.mem_singleton.1 hn
  exact ⟨fun _ => nofun, fun _ _ _ => nofun, fun _ _ _ => nofun⟩

lemma allSettled_foldedNeg (h : a.AllSettled table calls) :
    (foldedNeg a).AllSettled table calls := by
  by_cases hx : ∃ x, a = const x
  · obtain ⟨x, rfl⟩ := hx
    exact allSettled_const _
  · have hneg : foldedNeg a = neg a := by
      cases a with
      | const x => exact absurd ⟨x, rfl⟩ hx
      | _ => rfl
    rw [hneg]
    intro n hn
    rw [nodes] at hn
    rcases List.mem_append.1 hn with hn | hn
    · exact h n hn
    · obtain rfl := List.mem_singleton.1 hn
      exact ⟨fun x heq => hx ⟨x, neg.inj heq⟩, fun _ _ _ => nofun, fun _ _ _ => nofun⟩

lemma allSettled_foldedBinary {o : Operator} (ha : a.AllSettled table calls)
    (hb : b.AllSettled table calls) :
    (foldedBinary o a b w).value.AllSettled table calls := by
  by_cases hx : ∃ x y, a = const x ∧ b = const y
  · obtain ⟨x, y, rfl, rfl⟩ := hx
    exact allSettled_const _
  · have hbinary : foldedBinary o a b w = .still (binary o a b) w := by
      unfold foldedBinary
      split
      · exact absurd ⟨_, _, rfl, rfl⟩ hx
      · rfl
    rw [hbinary]
    intro n hn
    change n ∈ a.nodes ++ b.nodes ++ [binary o a b] at hn
    rcases List.mem_append.1 hn with hn | hn
    · rcases List.mem_append.1 hn with hn | hn
      · exact ha n hn
      · exact hb n hn
    · obtain rfl := List.mem_singleton.1 hn
      refine ⟨fun _ => nofun, fun o x y heq => hx ⟨x, y, ?_⟩, fun _ _ _ => nofun⟩
      obtain ⟨-, ha, hb⟩ := binary.inj heq
      exact ⟨ha, hb⟩

lemma allSettled_foldedCall (hc : table.target c = .ok t)
    (h : ∀ n ∈ nodesList as, n.Settled table calls) :
    (foldedCall ev table c as w).value.AllSettled table
      (calls ++ (foldedCall ev table c as w).calls) := by
  have hroot {calls' : List (Call σ)} (hcall : ∀ xs, as = xs.map const → t.isPure →
      ∃ name f msg, t = .host name f ∧ ⟨name, f, xs, .error msg⟩ ∈ calls ++ calls') :
      (call c as).AllSettled table (calls ++ calls') := by
    intro n hn
    rw [nodes] at hn
    rcases List.mem_append.1 hn with hn | hn
    · exact (h n hn).mono (List.subset_append_left _ _)
    · obtain rfl := List.mem_singleton.1 hn
      refine ⟨fun _ => nofun, fun _ _ _ => nofun, fun c' t' xs heq hc' ht => ?_⟩
      obtain ⟨rfl, rfl⟩ := call.inj heq
      obtain rfl := Except.ok.inj (hc.symm.trans hc')
      exact hcall xs rfl ht
  rcases foldedCall_cases ev hc as w with ⟨hkept, hfold⟩ | ⟨xs, w', ht, hxs, hmade⟩
  · rw [hfold]
    refine hroot fun xs heq ht => ?_
    rcases hkept with himpure | hnone
    · rw [ht] at himpure
      cases himpure
    · rw [heq, mapM_constants] at hnone
      cases hnone
  · rcases hmade with ⟨x, -, hfold⟩ | ⟨err, hrun, hfold⟩
    · rw [hfold]
      exact allSettled_const x
    · rw [hfold]
      refine hroot fun ys heq _ => ?_
      obtain ⟨n, f, msg, rfl, hcalls⟩ := Target.calls_error hrun
      have hys : ys = xs := by
        rw [heq, mapM_constants] at hxs
        exact Option.some.inj hxs
      refine ⟨n, f, msg, rfl, List.mem_append_right _ ?_⟩
      rw [hcalls, hys]
      exact List.mem_singleton_self _

lemma settled_foldList (h : ∀ a ∈ as, ∀ w, (a.fold ev table w).value.AllSettled table
      (a.fold ev table w).calls) (w : Store σ) :
    ∀ n ∈ nodesList (foldList ev table as w).value,
      n.Settled table (foldList ev table as w).calls := by
  induction as generalizing w with
  | nil =>
    rw [foldList]
    exact fun n hn => absurd hn List.not_mem_nil
  | cons a as ih =>
    rw [foldList]
    intro n hn
    change n ∈ nodes _ ++ nodesList _ at hn
    rcases List.mem_append.1 hn with hn | hn
    · refine (h a List.mem_cons_self w n hn).mono ?_
      exact List.subset_append_left _ _
    · refine (ih (fun b hb => h b (List.mem_cons_of_mem _ hb)) _ n hn).mono ?_
      simp [Folding.bind, Folding.still]

/-- Folding leaves nothing to compute. -/
lemma allSettled_fold {e : Expr} (h : e.Fits table) (w : Store σ) :
    (e.fold ev table w).value.AllSettled table (e.fold ev table w).calls := by
  induction h generalizing w with
  | const x =>
    rw [fold]
    exact allSettled_const x
  | var _ =>
    rw [fold]
    exact allSettled_var _
  | neg _ ih =>
    rw [fold]
    have h := allSettled_foldedNeg (ih w)
    simpa [Folding.bind, Folding.still] using h
  | binary _ _ ih₁ ih₂ =>
    rw [fold]
    refine allSettled_foldedBinary ((ih₁ w).mono ?_) ((ih₂ _).mono ?_)
    · exact List.subset_append_left _ _
    · exact List.Subset.trans (List.subset_append_left _ _) (List.subset_append_right _ _)
  | call hc _ _ ih =>
    rw [fold]
    exact allSettled_foldedCall hc (settled_foldList ih w)

/-! ### Constants -/

/-- Nothing keeps the nodes from being constants, neither a variable nor an impure call nor a call
that failed. -/
def AllSteady (table : SymbolTable σ) (ns : List Expr) (calls : List (Call σ)) : Prop :=
  (∀ n ∈ ns, n.Steady table) ∧ ∀ c ∈ calls, ∃ y, c.result = .ok y

lemma allSteady_append {ns ms : List Expr} :
    AllSteady table (ns ++ ms) (calls ++ calls') ↔
      AllSteady table ns calls ∧ AllSteady table ms calls' := by
  simp only [AllSteady, List.forall_mem_append]
  constructor
  · rintro ⟨⟨h₁, h₂⟩, h₃, h₄⟩
    exact ⟨⟨h₁, h₃⟩, h₂, h₄⟩
  · rintro ⟨⟨h₁, h₃⟩, h₂, h₄⟩
    exact ⟨⟨h₁, h₂⟩, h₃, h₄⟩

lemma allSteady_singleton (h : n.Steady table) : AllSteady table [n] [] := by
  refine ⟨fun m hm => ?_, fun c hc => absurd hc List.not_mem_nil⟩
  rwa [List.mem_singleton.1 hm]

lemma not_const (h : n.constant? = none) : ¬∃ x, n = const x := by
  rintro ⟨x, rfl⟩
  cases h

lemma steady_of_pure (hc : table.target c = .ok t) (ht : t.isPure) : (call c as).Steady table := by
  refine ⟨fun _ => nofun, fun c' as' t' heq hc' => ?_⟩
  obtain ⟨rfl, rfl⟩ := call.inj heq
  rwa [Except.ok.inj (hc'.symm.trans hc)]

lemma steady_const (x : Float) : (const x).Steady table := ⟨fun _ => nofun, fun _ _ _ => nofun⟩

lemma steady_neg (a : Expr) : (neg a).Steady table := ⟨fun _ => nofun, fun _ _ _ => nofun⟩

lemma steady_binary (o : Operator) (a b : Expr) : (binary o a b).Steady table :=
  ⟨fun _ => nofun, fun _ _ _ => nofun⟩

lemma foldedNeg_const : (∃ x, foldedNeg a = const x) ↔ ∃ x, a = const x := by
  cases a with
  | const x => exact ⟨fun _ => ⟨x, rfl⟩, fun _ => ⟨-x, rfl⟩⟩
  | _ => exact ⟨fun h => absurd h (not_const rfl), fun h => absurd h (not_const rfl)⟩

lemma foldedBinary_const {o : Operator} :
    (foldedBinary o a b w).calls = [] ∧ ((∃ x, (foldedBinary o a b w).value = const x) ↔
      (∃ x, a = const x) ∧ ∃ y, b = const y) := by
  unfold foldedBinary
  split
  · rename_i x y
    exact ⟨rfl, fun _ => ⟨⟨x, rfl⟩, y, rfl⟩, fun _ => ⟨o.apply x y, rfl⟩⟩
  · rename_i hne
    refine ⟨rfl, fun h => absurd h (not_const rfl), ?_⟩
    rintro ⟨⟨x, rfl⟩, y, rfl⟩
    exact absurd rfl (hne x y rfl)

/-- A call comes to a constant if its arguments have, its function is pure, and it does not
fail. -/
lemma foldedCall_const (hc : table.target c = .ok t) (bs : List Expr) :
    (∃ x, (foldedCall ev table c as w).value = const x) ↔
      (∃ xs : List Float, as = xs.map const) ∧
        AllSteady table [call c bs] (foldedCall ev table c as w).calls := by
  rcases foldedCall_cases ev hc as w with ⟨hkept, hfold⟩ | ⟨xs, w', ht, hxs, hmade⟩
  · rw [hfold]
    refine ⟨fun h => absurd h (not_const rfl), ?_⟩
    rintro ⟨⟨xs, rfl⟩, hnode, -⟩
    rcases hkept with himpure | hnone
    · have ht := (hnode _ (List.mem_singleton_self _)).2 c _ t rfl hc
      rw [himpure] at ht
      cases ht
    · rw [mapM_constants] at hnone
      cases hnone
  · have hconst : ∃ xs : List Float, as = xs.map const := ⟨xs, constants_of_mapM hxs⟩
    rcases hmade with ⟨x, hrun, hfold⟩ | ⟨err, hrun, hfold⟩
    · rw [hfold]
      refine ⟨fun _ => ⟨hconst, fun n hn => ?_, Target.calls_ok hrun⟩, fun _ => ⟨x, rfl⟩⟩
      rw [List.mem_singleton.1 hn]
      exact steady_of_pure hc ht
    · rw [hfold]
      refine ⟨fun h => absurd h (not_const rfl), ?_⟩
      rintro ⟨-, -, hok⟩
      obtain ⟨n, f, msg, rfl, hcalls⟩ := Target.calls_error hrun
      obtain ⟨y, hy⟩ := hok ⟨n, f, xs, .error msg⟩ (by simp [hcalls])
      cases hy

lemma foldList_const (h : ∀ a ∈ as, ∀ w, (∃ x, (a.fold ev table w).value = const x) ↔
      AllSteady table a.nodes (a.fold ev table w).calls) (w : Store σ) :
    (∃ xs : List Float, (foldList ev table as w).value = xs.map const) ↔
      AllSteady table (nodesList as) (foldList ev table as w).calls := by
  induction as generalizing w with
  | nil =>
    rw [foldList, nodesList]
    refine ⟨fun _ => ⟨fun n hn => absurd hn List.not_mem_nil,
      fun c hc => absurd hc List.not_mem_nil⟩, fun _ => ⟨[], rfl⟩⟩
  | cons a as ih =>
    have ha := h a List.mem_cons_self w
    have has := ih (fun b hb => h b (List.mem_cons_of_mem _ hb)) (a.fold ev table w).store
    rw [foldList, nodesList]
    simp only [Folding.bind, Folding.still, List.append_nil]
    rw [allSteady_append, ← ha, ← has]
    constructor
    · rintro ⟨_ | ⟨x, xs⟩, heq⟩
      · cases heq
      · obtain ⟨hx, hxs⟩ := List.cons.inj heq
        exact ⟨⟨x, hx⟩, xs, hxs⟩
    · rintro ⟨⟨x, hx⟩, xs, hxs⟩
      exact ⟨x :: xs, by rw [hx, hxs, List.map_cons]⟩

/-- **The whole tree is folded** unless a variable, an impure call or a failed call is in the
way. -/
lemma fold_const {e : Expr} (h : e.Fits table) (w : Store σ) :
    (∃ x, (e.fold ev table w).value = const x) ↔
      AllSteady table e.nodes (e.fold ev table w).calls := by
  induction h generalizing w with
  | const x =>
    rw [fold, nodes]
    exact ⟨fun _ => allSteady_singleton (steady_const x), fun _ => ⟨x, rfl⟩⟩
  | @var k _ _ =>
    rw [fold, nodes]
    refine ⟨fun h => absurd h (not_const rfl), fun h => ?_⟩
    exact absurd rfl ((h.1 (var k) (List.mem_singleton_self _)).1 k)
  | @neg a _ ih =>
    rw [fold, nodes]
    simp only [Folding.bind, Folding.still]
    rw [allSteady_append, ← ih w, foldedNeg_const]
    exact (and_iff_left (allSteady_singleton (steady_neg a))).symm
  | @binary o a b _ _ ih₁ ih₂ =>
    rw [fold, nodes]
    simp only [Folding.bind]
    rw [foldedBinary_const.2, foldedBinary_const.1, ← List.append_assoc, allSteady_append,
      allSteady_append, ← ih₁ w, ← ih₂ (a.fold ev table w).store]
    exact (and_iff_left (allSteady_singleton (steady_binary o a b))).symm
  | @call c as t hc _ _ ih =>
    rw [fold, nodes]
    simp only [Folding.bind]
    rw [foldedCall_const hc as, allSteady_append, foldList_const ih w]

/-! ### Call sites -/

/-- The calls are those of some of the nodes, in the order of the nodes, and at most one for each
node; all are of pure functions. -/
def MadeAt (table : SymbolTable σ) (ns : List Expr) (calls : List (Call σ)) : Prop :=
  List.Sublist (calls.map fun d => (d.name, d.function)) (ns.filterMap (site? table)) ∧
    ∀ d ∈ calls, d.function.isPure

lemma madeAt_nil (ns : List Expr) : MadeAt table ns [] :=
  ⟨List.nil_sublist _, fun _ hd => absurd hd List.not_mem_nil⟩

lemma MadeAt.append {ns ms : List Expr} (h : MadeAt table ns calls)
    (h' : MadeAt table ms calls') : MadeAt table (ns ++ ms) (calls ++ calls') := by
  refine ⟨?_, List.forall_mem_append.2 ⟨h.2, h'.2⟩⟩
  rw [List.map_append, List.filterMap_append]
  exact h.1.append h'.1

lemma madeAt_foldedCall (hc : table.target c = .ok t) (bs : List Expr) :
    MadeAt table [call c bs] (foldedCall ev table c as w).calls := by
  rcases foldedCall_cases ev hc as w with ⟨-, hfold⟩ | ⟨xs, w', ht, -, hmade⟩
  · rw [hfold]
    exact madeAt_nil _
  · have hcalls : (foldedCall ev table c as w).calls = t.calls ev xs w := by
      rcases hmade with ⟨x, -, hfold⟩ | ⟨err, -, hfold⟩ <;> rw [hfold]
    rw [hcalls]
    refine ⟨?_, Target.calls_isPure ht xs w⟩
    cases t with
    | builtin b => exact List.nil_sublist _
    | host n f =>
      have hsite : site? table (call c bs) = some (n, f) := by
        cases c with
        | builtin b => cases hc
        | bound i =>
          unfold SymbolTable.target at hc
          simp only at hc
          split at hc
          · rename_i hf
            cases hc
            exact hf
          · cases hc
      rw [List.filterMap_cons_some hsite]
      exact List.Sublist.refl _

lemma madeAt_foldList
    (h : ∀ a ∈ as, ∀ w, MadeAt table a.nodes (a.fold ev table w).calls) (w : Store σ) :
    MadeAt table (nodesList as) (foldList ev table as w).calls := by
  induction as generalizing w with
  | nil =>
    rw [foldList]
    exact madeAt_nil _
  | cons a as ih =>
    have has := ih (fun b hb => h b (List.mem_cons_of_mem _ hb)) (a.fold ev table w).store
    rw [foldList, nodesList]
    simp only [Folding.bind, Folding.still, List.append_nil]
    exact (h a List.mem_cons_self w).append has

lemma madeAt_fold {e : Expr} (h : e.Fits table) (w : Store σ) :
    MadeAt table e.nodes (e.fold ev table w).calls := by
  induction h generalizing w with
  | const _ | var _ =>
    rw [fold]
    exact madeAt_nil _
  | neg _ ih =>
    rw [fold, nodes]
    exact (ih w).append (madeAt_nil _)
  | binary _ _ ih₁ ih₂ =>
    rw [fold, nodes]
    simp only [Folding.bind]
    rw [foldedBinary_const.1, ← List.append_assoc]
    exact ((ih₁ w).append (ih₂ _)).append (madeAt_nil _)
  | @call c as t hc _ _ ih =>
    rw [fold, nodes]
    exact (madeAt_foldList ih w).append (madeAt_foldedCall hc as)

lemma isConstant_of_code {e : Expr} {p : Program σ} (h : e.code table = .ok p) :
    p.isConstant ↔ ∃ x, e = const x := by
  rcases code_cases h with ⟨x, rfl, rfl⟩ | ⟨hroot, i, s, hlast, hi⟩
  · exact ⟨fun _ => ⟨x, rfl⟩, fun _ => rfl⟩
  · refine ⟨fun hconst => ?_, fun hconst => absurd hconst (not_const hroot)⟩
    unfold Program.isConstant at hconst
    split at hconst
    · cases hlast
      cases hi
    · cases hconst

end Expr

open Formula.Expr Lowering in
/-- **Folding in a program is folding in the tree.** Let a text have a tree.

With folding the compiler makes the program of the folded tree, leaves the store that folding the
tree leaves, and calls the functions that folding the tree calls: pure ones only, in the order of
the call sites, each site at most once. Without folding it makes the program of the tree as it
stands, leaves the store alone and calls nothing.

In the folded tree no operator has constants for all its operands, and a pure call of constants is
one that has failed. It is a constant if and only if the tree has no variable and no call of an
impure function, and no call failed. -/
theorem lower_eq_fold {bs : List (Binding σ)} {o : Options} {text : Text} {tree : Expr}
    (hparse : parseWith bs o text = .ok (table, tree)) (ev : Evaluator σ) (w : Store σ) :
    ∃ p q, (tree.fold ev table w).value.code table = .ok p ∧ tree.code table = .ok q ∧
      lower ev table true tree w = (.ok p, (tree.fold ev table w).store) ∧
      gather ev (Target.calls ev) table true tree.steps [] w = (tree.fold ev table w).calls ∧
      MadeAt table tree.nodes (tree.fold ev table w).calls ∧
      lower ev table false tree w = (.ok q, w) ∧
      gather ev (Target.calls ev) table false tree.steps [] w = [] ∧
      (∀ n ∈ (tree.fold ev table w).value.nodes,
        n.Settled table (tree.fold ev table w).calls) ∧
      (p.isConstant ↔ (∀ n ∈ tree.nodes, n.Steady table) ∧
        ∀ c ∈ (tree.fold ev table w).calls, ∃ y, c.result = .ok y) := by
  have hfits := fits_of_parseWith hparse
  obtain ⟨p, hp, hlower, hcalls⟩ := exists_lower ev hfits w
  obtain ⟨q, hq, -, hplain⟩ := exists_codes hfits
  refine ⟨p, q, hp, hq, hlower, hcalls, madeAt_fold hfits w, hplain ev w,
    gather_unfolded _ _ _ _, allSettled_fold hfits w, ?_⟩
  rw [isConstant_of_code hp]
  exact fold_const hfits w

theorem lower_eq_fold_put : ∃ tree p,
    parseWith putBindings ⟨true, 4, 15⟩ putText = .ok (putTable, tree) ∧
    (tree.fold (evaluate 0) putTable (.empty ())).value.code putTable = .ok p ∧
    lower (evaluate 0) putTable true tree (.empty ()) =
      (.ok p, (tree.fold (evaluate 0) putTable (.empty ())).store) ∧
    (p.isConstant ↔ (∀ n ∈ tree.nodes, n.Steady putTable) ∧
      ∀ c ∈ (tree.fold (evaluate 0) putTable (.empty ())).calls, ∃ y, c.result = .ok y) := by
  obtain ⟨tree, hparse⟩ := parseWith_put
  obtain ⟨p, q, hp, -, hlower, -, -, -, -, -, hconst⟩ :=
    lower_eq_fold hparse (evaluate 0) (.empty ())
  exact ⟨tree, p, hparse, hp, hlower, hconst⟩

end Formula
