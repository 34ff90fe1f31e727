import Formula.Engine
import Formula.Proofs.Parser.Sentence

/-!
Trees that fit a symbol table.

In such a tree every variable has a slot in the table, and every call refers to a function and
has as many arguments as the function takes. The parser makes no other trees.
-/

namespace Formula

open Formula.Grammar

variable {σ : Type}

def Target.arity : Target σ → ℕ
  | .builtin b => b.arity
  | .host _ f => f.arity

lemma Target.arity_le (t : Target σ) : t.arity ≤ maxArity := by
  cases t with
  | builtin b =>
    change b.arity ≤ 7
    cases b <;> decide
  | host n f => exact f.arity_le

namespace SymbolTable

/-- Variables are numbered in the order of the table. -/
def Numbered (t : SymbolTable σ) : Prop :=
  ∀ (i : ℕ) s v k, t[i]? = some s → s.kind = .variable v k → k = (vars (t.take i)).length

lemma vars_append (t u : SymbolTable σ) : vars (t ++ u) = vars t ++ vars u :=
  List.filterMap_append

lemma Numbered.snoc {t : SymbolTable σ} (ht : Numbered t) {s : Symbol σ}
    (hs : ∀ v k, s.kind = .variable v k → k = (vars t).length) : Numbered (t ++ [s]) := by
  intro i s' v k hi hk
  rcases Nat.lt_trichotomy i t.length with hlt | rfl | hgt
  · rw [List.getElem?_append_left hlt] at hi
    rw [List.take_append_of_le_length (Nat.le_of_lt hlt)]
    exact ht i s' v k hi hk
  · rw [List.getElem?_append_right (Nat.le_refl _), Nat.sub_self] at hi
    cases hi
    rw [List.take_left]
    exact hs v k hk
  · rw [List.getElem?_eq_none (by simp; omega)] at hi
    cases hi

/-- Reading off the bindings numbers the variables from the first to the last. -/
lemma numbered_of_number {names : List (Name × Referent σ)} {done : List (Symbol σ)}
    {slot : ℕ} {t : SymbolTable σ} (hdone : Numbered done.reverse)
    (hslot : slot = (vars done.reverse).length) (h : number done slot names = .ok t) :
    Numbered t := by
  induction names generalizing done slot with
  | nil =>
    cases h
    exact hdone
  | cons nr rest ih =>
    obtain ⟨n, r⟩ := nr
    unfold number at h
    split at h
    · cases h
    · cases r with
      | «variable» v =>
        refine ih ?_ ?_ h
        · rw [List.reverse_cons]
          refine hdone.snoc fun v' k hk => ?_
          cases hk
          exact hslot
        · rw [List.reverse_cons, vars_append, List.length_append, hslot]
          rfl
      | function f =>
        refine ih ?_ ?_ h
        · rw [List.reverse_cons]
          exact hdone.snoc nofun
        · rw [List.reverse_cons, vars_append, List.length_append, hslot]
          rfl

theorem numbered_of_bindings {bs : List (Binding σ)} {t : SymbolTable σ}
    (h : ofBindings bs = .ok t) : Numbered t := by
  unfold ofBindings at h
  rcases hn : readNames maxBindings bs with err | names
  · rw [hn] at h
    cases h
  · rw [hn] at h
    have hnil : Numbered ([] : SymbolTable σ).reverse := nofun
    exact numbered_of_number hnil rfl h

/-- Bindings that come with longer names first keep their order. -/
lemma ofBindings_of_sorted {bs : List (Binding σ)} {names : List (Name × Referent σ)}
    (h : readNames maxBindings bs = .ok names)
    (hsorted : names.Pairwise fun a b => longerFirst a b) :
    ofBindings bs = number [] 0 names := by
  unfold ofBindings
  rw [h]
  change number [] 0 (names.mergeSort longerFirst) = _
  rw [List.mergeSort_of_pairwise hsorted]

lemma Numbered.getElem?_vars {t : SymbolTable σ} (ht : Numbered t) {i : ℕ} {s : Symbol σ}
    {v : VarId} {k : ℕ} (hs : t[i]? = some s) (hk : s.kind = .variable v k) :
    (vars t)[k]? = some (s.name, v) := by
  have hslot := ht i s v k hs hk
  obtain ⟨hi, hget⟩ := List.getElem?_eq_some_iff.1 hs
  have hsplit : t = t.take i ++ s :: t.drop (i + 1) := by
    rw [← hget, List.getElem_cons_drop, List.take_append_drop]
  have hvars : vars (s :: t.drop (i + 1)) = (s.name, v) :: vars (t.drop (i + 1)) := by
    simp [vars, hk]
  rw [hsplit, vars_append, hvars, List.getElem?_append_right (Nat.le_of_eq hslot.symm), ← hslot]
  simp

variable {t : SymbolTable σ} {name : Text}

/-- A name that stands for a variable has a slot in the table. -/
lemma Numbered.vars_of_resolve (ht : Numbered t) {k : ℕ}
    (h : t.resolve name = some (.variable k)) : ∃ nv, (vars t)[k]? = some nv := by
  unfold resolve at h
  split at h
  · obtain ⟨s, hs, hk⟩ := Option.map_eq_some_iff.1 h
    split at hk
    · rename_i v slot hkind
      cases hk
      exact ⟨_, ht.getElem?_vars hs hkind⟩
    · cases hk
  · obtain ⟨b, -, hb⟩ := Option.map_eq_some_iff.1 h
    cases hb

/-- A name that stands for a function refers to it, with its arity. -/
lemma target_of_resolve {c : Callee} {arity : ℕ}
    (h : t.resolve name = some (.function c arity)) :
    ∃ f, t.target c = .ok f ∧ f.arity = arity := by
  unfold resolve at h
  split at h
  · rename_i i hi
    obtain ⟨s, hs, hk⟩ := Option.map_eq_some_iff.1 h
    split at hk
    · cases hk
    · rename_i f hkind
      cases hk
      exact ⟨.host s.name f, by simp [target, functionAt?, hs, hkind], rfl⟩
  · obtain ⟨b, -, hb⟩ := Option.map_eq_some_iff.1 h
    cases hb
    exact ⟨.builtin b, rfl, rfl⟩

end SymbolTable

namespace Expr

/-- Every variable of the tree has a slot and every call its arguments. -/
inductive Fits (table : SymbolTable σ) : Expr → Prop
  | const (x : Float) : Fits table (.const x)
  | var {k : ℕ} {nv : Name × VarId} : table.vars[k]? = some nv → Fits table (.var k)
  | neg {a : Expr} : Fits table a → Fits table (.neg a)
  | binary {o : Operator} {a b : Expr} : Fits table a → Fits table b →
      Fits table (.binary o a b)
  | call {c : Callee} {as : List Expr} {t : Target σ} : table.target c = .ok t →
      t.arity = as.length → (∀ a ∈ as, Fits table a) → Fits table (.call c as)

lemma fits_of_reads {table : SymbolTable σ} (ht : table.Numbered) {cat : Cat}
    {ts : List Token} {es : List Expr} {n : ℕ}
    (h : Reads Eq table.resolve cat ts es n) : ∀ e ∈ es, e.Fits table := by
  induction h with
  | sumOf _ ih | productOf _ ih | plus _ _ ih | unsigned _ ih | group _ _ _ ih | arg _ ih =>
    exact ih
  | sum _ _ _ _ ih₁ ih₂ | product _ _ _ _ ih₁ ih₂ | power _ _ _ ih₁ ih₂ =>
    simp only [List.mem_singleton, forall_eq] at ih₁ ih₂ ⊢
    exact .binary ih₁ ih₂
  | minus _ _ ih =>
    simp only [List.mem_singleton, forall_eq] at ih ⊢
    exact .neg ih
  | number => simpa using Fits.const _
  | «variable» _ hr =>
    obtain ⟨nv, hnv⟩ := ht.vars_of_resolve hr
    simpa using Fits.var hnv
  | bare _ hr =>
    obtain ⟨f, hf, harity⟩ := SymbolTable.target_of_resolve hr
    have : Fits _ (.call _ []) := .call hf harity nofun
    simpa using this
  | call _ hr _ hargs _ hfits ih =>
    obtain ⟨f, hf, harity⟩ := SymbolTable.target_of_resolve hr
    have hlen : f.arity = _ := harity.trans (hfits.trans hargs.length_eq.symm)
    simpa using Fits.call hf hlen ih
  | noArgs => simp
  | moreArgs _ _ _ ih₁ ih₂ =>
    intro e he
    rcases List.mem_append.1 he with he | he
    · exact ih₁ e he
    · exact ih₂ e he

end Expr

lemma parseWith_eq_ok {bs : List (Binding σ)} {o : Options} {t : Text} {table : SymbolTable σ}
    {tree : Expr} (h : parseWith bs o t = .ok (table, tree)) :
    SymbolTable.ofBindings bs = .ok table ∧ parse table.resolve o t = .ok tree := by
  unfold parseWith at h
  rcases hb : SymbolTable.ofBindings bs with err | table'
  · simp [hb] at h
  · rcases hp : parse table'.resolve o t with err | tree'
    · simp [hb, hp] at h
    · simp only [hb, hp, Except.ok.injEq, Prod.mk.injEq] at h
      obtain ⟨rfl, rfl⟩ := h
      exact ⟨rfl, hp⟩

/-- **The parser makes trees that fit.** -/
theorem fits_of_parseWith {bs : List (Binding σ)} {o : Options} {t : Text}
    {table : SymbolTable σ} {tree : Expr} (h : parseWith bs o t = .ok (table, tree)) :
    tree.Fits table := by
  obtain ⟨hb, hp⟩ := parseWith_eq_ok h
  obtain ⟨-, ts, n, -, hread, -⟩ := reads_of_parse hp
  exact Expr.fits_of_reads (SymbolTable.numbered_of_bindings hb) hread tree (by simp)

/-! ### A text with a pure and an impure function -/

/-- Adds one. -/
def inc : HostFunction Unit where
  arity := 1
  isPure := true
  code args := .done (.ok (args.getD 0 0 + 1))
  arity_le := by decide

/-- Sets the variable with number zero. -/
def put : HostFunction Unit where
  arity := 1
  isPure := false
  code args := .update 0 (args.getD 0 0) fun _ => .done (.ok 0)
  arity_le := by decide

def putBindings : List (Binding Unit) :=
  [⟨['p', 'u', 't'], .function put⟩, ⟨['i', 'n', 'c'], .function inc⟩, ⟨['x'], .variable 0⟩]

def putTable : SymbolTable Unit :=
  [⟨⟨['p', 'u', 't'], rfl, by decide⟩, .function put⟩,
    ⟨⟨['i', 'n', 'c'], rfl, by decide⟩, .function inc⟩,
    ⟨xName, .variable 0 0⟩]

/-- The text `put(inc(2*3))-x`. -/
def putText : Text :=
  ['p', 'u', 't', '(', 'i', 'n', 'c', '(', '2', '*', '3', ')', ')', '-', 'x']

lemma ofBindings_put : SymbolTable.ofBindings putBindings = .ok putTable := by
  have hnames : SymbolTable.readNames maxBindings putBindings =
      .ok [(⟨['p', 'u', 't'], rfl, by decide⟩, .function put),
        (⟨['i', 'n', 'c'], rfl, by decide⟩, .function inc),
        (xName, .variable 0)] := rfl
  rw [SymbolTable.ofBindings_of_sorted hnames (by decide)]
  rfl

lemma parseWith_put :
    ∃ tree, parseWith putBindings ⟨true, 4, 15⟩ putText = .ok (putTable, tree) := by
  have hok : (parse putTable.resolve ⟨true, 4, 15⟩ putText).isOk := by decide +kernel
  rcases h : parse putTable.resolve ⟨true, 4, 15⟩ putText with err | tree
  · rw [h] at hok
    cases hok
  · exact ⟨tree, by simp only [parseWith, ofBindings_put, h]⟩

end Formula
