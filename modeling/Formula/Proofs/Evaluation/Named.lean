import Formula.Proofs.Evaluation.FoldTree
import Formula.Proofs.Symbols

/-!
Trees whose names are those of a symbol table.

What a variable or a function of such a tree is called is found in the table, and there it stands
for the variable or the function. The parser makes no other trees, and folding leaves them so.
-/

namespace Formula

open Grammar

variable {σ : Type} {ev : Evaluator σ} {table : SymbolTable σ}

lemma Builtin.isWord_name (b : Builtin) : isWord b.name := by
  cases b <;> decide

lemma Target.isWord_name (t : Target σ) : isWord t.name := by
  cases t with
  | builtin b => exact b.isWord_name
  | host n f => exact n.isWord_text

namespace SymbolTable

variable {name : Text} {i k arity : ℕ} {c : Callee} {t : Target σ} {n : Name} {v : VarId}

lemma text_of_indexOf? (h : table.indexOf? name = some i) {s : Symbol σ}
    (hs : table[i]? = some s) : s.name.text = name := by
  obtain ⟨hlt, hname, -⟩ := List.findIdx?_eq_some_iff_getElem.1 h
  obtain ⟨_, rfl⟩ := List.getElem?_eq_some_iff.1 hs
  exact of_decide_eq_true hname

/-- A function is displayed under the name that it was found under. -/
lemma name_of_resolve (h : table.resolve name = some (.function c arity))
    (hc : table.target c = .ok t) : t.name = name := by
  unfold resolve at h
  split at h
  · rename_i i hi
    obtain ⟨s, hs, hk⟩ := Option.map_eq_some_iff.1 h
    split at hk
    · cases hk
    · rename_i f hkind
      cases hk
      simp only [target, functionAt?, hs, hkind, Option.bind_some, Except.ok.injEq] at hc
      rw [← hc]
      exact text_of_indexOf? hi hs
  · obtain ⟨b, hb, hk⟩ := Option.map_eq_some_iff.1 h
    cases hk
    cases hc
    exact Builtin.find?_eq_some.1 hb

/-- A variable is displayed under the name that it was found under. -/
lemma Numbered.text_of_resolve (ht : table.Numbered)
    (h : table.resolve name = some (.variable k)) (hk : table.vars[k]? = some (n, v)) :
    n.text = name := by
  unfold resolve at h
  split at h
  · rename_i i hi
    obtain ⟨s, hs, heq⟩ := Option.map_eq_some_iff.1 h
    split at heq
    · rename_i v' slot hkind
      cases heq
      have hvars := ht.getElem?_vars hs hkind
      cases hk.symm.trans hvars
      exact text_of_indexOf? hi hs
    · cases heq
  · obtain ⟨b, -, hb⟩ := Option.map_eq_some_iff.1 h
    cases hb

end SymbolTable

namespace Expr

variable {a b : Expr} {as : List Expr} {c : Callee} {w : Store σ}

/-- Every variable and every function of the tree is found under the name that is displayed. -/
inductive Named (table : SymbolTable σ) : Expr → Prop
  | const (x : Float) : Named table (.const x)
  | var {k : ℕ} {n : Name} {v : VarId} : table.vars[k]? = some (n, v) →
      table.resolve n.text = some (.variable k) → Named table (.var k)
  | neg {a : Expr} : Named table a → Named table (.neg a)
  | binary {o : Operator} {a b : Expr} : Named table a → Named table b →
      Named table (.binary o a b)
  | call {c : Callee} {as : List Expr} {t : Target σ} : table.target c = .ok t →
      table.resolve t.name = some (.function c as.length) → (∀ a ∈ as, Named table a) →
      Named table (.call c as)

lemma Named.fits (h : a.Named table) : a.Fits table := by
  induction h with
  | const x => exact .const x
  | var hk _ => exact .var hk
  | neg _ ih => exact .neg ih
  | binary _ _ ih₁ ih₂ => exact .binary ih₁ ih₂
  | call hc hr _ ih =>
    obtain ⟨t, ht, harity⟩ := SymbolTable.target_of_resolve hr
    exact .call ht harity ih

/-- What is read was found under its name. -/
lemma named_of_reads (ht : table.Numbered) {cat : Cat} {ts : List Token} {es : List Expr} {n : ℕ}
    (h : Reads Eq table.resolve cat ts es n) : ∀ e ∈ es, e.Named table := by
  have hcall {name : Text} {c : Callee} {arity : ℕ} {as : List Expr}
      (hr : table.resolve name = some (.function c arity)) (hlen : arity = as.length)
      (has : ∀ a ∈ as, a.Named table) : (call c as).Named table := by
    obtain ⟨f, hf, -⟩ := SymbolTable.target_of_resolve hr
    refine .call hf ?_ has
    rw [SymbolTable.name_of_resolve hr hf, hr, hlen]
  induction h with
  | sumOf _ ih | productOf _ ih | plus _ _ ih | unsigned _ ih | group _ _ _ ih | arg _ ih =>
    exact ih
  | sum _ _ _ _ ih₁ ih₂ | product _ _ _ _ ih₁ ih₂ | power _ _ _ ih₁ ih₂ =>
    simp only [List.mem_singleton, forall_eq] at ih₁ ih₂ ⊢
    exact .binary ih₁ ih₂
  | minus _ _ ih =>
    simp only [List.mem_singleton, forall_eq] at ih ⊢
    exact .neg ih
  | number => simpa using Named.const _
  | «variable» _ hr =>
    obtain ⟨⟨n, v⟩, hk⟩ := ht.vars_of_resolve hr
    rw [List.forall_mem_singleton]
    exact .var hk (by rw [ht.text_of_resolve hr hk, hr])
  | bare _ hr =>
    rw [List.forall_mem_singleton]
    exact hcall hr rfl (List.forall_mem_nil _)
  | call _ hr _ hargs _ hfits ih =>
    rw [List.forall_mem_singleton]
    exact hcall hr (hfits.trans hargs.length_eq.symm) ih
  | noArgs => exact List.forall_mem_nil _
  | moreArgs _ _ _ ih₁ ih₂ => exact List.forall_mem_append.2 ⟨ih₁, ih₂⟩

/-- The trees of texts are such trees. -/
lemma named_of_parseWith {bs : List (Binding σ)} {o : Options} {text : Text} {tree : Expr}
    (h : parseWith bs o text = .ok (table, tree)) : tree.Named table := by
  obtain ⟨hb, hp⟩ := parseWith_eq_ok h
  obtain ⟨-, ts, n, -, hread, -⟩ := reads_of_parse hp
  exact named_of_reads (SymbolTable.numbered_of_bindings hb) hread tree (List.mem_singleton_self _)

lemma Named.foldedNeg (h : a.Named table) : a.foldedNeg.Named table := by
  cases h with
  | const x => exact .const _
  | var hk hr => exact .neg (.var hk hr)
  | neg h => exact .neg (.neg h)
  | binary h h' => exact .neg (.binary h h')
  | call hc hr h => exact .neg (.call hc hr h)

lemma Named.foldedBinary (o : Operator) (h : a.Named table) (h' : b.Named table) (w : Store σ) :
    (Expr.foldedBinary o a b w).value.Named table := by
  unfold Expr.foldedBinary
  split
  · exact .const _
  · exact .binary h h'

lemma Named.foldedCall (h : (Expr.call c as).Named table) (w : Store σ) :
    (Expr.foldedCall ev table c as w).value.Named table := by
  have hcopy := h
  cases h with
  | call hc _ _ =>
    rcases foldedCall_cases ev hc as w with
      ⟨-, hfold⟩ | ⟨xs, w', -, -, ⟨x, -, hfold⟩ | ⟨err, -, hfold⟩⟩
    · rw [hfold]
      exact hcopy
    · rw [hfold]
      exact .const x
    · rw [hfold]
      exact hcopy

lemma named_foldList (h : ∀ a ∈ as, ∀ w, (a.fold ev table w).value.Named table) (w : Store σ) :
    ∀ a ∈ (foldList ev table as w).value, a.Named table := by
  induction as generalizing w with
  | nil =>
    rw [foldList]
    exact List.forall_mem_nil _
  | cons a as ih =>
    have hrest := ih (fun b hb => h b (List.mem_cons_of_mem _ hb)) (a.fold ev table w).store
    rw [foldList]
    exact List.forall_mem_cons.2 ⟨h a List.mem_cons_self w, hrest⟩

/-- Folding leaves names as they are. -/
lemma Named.fold {e : Expr} (h : e.Named table) (ev : Evaluator σ) (w : Store σ) :
    (e.fold ev table w).value.Named table := by
  induction h generalizing w with
  | const x =>
    rw [Expr.fold]
    exact .const x
  | var hk hr =>
    rw [Expr.fold]
    exact .var hk hr
  | neg _ ih =>
    rw [Expr.fold]
    exact (ih w).foldedNeg
  | binary _ _ ih₁ ih₂ =>
    rw [Expr.fold]
    exact (ih₁ w).foldedBinary _ (ih₂ _) _
  | @call c as t hc hr _ ih =>
    have hlen := Lowering.length_foldList ev table as w
    have hcall : (Expr.call c (foldList ev table as w).value).Named table :=
      .call hc (by rw [hlen, hr]) (named_foldList ih w)
    rw [Expr.fold]
    exact hcall.foldedCall _

end Expr

end Formula
