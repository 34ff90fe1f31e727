import Formula.Proofs.Display.Shown
import Formula.Proofs.Evaluation.Live

/-!
Every expression is displayed, under the names of its bindings.

The program of an expression is the postfix form of a tree, and what is displayed for the program is
the text of the tree. The slots of the expression are those of the symbol table, so each variable is
displayed under the name that was bound to it. Main statement: `display_live`.
-/

namespace Formula

variable {σ : Type} {w w₁ : Store σ} {depth : ℕ} {e : ExprId} {bs : List (Binding σ)} {o : Options}
  {text : Text} {table : SymbolTable σ} {tree : Expr} {p : Program σ} {slots : List Slot}
  {n : Name} {v : VarId} {k : ℕ}

/-! ### Names of bindings -/

namespace SymbolTable

/-- Every symbol is a binding, with the name as texts have it. -/
lemma exists_binding (h : ofBindings bs = .ok table) {s : Symbol σ} (hs : s ∈ table) :
    ∃ b ∈ bs, b.referent = s.referent ∧ trim b.name = s.name.text := by
  obtain ⟨b, hb, hnamed⟩ := List.mem_map.1 ((perm_named h).mem_iff.1 (List.mem_map_of_mem hs))
  obtain ⟨hname, href⟩ := Prod.mk.inj hnamed
  exact ⟨b, hb, href, hname⟩

lemma exists_binding_of_var (h : ofBindings bs = .ok table) (hv : (n, v) ∈ table.vars) :
    ∃ b ∈ bs, b.referent = .variable v ∧ trim b.name = n.text := by
  obtain ⟨⟨m, u | f⟩, hs, heq⟩ := List.mem_filterMap.1 hv
  · cases heq
    exact exists_binding h hs
  · cases heq

lemma exists_binding_of_function (h : ofBindings bs = .ok table) {i : ℕ} {f : HostFunction σ}
    (hf : table.functionAt? i = some (n, f)) :
    ∃ b ∈ bs, b.referent = .function f ∧ trim b.name = n.text := by
  obtain ⟨⟨m, u | g⟩, hs, heq⟩ := Option.bind_eq_some_iff.1 hf
  · cases heq
  · cases heq
    exact exists_binding h (List.mem_of_getElem? hs)

end SymbolTable

/-! ### What a program names -/

/-- A step of a tree and its instruction. An instruction that reads a variable finds the slot, which
is displayed under the name of a binding of this variable, and a function is displayed under its own
name or that of its binding. -/
inductive Lowering.Names (bs : List (Binding σ)) (table : SymbolTable σ) (slots : List Slot) :
    Step → Instr σ → Prop
  | const (x : Float) : Names bs table slots (.const x) (.const x)
  | var {k : ℕ} {a : Slot} {b : Binding σ} : slots[k]? = some a → b ∈ bs →
      b.referent = .variable a.var → slotText slots k = trim b.name →
      Names bs table slots (.var k) (.var k)
  | neg : Names bs table slots .neg .neg
  | binary (o : Operator) : Names bs table slots (.binary o) (.binary o)
  | builtin (f : Builtin) (argc : ℕ) : table.calleeName (.builtin f) = f.name →
      Names bs table slots (.call (.builtin f) argc) (.call (.builtin f) argc)
  | host {i : ℕ} {n : Name} {f : HostFunction σ} {b : Binding σ} (argc : ℕ) : b ∈ bs →
      b.referent = .function f → table.calleeName (.bound i) = trim b.name →
      Names bs table slots (.call (.bound i) argc) (.call (.host n f) argc)

lemma Lowering.Codes.names (h : SymbolTable.ofBindings bs = .ok table)
    (hslots : slots.map Slot.symbol = table.vars) {s : Step} {i : Instr σ}
    (hcodes : Codes table s i) : Names bs table slots s i := by
  cases hcodes with
  | const x => exact .const x
  | @var k nv hk =>
    have hmem := List.mem_of_getElem? hk
    rw [← hslots, List.getElem?_map] at hk
    obtain ⟨a, ha, rfl⟩ := Option.map_eq_some_iff.1 hk
    obtain ⟨b, hb, href, hname⟩ := SymbolTable.exists_binding_of_var h hmem
    exact .var ha hb href (by simp only [slotText, ha, hname])
  | neg => exact .neg
  | binary o => exact .binary o
  | @call c t argc ht =>
    have hcallee : table.calleeName c = t.name := by
      unfold SymbolTable.calleeName
      rw [ht]
    cases c with
    | builtin f =>
      cases ht
      exact .builtin f argc hcallee
    | bound i =>
      unfold SymbolTable.target at ht
      simp only at ht
      split at ht
      · rename_i n f hf
        cases ht
        obtain ⟨b, hb, href, hname⟩ := SymbolTable.exists_binding_of_function h hf
        exact .host argc hb href (hcallee.trans hname.symm)
      · cases ht

/-- **Every live expression is displayed.** Let a text compile, with constants folded or not. As
long as the expression is not closed its program is the postfix form of a tree, the tree of the text
or that tree folded. What is displayed is the text of the tree, with parentheses around every
operator, and the text of any tree with this program. Each step of the tree has its instruction. One
that reads a variable finds the slot, which is displayed under the name of the binding of this
variable, without the blanks around it. -/
theorem display_live (hcompile : compile depth e bs o text w = (.ok (), w₁)) (os : List (Op σ))
    (hstarts : ∀ op ∈ os, op.starts? ≠ some e) (hends : ∀ op ∈ os, op.ends? ≠ some e) :
    ∃ table tree built p c, parseWith bs o text = .ok (table, tree) ∧
      built = (if o.foldConstants then
        (tree.fold (evaluate depth) table (w.attached e text table.vars)).value else tree) ∧
      built.Fits table ∧ built.code table = .ok p ∧
      (Op.runAll w₁ os).exprs.get? e = some c ∧ c.program = some p ∧
      c.display? = some (built.shown table c.slots) ∧
      (∀ other : Expr, other.Fits table → other.code table = .ok p →
        c.display? = some (other.shown table c.slots)) ∧
      List.Forall₂ (Lowering.Names bs table c.slots) built.steps p := by
  obtain ⟨table, tree, built, p, hparse, hbuilt, hnamed, hcode, hcodes, hface⟩ :=
    exists_built hcompile
  obtain ⟨c, hc, hp, hslots⟩ := exists_live hface hstarts hends
  have hb := (parseWith_eq_ok hparse).1
  exact ⟨table, tree, built, p, c, hparse, hbuilt, hnamed.fits, hcode, hc, hp,
    display?_eq hnamed.fits hcode hp, fun _ hfits hother => display?_eq hfits hother hp,
    hcodes.imp fun _ _ h => h.names hb hslots⟩

/-- The text `put(inc(2*3))-x` is displayed after its variable was set, with `2*3` folded. -/
theorem display_live_put : ∃ (w₁ : Store Unit) (table : SymbolTable Unit) (tree built : Expr)
    (p : Program Unit) (c : Compiled Unit),
    compile 1 0 putBindings ⟨true, 4, 15⟩ putText (.empty ()) = (.ok (), w₁) ∧
    parseWith putBindings ⟨true, 4, 15⟩ putText = .ok (table, tree) ∧
    (Op.runAll w₁ [.update 0 7, .evaluate 2 0]).exprs.get? 0 = some c ∧ c.program = some p ∧
    c.display? = some (built.shown table c.slots) ∧
    List.Forall₂ (Lowering.Names putBindings table c.slots) built.steps p := by
  have hok : (compile 1 0 putBindings ⟨true, 4, 15⟩ putText (.empty ())).1.isOk := by
    simp only [compile, ofBindings_put]
    decide +kernel
  rcases hcompile : compile 1 0 putBindings ⟨true, 4, 15⟩ putText (.empty ()) with ⟨err | _, w₁⟩
  · rw [hcompile] at hok
    cases hok
  · obtain ⟨table, tree, built, p, c, hparse, -, -, -, hc, hp, hshown, -, hnames⟩ :=
      display_live hcompile [.update 0 7, .evaluate 2 0] (by simp [Op.starts?])
        (by simp [Op.ends?])
    exact ⟨w₁, table, tree, built, p, c, rfl, hparse, hc, hp, hshown, hnames⟩

end Formula
