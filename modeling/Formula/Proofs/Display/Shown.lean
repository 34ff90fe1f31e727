import Formula.Proofs.Evaluation.FoldTree
import Formula.Render

/-!
The text of a tree.

Programs are displayed, but what is displayed is the text of the tree that the program is for.
-/

namespace Formula

variable {σ : Type} {table : SymbolTable σ} {slots : List Slot}

/-! ### Programs and trees -/

/-- The name under which a function is displayed. -/
def SymbolTable.calleeName (table : SymbolTable σ) (c : Callee) : Text :=
  match table.target c with
  | .ok t => t.name
  | .error _ => []

namespace Expr

mutual
/-- The text of the tree, with parentheses around every operator. -/
def shown (table : SymbolTable σ) (slots : List Slot) : Expr → Text
  | const x => printPlain x
  | var k => slotText slots k
  | neg a => parens ('-' :: shown table slots a)
  | binary o a b => parens (shown table slots a ++ ' ' :: o.symbol :: ' ' :: shown table slots b)
  | call c as => table.calleeName c ++ parens (commaList (shownList table slots as))
def shownList (table : SymbolTable σ) (slots : List Slot) : List Expr → List Text
  | [] => []
  | a :: as => shown table slots a :: shownList table slots as
end

end Expr

namespace Program

variable {p q : Program σ} {ps : List (Program σ)} {s t : Text} {ts : List Text}

/-- The program puts the text on the texts that are there. -/
def Shows (slots : List Slot) (p : Program σ) (t : Text) : Prop :=
  ∀ rest, p.foldlM (fun s (i : Instr σ) => i.render slots s) rest = some (t :: rest)

lemma Shows.render (h : Shows slots p t) : p.render slots = some t := by
  rw [Program.render, h []]

lemma foldlM_render_append (p q : Program σ) (rest : List Text) :
    (p ++ q).foldlM (fun s (i : Instr σ) => i.render slots s) rest =
      (p.foldlM (fun s (i : Instr σ) => i.render slots s) rest).bind
        fun rest => q.foldlM (fun s (i : Instr σ) => i.render slots s) rest :=
  List.foldlM_append

lemma Shows.neg (h : Shows slots p t) : Shows slots (p ++ [.neg]) (parens ('-' :: t)) := by
  intro rest
  rw [foldlM_render_append, h]
  rfl

lemma Shows.binary (o : Operator) (h : Shows slots p s) (h' : Shows slots q t) :
    Shows slots (p ++ q ++ [.binary o]) (parens (s ++ ' ' :: o.symbol :: ' ' :: t)) := by
  intro rest
  rw [foldlM_render_append, foldlM_render_append, h, Option.bind_some, h']
  rfl

lemma shows_flatten (h : List.Forall₂ (Shows slots) ps ts) (rest : List Text) :
    ps.flatten.foldlM (fun s (i : Instr σ) => i.render slots s) rest =
      some (ts.reverse ++ rest) := by
  induction h generalizing rest with
  | nil => rfl
  | @cons p t ps ts hp _ ih =>
    rw [List.flatten_cons, foldlM_render_append, hp, Option.bind_some, ih]
    simp

lemma Shows.call (f : Target σ) (h : List.Forall₂ (Shows slots) ps ts) :
    Shows slots (ps.flatten ++ [.call f ts.length]) (f.name ++ parens (commaList ts)) := by
  intro rest
  have hlen : ts.length = ts.reverse.length := by simp
  have hle : ¬(ts.reverse ++ rest).length < ts.length := by simp
  rw [foldlM_render_append, shows_flatten h, Option.bind_some]
  simp only [List.foldlM_cons, List.foldlM_nil, Instr.render]
  rw [if_neg hle, List.take_left' hlen.symm, List.drop_left' hlen.symm, List.reverse_reverse]
  rfl

end Program

namespace Expr

lemma shownList_eq (as : List Expr) : shownList table slots as = as.map (shown table slots) := by
  induction as with
  | nil => rfl
  | cons a as ih => rw [shownList, ih, List.map_cons]

lemma exists_codes_shows {as : List Expr} (h : ∀ a ∈ as, ∃ p, a.code table = .ok p ∧
    Program.Shows slots p (a.shown table slots)) :
    ∃ ps, CodeAll table as ps ∧
      List.Forall₂ (Program.Shows slots) ps (as.map (shown table slots)) := by
  induction as with
  | nil => exact ⟨[], .nil, .nil⟩
  | cons a as ih =>
    obtain ⟨p, hp, hs⟩ := h a List.mem_cons_self
    obtain ⟨ps, hps, hss⟩ := ih fun b hb => h b (List.mem_cons_of_mem _ hb)
    exact ⟨p :: ps, .cons hp hps, .cons hs hss⟩

/-- The tree has a program, and the text of the tree is what is displayed for it. -/
lemma exists_code_shows (slots : List Slot) {e : Expr} (h : e.Fits table) :
    ∃ p, e.code table = .ok p ∧ Program.Shows slots p (e.shown table slots) := by
  induction h with
  | const x => exact ⟨[.const x], rfl, fun _ => rfl⟩
  | @var k _ _ => exact ⟨[.var k], rfl, fun _ => rfl⟩
  | neg _ ih =>
    obtain ⟨p, hp, hs⟩ := ih
    exact ⟨_, code_neg hp, hs.neg⟩
  | @binary o _ _ _ _ ih₁ ih₂ =>
    obtain ⟨p, hp, hs⟩ := ih₁
    obtain ⟨q, hq, hs'⟩ := ih₂
    exact ⟨_, code_binary o hp hq, hs.binary o hs'⟩
  | @call c as t hc _ _ ih =>
    obtain ⟨ps, hps, hss⟩ := exists_codes_shows ih
    have hname : table.calleeName c = t.name := by
      unfold SymbolTable.calleeName
      rw [hc]
    have hcode := code_call hc hps
    have hshows := Program.Shows.call t hss
    rw [List.length_map] at hshows
    refine ⟨_, hcode, ?_⟩
    rw [shown, hname, shownList_eq]
    exact hshows

/-- **A program is displayed as the tree that it is for.** -/
theorem render_of_code {e : Expr} (h : e.Fits table) {p : Program σ}
    (hp : e.code table = .ok p) : p.render slots = some (e.shown table slots) := by
  obtain ⟨q, hq, hs⟩ := exists_code_shows slots h
  cases hp.symm.trans hq
  exact hs.render

end Expr

/-- What is displayed is the text of the tree. -/
lemma display?_eq {tree : Expr} (hfits : tree.Fits table) {p : Program σ}
    (hcode : tree.code table = .ok p) {c : Compiled σ} (hp : c.program = some p) :
    c.display? = some (tree.shown table c.slots) := by
  unfold Compiled.display?
  rw [hp]
  exact Expr.render_of_code hfits hcode

end Formula
