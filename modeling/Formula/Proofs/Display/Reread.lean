import Formula.Proofs.Display.Shown
import Formula.Proofs.Evaluation.Named
import Formula.Proofs.Parser.Fragments
import Formula.Proofs.Store.Twins

/-!
Reading the text of a tree.

The text of a tree that was parsed, or folded after that, reads as the tree again, but for constants
with a sign: the minus sign in front of a number is read as an operation, and to the left of a power
it is read last. Main statement: `fragment_shown`.
-/

namespace Formula

open Grammar

variable {σ : Type} {ev : Evaluator σ} {table : SymbolTable σ} {slots : List Slot}

namespace Expr

variable {a b : Expr} {as : List Expr} {o : Operator} {c : Callee} {w : Store σ}

/-! ### Signs -/

/-- An operation as it is read: to the left of a power the sign of a constant is read last. -/
def rereadBinary : Operator → Expr → Expr → Expr → Expr
  | .pow, const x, _, b =>
    if isSigned x then neg (binary .pow (const (-x)) b) else binary .pow (const x) b
  | o, _, a, b => binary o a b

mutual
/-- What the text of the tree is read as: signs of constants are operations. -/
def reread : Expr → Expr
  | const x => if isSigned x then neg (const (-x)) else const x
  | var k => var k
  | neg a => neg (reread a)
  | binary o a b => rereadBinary o a (reread a) (reread b)
  | call c as => call c (rereadList as)
def rereadList : List Expr → List Expr
  | [] => []
  | a :: as => reread a :: rereadList as
end

lemma rereadList_eq (as : List Expr) : rereadList as = as.map reread := by
  induction as with
  | nil => rfl
  | cons a as ih => rw [rereadList, ih, List.map_cons]

/-- The tree is a constant with a sign. -/
def IsSigned (e : Expr) : Prop := ∃ x, e = const x ∧ isSigned x

lemma rereadBinary_of_ne (ho : o ≠ .pow) (a a' b : Expr) :
    rereadBinary o a a' b = binary o a' b := by
  unfold rereadBinary
  split
  · exact absurd rfl ho
  · rfl

/-- All constants of the tree satisfy `P`. -/
def Constants (P : Float → Prop) (e : Expr) : Prop := ∀ x, Step.const x ∈ e.steps → P x

variable {P : Float → Prop}

lemma constants_const {x : Float} : (const x).Constants P ↔ P x := by
  simp [Constants]

lemma constants_neg : (neg a).Constants P ↔ a.Constants P := by
  simp [Constants]

lemma constants_binary : (binary o a b).Constants P ↔ a.Constants P ∧ b.Constants P := by
  simp [Constants, or_imp, forall_and]

lemma constants_call : (call c as).Constants P ↔ ∀ a ∈ as, a.Constants P := by
  have hlist : (∀ x, Step.const x ∈ stepsList as → P x) ↔ ∀ a ∈ as, a.Constants P := by
    induction as with
    | nil => simp
    | cons a as ih => simp [or_imp, forall_and, ih, Constants]
  simpa [Constants] using hlist

/-- Without signs the text reads as the tree itself. -/
lemma reread_eq_self {e : Expr} (h : e.Constants fun x => isSigned x = false) :
    e.reread = e := by
  induction e using Expr.induct with
  | const x => simp [reread, constants_const.1 h]
  | var k => rfl
  | neg a ih => rw [reread, ih (constants_neg.1 h)]
  | binary o a b ih₁ ih₂ =>
    obtain ⟨ha, hb⟩ := constants_binary.1 h
    rw [reread, ih₁ ha, ih₂ hb]
    unfold rereadBinary
    split
    · simp [constants_const.1 ha]
    · rfl
  | call c as ih =>
    have hargs : as.map reread = as.map id :=
      List.map_congr_left fun a ha => ih a ha (constants_call.1 h a ha)
    rw [reread, rereadList_eq, hargs, List.map_id]

/-! ### Reading -/

lemma slotText_eq (hslots : slots.map Slot.symbol = table.vars) {k : ℕ} {n : Name} {v : VarId}
    (hk : table.vars[k]? = some (n, v)) : slotText slots k = n.text := by
  rw [← hslots, List.getElem?_map] at hk
  obtain ⟨s, hs, hsymbol⟩ := Option.map_eq_some_iff.1 hk
  cases hsymbol
  simp only [slotText, hs]

/-- A number is printed as a literal, with a minus sign in front if it has one. -/
lemma fragment_const (resolve : Text → Option Meaning) {x : Float} (h : IsFinite x) :
    (isSigned x = false → Fragment resolve .atom (printPlain x) [const x]) ∧
      (isSigned x → ∃ t, printPlain x = '-' :: t ∧ Fragment resolve .atom t [const (-x)]) := by
  obtain ⟨b, hb, hx⟩ := h.exists_eq
  constructor
  · intro hsign
    rw [hsign] at hx
    rw [hx]
    exact .number (munch_printPlain hb)
  · intro hsign
    rw [hsign] at hx
    rw [hx, neg_withSign _ (Nat.le_of_lt hb)]
    exact ⟨_, printPlain_neg hb, .number (munch_printPlain hb)⟩

/-- An operation is an atom, being in parentheses. What is raised to a power must be one too, so the
sign of a constant is read last there. -/
lemma fragment_operation {resolve : Text → Option Meaning} {u : Text}
    (ha : Fragment resolve .base (a.shown table slots) [a.reread])
    (ha' : ¬a.IsSigned → Fragment resolve .atom (a.shown table slots) [a.reread])
    (hfinite : a.Constants IsFinite) (hb : Fragment resolve .base u [b.reread]) :
    Fragment resolve .atom (parens (a.shown table slots ++ ' ' :: o.symbol :: ' ' :: u))
      [rereadBinary o a a.reread b.reread] := by
  have hb' := hb.blanks isBlank_space
  by_cases ho : o = .pow
  · subst ho
    by_cases hsign : a.IsSigned
    · obtain ⟨x, rfl, hx⟩ := hsign
      obtain ⟨t, ht, hfragment⟩ := (fragment_const resolve (constants_const.1 hfinite)).2 hx
      rw [rereadBinary, if_pos hx, shown, ht]
      exact (hfragment.power isBlank_space hb').minus.term.expr.parens
    · have hsame : rereadBinary .pow a a.reread b.reread = binary .pow a.reread b.reread := by
        cases a with
        | const x =>
          have hx : ¬isSigned x := fun hx => hsign ⟨x, rfl, hx⟩
          rw [rereadBinary, reread, if_neg hx, if_neg hx]
        | _ => rfl
      rw [hsame]
      exact ((ha' hsign).power isBlank_space hb').term.expr.parens
  · rw [rereadBinary_of_ne ho]
    exact (ha.binary ho hb).parens

/-- **The text of a tree** is a base, and an atom if it does not begin with the sign of a
constant. -/
theorem fragment_shown {e : Expr} (hslots : slots.map Slot.symbol = table.vars)
    (hn : e.Named table) (hfinite : e.Constants IsFinite) :
    Fragment table.resolve .base (e.shown table slots) [e.reread] ∧
      (¬e.IsSigned → Fragment table.resolve .atom (e.shown table slots) [e.reread]) := by
  -- all but constants are atoms
  have hatom {e : Expr} (h : Fragment table.resolve .atom (e.shown table slots) [e.reread]) :
      Fragment table.resolve .base (e.shown table slots) [e.reread] ∧
        (¬e.IsSigned → Fragment table.resolve .atom (e.shown table slots) [e.reread]) :=
    ⟨h.base, fun _ => h⟩
  induction hn with
  | const x =>
    obtain ⟨hpositive, hnegative⟩ := fragment_const table.resolve (constants_const.1 hfinite)
    rw [shown, reread]
    by_cases hsign : isSigned x
    · obtain ⟨t, ht, hfragment⟩ := hnegative hsign
      rw [if_pos hsign, ht]
      exact ⟨hfragment.base.minus, fun h => absurd ⟨x, rfl, hsign⟩ h⟩
    · rw [if_neg hsign]
      have hfragment := hpositive (by simpa using hsign)
      exact ⟨hfragment.base, fun _ => hfragment⟩
  | @var k n v hk hr =>
    refine hatom ?_
    rw [shown, reread, slotText_eq hslots hk]
    exact .var (munch_word n.isWord_text) hr
  | neg _ ih =>
    refine hatom ?_
    rw [shown, reread]
    exact (ih (constants_neg.1 hfinite)).1.minus.term.expr.parens
  | @binary o a b _ _ ih₁ ih₂ =>
    obtain ⟨hfa, hfb⟩ := constants_binary.1 hfinite
    obtain ⟨ha, ha'⟩ := ih₁ hfa
    refine hatom ?_
    rw [shown, reread]
    exact fragment_operation ha ha' hfa (ih₂ hfb).1
  | @call c as t hc hr _ ih =>
    have hname : table.calleeName c = t.name := by
      unfold SymbolTable.calleeName
      rw [hc]
    have hargs : List.Forall₂ (fun u e => Fragment table.resolve .expr u [e])
        (as.map (Expr.shown table slots)) (as.map reread) := by
      rw [List.forall₂_map_left_iff, List.forall₂_map_right_iff, List.forall₂_same]
      exact fun a ha => (ih a ha (constants_call.1 hfinite a ha)).1.term.expr
    have hfragment := Fragment.args hargs
    have hlen : as.length = (as.map reread).length := (List.length_map _).symm
    refine hatom ?_
    rw [shown, reread, hname, shownList_eq, rereadList_eq]
    exact .call (munch_word t.isWord_name) (List.forall_mem_nil _) (by rw [hr, hlen]) hfragment

end Expr

end Formula
