import Formula.Proofs.Display.Reread
import Formula.Proofs.Evaluation.Live

/-!
What is displayed for an expression reads as the expression.

Main statement: `display_round_trip`, for expressions that were compiled without folding. Whatever
has been done since, short of closing the expression, its text parses to the tree that it was
compiled from.
-/

namespace Formula

open Grammar

variable {σ : Type} {w w₁ : Store σ} {depth : ℕ} {e : ExprId} {bs : List (Binding σ)} {o : Options}
  {text : Text} {table : SymbolTable σ} {tree : Expr} {p : Program σ}

/-! ### The constants of a text -/

/-- Number tokens have no sign. -/
lemma Spells.isSigned_eq_false {pos : ℕ} {t : Text} {ts : List Token} (h : Spells pos t ts) :
    ∀ tok ∈ ts, ∀ x, tok.kind = .number x → isSigned x = false := by
  induction h with
  | nil _ => exact List.forall_mem_nil _
  | @cons pos b u t k ts _ hu hk _ ih =>
    refine List.forall_mem_cons.2 ⟨fun x hx => ?_, ih⟩
    obtain rfl : k = .number x := hx
    have hone : munch (u ++ []) = (.ok (.number x), u) := munch_append hu hk (.inr breaks_nil)
    obtain ⟨d, rfl⟩ := exists_decimal_of_munch hone
    exact isSigned_positive d.bits_le

namespace Expr

lemma constants_of_reads {P : Float → Prop} {resolve : Text → Option Meaning} {cat : Cat}
    {ts : List Token} {es : List Expr} {n : ℕ} (h : Reads Eq resolve cat ts es n)
    (hts : ∀ tok ∈ ts, ∀ x, tok.kind = .number x → P x) : ∀ a ∈ es, a.Constants P := by
  induction h with
  | sumOf _ ih | productOf _ ih | unsigned _ ih | arg _ ih => exact ih hts
  | sum _ _ _ _ ih₁ ih₂ | product _ _ _ _ ih₁ ih₂ | power _ _ _ ih₁ ih₂ =>
    obtain ⟨hu, hv⟩ := List.forall_mem_append.1 hts
    have ha := ih₁ hu
    have hb := ih₂ (List.forall_mem_cons.1 hv).2
    rw [List.forall_mem_singleton] at ha hb ⊢
    exact constants_binary.2 ⟨ha, hb⟩
  | minus _ _ ih =>
    have ha := ih (List.forall_mem_cons.1 hts).2
    rw [List.forall_mem_singleton] at ha ⊢
    exact constants_neg.2 ha
  | plus _ _ ih => exact ih (List.forall_mem_cons.1 hts).2
  | number hk =>
    rw [List.forall_mem_singleton]
    exact constants_const.2 (hts _ (List.mem_singleton_self _) _ hk)
  | «variable» => simp [Constants]
  | bare =>
    rw [List.forall_mem_singleton]
    exact constants_call.2 (List.forall_mem_nil _)
  | call _ _ _ _ _ _ ih =>
    have hu := (List.forall_mem_cons.1 (List.forall_mem_cons.1 hts).2).2
    rw [List.forall_mem_singleton]
    exact constants_call.2 (ih (List.forall_mem_append.1 hu).1)
  | group _ _ _ ih =>
    exact ih (List.forall_mem_append.1 (List.forall_mem_cons.1 hts).2).1
  | noArgs => exact List.forall_mem_nil _
  | moreArgs _ _ _ ih₁ ih₂ =>
    obtain ⟨hu, hv⟩ := List.forall_mem_append.1 hts
    exact List.forall_mem_append.2 ⟨ih₁ hu, ih₂ (List.forall_mem_cons.1 hv).2⟩

/-- The constants of a tree are the literals of its text. -/
lemma constants_of_parse {P : Float → Prop} {resolve : Text → Option Meaning}
    (h : parse resolve o text = .ok tree)
    (hnumbers : ∀ tok ∈ lexed text, ∀ x, tok.kind = .number x → P x) :
    tree.Constants fun x => P x ∧ isSigned x = false := by
  obtain ⟨-, ts, n, hwords, hread, -⟩ := reads_of_parse h
  obtain ⟨last, hlexed, -⟩ := lexed_of_words hwords
  have hunsigned := (words_iff_spells.1 hwords).isSigned_eq_false
  refine constants_of_reads hread (fun tok htok x hx => ⟨?_, hunsigned tok htok x hx⟩) tree
    (List.mem_singleton_self _)
  exact hnumbers tok (hlexed ▸ List.mem_append_left _ htok) x hx

end Expr

/-- **What is displayed reads as what was compiled.** Let a text with finite literals compile
without folding. As long as the expression is not closed it is displayed, and with bounds that are
large enough the displayed text parses, with the same names, to a tree whose program is that of the
expression. It is the tree of the text itself. -/
theorem display_round_trip (hcompile : compile depth e bs o text w = (.ok (), w₁))
    (hfold : o.foldConstants = false)
    (hfinite : ∀ tok ∈ lexed text, ∀ x, tok.kind = .number x → IsFinite x) (os : List (Op σ))
    (hstarts : ∀ op ∈ os, op.starts? ≠ some e) (hends : ∀ op ∈ os, op.ends? ≠ some e) :
    ∃ table tree p c shown levels, parseWith bs o text = .ok (table, tree) ∧
      (Op.runAll w₁ os).exprs.get? e = some c ∧ c.program = some p ∧
      c.display? = some shown ∧
      (∀ o' : Options, byteLength shown ≤ o'.maxLength → levels ≤ o'.maxDepth →
        parse table.resolve o' shown = .ok tree) ∧
      ∀ ev w', lower ev table false tree w' = (.ok p, w') := by
  obtain ⟨table, tree, built, p, hparse, hbuilt, hnamed, hcode, -, hface⟩ := exists_built hcompile
  obtain ⟨c, hc, hp, hslots⟩ := exists_live hface hstarts hends
  rw [hfold] at hbuilt
  obtain rfl : built = tree := hbuilt
  obtain ⟨q, hcode', -, hplain⟩ := Lowering.exists_codes hnamed.fits
  cases hcode.symm.trans hcode'
  have hconstants := Expr.constants_of_parse (parseWith_eq_ok hparse).2 hfinite
  have hfragment := (Expr.fragment_shown hslots hnamed fun x hx => (hconstants x hx).1).1
  rw [Expr.reread_eq_self fun x hx => (hconstants x hx).2] at hfragment
  obtain ⟨levels, hlevels⟩ := hfragment.term.expr.parse
  exact ⟨table, built, p, c, _, levels, hparse, hc, hp, display?_eq hnamed.fits hcode hp, hlevels,
    hplain⟩

lemma isFinite_put : ∀ tok ∈ lexed putText, ∀ x, tok.kind = .number x → IsFinite x := by
  have hkinds : ∀ tok ∈ lexed putText, tok.kind ∈ [.word, .leftParen, .rightParen,
      .operator .mul, .operator .sub, .number (Decimal.toFloat false ⟨2, 0⟩),
      .number (Decimal.toFloat false ⟨3, 0⟩), .stop] := by
    decide +kernel
  intro tok htok x hx
  have hkind := hkinds tok htok
  rw [hx] at hkind
  simp only [List.mem_cons, reduceCtorEq, Token.Kind.number.injEq, List.not_mem_nil, or_false,
    false_or] at hkind
  rcases hkind with rfl | rfl <;> decide +kernel

theorem display_round_trip_put : ∃ (w₁ : Store Unit) (table : SymbolTable Unit) (tree : Expr)
    (p : Program Unit) (c : Compiled Unit) (shown : Text) (levels : ℕ),
    compile 1 0 putBindings ⟨false, 4, 15⟩ putText (.empty ()) = (.ok (), w₁) ∧
    (∀ tok ∈ lexed putText, ∀ x, tok.kind = .number x → IsFinite x) ∧
    (Op.runAll w₁ [.update 0 7, .evaluate 2 0]).exprs.get? 0 = some c ∧ c.program = some p ∧
    c.display? = some shown ∧
    (∀ o' : Options, byteLength shown ≤ o'.maxLength → levels ≤ o'.maxDepth →
      parse table.resolve o' shown = .ok tree) ∧
    ∀ ev w', lower ev table false tree w' = (.ok p, w') := by
  have hok : (compile 1 0 putBindings ⟨false, 4, 15⟩ putText (.empty ())).1.isOk := by
    simp only [compile, ofBindings_put]
    decide +kernel
  rcases hcompile : compile 1 0 putBindings ⟨false, 4, 15⟩ putText (.empty ()) with ⟨err | _, w₁⟩
  · rw [hcompile] at hok
    cases hok
  · obtain ⟨table, tree, p, c, shown, levels, -, hc, hp, hshown, hparse, hlower⟩ :=
      display_round_trip hcompile rfl isFinite_put [.update 0 7, .evaluate 2 0]
        (by simp [Op.starts?]) (by simp [Op.ends?])
    exact ⟨w₁, table, tree, p, c, shown, levels, rfl, isFinite_put, hc, hp, hshown, hparse,
      hlower⟩

end Formula
