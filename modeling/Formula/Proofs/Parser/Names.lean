import Formula.Proofs.Evaluation.Lockstep
import Formula.Proofs.Fits
import Formula.Proofs.Parser.FirstError
import Formula.Proofs.Symbols

/-!
Two symbol tables for one text.

The parser asks a table for nothing but the words of the text. If two tables have the same variable
or function for each of them, they give the same error, or trees that differ at most in the numbers
of slots and functions.
-/

namespace Formula

variable {σ α α' β β' γ : Type} {P : Target σ → Prop} {slots : ℕ → ℕ → Prop}
  {table table' : SymbolTable σ} {resolve resolve' : Text → Option Meaning}

/-- The same variable or the same function, but for its number. -/
inductive Meaning.Like (P : Target σ → Prop) (slots : ℕ → ℕ → Prop)
    (table table' : SymbolTable σ) : Meaning → Meaning → Prop
  | variable {k k' : ℕ} : slots k k' → Like P slots table table' (.variable k) (.variable k')
  | function {c c' : Callee} {t : Target σ} (arity : ℕ) : table.target c = .ok t →
      table'.target c' = .ok t → P t →
      Like P slots table table' (.function c arity) (.function c' arity)

/-- The same tree, but for the numbers of slots and functions. -/
abbrev Expr.Like (P : Target σ → Prop) (slots : ℕ → ℕ → Prop) (table table' : SymbolTable σ)
    (a a' : Expr) : Prop :=
  List.Forall₂ (Step.Like P slots table table') a.steps a'.steps

namespace Expr.Like

variable {a a' b b' : Expr} {as as' : List Expr}

lemma const (x : Float) : Expr.Like P slots table table' (.const x) (.const x) :=
  .cons (.const x) .nil

lemma var {k k' : ℕ} (h : slots k k') : Expr.Like P slots table table' (.var k) (.var k') :=
  .cons (.var h) .nil

lemma neg (h : Expr.Like P slots table table' a a') :
    Expr.Like P slots table table' (.neg a) (.neg a') := by
  rw [Expr.Like, Expr.steps_neg, Expr.steps_neg]
  exact List.rel_append h (.cons .neg .nil)

lemma binary (o : Operator) (ha : Expr.Like P slots table table' a a')
    (hb : Expr.Like P slots table table' b b') :
    Expr.Like P slots table table' (.binary o a b) (.binary o a' b') := by
  rw [Expr.Like, Expr.steps_binary, Expr.steps_binary]
  exact List.rel_append (List.rel_append ha hb) (.cons (.binary o) .nil)

lemma call {c c' : Callee} {t : Target σ} (hc : table.target c = .ok t)
    (hc' : table'.target c' = .ok t) (ht : P t)
    (has : List.Forall₂ (Expr.Like P slots table table') as as') :
    Expr.Like P slots table table' (.call c as) (.call c' as') := by
  have hlist : List.Forall₂ (Step.Like P slots table table') (Expr.stepsList as)
      (Expr.stepsList as') := by
    induction has with
    | nil => exact .nil
    | cons ha _ ih =>
      rw [Expr.stepsList_cons, Expr.stepsList_cons]
      exact List.rel_append ha ih
  rw [Expr.Like, Expr.steps_call, Expr.steps_call, has.length_eq]
  exact List.rel_append hlist (.cons (.call _ hc hc' ht) .nil)

lemma joinLeft {r r' : List (Operator × Expr)} (ha : Expr.Like P slots table table' a a')
    (hr : List.Forall₂ (fun x x' => x.1 = x'.1 ∧ Expr.Like P slots table table' x.2 x'.2) r r') :
    Expr.Like P slots table table' (Formula.joinLeft a r) (Formula.joinLeft a' r') := by
  unfold Formula.joinLeft
  induction hr generalizing a a' with
  | nil => exact ha
  | @cons x x' r r' hx _ ih =>
    obtain ⟨o, b⟩ := x
    obtain ⟨o', b'⟩ := x'
    obtain ⟨rfl, hb⟩ := hx
    exact ih (ha.binary o hb)

lemma joinRight {r r' : List (Operator × Expr)} (ha : Expr.Like P slots table table' a a')
    (hr : List.Forall₂ (fun x x' => x.1 = x'.1 ∧ Expr.Like P slots table table' x.2 x'.2) r r') :
    Expr.Like P slots table table' (Formula.joinRight a r) (Formula.joinRight a' r') := by
  induction hr generalizing a a' with
  | nil => exact ha
  | @cons x x' r r' hx _ ih =>
    obtain ⟨o, b⟩ := x
    obtain ⟨o', b'⟩ := x'
    obtain ⟨rfl, hb⟩ := hx
    exact ha.binary o (ih hb)

end Expr.Like

/-- The words from here on satisfy `S`. -/
def Cursor.Words (S : Token → Prop) (c : Cursor) : Prop :=
  ∀ tok, .ok tok ∈ c.items → tok.kind = .word → S tok

variable {S : Token → Prop} {R : α → α' → Prop} {Q : β → β' → Prop}

lemma Cursor.Words.current {c : Cursor} (h : c.Words S) (hk : c.current.kind = .word) :
    S c.current :=
  h _ List.mem_cons_self hk

lemma Cursor.Words.next {c d : Cursor} {t : Token} (h : c.Words S)
    (hn : Parser.next.run c = .ok t d) : d.Words S := by
  obtain ⟨-, -, hread⟩ := Cursor.next_eq_ok hn
  intro tok htok hk
  by_cases hstop : c.current.kind = .stop
  · -- after the end there is only the end
    have hrest : c.lexer.rest = [] := c.rest_eq_nil hstop
    have hend : d.current.kind = .stop := by
      by_contra hne
      have hlt := Lexer.length_rest_lt hread hne
      rw [hrest] at hlt
      exact Nat.not_lt_zero _ hlt
    rw [Cursor.items, if_pos hend] at htok
    cases List.mem_singleton.1 htok
    rw [hend] at hk
    cases hk
  · refine h tok ?_ hk
    rw [Cursor.items, if_neg hstop, Cursor.items_of_next hread]
    exact List.mem_cons_of_mem _ htok

namespace Parser

/-- The same error, or values that are related and the same place. -/
inductive Both (S : Token → Prop) (R : α → α' → Prop) : Outcome α → Outcome α' → Prop
  | ok {a : α} {a' : α'} {d : Cursor} : R a a' → d.Words S → Both S R (.ok a d) (.ok a' d)
  | fail (err : ParseError) (reads : ℕ) : Both S R (.fail err reads) (.fail err reads)

lemma Both.bind {p : Parser α} {p' : Parser α'} {f : α → Parser β} {f' : α' → Parser β'}
    {c : Cursor} (h : Both S R (p.run c) (p'.run c))
    (hf : ∀ a a' d, p.run c = .ok a d → R a a' → d.Words S →
      Both S Q ((f a).run d) ((f' a').run d)) :
    Both S Q ((p >>= f).run c) ((p' >>= f').run c) := by
  rw [run_bind, run_bind]
  generalize hx : p.run c = x at h ⊢
  generalize p'.run c = x' at h ⊢
  cases h with
  | ok ha hd => exact hf _ _ _ hx ha hd
  | fail err reads => exact .fail err reads

/-- Two parsers do the same, as long as the words that they read satisfy `S`. -/
def Alike (S : Token → Prop) (R : α → α' → Prop) (p : Parser α) (p' : Parser α') : Prop :=
  ∀ c : Cursor, c.Words S → Both S R (p.run c) (p'.run c)

namespace Alike

variable {p : Parser α} {p' : Parser α'}

lemma pure {a : α} {a' : α'} (h : R a a') : Alike S R (Pure.pure a) (Pure.pure a') :=
  fun _ hc => .ok h hc

lemma bind {f : α → Parser β} {f' : α' → Parser β'} (h : Alike S R p p')
    (hf : ∀ a a', R a a' → Alike S Q (f a) (f' a')) : Alike S Q (p >>= f) (p' >>= f') :=
  fun c hc => (h c hc).bind fun a a' d _ ha hd => hf a a' ha d hd

lemma fail (f : Token → ParseFault) :
    Alike S R (Parser.fail f : Parser α) (Parser.fail f : Parser α') :=
  fun _ _ => .fail _ _

lemma failAt (pos : ℕ) (f : ParseFault) :
    Alike S R (Parser.failAt pos f : Parser α) (Parser.failAt pos f : Parser α') :=
  fun _ _ => .fail _ _

lemma current : Alike S Eq Parser.current Parser.current := fun _ hc => .ok rfl hc

lemma next : Alike S Eq Parser.next Parser.next := by
  intro c hc
  rcases hn : Parser.next.run c with ⟨t, d⟩ | ⟨err, reads⟩
  · exact .ok rfl (hc.next hn)
  · exact .fail err reads

/-- A token is consumed before both go on. -/
lemma afterNext {q : Parser β} {q' : Parser β'} (h : Alike S Q q q') :
    Alike S Q (do let _ ← Parser.next; q) (do let _ ← Parser.next; q') :=
  next.bind fun _ _ _ => h

lemma nested (h : Alike S R p p') : Alike S R (Parser.nested p) (Parser.nested p') := by
  intro c hc
  have hrun := h { c with depth := c.depth + 1 } hc
  simp only [Parser.nested]
  generalize p.run _ = x at hrun ⊢
  generalize p'.run _ = x' at hrun ⊢
  cases hrun with
  | ok ha hd => exact .ok ha hd
  | fail err reads => exact .fail err reads

lemma many {wanted : Token.Kind → Option γ} (hstop : wanted .stop = none) (h : Alike S R p p') :
    Alike S (List.Forall₂ fun x x' => x.1 = x'.1 ∧ R x.2 x'.2) (Parser.many wanted p hstop)
      (Parser.many wanted p' hstop) := by
  intro c hc
  induction hn : c.size using Nat.strongRecOn generalizing c with
  | ind n ih =>
    rw [run_many, run_many]
    rcases hg : wanted c.current.kind with _ | g
    · exact .ok .nil hc
    · refine (next c hc).bind fun t t' c₁ h₁ _ hc₁ => (h c₁ hc₁).bind fun a a' c₂ h₂ ha hc₂ => ?_
      have hlt : c₂.size < c.size := size_lt_of_wanted hstop hg h₁ h₂
      refine (ih c₂.size (by omega) c₂ hc₂ rfl).bind fun as as' d _ has hd => ?_
      exact .ok (.cons ⟨rfl, ha⟩ has) hd

end Alike

/-! ### The grammar -/

variable {base base' : Parser Expr}

/-- Trees that two parsers make of one text. -/
abbrev AlikeTrees (S : Token → Prop) (P : Target σ → Prop) (slots : ℕ → ℕ → Prop)
    (table table' : SymbolTable σ) : Parser Expr → Parser Expr → Prop :=
  Alike S (Expr.Like P slots table table')

lemma alike_factor (h : AlikeTrees S P slots table table' base base') :
    AlikeTrees S P slots table table' (factor base) (factor base') :=
  h.bind fun _ _ ha => (h.many rfl).bind fun _ _ hr => .pure (ha.joinRight hr)

lemma alike_term (h : AlikeTrees S P slots table table' base base') :
    AlikeTrees S P slots table table' (term base) (term base') :=
  (alike_factor h).bind fun _ _ ha =>
    ((alike_factor h).many rfl).bind fun _ _ hr => .pure (ha.joinLeft hr)

lemma alike_expr (h : AlikeTrees S P slots table table' base base') :
    AlikeTrees S P slots table table' (expr base) (expr base') :=
  (alike_term h).bind fun _ _ ha =>
    ((alike_term h).many rfl).bind fun _ _ hr => .pure (ha.joinLeft hr)

lemma alike_args (h : AlikeTrees S P slots table table' base base') :
    Alike S (List.Forall₂ (Expr.Like P slots table table')) (args base) (args base') := by
  refine Alike.current.bind fun t t' ht => ?_
  obtain rfl : t = t' := ht
  split
  · exact .pure .nil
  · refine (alike_expr h).bind fun a a' ha => ((alike_expr h).many rfl).bind fun r r' hr => ?_
    refine Alike.current.bind fun t t' ht => ?_
    obtain rfl : t = t' := ht
    split
    · refine .pure (.cons ha ?_)
      rw [List.forall₂_map_left_iff, List.forall₂_map_right_iff]
      exact hr.imp fun _ _ hx => hx.2
    · exact .fail _

lemma alike_call (h : AlikeTrees S P slots table table' base base') (name : Text) {c c' : Callee}
    {t : Target σ} (hc : table.target c = .ok t) (hc' : table'.target c' = .ok t) (ht : P t)
    (arity : ℕ) :
    AlikeTrees S P slots table table' (call base name c arity) (call base' name c' arity) := by
  refine Alike.next.bind fun paren paren' hparen => ?_
  obtain rfl : paren = paren' := hparen
  refine (alike_args h).bind fun as as' has => ?_
  refine Alike.afterNext ?_
  rw [has.length_eq]
  split
  · exact .pure (.call hc hc' ht has)
  · exact .failAt _ _

lemma alike_group (h : AlikeTrees S P slots table table' base base') :
    AlikeTrees S P slots table table' (group base) (group base') := by
  refine (alike_expr h).bind fun e e' he => Alike.current.bind fun t t' ht => ?_
  obtain rfl : t = t' := ht
  split
  · exact Alike.afterNext (.pure he)
  · exact .fail _

/-- The words of the text stand for the same. -/
abbrev Agree (P : Target σ → Prop) (slots : ℕ → ℕ → Prop) (table table' : SymbolTable σ)
    (tok : Token) : Prop :=
  Option.Rel (Meaning.Like P slots table table') (table.resolve tok.text)
    (table'.resolve tok.text)

lemma both_named
    (h : AlikeTrees (Agree P slots table table') P slots table table' base base') {c : Cursor}
    (hc : c.Words (Agree P slots table table')) (hk : c.current.kind = .word) :
    Both (Agree P slots table table') (Expr.Like P slots table table')
      ((named table.resolve base).run c) ((named table'.resolve base').run c) := by
  have hword : Option.Rel (Meaning.Like P slots table table')
      (table.resolve c.current.text) (table'.resolve c.current.text) := hc.current hk
  refine (Alike.next c hc).bind fun name name' d hn hname hd => ?_
  obtain rfl : name = name' := hname
  obtain rfl := (Cursor.next_eq_ok hn).1
  refine (Alike.current d hd).bind fun t t' d _ ht hd => ?_
  obtain rfl : t = t' := ht
  generalize table.resolve c.current.text = x at hword ⊢
  generalize table'.resolve c.current.text = x' at hword ⊢
  cases hword with
  | none => exact .fail _ _
  | some hm =>
    cases hm with
    | «variable» hslots =>
      simp only
      split
      · exact .fail _ _
      · exact .ok (.var hslots) hd
    | function arity hcallee hcallee' htarget =>
      simp only
      split
      · exact alike_call h _ hcallee hcallee' htarget arity d hd
      · split
        · exact .ok (.call hcallee hcallee' htarget .nil) hd
        · exact .fail _ _

lemma alike_atom
    (h : AlikeTrees (Agree P slots table table') P slots table table' base base') :
    AlikeTrees (Agree P slots table table') P slots table table' (atom table.resolve base)
      (atom table'.resolve base') := by
  intro c hc
  unfold atom
  rw [run_bind, run_bind]
  simp only [Parser.current]
  rcases hk : c.current.kind with x | _ | o | _ | _ | _ | _
  · exact Alike.afterNext (.pure (.const x)) c hc
  · exact both_named h hc hk
  · exact .fail _ _
  · exact Alike.afterNext (alike_group h) c hc
  · exact .fail _ _
  · exact .fail _ _
  · exact .fail _ _

lemma alike_power
    (h : AlikeTrees (Agree P slots table table') P slots table table' base base') :
    AlikeTrees (Agree P slots table table') P slots table table' (power table.resolve base)
      (power table'.resolve base') := by
  refine (alike_atom h).bind fun a a' ha => Alike.current.bind fun t t' ht => ?_
  obtain rfl : t = t' := ht
  rcases powerOperator? t.kind with _ | o
  · exact .pure ha
  · exact Alike.afterNext (h.bind fun b b' hb => .pure (ha.binary o hb))

lemma alike_signed
    (h : AlikeTrees (Agree P slots table table') P slots table table' base base') :
    AlikeTrees (Agree P slots table table') P slots table table' (signed table.resolve base)
      (signed table'.resolve base') := by
  refine Alike.current.bind fun t t' ht => ?_
  obtain rfl : t = t' := ht
  split
  · exact Alike.afterNext (h.bind fun a a' ha => .pure ha.neg)
  · exact Alike.afterNext h
  · exact alike_power h

lemma alike_baseWithin (levels : ℕ) :
    AlikeTrees (Agree P slots table table') P slots table table'
      (baseWithin table.resolve levels) (baseWithin table'.resolve levels) := by
  induction levels with
  | zero => exact fun _ _ => .fail _ _
  | succ levels ih => exact (alike_signed ih).nested

lemma alike_sentence (levels : ℕ) :
    AlikeTrees (Agree P slots table table') P slots table table'
      (sentence table.resolve levels) (sentence table'.resolve levels) := by
  refine (alike_expr (alike_baseWithin levels)).bind fun e e' he =>
    Alike.current.bind fun t t' ht => ?_
  obtain rfl : t = t' := ht
  split
  · exact .pure he
  · exact .fail _

end Parser

/-- **Trees differ at most in numbers.** Two tables that have the same for every word of a text make
the same error of it, or like trees. -/
theorem parse_like (o : Options) (t : Text)
    (h : ∀ tok ∈ lexed t, tok.kind = .word → Parser.Agree P slots table table' tok) :
    (∃ err, parse table.resolve o t = .error err ∧ parse table'.resolve o t = .error err) ∨
    ∃ e e', parse table.resolve o t = .ok e ∧ parse table'.resolve o t = .ok e' ∧
      Expr.Like P slots table table' e e' := by
  unfold parse parseText
  split
  · exact .inl ⟨_, rfl, rfl⟩
  · rcases hs : Cursor.start t with err | c
    · exact .inl ⟨err, rfl, rfl⟩
    · have hwords : c.Words (Parser.Agree P slots table table') := by
        intro tok htok
        rw [(Cursor.items_of_start hs).2] at htok
        exact h tok (List.mem_filterMap.2 ⟨_, htok, rfl⟩)
      have hrun := Parser.alike_sentence o.maxDepth c hwords
      simp only
      generalize (Parser.sentence table.resolve o.maxDepth).run c = x at hrun ⊢
      generalize (Parser.sentence table'.resolve o.maxDepth).run c = x' at hrun ⊢
      cases hrun with
      | ok he _ => exact .inr ⟨_, _, rfl, rfl, he⟩
      | fail err _ => exact .inl ⟨err, rfl, rfl⟩

/-! ### Tables of two lists of bindings -/

/-- Slots for one variable with one name. -/
def SymbolTable.Shares (vs vs' : List (Name × VarId)) (k k' : ℕ) : Prop :=
  ∃ nv, vs[k]? = some nv ∧ vs'[k']? = some nv

/-- Two lists of bindings that have the same for a word make tables that have the same for it. -/
lemma Parser.agree_of_binds {bs bs' : List (Binding σ)}
    (hb : SymbolTable.ofBindings bs = .ok table) (hb' : SymbolTable.ofBindings bs' = .ok table')
    {tok : Token} (h : ∀ r, Binds bs tok.text r ↔ Binds bs' tok.text r)
    (hbuiltin : ∀ b, P (.builtin b))
    (hhost : ∀ n f, Binds bs tok.text (.function f) → P (.host n f)) :
    Parser.Agree P (SymbolTable.Shares table.vars table'.vars) table table' tok := by
  unfold Parser.Agree SymbolTable.resolve
  rcases hi : table.indexOf? tok.text with _ | i
  · rcases hi' : table'.indexOf? tok.text with _ | i'
    · rcases Builtin.find? tok.text with _ | b
      · exact .none
      · exact .some (.function b.arity rfl rfl (hbuiltin b))
    · obtain ⟨s', -, -, hbound⟩ := SymbolTable.binds_of_indexOf? hb' hi'
      obtain ⟨i, s, hi'', -⟩ := SymbolTable.indexOf?_of_binds hb ((h _).2 hbound)
      cases hi.symm.trans hi''
  · obtain ⟨s, hs, hname, hbound⟩ := SymbolTable.binds_of_indexOf? hb hi
    obtain ⟨i', s', hi', hs', hname', href⟩ :=
      SymbolTable.indexOf?_of_binds hb' ((h _).1 hbound)
    have hsame : s'.name = s.name := Name.ext (hname'.trans hname.symm)
    rw [hi']
    simp only [hs, hs', Option.map_some]
    obtain ⟨n, kind⟩ := s
    obtain ⟨n', kind'⟩ := s'
    obtain rfl : n' = n := hsame
    cases kind with
    | «variable» v k =>
      cases kind' with
      | function f => cases href
      | «variable» v' k' =>
        cases href
        have hslot : table.vars[k]? = some (n', v) :=
          (SymbolTable.numbered_of_bindings hb).getElem?_vars hs rfl
        have hslot' : table'.vars[k']? = some (n', v) :=
          (SymbolTable.numbered_of_bindings hb').getElem?_vars hs' rfl
        exact .some (.variable ⟨_, hslot, hslot'⟩)
    | function f =>
      cases kind' with
      | «variable» v' k' => cases href
      | function f' =>
        cases href
        have htarget : table.target (.bound i) = .ok (.host n' f) := by
          simp only [SymbolTable.target, SymbolTable.functionAt?, hs, Option.bind_some]
        have htarget' : table'.target (.bound i') = .ok (.host n' f) := by
          simp only [SymbolTable.target, SymbolTable.functionAt?, hs', Option.bind_some]
        exact .some (.function f.arity htarget htarget' (hhost n' f hbound))

end Formula
