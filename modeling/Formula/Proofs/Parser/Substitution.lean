import Formula.Proofs.Lexing.Splice
import Formula.Proofs.Parser.FirstError
import Formula.Proofs.Parser.Fragments

/-!
Writing expressions in place of variables.

In a text a variable can be replaced by a number, or by an expression in parentheses. The tokens
around it stay apart, and whatever operators are there, what is written is read as one operand. So
the text reads as the tree with other trees in place of its variables.
Main statement: `Substitution.parse`.
-/

namespace Formula

open Grammar

/-! ### Trees in place of variables -/

namespace Expr

mutual
/-- The slots of the variables, from left to right. -/
def leaves : Expr → List ℕ
  | const _ => []
  | var k => [k]
  | neg a => leaves a
  | binary _ a b => leaves a ++ leaves b
  | call _ as => leavesList as
def leavesList : List Expr → List ℕ
  | [] => []
  | a :: as => leaves a ++ leavesList as
end

mutual
/-- The tree with the trees `es` in place of its variables, from left to right. -/
def fill : Expr → List Expr → Expr
  | const x, _ => const x
  | var k, es => es.headD (var k)
  | neg a, es => neg (fill a es)
  | binary o a b, es => binary o (fill a es) (fill b (es.drop a.leaves.length))
  | call c as, es => call c (fillList as es)
def fillList : List Expr → List Expr → List Expr
  | [], _ => []
  | a :: as, es => fill a es :: fillList as (es.drop a.leaves.length)
end

variable {a b : Expr} {as bs es es' : List Expr} {o : Operator} {g : ℕ → Expr}

lemma leaves_neg : (neg a).leaves = a.leaves := rfl

lemma leaves_binary : (binary o a b).leaves = a.leaves ++ b.leaves := rfl

lemma leaves_call {c : Callee} : (call c as).leaves = leavesList as := rfl

lemma leavesList_cons : leavesList (a :: as) = a.leaves ++ leavesList as := rfl

lemma fill_var {k : ℕ} : (var k).fill es = es.headD (var k) := rfl

lemma fill_neg : (neg a).fill es = neg (a.fill es) := rfl

lemma fill_binary :
    (binary o a b).fill es = binary o (a.fill es) (b.fill (es.drop a.leaves.length)) := rfl

lemma fill_call {c : Callee} : (call c as).fill es = call c (fillList as es) := rfl

lemma fillList_cons :
    fillList (a :: as) es = a.fill es :: fillList as (es.drop a.leaves.length) := rfl

@[simp] lemma leavesList_singleton (a : Expr) : leavesList [a] = a.leaves := List.append_nil _

@[simp] lemma fillList_singleton (a : Expr) (es : List Expr) : fillList [a] es = [a.fill es] := rfl

lemma leavesList_append (as bs : List Expr) :
    leavesList (as ++ bs) = leavesList as ++ leavesList bs := by
  induction as with
  | nil => rfl
  | cons a as ih => rw [List.cons_append, leavesList_cons, leavesList_cons, ih, List.append_assoc]

/-- Trees beyond those that are needed do not matter. -/
lemma fill_append (h : a.leaves.length ≤ es.length) : a.fill (es ++ es') = a.fill es := by
  induction a using Expr.induct generalizing es with
  | const x => rfl
  | var k =>
    obtain ⟨e, es, rfl⟩ := List.exists_cons_of_length_pos h
    rfl
  | neg a ih => rw [fill_neg, fill_neg, ih h]
  | binary o a b ih₁ ih₂ =>
    rw [leaves_binary, List.length_append] at h
    have ha : a.leaves.length ≤ es.length := by omega
    have hb : b.leaves.length ≤ (es.drop a.leaves.length).length := by
      rw [List.length_drop]
      omega
    rw [fill_binary, fill_binary, ih₁ ha, List.drop_append_of_le_length ha, ih₂ hb]
  | call c as ih =>
    have hlist (h : (leavesList as).length ≤ es.length) :
        fillList as (es ++ es') = fillList as es := by
      clear * - ih h
      induction as generalizing es with
      | nil => rfl
      | cons a as ihs =>
        rw [leavesList_cons, List.length_append] at h
        have ha : a.leaves.length ≤ es.length := by omega
        have has : (leavesList as).length ≤ (es.drop a.leaves.length).length := by
          rw [List.length_drop]
          omega
        rw [fillList_cons, fillList_cons, ih a List.mem_cons_self ha,
          List.drop_append_of_le_length ha,
          ihs (fun b hb _ h => ih b (List.mem_cons_of_mem _ hb) h) has]
    rw [fill_call, fill_call, hlist h]

lemma fill_binary_append (h : es.length = a.leaves.length) :
    (binary o a b).fill (es ++ es') = binary o (a.fill es) (b.fill es') := by
  rw [fill_binary, fill_append (Nat.le_of_eq h.symm), List.drop_left' h]

lemma fillList_append (h : es.length = (leavesList as).length) :
    fillList (as ++ bs) (es ++ es') = fillList as es ++ fillList bs es' := by
  induction as generalizing es with
  | nil =>
    obtain rfl : es = [] := List.length_eq_zero_iff.1 h
    rfl
  | cons a as ih =>
    rw [leavesList_cons, List.length_append] at h
    have ha : a.leaves.length ≤ es.length := by omega
    have has : (es.drop a.leaves.length).length = (leavesList as).length := by
      rw [List.length_drop]
      omega
    rw [List.cons_append, fillList_cons, fillList_cons, fill_append ha,
      List.drop_append_of_le_length ha, ih has, List.cons_append]

/-! Where the tree that is put in depends on the variable only. -/

/-- The tree with `g k` in place of variable `k`. -/
def assign (g : ℕ → Expr) (a : Expr) : Expr := a.fill (a.leaves.map g)

@[simp] lemma assign_const (x : Float) : (const x).assign g = const x := rfl

@[simp] lemma assign_var (k : ℕ) : (var k).assign g = g k := rfl

@[simp] lemma assign_neg : (neg a).assign g = neg (a.assign g) := rfl

@[simp] lemma assign_binary : (binary o a b).assign g = binary o (a.assign g) (b.assign g) := by
  rw [assign, leaves_binary, List.map_append, fill_binary_append (List.length_map _), assign,
    assign]

lemma fillList_leaves (as : List Expr) :
    fillList as ((leavesList as).map g) = as.map (assign g) := by
  induction as with
  | nil => rfl
  | cons a as ih =>
    have hlen : (a.leaves.map g).length = a.leaves.length := List.length_map _
    rw [leavesList_cons, List.map_append, fillList_cons, fill_append (Nat.le_of_eq hlen.symm),
      List.drop_left' hlen, ih, List.map_cons, assign]

@[simp] lemma assign_call (c : Callee) (as : List Expr) :
    (call c as).assign g = call c (as.map (assign g)) := by
  rw [assign, leaves_call, fill_call, fillList_leaves]

/-- A tree stays the same if every variable is put in its own place. -/
lemma assign_self (a : Expr) : a.assign var = a := by
  induction a using Expr.induct with
  | const x => exact assign_const x
  | var k => exact assign_var k
  | neg a ih => rw [assign_neg, ih]
  | binary o a b ih₁ ih₂ => rw [assign_binary, ih₁, ih₂]
  | call c as ih =>
    have hargs : as.map (assign var) = as.map id := List.map_congr_left ih
    rw [assign_call, hargs, List.map_id]

end Expr

/-! ### The variables of a text -/

/-- The slot of a name that stands for a variable. -/
def Token.slot? (resolve : Text → Option Meaning) (tok : Token) : Option ℕ :=
  match tok.kind, resolve tok.text with
  | .word, some (.variable k) => some k
  | _, _ => none

variable {resolve resolve' : Text → Option Meaning} {c : Cat} {ts us vs : List Token} {tok : Token}
  {es : List Expr} {n p k : ℕ} {t u : Text} {e tree : Expr} {opts : Options} {o : Operator}

lemma Token.slot?_eq_some :
    tok.slot? resolve = some k ↔ tok.kind = .word ∧ resolve tok.text = some (.variable k) := by
  unfold slot?
  split <;> simp_all

lemma Token.slot?_of_ne (h : tok.kind ≠ .word) : tok.slot? resolve = none := by
  unfold slot?
  split <;> simp_all

lemma Token.slot?_of_function {f : Callee} {arity : ℕ}
    (h : resolve tok.text = some (.function f arity)) : tok.slot? resolve = none := by
  unfold slot?
  split <;> simp_all

/-- **The variables of a tree** are those names of its text that stand for variables. -/
lemma leaves_of_reads (h : Reads Eq resolve c ts es n) :
    Expr.leavesList es = ts.filterMap (Token.slot? resolve) := by
  have hne {tok : Token} {k : Token.Kind} (hk : tok.kind = k) (h : k ≠ .word) :
      tok.slot? resolve = none := Token.slot?_of_ne (hk ▸ h)
  induction h with
  | sumOf _ ih | productOf _ ih | unsigned _ ih | arg _ ih => exact ih
  | sum _ ht _ _ ih₁ ih₂ | product _ ht _ _ ih₁ ih₂ | power _ ht _ ih₁ ih₂ =>
    rw [Expr.leavesList_singleton] at ih₁ ih₂ ⊢
    rw [List.filterMap_append, List.filterMap_cons_none (hne ht nofun), ← ih₁, ← ih₂,
      Expr.leaves_binary]
  | minus ht _ ih =>
    rw [Expr.leavesList_singleton] at ih ⊢
    rw [List.filterMap_cons_none (hne ht nofun), ← ih, Expr.leaves_neg]
  | plus ht _ ih => rw [List.filterMap_cons_none (hne ht nofun), ih]
  | number ht =>
    rw [List.filterMap_cons_none (hne ht nofun)]
    rfl
  | «variable» ht hr =>
    rw [List.filterMap_cons_some (Token.slot?_eq_some.2 ⟨ht, hr⟩)]
    rfl
  | bare _ hr =>
    rw [List.filterMap_cons_none (Token.slot?_of_function hr)]
    rfl
  | call _ hr hl _ hc _ ih =>
    rw [List.filterMap_cons_none (Token.slot?_of_function hr),
      List.filterMap_cons_none (hne hl nofun), List.filterMap_append,
      List.filterMap_cons_none (hne hc nofun), ← ih, Expr.leavesList_singleton, Expr.leaves]
    exact (List.append_nil _).symm
  | group hl _ hc ih =>
    rw [List.filterMap_cons_none (hne hl nofun), List.filterMap_append,
      List.filterMap_cons_none (hne hc nofun), ← ih]
    exact (List.append_nil _).symm
  | noArgs => rfl
  | moreArgs _ ht _ ih₁ ih₂ =>
    rw [Expr.leavesList_append, List.filterMap_append, List.filterMap_cons_none (hne ht nofun), ih₁,
      ih₂]

/-! ### Substitutions -/

/-- What is written in place of a token, and the tree that is to be read there. -/
abbrev Substitution := Token → Option (Text × Expr)

namespace Substitution

variable {s : Substitution}

def text? (s : Substitution) (tok : Token) : Option Text := (s tok).map Prod.fst

/-- The tree that is read for a variable. -/
def leaf? (s : Substitution) (resolve : Text → Option Meaning) (tok : Token) : Option Expr :=
  (tok.slot? resolve).map fun k => ((s tok).map Prod.snd).getD (.var k)

/-- Names that stand for variables are replaced by atoms. The others keep what they stand for. -/
structure Carries (s : Substitution) (resolve resolve' : Text → Option Meaning) (tok : Token) :
    Prop where
  put : ∀ u e, s tok = some (u, e) →
    (∃ k, tok.slot? resolve = some k) ∧ Fragment resolve' .atom u [e]
  keep : s tok = none → tok.kind = .word → resolve' tok.text = resolve tok.text

lemma Carries.text?_eq_none (h : s.Carries resolve resolve' tok)
    (hslot : tok.slot? resolve = none) : s.text? tok = none := by
  unfold text?
  rcases hs : s tok with _ | ⟨u, e⟩
  · rfl
  · obtain ⟨⟨k, hk⟩, -⟩ := h.put u e hs
    cases hslot.symm.trans hk

lemma leaf?_eq_none (hslot : tok.slot? resolve = none) : s.leaf? resolve tok = none := by
  rw [leaf?, hslot]
  rfl

/-- There is a tree for every variable. -/
lemma length_leaves (s : Substitution) (h : Reads Eq resolve c ts es n) :
    (ts.filterMap (s.leaf? resolve)).length = (Expr.leavesList es).length := by
  rw [leaves_of_reads h, List.length_filterMap_eq_countP, List.length_filterMap_eq_countP]
  simp [leaf?]

/-- The tokens spell the text, and the substitution carries each of them over. -/
structure CarriesText (s : Substitution) (resolve resolve' : Text → Option Meaning) (p : ℕ)
    (t : Text) (ts : List Token) : Prop where
  spells : Spells p t ts
  carries : ∀ tok ∈ ts, s.Carries resolve resolve' tok

lemma CarriesText.head (h : s.CarriesText resolve resolve' p t (tok :: ts)) :
    s.Carries resolve resolve' tok := h.carries tok List.mem_cons_self

/-- A token of one character stays, and is no variable. It cuts the text and its variables in
two. -/
lemma exists_symbol {d : Char} {k : Token.Kind} (htok : tok.kind = k) (hd : symbolKind? d = some k)
    (h : s.CarriesText resolve resolve' p t (us ++ tok :: vs)) :
    ∃ t₁ g t₂ q, (∀ d ∈ g, isBlank d) ∧ s.CarriesText resolve resolve' p t₁ us ∧
      s.CarriesText resolve resolve' q t₂ vs ∧
      edited s.text? p t (us ++ tok :: vs) =
        edited s.text? p t₁ us ++ (g ++ d :: edited s.text? q t₂ vs) ∧
      (us ++ tok :: vs).filterMap (s.leaf? resolve) =
        us.filterMap (s.leaf? resolve) ++ vs.filterMap (s.leaf? resolve) := by
  subst htok
  have hslot : tok.slot? resolve = none := by
    refine Token.slot?_of_ne fun hword => ?_
    rw [hword] at hd
    cases Token.Kind.char?_of_symbolKind? hd
  obtain ⟨hus, hvs⟩ := List.forall_mem_append.1 h.carries
  obtain ⟨hcarries, hvs⟩ := List.forall_mem_cons.1 hvs
  obtain ⟨t₁, g, t₂, q, hg, h₁, h₂, -, hedit⟩ := h.spells.exists_symbol hd
  refine ⟨t₁, g, t₂, q, hg, ⟨h₁, hus⟩, ⟨h₂, hvs⟩, hedit _ (hcarries.text?_eq_none hslot), ?_⟩
  rw [List.filterMap_append, List.filterMap_cons_none (leaf?_eq_none hslot)]

/-- The same where the token comes first. -/
lemma exists_first {d : Char} {k : Token.Kind} (htok : tok.kind = k) (hd : symbolKind? d = some k)
    (h : s.CarriesText resolve resolve' p t (tok :: vs)) :
    ∃ g t₂ q, (∀ d ∈ g, isBlank d) ∧ s.CarriesText resolve resolve' q t₂ vs ∧
      edited s.text? p t (tok :: vs) = g ++ d :: edited s.text? q t₂ vs ∧
      (tok :: vs).filterMap (s.leaf? resolve) = vs.filterMap (s.leaf? resolve) := by
  rw [← List.nil_append (tok :: vs)] at h ⊢
  obtain ⟨g, g', t₂, q, hg', hg, hright, hedit, hleaves⟩ := exists_symbol htok hd h
  have hblank := List.forall_mem_append.2 ⟨hg.spells.blank_of_nil, hg'⟩
  refine ⟨g ++ g', t₂, q, hblank, hright, ?_, hleaves⟩
  rw [hedit, List.append_assoc]
  rfl

/-- Parentheses stay around what is edited between them. -/
lemma exists_group {l r : Token} (hl : l.kind = .leftParen) (hr : r.kind = .rightParen)
    (h : s.CarriesText resolve resolve' p t (l :: (us ++ [r]))) :
    ∃ g t₁ q g₁ g₂, (∀ d ∈ g, isBlank d) ∧ (∀ d ∈ g₁, isBlank d) ∧ (∀ d ∈ g₂, isBlank d) ∧
      s.CarriesText resolve resolve' q t₁ us ∧
      edited s.text? p t (l :: (us ++ [r])) =
        g ++ (parens (edited s.text? q t₁ us ++ g₁) ++ g₂) ∧
      (l :: (us ++ [r])).filterMap (s.leaf? resolve) = us.filterMap (s.leaf? resolve) := by
  obtain ⟨g, t', q', hg, h', hedit, hleaves⟩ := exists_first hl (d := '(') rfl h
  obtain ⟨t₁, g₁, g₂, q, hg₁, hleft, hg₂, hedit', hleaves'⟩ := exists_symbol hr (d := ')') rfl h'
  refine ⟨g, t₁, q', g₁, g₂, hg, hg₁, hg₂.spells.blank_of_nil, hleft, ?_, ?_⟩
  · rw [hedit, hedit']
    simp [parens, edited, edits, splice]
  · rw [hleaves, hleaves', List.filterMap_nil, List.append_nil]

/-- The operands of an operator are edited apart. It has the variables of both, those of the left
one first. -/
lemma exists_operands {a : Expr} (b : Expr) (ht : tok.kind = .operator o)
    (hu : Reads Eq resolve c us [a] n)
    (h : s.CarriesText resolve resolve' p t (us ++ tok :: vs)) :
    ∃ t₁ g t₂ q, (∀ d ∈ g, isBlank d) ∧ s.CarriesText resolve resolve' p t₁ us ∧
      s.CarriesText resolve resolve' q t₂ vs ∧
      edited s.text? p t (us ++ tok :: vs) =
        edited s.text? p t₁ us ++ (g ++ o.symbol :: edited s.text? q t₂ vs) ∧
      (Expr.binary o a b).fill ((us ++ tok :: vs).filterMap (s.leaf? resolve)) =
        .binary o (a.fill (us.filterMap (s.leaf? resolve)))
          (b.fill (vs.filterMap (s.leaf? resolve))) := by
  obtain ⟨t₁, g, t₂, q, hg, hleft, hright, hedit, hleaves⟩ :=
    exists_symbol ht o.symbolKind?_symbol h
  have hlen := s.length_leaves hu
  rw [Expr.leavesList_singleton] at hlen
  exact ⟨t₁, g, t₂, q, hg, hleft, hright, hedit, by rw [hleaves, Expr.fill_binary_append hlen]⟩

/-- An operand that is no variable stays. -/
lemma fragment_kept {a : Expr} (h : s.CarriesText resolve resolve' p t [tok])
    (hslot : tok.slot? resolve = none)
    (ha : munch tok.text = (.ok tok.kind, tok.text) → Fragment resolve' .atom tok.text [a]) :
    Fragment resolve' .atom (edited s.text? p t [tok]) [a] := by
  obtain ⟨g, g', hg, hg', hmunch, hedit⟩ := h.spells.exists_token
  rw [hedit, h.head.text?_eq_none hslot]
  exact ((ha hmunch).blanksAfter hg').blanks hg

/-- A variable stays, or an atom takes its place. -/
lemma fragment_variable (h : s.CarriesText resolve resolve' p t [tok]) (hk : tok.kind = .word)
    (hr : resolve tok.text = some (.variable k)) :
    Fragment resolve' .atom (edited s.text? p t [tok])
      [(Expr.var k).fill ([tok].filterMap (s.leaf? resolve))] := by
  have hslot : tok.slot? resolve = some k := Token.slot?_eq_some.2 ⟨hk, hr⟩
  have hleaf : [tok].filterMap (s.leaf? resolve) = [((s tok).map Prod.snd).getD (.var k)] := by
    rw [List.filterMap_cons_some (by rw [leaf?, hslot, Option.map_some]), List.filterMap_nil]
  obtain ⟨g, g', hg, hg', hmunch, hedit⟩ := h.spells.exists_token
  rw [hedit, hleaf, Expr.fill_var, text?]
  refine (Fragment.blanksAfter hg' ?_).blanks hg
  rcases hput : s tok with _ | ⟨u, e⟩
  · rw [hk] at hmunch
    exact .var hmunch ((h.head.keep hput hk).trans hr)
  · exact (h.head.put u e hput).2

/-- The name of a function stays. -/
lemma Carries.resolve_eq (h : s.Carries resolve resolve' tok) (hk : tok.kind = .word)
    {f : Callee} (hr : resolve tok.text = some (.function f k)) :
    resolve' tok.text = some (.function f k) := by
  have hput : s tok = none :=
    Option.map_eq_none_iff.1 (h.text?_eq_none (Token.slot?_of_function hr))
  rw [h.keep hput hk, hr]

/-- A call keeps the name of its function, and its parentheses. -/
lemma fragment_call {l r : Token} {f : Callee} {as : List Expr} (hk : tok.kind = .word)
    (hr : resolve tok.text = some (.function f k)) (hl : l.kind = .leftParen)
    (hclose : r.kind = .rightParen)
    (h : s.CarriesText resolve resolve' p t (tok :: l :: (us ++ [r])))
    (hargs : ∀ {p : ℕ} {t : Text}, s.CarriesText resolve resolve' p t us →
      Fragment resolve' (.args k) (edited s.text? p t us)
        (Expr.fillList as (us.filterMap (s.leaf? resolve)))) :
    Fragment resolve' .atom (edited s.text? p t (tok :: l :: (us ++ [r])))
      [.call f (Expr.fillList as
        ((tok :: l :: (us ++ [r])).filterMap (s.leaf? resolve)))] := by
  obtain ⟨hs, hts⟩ := h
  obtain ⟨htok, hrest⟩ := List.forall_mem_cons.1 hts
  have hslot : tok.slot? resolve = none := Token.slot?_of_function hr
  replace hs : Spells p t ([tok] ++ l :: (us ++ [r])) := hs
  obtain ⟨t₁, t₂, -, h₁, h₂, hsplit⟩ := hs.exists_split
  obtain ⟨g, g₁, hg, hg₁, hmunch, hname⟩ := h₁.exists_token
  obtain ⟨g₂, t₃, q, g₃, g₄, hg₂, hg₃, hg₄, hus, hedit, hleaves⟩ :=
    exists_group hl hclose ⟨h₂, hrest⟩
  have hcall := Fragment.call (hk ▸ hmunch) (List.forall_mem_append.2 ⟨hg₁, hg₂⟩)
    (htok.resolve_eq hk hr) ((hargs hus).blanksAfter hg₃)
  have htext : edited s.text? p t (tok :: l :: (us ++ [r])) = g ++ (tok.text ++ (g₁ ++ g₂ ++
      parens (edited s.text? q t₃ us ++ g₃)) ++ g₄) := by
    rw [← List.singleton_append, hsplit, hname, hedit, htok.text?_eq_none hslot]
    simp only [Option.getD_none, List.append_assoc]
  rw [htext, List.filterMap_cons_none (leaf?_eq_none hslot), hleaves]
  exact (hcall.blanksAfter hg₄).blanks hg

/-- **Substitution in a text** is substitution in its tree, for every kind of phrase. -/
theorem fragment (h : Reads Eq resolve c ts es n) (hs : s.CarriesText resolve resolve' p t ts) :
    Fragment resolve' c (edited s.text? p t ts)
      (Expr.fillList es (ts.filterMap (s.leaf? resolve))) := by
  induction h generalizing p t with
  | sumOf _ ih =>
    have ha := ih hs
    rw [Expr.fillList_singleton] at ha ⊢
    exact ha.expr
  | productOf _ ih =>
    have ha := ih hs
    rw [Expr.fillList_singleton] at ha ⊢
    exact ha.term
  | unsigned _ ih =>
    have ha := ih hs
    rw [Expr.fillList_singleton] at ha ⊢
    exact ha.base
  | arg _ ih =>
    have ha := ih hs
    rw [Expr.fillList_singleton] at ha ⊢
    exact ha.arg
  | @sum u v tok o a b m n hu ht ho _ ih₁ ih₂ =>
    obtain ⟨t₁, g, t₂, q, hg, h₁, h₂, hedit, hfill⟩ := exists_operands b ht hu hs
    have ha := ih₁ h₁
    have hb := ih₂ h₂
    rw [Expr.fillList_singleton] at ha hb ⊢
    rw [hedit, hfill]
    exact ha.sum ho hg hb
  | @product u v tok o a b m n hu ht ho _ ih₁ ih₂ =>
    obtain ⟨t₁, g, t₂, q, hg, h₁, h₂, hedit, hfill⟩ := exists_operands b ht hu hs
    have ha := ih₁ h₁
    have hb := ih₂ h₂
    rw [Expr.fillList_singleton] at ha hb ⊢
    rw [hedit, hfill]
    exact ha.product ho hg hb
  | @power u v tok a b m n hu ht _ ih₁ ih₂ =>
    obtain ⟨t₁, g, t₂, q, hg, h₁, h₂, hedit, hfill⟩ := exists_operands b ht hu hs
    have ha := ih₁ h₁
    have hb := ih₂ h₂
    rw [Expr.fillList_singleton] at ha hb ⊢
    rw [hedit, hfill]
    exact ha.power hg hb
  | @minus v tok a n ht _ ih =>
    obtain ⟨g, t₂, q, hg, h₂, hedit, hleaves⟩ :=
      exists_first ht Operator.sub.symbolKind?_symbol hs
    have ha := ih h₂
    rw [Expr.fillList_singleton] at ha ⊢
    rw [hedit, hleaves]
    exact ha.minus.blanks hg
  | @plus v tok a n ht _ ih =>
    obtain ⟨g, t₂, q, hg, h₂, hedit, hleaves⟩ :=
      exists_first ht Operator.add.symbolKind?_symbol hs
    have ha := ih h₂
    rw [Expr.fillList_singleton] at ha ⊢
    rw [hedit, hleaves]
    exact ha.plus.blanks hg
  | @number tok x hk =>
    refine fragment_kept hs ?_ fun hmunch => ?_
    · exact Token.slot?_of_ne (hk ▸ nofun)
    · exact .number (hk ▸ hmunch)
  | @«variable» tok k hk hr =>
    rw [Expr.fillList_singleton]
    exact fragment_variable hs hk hr
  | @bare tok f hk hr =>
    refine fragment_kept hs (Token.slot?_of_function hr) fun hmunch => ?_
    exact .bare (hk ▸ hmunch) (hs.head.resolve_eq hk hr)
  | @call tok l v r f arity count as n hk hr hl _ hclose harity ih =>
    rw [Expr.fillList_singleton, Expr.fill_call]
    exact fragment_call hk (harity ▸ hr) hl hclose hs ih
  | @group l v r a n hl _ hclose ih =>
    obtain ⟨g, t₁, q, g₁, g₂, hg, hg₁, hg₂, h₁, hedit, hleaves⟩ := exists_group hl hclose hs
    have ha := (ih h₁).blanksAfter hg₁
    rw [Expr.fillList_singleton] at ha ⊢
    rw [hedit, hleaves]
    exact (ha.parens.blanksAfter hg₂).blanks hg
  | noArgs => exact .noArgs hs.spells.blank_of_nil
  | @moreArgs u v tok count as a m n hu ht _ ih₁ ih₂ =>
    obtain ⟨t₁, g, t₂, q, hg, h₁, h₂, hedit, hleaves⟩ := exists_symbol ht symbolKind?_comma hs
    have has := ih₁ h₁
    have ha := ih₂ h₂
    rw [hedit, hleaves, Expr.fillList_append (s.length_leaves hu)]
    rw [Expr.fillList_singleton] at ha ⊢
    exact has.moreArgs hg ha

/-- The text with what the substitution has for its tokens. -/
def apply (s : Substitution) (t : Text) : Text := edited s.text? 0 t (lexed t)

/-- What becomes of a text that parses. -/
lemma fragment_apply (h : Formula.parse resolve opts t = .ok tree)
    (hts : ∀ tok ∈ lexed t, s.Carries resolve resolve' tok) :
    tree.leaves = (lexed t).filterMap (Token.slot? resolve) ∧
      Fragment resolve' .expr (s.apply t) [tree.fill ((lexed t).filterMap (s.leaf? resolve))] := by
  obtain ⟨-, ts, n, hwords, hread, -⟩ := reads_of_parse h
  obtain ⟨last, hlexed, hlast⟩ := lexed_of_words hwords
  obtain ⟨hts, hend⟩ := List.forall_mem_append.1 (hlexed ▸ hts)
  have hslot : last.slot? resolve = none := Token.slot?_of_ne (hlast ▸ nofun)
  have hput : s.text? last = none := (List.forall_mem_singleton.1 hend).text?_eq_none hslot
  have hedit : s.apply t = edited s.text? 0 t ts := by
    rw [apply, hlexed, edited, edits, List.filterMap_append,
      List.filterMap_cons_none (by rw [hput]; rfl)]
    exact congrArg (splice 0 t) (List.append_nil _)
  have hfragment := fragment hread ⟨words_iff_spells.1 hwords, hts⟩
  have hleaves := leaves_of_reads hread
  rw [Expr.leavesList_singleton] at hleaves
  rw [Expr.fillList_singleton] at hfragment
  rw [hedit, hlexed, List.filterMap_append, List.filterMap_append,
    List.filterMap_cons_none hslot, List.filterMap_cons_none (leaf?_eq_none hslot),
    List.filterMap_nil, List.filterMap_nil, List.append_nil, List.append_nil]
  exact ⟨hleaves, hfragment⟩

end Substitution

/-- A text that parses does so wherever it stands. -/
lemma fragment_of_parse (h : parse resolve opts t = .ok tree) :
    Fragment resolve .expr t [tree] := by
  obtain ⟨hleaves, hfragment⟩ := Substitution.fragment_apply (s := fun _ => none) h
    fun tok _ => ⟨nofun, fun _ _ => rfl⟩
  have htext : Substitution.apply (fun _ => none) t = t := by
    have hedits : edits (Substitution.text? fun _ => none) (lexed t) = [] :=
      List.filterMap_eq_nil_iff.2 fun _ _ => rfl
    rw [Substitution.apply, edited, hedits, splice]
  have hvars : (lexed t).filterMap (Substitution.leaf? (fun _ => none) resolve) =
      tree.leaves.map .var := by
    rw [hleaves, List.map_filterMap]
    rfl
  have hself : tree.fill (tree.leaves.map .var) = tree := tree.assign_self
  rwa [htext, hvars, hself] at hfragment

/-- What may be written for a variable: a literal, or an expression in parentheses. -/
inductive StandsFor (resolve : Text → Option Meaning) : Text → Expr → Prop
  | literal {u : Text} {x : Float} : munch u = (.ok (.number x), u) →
      StandsFor resolve u (.const x)
  | group {o : Options} {t : Text} {e : Expr} : parse resolve o t = .ok e →
      StandsFor resolve (parens t) e

lemma StandsFor.fragment (h : StandsFor resolve u e) : Fragment resolve .atom u [e] := by
  cases h with
  | literal h => exact .number h
  | group h => exact (fragment_of_parse h).parens

namespace Substitution

variable {s : Substitution}

/-- Only variables are replaced, by what may be written for them. -/
def Fits (s : Substitution) (resolve : Text → Option Meaning) (t : Text) : Prop :=
  ∀ tok ∈ lexed t, ∀ u e, s tok = some (u, e) →
    (∃ k, tok.slot? resolve = some k) ∧ StandsFor resolve u e

/-- **Substitution in a text is substitution in its tree.** -/
theorem parse_apply (h : parse resolve opts t = .ok tree) (hs : s.Fits resolve t) :
    tree.leaves = (lexed t).filterMap (Token.slot? resolve) ∧
      ∃ levels, ∀ o' : Options, byteLength (s.apply t) ≤ o'.maxLength → levels ≤ o'.maxDepth →
        parse resolve o' (s.apply t) =
          .ok (tree.fill ((lexed t).filterMap (s.leaf? resolve))) := by
  have hts : ∀ tok ∈ lexed t, s.Carries resolve resolve tok := fun tok htok =>
    ⟨fun u e hput => ⟨(hs tok htok u e hput).1, (hs tok htok u e hput).2.fragment⟩,
      fun _ _ => rfl⟩
  obtain ⟨hleaves, hfragment⟩ := fragment_apply h hts
  exact ⟨hleaves, hfragment.parse⟩

end Substitution

end Formula
