import Formula.Proofs.Parser.Soundness

/-!
What can be read the parser accepts, if it may nest deep enough.

A phrase says how many levels of nesting it needs. With so many levels a parser comes to the
tree of the phrase; with fewer it fails, and for no other reason. As a parser takes all it can,
the token after a phrase must be one that does not continue it.
-/

namespace Formula

open Cursor (Reach)
open Grammar

namespace Parser

variable {α β γ : Type} {c d e : Cursor} {levels limit m n : ℕ}

/-- The outcome is `a` at `d` if `need` levels of nesting may be opened, else the want of
them. -/
def Settles (levels limit need : ℕ) (a : α) (d : Cursor) (out : Outcome α) : Prop :=
  (need ≤ levels → out = .ok a d) ∧
    (levels < need → ∃ pos reads, out = .fail ⟨pos, .tooDeep limit⟩ reads)

lemma Settles.of_eq {a : α} {out : Outcome α} (h : out = .ok a d) :
    Settles levels limit 0 a d out :=
  ⟨fun _ => h, fun hlt => absurd hlt (Nat.not_lt_zero _)⟩

lemma Settles.bind {p : Parser α} {f : α → Parser β} {a : α} {b : β}
    (hp : Settles levels limit m a d (p.run c))
    (hf : Settles levels limit n b e ((f a).run d)) :
    Settles levels limit (max m n) b e ((p >>= f).run c) := by
  rw [run_bind]
  by_cases hm : m ≤ levels
  · rw [hp.1 hm]
    exact ⟨fun h => hf.1 (by omega), fun h => hf.2 (by omega)⟩
  · obtain ⟨pos, reads, hfail⟩ := hp.2 (by omega)
    rw [hfail]
    exact ⟨fun h => absurd h (by omega), fun _ => ⟨pos, reads, rfl⟩⟩

/-- A step that needs no level and cannot fail. -/
lemma Settles.step {p : Parser α} {f : α → Parser β} {a : α} {b : β}
    (hp : p.run c = .ok a d) (hf : Settles levels limit n b e ((f a).run d)) :
    Settles levels limit n b e ((p >>= f).run c) := by
  rwa [run_bind, hp]

/-- A last step. -/
lemma Settles.map {p : Parser α} {f : α → Parser β} {a : α} {b : β}
    (hp : Settles levels limit n a d (p.run c)) (hf : (f a).run d = .ok b e) :
    Settles levels limit n b e ((p >>= f).run c) := by
  have := hp.bind (Settles.of_eq hf)
  rwa [Nat.max_zero] at this

/-- On tokens of which `P` holds, before a token of which `ends` holds, the parser settles. -/
def Complete (p : Parser α) (P : List Token → α → ℕ → Prop) (ends : Token.Kind → Prop)
    (levels limit : ℕ) : Prop :=
  ∀ ⦃c ts a n d⦄, c.depth + levels = limit → P ts a n → Reach c ts d → ends d.current.kind →
    Settles levels limit n a d (p.run c)

/-! ### What stands after a phrase -/

/-- The token does not continue a base. -/
def EndsBase (k : Token.Kind) : Prop := k ≠ .leftParen ∧ powerOperator? k = none

def EndsTerm (k : Token.Kind) : Prop := EndsBase k ∧ productOperator? k = none

def EndsExpr (k : Token.Kind) : Prop := EndsTerm k ∧ sumOperator? k = none

lemma endsBase_of_product {k : Token.Kind} (h : productOperator? k ≠ none) : EndsBase k := by
  obtain ⟨o, ho⟩ := Option.ne_none_iff_exists'.1 h
  obtain ⟨rfl, rfl | rfl | rfl⟩ := productOperator?_eq_some.1 ho <;> exact ⟨nofun, rfl⟩

lemma endsTerm_of_sum {k : Token.Kind} (h : sumOperator? k ≠ none) : EndsTerm k := by
  obtain ⟨o, ho⟩ := Option.ne_none_iff_exists'.1 h
  obtain ⟨rfl, rfl | rfl⟩ := sumOperator?_eq_some.1 ho <;> exact ⟨⟨nofun, rfl⟩, rfl⟩

lemma endsExpr_of_comma {k : Token.Kind} (h : comma? k ≠ none) : EndsExpr k := by
  obtain ⟨x, hx⟩ := Option.ne_none_iff_exists'.1 h
  obtain rfl := comma?_eq_some.1 hx
  exact ⟨⟨⟨nofun, rfl⟩, rfl⟩, rfl⟩

lemma endsExpr_rightParen : EndsExpr .rightParen := ⟨⟨⟨nofun, rfl⟩, rfl⟩, rfl⟩

lemma endsExpr_stop : EndsExpr .stop := ⟨⟨⟨nofun, rfl⟩, rfl⟩, rfl⟩

/-! ### Chains -/

variable {wanted : Token.Kind → Option γ} {P : List Token → α → ℕ → Prop}
  {ends : Token.Kind → Prop}

/-- At a link of a chain, and after the last one, an item is over. -/
lemma Chain.ends_head (hwanted : ∀ k, wanted k ≠ none → ends k) {ts : List Token}
    {r : List (γ × α)} (hts : Chain wanted P ts r n) (hr : Reach c ts d)
    (hd : ends d.current.kind) : ends c.current.kind := by
  cases hts with
  | nil => rwa [hr.eq_of_nil]
  | cons ht _ _ =>
    obtain ⟨rfl, -⟩ := hr.of_cons
    exact hwanted _ (by simp [ht])

lemma Complete.many {item : Parser α} (hitem : Complete item P ends levels limit)
    (hstop : wanted .stop = none) (hwanted : ∀ k, wanted k ≠ none → ends k)
    {ts : List Token} {r : List (γ × α)} (hts : Chain wanted P ts r n)
    (hc : c.depth + levels = limit) (hr : Reach c ts d) (hd : ends d.current.kind)
    (hnone : wanted d.current.kind = none) :
    Settles levels limit n r d ((many wanted item hstop).run c) := by
  induction hts generalizing c with
  | nil =>
    obtain rfl := hr.eq_of_nil
    exact .of_eq (by rw [run_many, hnone])
  | cons ht hP hchain ih =>
    obtain ⟨rfl, c₁, hnext, hr⟩ := hr.of_cons
    obtain ⟨c₂, hu, hv⟩ := hr.of_append
    have hc₁ : c₁.depth + levels = limit := by rw [(Cursor.next_eq_ok hnext).2.1, hc]
    have hc₂ : c₂.depth + levels = limit := by rw [hu.depth_eq, hc₁]
    rw [run_many, ht]
    exact .step hnext <| (hitem hc₁ hP hu (hchain.ends_head hwanted hv hd)).bind
      ((ih hc₂ hv).map rfl)

/-- A first operand and a chain of further ones, up to what neither continues the last one nor
links another one to it. -/
lemma Complete.joined {item : Parser Expr} {wanted : Token.Kind → Option Operator}
    {P Q : List Token → Expr → ℕ → Prop} (hitem : Complete item P ends levels limit)
    (hstop : wanted .stop = none) (hwanted : ∀ k, wanted k ≠ none → ends k)
    (hsplit : ∀ {ts e n}, Q ts e n → ∃ u v a r k l, ts = u ++ v ∧ e = joinLeft a r ∧
      n = max k l ∧ P u a k ∧ Chain wanted P v r l) :
    Complete (do
      let a ← item
      let r ← Parser.many wanted item hstop
      pure (joinLeft a r)) Q (fun k => ends k ∧ wanted k = none) levels limit := by
  intro c ts a n d hc hQ hr hd
  obtain ⟨u, v, b, r, k, l, rfl, rfl, rfl, hu, hv⟩ := hsplit hQ
  obtain ⟨e, hru, hrv⟩ := hr.of_append
  have he : e.depth + levels = limit := by rw [hru.depth_eq, hc]
  have hhead := hv.ends_head hwanted hrv hd.1
  have hlinks := hitem.many hstop hwanted hv he hrv hd.1 hd.2
  exact (hitem hc hu hru hhead).bind (hlinks.map rfl)

lemma Chain.snoc {ts us : List Token} {r : List (γ × α)} {t : Token} {g : γ} {a : α}
    (hts : Chain wanted P ts r m) (ht : wanted t.kind = some g) (ha : P us a n) :
    Chain wanted P (ts ++ t :: us) (r ++ [(g, a)]) (max m n) := by
  induction hts with
  | nil => simpa using Chain.cons ht ha .nil
  | cons ht' ha' _ ih => simpa [Nat.max_assoc] using Chain.cons ht' ha' ih

variable {resolve : Text → Option Meaning}

/-- A term is a base and a chain of bases. -/
lemma exists_chain_of_term {ts : List Token} {e : Expr}
    (h : Tree resolve .term ts e n) :
    ∃ u v a r k l, ts = u ++ v ∧ e = joinLeft a r ∧ n = max k l ∧
      Tree resolve .base u a k ∧ Chain productOperator? (Tree resolve .base) v r l := by
  unfold Tree at h
  generalize hc : Cat.term = cat, hes : [e] = es at h
  induction h generalizing e with
  | productOf h =>
    cases hes
    exact ⟨_, [], _, [], _, 0, by simp, rfl, by simp, h, .nil⟩
  | product _ ht ho hb ih =>
    cases hes
    obtain ⟨u, v, a, r, k, l, rfl, rfl, rfl, hu, hv⟩ := ih hc rfl
    refine ⟨u, _, a, _, k, _, by rw [List.append_assoc], ?_, Nat.max_assoc _ _ _, hu,
      hv.snoc (productOperator?_eq_some.2 ⟨ht, ho⟩) hb⟩
    simp [joinLeft]
  | _ => cases hc

/-- An expression is a term and a chain of terms. -/
lemma exists_chain_of_expr {ts : List Token} {e : Expr}
    (h : Tree resolve .expr ts e n) :
    ∃ u v a r k l, ts = u ++ v ∧ e = joinLeft a r ∧ n = max k l ∧
      Tree resolve .term u a k ∧ Chain sumOperator? (Tree resolve .term) v r l := by
  unfold Tree at h
  generalize hc : Cat.expr = cat, hes : [e] = es at h
  induction h generalizing e with
  | sumOf h =>
    cases hes
    exact ⟨_, [], _, [], _, 0, by simp, rfl, by simp, h, .nil⟩
  | sum _ ht ho hb ih =>
    cases hes
    obtain ⟨u, v, a, r, k, l, rfl, rfl, rfl, hu, hv⟩ := ih hc rfl
    refine ⟨u, _, a, _, k, _, by rw [List.append_assoc], ?_, Nat.max_assoc _ _ _, hu,
      hv.snoc (sumOperator?_eq_some.2 ⟨ht, ho⟩) hb⟩
    simp [joinLeft]
  | _ => cases hc

/-- Arguments that are there are an expression and a chain of expressions. -/
lemma exists_chain_of_args {ts : List Token} {as : List Expr} {count : ℕ}
    (h : Reads Eq resolve (.args (count + 1)) ts as n) :
    ∃ u v a r k l, ts = u ++ v ∧ as = a :: r.map (·.2) ∧ n = max k l ∧
      Tree resolve .expr u a k ∧ Chain comma? (Tree resolve .expr) v r l := by
  generalize hc : Cat.args (count + 1) = cat at h
  induction h generalizing count with
  | arg h => exact ⟨_, [], _, [], _, 0, by simp, rfl, by simp, h, .nil⟩
  | moreArgs _ ht hb ih =>
    obtain ⟨u, v, a, r, k, l, rfl, rfl, rfl, hu, hv⟩ := ih rfl
    exact ⟨u, _, a, _, k, _, by rw [List.append_assoc], by simp, Nat.max_assoc _ _ _, hu,
      hv.snoc (g := ()) (comma?_eq_some.2 ht) hb⟩
  | _ => cases hc

/-! ### First tokens -/

/-- No phrase with a tree begins with a closing parenthesis. -/
lemma Reads.exists_cons {cat : Cat} {ts : List Token} {es : List Expr}
    (h : Reads Eq resolve cat ts es n) (hcat : ∀ count, cat ≠ .args count) :
    ∃ t us, ts = t :: us ∧ t.kind ≠ .rightParen := by
  induction h with
  | sumOf _ ih | productOf _ ih | unsigned _ ih => exact ih nofun
  | sum _ _ _ _ ih | product _ _ _ _ ih | power _ _ _ ih =>
    obtain ⟨t, us, rfl, ht⟩ := ih nofun
    exact ⟨t, _, rfl, ht⟩
  | minus ht | plus ht | number ht | «variable» ht | bare ht | call ht | group ht =>
    exact ⟨_, _, rfl, by simp [ht]⟩
  | noArgs | arg | moreArgs => exact absurd rfl (hcat _)

/-- No atom begins with a sign. -/
lemma exists_cons_of_atom {ts : List Token} {e : Expr} (h : Tree resolve .atom ts e n) :
    ∃ t us, ts = t :: us ∧ sumOperator? t.kind = none := by
  cases h with
  | number ht | «variable» ht | bare ht | call ht | group ht =>
    exact ⟨_, _, rfl, by simp [ht, sumOperator?]⟩

/-! ### One level -/

section Level

variable {base : Parser Expr}
  (hbase : Complete base (Tree resolve .base) EndsBase levels limit)
include hbase

lemma complete_factor :
    Complete (factor base) (Tree resolve .base) EndsBase levels limit := by
  intro c ts a n d hc hP hr hd
  unfold factor
  refine (hbase hc hP hr hd).map (run_bind_eq_ok.2 ?_)
  exact ⟨[], d, run_many_of_none rfl hd.2, rfl⟩

lemma complete_term : Complete (term base) (Tree resolve .term) EndsTerm levels limit :=
  (complete_factor hbase).joined rfl (fun _ => endsBase_of_product) exists_chain_of_term

lemma complete_expr : Complete (expr base) (Tree resolve .expr) EndsExpr levels limit :=
  (complete_term hbase).joined rfl (fun _ => endsTerm_of_sum) exists_chain_of_expr

/-- Arguments are read up to the closing parenthesis. -/
lemma complete_args {ts : List Token} {as : List Expr} {count : ℕ}
    (hc : c.depth + levels = limit) (h : Reads Eq resolve (.args count) ts as n)
    (hr : Reach c ts d) (hd : d.current.kind = .rightParen) :
    Settles levels limit n as d ((args base).run c) := by
  unfold args
  refine .step run_current ?_
  cases count with
  | zero =>
    cases h
    obtain rfl := hr.eq_of_nil
    rw [if_pos hd]
    exact .of_eq rfl
  | succ count =>
    obtain ⟨u, v, b, r, k, l, rfl, rfl, rfl, hu, hv⟩ := exists_chain_of_args h
    obtain ⟨e, hru, hrv⟩ := hr.of_append
    have he : e.depth + levels = limit := by rw [hru.depth_eq, hc]
    have hends : EndsExpr d.current.kind := by rw [hd]; exact endsExpr_rightParen
    have hhead := hv.ends_head (fun k => endsExpr_of_comma) hrv hends
    obtain ⟨t, us, rfl, ht⟩ := Reads.exists_cons hu nofun
    rw [if_neg (by rwa [hru.of_cons.1])]
    refine ((complete_expr hbase) hc hu hru hhead).bind
      (((complete_expr hbase).many rfl (fun k => endsExpr_of_comma) hv he hrv hends
        (by rw [hd]; rfl)).map ?_)
    rw [run_bind, run_current]
    simp [hd]

/-- A call that starts at its opening parenthesis. -/
lemma complete_call {name : Text} {callee : Callee} {l r : Token} {ts : List Token}
    {as : List Expr} {count : ℕ} (hc : c.depth + levels = limit)
    (h : Reads Eq resolve (.args count) ts as n) (hclose : r.kind = .rightParen)
    (hr : Reach c (l :: (ts ++ [r])) d) :
    Settles levels limit n (.call callee as) d ((call base name callee count).run c) := by
  obtain ⟨rfl, c₁, hopen, hr⟩ := hr.of_cons
  obtain ⟨c₂, hargs, hr⟩ := hr.of_append
  obtain ⟨rfl, c₃, hnext, hr⟩ := hr.of_cons
  obtain rfl := hr.eq_of_nil
  have hc₁ : c₁.depth + levels = limit := by rw [(Cursor.next_eq_ok hopen).2.1, hc]
  refine .step hopen ((complete_args hbase hc₁ h hargs hclose).map ?_)
  rw [run_bind, hnext]
  exact congrArg (Parser.run · c₃) (if_pos h.length_eq)

lemma complete_group {t : Token} {ts : List Token} {e : Expr}
    (hc : c.depth + levels = limit) (h : Tree resolve .expr ts e n)
    (hclose : t.kind = .rightParen) (hr : Reach c (ts ++ [t]) d) :
    Settles levels limit n e d ((group base).run c) := by
  obtain ⟨c₂, hexpr, hr⟩ := hr.of_append
  obtain ⟨rfl, c₃, hnext, hr⟩ := hr.of_cons
  obtain rfl := hr.eq_of_nil
  refine ((complete_expr hbase) hc h hexpr (by rw [hclose]; exact endsExpr_rightParen)).map ?_
  rw [run_bind, run_current]
  simp [hclose, hnext]

lemma complete_atom :
    Complete (atom resolve base) (Tree resolve .atom) (· ≠ .leftParen) levels limit := by
  intro c ts e n d hc h hr hd
  unfold atom
  refine .step run_current ?_
  cases h with
  | number ht =>
    obtain ⟨rfl, d', hn, hr⟩ := hr.of_cons
    obtain rfl := hr.eq_of_nil
    simp only [ht]
    exact .step hn (.of_eq rfl)
  | «variable» ht hres =>
    obtain ⟨rfl, d', hn, hr⟩ := hr.of_cons
    obtain rfl := hr.eq_of_nil
    simp only [ht]
    refine .step hn (.step run_current ?_)
    simp only [hres, hd, if_false]
    exact .of_eq rfl
  | bare ht hres =>
    obtain ⟨rfl, d', hn, hr⟩ := hr.of_cons
    obtain rfl := hr.eq_of_nil
    simp only [ht]
    refine .step hn (.step run_current ?_)
    simp only [hres, hd, if_false, if_true]
    exact .of_eq rfl
  | call ht hres hopen hargs hclose hfits =>
    obtain ⟨rfl, d', hn, hr⟩ := hr.of_cons
    simp only [ht]
    refine .step hn (.step run_current ?_)
    have hd' : d'.current.kind = .leftParen := by rw [hr.of_cons.1, hopen]
    simp only [hres, hd', if_true]
    subst hfits
    exact complete_call hbase (by rw [(Cursor.next_eq_ok hn).2.1, hc]) hargs hclose hr
  | group hopen h hclose =>
    obtain ⟨rfl, d', hn, hr⟩ := hr.of_cons
    simp only [hopen]
    exact .step hn
      (complete_group hbase (by rw [(Cursor.next_eq_ok hn).2.1, hc]) h hclose hr)

/-- A base opens one level, and with it the parsers of the next level settle. -/
lemma complete_signed {ts : List Token} {e : Expr} (hc : c.depth + levels = limit)
    (h : Tree resolve .base ts e n) (hr : Reach c ts d) (hd : EndsBase d.current.kind) :
    ∃ k, n = k + 1 ∧ Settles levels limit k e d ((signed resolve base).run c) := by
  unfold signed
  cases h with
  | minus ht h =>
    obtain ⟨rfl, c₁, hn, hr⟩ := hr.of_cons
    refine ⟨_, rfl, .step run_current ?_⟩
    simp only [ht, sumOperator?]
    exact .step hn ((hbase (by rw [(Cursor.next_eq_ok hn).2.1, hc]) h hr hd).map rfl)
  | plus ht h =>
    obtain ⟨rfl, c₁, hn, hr⟩ := hr.of_cons
    refine ⟨_, rfl, .step run_current ?_⟩
    simp only [ht, sumOperator?]
    exact .step hn (hbase (by rw [(Cursor.next_eq_ok hn).2.1, hc]) h hr hd)
  | unsigned h =>
    obtain ⟨t, us, rfl, ht⟩ := exists_cons_of_atom h
    refine ⟨_, rfl, .step run_current ?_⟩
    rw [hr.of_cons.1, ht]
    refine ((complete_atom hbase) hc h hr hd.1).map ?_
    rw [run_bind, run_current]
    simp [hd.2]
  | @power u v t a b m n h ht hb =>
    obtain ⟨s, us, rfl, hs⟩ := exists_cons_of_atom h
    obtain ⟨c₁, hu, hr⟩ := hr.of_append
    obtain ⟨rfl, c₂, hn, hr⟩ := hr.of_cons
    refine ⟨_, rfl, .step run_current ?_⟩
    rw [hu.of_cons.1, hs]
    have hc₂ : c₂.depth + levels = limit := by
      rw [(Cursor.next_eq_ok hn).2.1, hu.depth_eq, hc]
    refine ((complete_atom hbase) hc h hu (by simp [ht])).bind (.step run_current ?_)
    simp only [ht, powerOperator?]
    exact .step hn ((hbase hc₂ hb hr hd).map rfl)

end Level

/-! ### All levels -/

theorem complete_baseWithin (levels : ℕ) :
    Complete (baseWithin resolve levels) (Tree resolve .base) EndsBase levels limit := by
  induction levels with
  | zero =>
    intro c ts e n d hc h hr hd
    have hn : 0 < n := by cases h <;> exact Nat.succ_pos _
    refine ⟨fun hle => absurd hn (by omega), fun _ => ⟨c.current.pos, c.reads, ?_⟩⟩
    rw [← hc]
    rfl
  | succ levels ih =>
    intro c ts e n d hc h hr hd
    obtain ⟨k, rfl, hs⟩ := complete_signed (c := { c with depth := c.depth + 1 }) ih
      (by simp only; omega) h (hr.withDepth _) hd
    change Settles _ _ _ _ _
      ((nested (signed resolve (baseWithin resolve levels))).run c)
    simp only [nested]
    constructor
    · intro hle
      rw [hs.1 (by omega)]
      simp [← hr.depth_eq]
    · intro hlt
      obtain ⟨pos, reads, hfail⟩ := hs.2 (by omega)
      rw [hfail]
      exact ⟨pos, reads, rfl⟩

/-- **Completeness**: on an expression up to the end of the text the parser comes to what it
reads as, or has too few levels. -/
theorem complete_sentence {ts : List Token} {e : Expr} (hc : c.depth = 0)
    (h : Tree resolve .expr ts e n) (hr : Reach c ts d) (hd : d.current.kind = .stop) :
    Settles levels levels n e d ((sentence resolve levels).run c) := by
  refine (complete_expr (complete_baseWithin levels) (by omega) h hr
    (by rw [hd]; exact endsExpr_stop)).map ?_
  rw [run_bind, run_current]
  simp [hd]

end Parser

end Formula
