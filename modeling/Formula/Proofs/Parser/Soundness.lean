import Formula.Proofs.Grammar
import Formula.Proofs.Parser.Reach

/-!
What the parser accepts can be read.

Every parser is sound if the parser of the next level is. A level of nesting is opened by a
`base`, so one induction, on the levels, closes the circle.
-/

namespace Formula

open Cursor (Reach)
open Grammar

namespace Parser

variable {α β γ : Type} {c d : Cursor}

lemma run_bind_eq_ok {p : Parser α} {f : α → Parser β} {b : β} :
    (p >>= f).run c = .ok b d ↔ ∃ a e, p.run c = .ok a e ∧ (f a).run e = .ok b d := by
  rw [run_bind]
  constructor
  · intro h
    split at h
    · exact ⟨_, _, ‹_›, h⟩
    · cases h
  · rintro ⟨a, e, hp, hf⟩
    rw [hp]
    exact hf

@[simp] lemma run_current : current.run c = .ok c.current c := rfl

@[simp] lemma run_missing_ne (w : Wanted) (a : α) : (missing w).run c ≠ .ok a d := nofun

@[simp] lemma run_fail_ne (f : Token → ParseFault) (a : α) : (fail f).run c ≠ .ok a d := nofun

@[simp] lemma run_failAt_ne (n : ℕ) (f : ParseFault) (a : α) :
    (failAt n f).run c ≠ .ok a d := nofun

/-- What the parser comes to is what `P` says of the tokens it consumes, and `levels` levels
of nesting are enough for them. -/
def Sound (p : Parser α) (P : List Token → α → ℕ → Prop) (levels : ℕ) : Prop :=
  ∀ ⦃c a d⦄, p.run c = .ok a d → ∃ ts n, Reach c ts d ∧ P ts a n ∧ n ≤ levels

/-- Links of a wanted token and an item each. -/
inductive Chain (wanted : Token.Kind → Option γ) (P : List Token → α → ℕ → Prop) :
    List Token → List (γ × α) → ℕ → Prop
  | nil : Chain wanted P [] [] 0
  | cons {t u v g a r m n} : wanted t.kind = some g → P u a m → Chain wanted P v r n →
      Chain wanted P (t :: (u ++ v)) ((g, a) :: r) (max m n)

variable {wanted : Token.Kind → Option γ} {P Q : List Token → α → ℕ → Prop} {levels : ℕ}

lemma run_many_of_none {item : Parser α} (hstop : wanted .stop = none)
    (h : wanted c.current.kind = none) : (many wanted item hstop).run c = .ok [] c := by
  rw [run_many, h]

/-- A loop consumes a chain, up to a token that is not wanted. -/
lemma Sound.many {item : Parser α} (hitem : Sound item P levels) (hstop : wanted .stop = none)
    {r : List (γ × α)} (h : (many wanted item hstop).run c = .ok r d) :
    wanted d.current.kind = none ∧
      ∃ ts n, Reach c ts d ∧ Chain wanted P ts r n ∧ n ≤ levels := by
  change runMany wanted item hstop c = .ok r d at h
  fun_induction runMany wanted item hstop c generalizing r d with
  | case1 c hg =>
    cases h
    exact ⟨hg, [], 0, .refl c, .nil, Nat.zero_le _⟩
  | case5 c g hg t c₁ h₁ a c₂ h₂ as c₃ h₃ ih =>
    cases h
    obtain ⟨hd, v, n, hv, hchain, hn⟩ := ih h₃
    obtain ⟨u, m, hu, hP, hm⟩ := hitem h₂
    obtain ⟨rfl, -, -⟩ := Cursor.next_eq_ok h₁
    have hc : c.current.kind ≠ .stop := by
      intro hc
      rw [hc, hstop] at hg
      cases hg
    exact ⟨hd, _, _, .head hc h₁ (hu.trans hv), .cons hg hP hchain, Nat.max_le.2 ⟨hm, hn⟩⟩
  | case2 | case3 | case4 => cases h

lemma sumOperator?_eq_some {k : Token.Kind} {o : Operator} :
    sumOperator? k = some o ↔ k = .operator o ∧ IsSum o := by
  unfold IsSum
  constructor
  · intro h
    unfold sumOperator? at h
    split at h <;> cases h <;> simp
  · rintro ⟨rfl, rfl | rfl⟩ <;> rfl

lemma productOperator?_eq_some {k : Token.Kind} {o : Operator} :
    productOperator? k = some o ↔ k = .operator o ∧ IsProduct o := by
  unfold IsProduct
  constructor
  · intro h
    unfold productOperator? at h
    split at h <;> cases h <;> simp
  · rintro ⟨rfl, rfl | rfl | rfl⟩ <;> rfl

lemma powerOperator?_eq_some {k : Token.Kind} {o : Operator} :
    powerOperator? k = some o ↔ k = .operator .pow ∧ o = .pow := by
  constructor
  · intro h
    unfold powerOperator? at h
    split at h <;> cases h
    simp
  · rintro ⟨rfl, rfl⟩
    rfl

lemma comma?_eq_some {k : Token.Kind} {x : Unit} : comma? k = some x ↔ k = .comma := by
  constructor
  · intro h
    unfold comma? at h
    split at h
    · rfl
    · cases h
  · rintro rfl
    rfl

variable {resolve : Text → Option Meaning}

/-- The tokens are a phrase with one tree. -/
def Tree (resolve : Text → Option Meaning) (cat : Cat) (ts : List Token) (e : Expr) (n : ℕ) :
    Prop :=
  Reads Eq resolve cat ts [e] n

/-- Operands of a chain group to the left. -/
lemma joinLeft_of_chain {wanted : Token.Kind → Option Operator}
    {P Q : List Token → Expr → ℕ → Prop}
    (hstep : ∀ {u v t o a b m n}, Q u a m → wanted t.kind = some o → P v b n →
      Q (u ++ t :: v) (.binary o a b) (max m n))
    {u v : List Token} {a : Expr} {r : List (Operator × Expr)} {m n : ℕ} (hu : Q u a m)
    (hv : Chain wanted P v r n) : Q (u ++ v) (joinLeft a r) (max m n) := by
  induction hv generalizing u a m with
  | nil => simpa [joinLeft] using hu
  | @cons t u' v' o b r m' n' ht hb _ ih =>
    have := ih (hstep hu ht hb)
    rwa [List.append_assoc, List.cons_append, Nat.max_assoc] at this

/-- A first operand and a chain of further ones. -/
lemma Sound.joined {item : Parser Expr} {wanted : Token.Kind → Option Operator}
    {P Q : List Token → Expr → ℕ → Prop} (hitem : Sound item P levels)
    (hstop : wanted .stop = none) (hfirst : ∀ {u a n}, P u a n → Q u a n)
    (hstep : ∀ {u v t o a b m n}, Q u a m → wanted t.kind = some o → P v b n →
      Q (u ++ t :: v) (.binary o a b) (max m n)) :
    Sound (do
      let a ← item
      let r ← Parser.many wanted item hstop
      pure (joinLeft a r)) Q levels := by
  intro c a d h
  simp only [run_bind_eq_ok] at h
  obtain ⟨a, e, ha, r, f, hr, h⟩ := h
  cases h
  obtain ⟨u, m, hu, hP, hm⟩ := hitem ha
  obtain ⟨-, v, n, hv, hchain, hn⟩ := hitem.many hstop hr
  exact ⟨_, _, hu.trans hv, joinLeft_of_chain hstep (hfirst hP) hchain, Nat.max_le.2 ⟨hm, hn⟩⟩

lemma args_of_chain {u v : List Token} {as : List Expr} {r : List (Unit × Expr)}
    {k m n : ℕ} (hu : Reads Eq resolve (.args (k + 1)) u as m)
    (hv : Chain comma? (Tree resolve .expr) v r n) :
    ∃ j, Reads Eq resolve (.args (j + 1)) (u ++ v) (as ++ r.map (·.2)) (max m n) := by
  induction hv generalizing u as k m with
  | nil => exact ⟨k, by simpa using hu⟩
  | cons ht hb _ ih =>
    obtain ⟨j, h⟩ := ih (.moreArgs hu (comma?_eq_some.1 ht) hb)
    exact ⟨j, by simpa [Nat.max_assoc] using h⟩

/-! ### One level -/

section Level

variable {base : Parser Expr} (hbase : Sound base (Tree resolve .base) levels)
  (hpower : ∀ ⦃c a d⦄, base.run c = .ok a d → powerOperator? d.current.kind = none)
include hbase hpower

/-- A base takes every `^` that follows, so nothing is left for the second rule of a power. -/
lemma sound_factor : Sound (factor base) (Tree resolve .base) levels := by
  intro c a d h
  simp only [factor, run_bind_eq_ok] at h
  obtain ⟨a, e, ha, r, f, hr, h⟩ := h
  cases (run_many_of_none rfl (hpower ha)).symm.trans hr
  cases h
  exact hbase ha

lemma sound_term : Sound (term base) (Tree resolve .term) levels := by
  refine (sound_factor hbase hpower).joined rfl .productOf ?_
  intro u v t o a b m n ha ht hb
  obtain ⟨ht, ho⟩ := productOperator?_eq_some.1 ht
  exact .product ha ht ho hb

lemma sound_expr : Sound (expr base) (Tree resolve .expr) levels := by
  refine (sound_term hbase hpower).joined rfl .sumOf ?_
  intro u v t o a b m n ha ht hb
  obtain ⟨ht, ho⟩ := sumOperator?_eq_some.1 ht
  exact .sum ha ht ho hb

/-- Arguments end before a closing parenthesis. -/
lemma sound_args {as : List Expr} (h : (args base).run c = .ok as d) :
    d.current.kind = .rightParen ∧
      ∃ ts n, Reach c ts d ∧ Reads Eq resolve (.args as.length) ts as n ∧ n ≤ levels := by
  simp only [args, run_bind_eq_ok, run_current, Outcome.ok.injEq] at h
  obtain ⟨t, e, ⟨rfl, rfl⟩, h⟩ := h
  split at h
  · rename_i hp
    cases h
    exact ⟨hp, [], 0, .refl _, .noArgs, Nat.zero_le _⟩
  · simp only [run_bind_eq_ok, run_current, Outcome.ok.injEq] at h
    obtain ⟨a, e, ha, r, f, hr, t, g, ⟨rfl, rfl⟩, h⟩ := h
    split at h
    · rename_i hp
      cases h
      obtain ⟨u, m, hu, hread, hm⟩ := sound_expr hbase hpower ha
      obtain ⟨-, v, n, hv, hchain, hn⟩ := (sound_expr hbase hpower).many rfl hr
      obtain ⟨j, h⟩ := args_of_chain (.arg hread) hchain
      have hj : (a :: r.map (·.2)).length = j + 1 := h.length_eq
      refine ⟨hp, _, _, hu.trans hv, ?_, Nat.max_le.2 ⟨hm, hn⟩⟩
      rw [hj]
      exact h
    · simp at h

/-- A call that starts at a name and its opening parenthesis. -/
lemma sound_call {callee : Callee} {arity : ℕ} {e : Expr} {f : Cursor} {t : Token}
    (hword : c.current.kind = .word)
    (hresolve : resolve c.current.text = some (.function callee arity))
    (hname : next.run c = .ok t d) (hopen : d.current.kind = .leftParen)
    (h : (call base c.current.text callee arity).run d = .ok e f) :
    ∃ ts n, Reach c ts f ∧ Tree resolve .atom ts e n ∧ n ≤ levels := by
  obtain ⟨rfl, -, -⟩ := Cursor.next_eq_ok hname
  simp only [call, run_bind_eq_ok] at h
  obtain ⟨paren, d₁, hparen, as, d₂, has, close, d₃, hclose, h⟩ := h
  obtain ⟨rfl, -, -⟩ := Cursor.next_eq_ok hparen
  obtain ⟨rfl, -, -⟩ := Cursor.next_eq_ok hclose
  obtain ⟨hend, ts, n, hts, hread, hn⟩ := sound_args hbase hpower has
  split at h
  · rename_i harity
    cases h
    refine ⟨_, n, .head (by simp [hword]) hname (.head (by simp [hopen]) hparen
      (hts.trans (.single (by simp [hend]) hclose))), ?_, hn⟩
    exact .call hword hresolve hopen hread hend harity.symm
  · simp at h

lemma sound_named {e : Expr} (hword : c.current.kind = .word)
    (h : (named resolve base).run c = .ok e d) :
    ∃ ts n, Reach c ts d ∧ Tree resolve .atom ts e n ∧ n ≤ levels := by
  simp only [named, run_bind_eq_ok, run_current, Outcome.ok.injEq] at h
  obtain ⟨name, d₁, hname, t, d₂, ⟨rfl, rfl⟩, h⟩ := h
  obtain ⟨rfl, -, -⟩ := Cursor.next_eq_ok hname
  have hreach : Reach c [c.current] d₁ := .single (by simp [hword]) hname
  split at h
  · simp at h
  · rename_i slot hresolve
    split at h
    · simp at h
    · cases h
      exact ⟨_, 0, hreach, .variable hword hresolve, Nat.zero_le _⟩
  · rename_i callee arity hresolve
    split at h
    · rename_i hopen
      exact sound_call hbase hpower hword hresolve hname hopen h
    · split at h
      · rename_i harity
        cases h
        exact ⟨_, 0, hreach, .bare hword (harity ▸ hresolve), Nat.zero_le _⟩
      · simp at h

lemma sound_group {e : Expr} {t : Token} (hopen : c.current.kind = .leftParen)
    (hparen : next.run c = .ok t d) {f : Cursor} (h : (group base).run d = .ok e f) :
    ∃ ts n, Reach c ts f ∧ Tree resolve .atom ts e n ∧ n ≤ levels := by
  obtain ⟨rfl, -, -⟩ := Cursor.next_eq_ok hparen
  simp only [group, run_bind_eq_ok, run_current, Outcome.ok.injEq] at h
  obtain ⟨a, d₁, ha, t, d₂, ⟨rfl, rfl⟩, h⟩ := h
  obtain ⟨ts, n, hts, hread, hn⟩ := sound_expr hbase hpower ha
  split at h
  · rename_i hend
    simp only [run_bind_eq_ok] at h
    obtain ⟨close, d₂, hclose, h⟩ := h
    cases h
    obtain ⟨rfl, -, -⟩ := Cursor.next_eq_ok hclose
    exact ⟨_, n, .head (by simp [hopen]) hparen (hts.trans (.single (by simp [hend]) hclose)),
      .group hopen hread hend, hn⟩
  · simp at h

lemma sound_atom : Sound (atom resolve base) (Tree resolve .atom) levels := by
  intro c e d h
  simp only [atom, run_bind_eq_ok, run_current, Outcome.ok.injEq] at h
  obtain ⟨t, d₁, ⟨rfl, rfl⟩, h⟩ := h
  split at h
  · rename_i x hk
    simp only [run_bind_eq_ok] at h
    obtain ⟨t, d₂, hn, h⟩ := h
    cases h
    obtain ⟨rfl, -, -⟩ := Cursor.next_eq_ok hn
    exact ⟨_, 0, .single (by simp [hk]) hn, .number hk, Nat.zero_le _⟩
  · rename_i hk
    exact sound_named hbase hpower hk h
  · rename_i hk
    simp only [run_bind_eq_ok] at h
    obtain ⟨t, d₂, hn, h⟩ := h
    exact sound_group hbase hpower hk hn h
  · simp at h

lemma sound_power {e : Expr} (h : (power resolve base).run c = .ok e d) :
    powerOperator? d.current.kind = none ∧
      ∃ ts n, Reach c ts d ∧ Tree resolve .base ts e n ∧ n ≤ levels + 1 := by
  simp only [power, run_bind_eq_ok, run_current, Outcome.ok.injEq] at h
  obtain ⟨a, d₁, ha, t, d₂, ⟨rfl, rfl⟩, h⟩ := h
  obtain ⟨u, m, hu, hread, hm⟩ := sound_atom hbase hpower ha
  split at h
  · rename_i o ho
    obtain ⟨hk, rfl⟩ := powerOperator?_eq_some.1 ho
    simp only [run_bind_eq_ok] at h
    obtain ⟨t, d₂, hn, b, d₃, hb, h⟩ := h
    cases h
    obtain ⟨rfl, -, -⟩ := Cursor.next_eq_ok hn
    obtain ⟨v, n, hv, hread', hn'⟩ := hbase hb
    exact ⟨hpower hb, _, _, hu.trans (.head (by simp [hk]) hn hv), .power hread hk hread',
      Nat.succ_le_succ (Nat.max_le.2 ⟨hm, hn'⟩)⟩
  · rename_i ho
    cases h
    exact ⟨ho, u, _, hu, .unsigned hread, Nat.succ_le_succ hm⟩

lemma sound_signed {e : Expr} (h : (signed resolve base).run c = .ok e d) :
    powerOperator? d.current.kind = none ∧
      ∃ ts n, Reach c ts d ∧ Tree resolve .base ts e n ∧ n ≤ levels + 1 := by
  simp only [signed, run_bind_eq_ok, run_current, Outcome.ok.injEq] at h
  obtain ⟨t, d₁, ⟨rfl, rfl⟩, h⟩ := h
  split at h
  · rename_i ho
    obtain ⟨hk, -⟩ := sumOperator?_eq_some.1 ho
    simp only [run_bind_eq_ok] at h
    obtain ⟨t, d₂, hn, b, d₃, hb, h⟩ := h
    cases h
    obtain ⟨rfl, -, -⟩ := Cursor.next_eq_ok hn
    obtain ⟨v, n, hv, hread, hn'⟩ := hbase hb
    exact ⟨hpower hb, _, _, .head (by simp [hk]) hn hv, .minus hk hread,
      Nat.succ_le_succ hn'⟩
  · rename_i o hminus ho
    obtain ⟨hk, ho | ho⟩ := sumOperator?_eq_some.1 ho
    · subst ho
      simp only [run_bind_eq_ok] at h
      obtain ⟨t, d₂, hn, hb⟩ := h
      obtain ⟨rfl, -, -⟩ := Cursor.next_eq_ok hn
      obtain ⟨v, n, hv, hread, hn'⟩ := hbase hb
      exact ⟨hpower hb, _, _, .head (by simp [hk]) hn hv, .plus hk hread,
        Nat.succ_le_succ hn'⟩
    · exact absurd ho hminus
  · exact sound_power hbase hpower h

end Level

/-! ### All levels -/

/-- A base is sound at every number of levels, and no `^` follows it. -/
theorem sound_baseWithin (levels : ℕ) ⦃c d : Cursor⦄ ⦃e : Expr⦄
    (h : (baseWithin resolve levels).run c = .ok e d) :
    powerOperator? d.current.kind = none ∧
      ∃ ts n, Reach c ts d ∧ Tree resolve .base ts e n ∧ n ≤ levels := by
  induction levels generalizing c d e with
  | zero => cases h
  | succ levels ih =>
    change (nested (signed resolve (baseWithin resolve levels))).run c = _ at h
    simp only [nested] at h
    split at h
    · rename_i hsigned
      cases h
      obtain ⟨hnone, ts, n, hts, hread, hn⟩ :=
        sound_signed (fun _ _ _ h => (ih h).2) (fun _ _ _ h => (ih h).1) hsigned
      refine ⟨hnone, ts, n, ?_, hread, hn⟩
      simpa [hts.depth_eq] using hts.withDepth c.depth
    · cases h

/-- **Soundness**: a sentence that the parser accepts is an expression up to the end of the
text, and the tree is what it reads as. -/
theorem sound_sentence {e : Expr} (h : (sentence resolve levels).run c = .ok e d) :
    d.current.kind = .stop ∧
      ∃ ts n, Reach c ts d ∧ Tree resolve .expr ts e n ∧ n ≤ levels := by
  simp only [sentence, run_bind_eq_ok, run_current, Outcome.ok.injEq] at h
  obtain ⟨a, d₁, ha, t, d₂, ⟨rfl, rfl⟩, h⟩ := h
  split at h
  · rename_i hstop
    cases h
    exact ⟨hstop, sound_expr (fun _ _ _ h => (sound_baseWithin levels h).2)
      (fun _ _ _ h => (sound_baseWithin levels h).1) ha⟩
  · simp at h

end Parser

end Formula
