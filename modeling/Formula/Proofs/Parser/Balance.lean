import Formula.Proofs.Grammar
import Mathlib.Algebra.Group.Int.Defs

/-!
Parentheses and commas in phrases.

A phrase closes the parentheses that it opens and no others, so a closing parenthesis tells which
one it closes (`Balanced.opening_unique`). Commas that no parenthesis of the phrase encloses stand
between arguments only, so their number tells the number of the arguments (`Derives.count_eq`).
-/

namespace Formula

/-- What a token adds to the number of open parentheses. -/
def Token.rise (t : Token) : ℤ :=
  match t.kind with
  | .leftParen => 1
  | .rightParen => -1
  | _ => 0

namespace Grammar

variable {fits : ℕ → ℕ → Prop} {resolve : Text → Option Meaning} {cat : Cat}
  {t l r : Token} {ts us u v w : List Token} {k : ℤ}

/-! ### Levels -/

/-- How many more parentheses the tokens open than they close. -/
def level : List Token → ℤ
  | [] => 0
  | t :: ts => t.rise + level ts

@[simp] lemma level_nil : level [] = 0 := rfl

@[simp] lemma level_cons : level (t :: ts) = t.rise + level ts := rfl

@[simp] lemma level_append : level (u ++ v) = level u + level v := by
  induction u with
  | nil => simp
  | cons t u ih => rw [List.cons_append, level_cons, level_cons, ih, Int.add_assoc]

lemma level_of_singleton (h : [t] = u ++ v) : level u = 0 ∨ level u = t.rise := by
  rcases List.singleton_eq_append_iff.1 h with ⟨rfl, -⟩ | ⟨rfl, -⟩
  · exact .inl rfl
  · exact .inr (by simp)

/-- The tokens close what they open, and nothing that was open before. -/
structure Balanced (ts : List Token) : Prop where
  level_eq : level ts = 0
  level_nonneg : ∀ {u v}, ts = u ++ v → 0 ≤ level u

namespace Balanced

lemma nil : Balanced [] where
  level_eq := rfl
  level_nonneg h := by simp [(List.append_eq_nil_iff.1 h.symm).1]

lemma append (hu : Balanced u) (hv : Balanced v) : Balanced (u ++ v) where
  level_eq := by rw [level_append, hu.level_eq, hv.level_eq, add_zero]
  level_nonneg := by
    intro x y h
    rcases List.append_eq_append_iff.1 h with ⟨z, rfl, hz⟩ | ⟨z, hz, -⟩
    · have := hv.level_nonneg hz
      rw [level_append, hu.level_eq]
      omega
    · exact hu.level_nonneg hz

lemma singleton (ht : t.rise = 0) : Balanced [t] where
  level_eq := by simp [ht]
  level_nonneg h := by
    have := level_of_singleton h
    omega

lemma cons (ht : t.rise = 0) (hu : Balanced u) : Balanced (t :: u) := (singleton ht).append hu

lemma enclosed (hu : Balanced u) (hl : l.rise = 1) (hr : r.rise = -1) :
    Balanced (l :: (u ++ [r])) where
  level_eq := by simp [hu.level_eq, hl, hr]
  level_nonneg := by
    intro x y h
    rcases x with _ | ⟨s, x⟩
    · exact Int.le_refl 0
    · obtain ⟨rfl, hx⟩ := List.cons.inj h
      rw [level_cons, hl]
      rcases List.append_eq_append_iff.1 hx with ⟨z, rfl, hz⟩ | ⟨z, hz, -⟩
      · -- the closing parenthesis takes back what the opening one adds
        have := level_of_singleton hz
        rw [level_append, hu.level_eq]
        omega
      · have := hu.level_nonneg hz
        omega

/-- A parenthesis that the tokens open they close. -/
lemma not_open (h : Balanced (u ++ l :: v)) (hl : l.rise = 1) : ¬Balanced v := by
  intro hv
  have hu := h.level_nonneg rfl
  have hlevel := h.level_eq
  rw [level_append, level_cons, hl, hv.level_eq] at hlevel
  omega

/-- What a closing parenthesis closes: of two parentheses with balanced tokens up to the same place
neither lies behind the other. -/
lemma opening_unique {a b x y : List Token} (ha : Balanced a) (hb : Balanced b) (hl : l.rise = 1)
    (hr : r.rise = 1) (h : x ++ l :: a = y ++ r :: b) : x = y ∧ l = r ∧ a = b := by
  rcases List.append_eq_append_iff.1 h with ⟨z, rfl, hz⟩ | ⟨z, rfl, hz⟩
  · rcases z with _ | ⟨s, z⟩
    · obtain ⟨rfl, rfl⟩ := List.cons.inj hz
      exact ⟨(List.append_nil x).symm, rfl, rfl⟩
    · obtain ⟨-, rfl⟩ := List.cons.inj hz
      exact absurd hb (ha.not_open hr)
  · rcases z with _ | ⟨s, z⟩
    · obtain ⟨rfl, rfl⟩ := List.cons.inj hz
      exact ⟨List.append_nil y, rfl, rfl⟩
    · obtain ⟨-, rfl⟩ := List.cons.inj hz
      exact absurd ha (hb.not_open hl)

end Balanced

lemma rise_of_operator {o : Operator} (h : t.kind = .operator o) : t.rise = 0 := by
  simp [Token.rise, h]

lemma rise_of_comma (h : t.kind = .comma) : t.rise = 0 := by simp [Token.rise, h]

lemma rise_of_word (h : t.kind = .word) : t.rise = 0 := by simp [Token.rise, h]

lemma rise_of_leftParen (h : t.kind = .leftParen) : t.rise = 1 := by simp [Token.rise, h]

lemma rise_of_rightParen (h : t.kind = .rightParen) : t.rise = -1 := by simp [Token.rise, h]

theorem Derives.balanced (h : Derives fits resolve cat ts) : Balanced ts := by
  induction h with
  | sumOf _ ih | productOf _ ih | factorOf _ ih | unsigned _ ih | powerOf _ ih | arg _ ih =>
    exact ih
  | sum _ ht _ _ ih₁ ih₂ | product _ ht _ _ ih₁ ih₂ | factor _ ht _ ih₁ ih₂
  | power _ ht _ ih₁ ih₂ => exact ih₁.append (ih₂.cons (rise_of_operator ht))
  | signed ht _ _ ih => exact ih.cons (rise_of_operator ht)
  | number ht => exact .singleton (by simp [Token.rise, ht])
  | «variable» ht _ | bare ht _ => exact .singleton (rise_of_word ht)
  | call ht _ hl _ hr _ ih =>
    exact (ih.enclosed (rise_of_leftParen hl) (rise_of_rightParen hr)).cons (rise_of_word ht)
  | group hl _ hr ih => exact ih.enclosed (rise_of_leftParen hl) (rise_of_rightParen hr)
  | noArgs => exact .nil
  | moreArgs _ ht _ ih₁ ih₂ => exact ih₁.append (ih₂.cons (rise_of_comma ht))

/-! ### The number of arguments -/

/-- The commas that lie in no parenthesis, if `k` parentheses are open before the tokens. -/
def outerCommas : ℤ → List Token → ℕ
  | _, [] => 0
  | k, t :: ts => (if k = 0 ∧ t.kind = .comma then 1 else 0) + outerCommas (k + t.rise) ts

lemma outerCommas_append :
    outerCommas k (u ++ v) = outerCommas k u + outerCommas (k + level u) v := by
  induction u generalizing k with
  | nil => simp [outerCommas]
  | cons t u ih =>
    rw [List.cons_append, outerCommas, outerCommas, ih, level_cons, Nat.add_assoc, Int.add_assoc]

lemma outerCommas_cons_of_ne (ht : t.kind ≠ .comma) :
    outerCommas k (t :: ts) = outerCommas (k + t.rise) ts := by
  simp [outerCommas, ht]

/-- How many expressions there are between the commas. -/
def argumentCount : List Token → ℕ
  | [] => 0
  | ts => outerCommas 0 ts + 1

/-- A comma outside all parentheses stands between two arguments, and nowhere else. -/
lemma Derives.outerCommas_eq (h : Derives fits resolve cat ts) (hk : 0 ≤ k) :
    outerCommas k ts = if k = 0 then cat.count - 1 else 0 := by
  induction h generalizing k with
  | sumOf _ ih | productOf _ ih | factorOf _ ih | unsigned _ ih | powerOf _ ih | arg _ ih =>
    exact ih hk
  | sum hu ht _ _ ih₁ ih₂ | product hu ht _ _ ih₁ ih₂ | factor hu ht _ ih₁ ih₂
  | power hu ht _ ih₁ ih₂ =>
    have hlevel := hu.balanced.level_eq
    rw [outerCommas_append, hlevel, outerCommas_cons_of_ne (by simp [ht]), rise_of_operator ht,
      ih₁ hk, add_zero, add_zero, ih₂ hk]
    simp [Cat.count]
  | signed ht _ _ ih =>
    rw [outerCommas_cons_of_ne (by simp [ht]), rise_of_operator ht, add_zero, ih hk]
  | number ht | «variable» ht _ | bare ht _ => simp [outerCommas, ht, Cat.count]
  | call ht _ hl hu hr _ ih =>
    have hlevel := hu.balanced.level_eq
    have hdeep : k + 1 ≠ 0 := by omega
    rw [outerCommas_cons_of_ne (by simp [ht]), rise_of_word ht, add_zero,
      outerCommas_cons_of_ne (by simp [hl]), rise_of_leftParen hl, outerCommas_append,
      ih (by omega), if_neg hdeep, outerCommas_cons_of_ne (by simp [hr])]
    simp [outerCommas, Cat.count]
  | group hl hu hr ih =>
    have hdeep : k + 1 ≠ 0 := by omega
    rw [outerCommas_cons_of_ne (by simp [hl]), rise_of_leftParen hl, outerCommas_append,
      ih (by omega), if_neg hdeep, outerCommas_cons_of_ne (by simp [hr])]
    simp [outerCommas, Cat.count]
  | noArgs => simp [outerCommas, Cat.count]
  | moreArgs hu ht _ ih₁ ih₂ =>
    rw [outerCommas_append, hu.balanced.level_eq, outerCommas, rise_of_comma ht, add_zero, add_zero,
      ih₁ hk, ih₂ hk]
    by_cases h : k = 0 <;> simp [h, ht, Cat.count]

/-- Only no arguments are made of no tokens. -/
lemma Derives.eq_nil_iff (h : Derives fits resolve cat ts) : ts = [] ↔ cat.count = 0 := by
  induction h with
  | sumOf _ ih | productOf _ ih | factorOf _ ih | unsigned _ ih | powerOf _ ih | arg _ ih =>
    exact ih
  | _ => simp [Cat.count]

/-- The number of arguments can be told from the tokens. -/
lemma Derives.count_eq {count : ℕ} (h : Derives fits resolve (.args count) ts) :
    count = argumentCount ts := by
  have hnil : ts = [] ↔ count = 0 := h.eq_nil_iff
  have hcommas := h.outerCommas_eq (Int.le_refl 0)
  cases ts with
  | nil => exact hnil.1 rfl
  | cons t ts =>
    have hpos : count ≠ 0 := fun h => List.cons_ne_nil t ts (hnil.2 h)
    simp only [argumentCount, hcommas, if_true, Cat.count]
    omega

end Grammar

end Formula
