import Formula.Parser
import Mathlib.Data.Nat.Notation
import Mathlib.Tactic.ByContra
import Mathlib.Tactic.Lemma

/-!
The tokens between two cursors.

A parser that comes from one cursor to another has consumed some tokens, none of them the
end. From the first token of a text to its end these are the tokens that tokenizing gives.
-/

namespace Formula

namespace Lexer

variable {l l' : Lexer}

lemma items_of_ok {t : Token} (h : l.next = (.ok t, l')) :
    l.items = .ok t :: if t.kind = .stop then [] else l'.items := by
  rw [items]
  split
  · rename_i hn
    cases h.symm.trans hn
    split <;> rfl
  · rename_i hn
    cases h.symm.trans hn

lemma items_of_error {err : ParseError} (h : l.next = (.error err, l')) :
    l.items = [.error err] := by
  rw [items]
  split
  · rename_i hn
    cases h.symm.trans hn
  · rename_i hn
    cases h.symm.trans hn
    rfl

lemma items_ne_nil : l.items ≠ [] := by
  rcases h : l.next with ⟨err | t, l'⟩
  · simp [items_of_error h]
  · simp [items_of_ok h]

end Lexer

namespace Cursor

/-- Consuming the tokens `ts` leads from one cursor to the other. -/
inductive Reach : Cursor → List Token → Cursor → Prop
  | refl (c : Cursor) : Reach c [] c
  | head {c d e : Cursor} {ts : List Token} : c.current.kind ≠ .stop →
      Parser.next.run c = .ok c.current d → Reach d ts e → Reach c (c.current :: ts) e

variable {c d e : Cursor} {t : Token} {ts us : List Token}

lemma next_eq_ok (h : Parser.next.run c = .ok t d) :
    t = c.current ∧ d.depth = c.depth ∧ c.lexer.next = (.ok d.current, d.lexer) := by
  unfold Parser.next at h
  simp only at h
  split at h
  · rename_i hn
    cases h
    exact ⟨rfl, rfl, hn⟩
  · cases h

lemma exists_next {l : Lexer} (h : c.lexer.next = (.ok t, l)) :
    ∃ d, Parser.next.run c = .ok c.current d ∧ d.current = t ∧ d.lexer = l := by
  refine ⟨⟨l, t, c.depth, c.reads + 1, Lexer.rest_eq_nil h⟩, ?_, rfl, rfl⟩
  unfold Parser.next
  simp only
  split
  · rename_i hn
    obtain ⟨ht, hl⟩ := Prod.mk.inj (h.symm.trans hn)
    cases ht
    cases hl
    rfl
  · rename_i hn
    cases h.symm.trans hn

namespace Reach

lemma single (hc : c.current.kind ≠ .stop) (h : Parser.next.run c = .ok t d) :
    Reach c [t] d := by
  obtain ⟨rfl, -, -⟩ := next_eq_ok h
  exact .head hc h (.refl d)

lemma trans (h : Reach c ts d) (h' : Reach d us e) : Reach c (ts ++ us) e := by
  induction h with
  | refl => exact h'
  | head hc hn _ ih => exact .head hc hn (ih h')

lemma depth_eq (h : Reach c ts d) : d.depth = c.depth := by
  induction h with
  | refl => rfl
  | head _ hn _ ih => exact ih.trans (next_eq_ok hn).2.1

/-- What is consumed does not depend on the levels of nesting that are open. -/
lemma withDepth (h : Reach c ts d) (n : ℕ) :
    Reach { c with depth := n } ts { d with depth := n } := by
  induction h with
  | refl c => exact .refl _
  | @head c d e ts hc hn _ ih =>
    obtain ⟨d', hd', hcur, hlex⟩ :=
      exists_next (c := { c with depth := n }) (next_eq_ok hn).2.2
    obtain rfl : d' = { d with depth := n } := by
      unfold Parser.next at hn hd'
      simp only at hn hd'
      split at hn
      · cases hn
        split at hd'
        · cases hd'
          simp_all
        · cases hd'
      · cases hn
    exact .head (c := { c with depth := n }) hc hd' ih

lemma eq_of_nil (h : Reach c [] d) : c = d := by
  cases h
  rfl

/-- The first token is the current one, and it is there to be consumed. -/
lemma of_cons (h : Reach c (t :: ts) e) :
    c.current = t ∧ ∃ d, Parser.next.run c = .ok t d ∧ Reach d ts e := by
  cases h with
  | head _ hn h => exact ⟨rfl, _, hn, h⟩

lemma of_append (h : Reach c (ts ++ us) e) : ∃ d, Reach c ts d ∧ Reach d us e := by
  induction ts generalizing c with
  | nil => exact ⟨c, .refl c, h⟩
  | cons t ts ih =>
    cases h with
    | head hc hn h =>
      obtain ⟨d, h₁, h₂⟩ := ih h
      exact ⟨d, .head hc hn h₁, h₂⟩

end Reach

/-! ### From the first token to the end -/

/-- The items from the current token on. -/
def items (c : Cursor) : List (Except ParseError Token) :=
  .ok c.current :: if c.current.kind = .stop then [] else c.lexer.items

lemma items_of_next (h : c.lexer.next = (.ok d.current, d.lexer)) : c.lexer.items = d.items :=
  Lexer.items_of_ok h

theorem Reach.items_eq (h : Reach c ts d) : c.items = ts.map .ok ++ d.items := by
  induction h with
  | refl => rfl
  | @head c d e ts hc hn _ ih =>
    rw [items, if_neg hc, items_of_next (next_eq_ok hn).2.2, ih]
    rfl

/-- If all items are tokens, the parser can consume them up to the end. -/
theorem reach_of_items (h : c.items = ts.map .ok ++ [.ok t]) :
    ∃ d, Reach c ts d ∧ d.current = t ∧ t.kind = .stop := by
  induction ts generalizing c with
  | nil =>
    obtain ⟨hc, hrest⟩ := List.cons.inj h
    cases hc
    refine ⟨c, .refl c, rfl, ?_⟩
    by_contra hk
    rw [if_neg hk] at hrest
    exact Lexer.items_ne_nil hrest
  | cons u ts ih =>
    obtain ⟨hc, hrest⟩ := List.cons.inj h
    cases hc
    by_cases hk : c.current.kind = .stop
    · simp [hk] at hrest
    · rw [if_neg hk] at hrest
      rcases hn : c.lexer.next with ⟨err | v, l⟩
      · rw [Lexer.items_of_error hn] at hrest
        cases ts <;> cases hrest
      · obtain ⟨d, hd, rfl, rfl⟩ := exists_next hn
        rw [items_of_next hn] at hrest
        obtain ⟨e, he, hlast⟩ := ih hrest
        exact ⟨e, .head hk hd he, hlast⟩

lemma items_of_start {s : Text} (h : start s = .ok c) :
    c.depth = 0 ∧ c.items = (Lexer.ofText s).items := by
  unfold start at h
  split at h
  · rename_i hn
    cases h
    exact ⟨rfl, (Lexer.items_of_ok hn).symm⟩
  · cases h

lemma items_of_start_error {s : Text} {err : ParseError} (h : start s = .error err) :
    (Lexer.ofText s).items = [.error err] := by
  unfold start at h
  split at h
  · cases h
  · rename_i hn
    cases h
    exact Lexer.items_of_error hn

end Cursor

lemma mapM_id_map {ε α : Type} (as : List α) :
    (as.map Except.ok : List (Except ε α)).mapM id = .ok as := by
  induction as with
  | nil => rfl
  | cons a as ih =>
    rw [List.map_cons, List.mapM_cons, ih]
    rfl

lemma mapM_id_error {ε α : Type} (as : List α) (err : ε) :
    (as.map Except.ok ++ [.error err] : List (Except ε α)).mapM id = .error err := by
  induction as with
  | nil => rfl
  | cons a as ih =>
    rw [List.map_cons, List.cons_append, List.mapM_cons, ih]
    rfl

lemma eq_map_of_mapM_id {ε α : Type} {l : List (Except ε α)} {as : List α}
    (h : l.mapM id = .ok as) : l = as.map .ok := by
  induction l generalizing as with
  | nil =>
    cases h
    rfl
  | cons x l ih =>
    rw [List.mapM_cons] at h
    rcases x with err | a
    · cases h
    · rcases hl : l.mapM id with err | bs
      · rw [hl] at h
        cases h
      · rw [hl] at h
        cases h
        rw [ih hl, List.map_cons]

/-- **Tokenizing is what the parser sees**: a text has the tokens `ts` before its end if the
parser can consume them from its first token on and then stands at the end. -/
theorem tokenize_eq_ok_iff {s : Text} {ts : List Token} {t : Token} :
    tokenize s = .ok (ts ++ [t]) ↔
      ∃ c d, Cursor.start s = .ok c ∧ Cursor.Reach c ts d ∧ d.current = t ∧ t.kind = .stop := by
  unfold tokenize
  constructor
  · intro h
    replace h := eq_map_of_mapM_id h
    rw [List.map_append, List.map_singleton] at h
    rcases hs : Cursor.start s with err | c
    · rw [Cursor.items_of_start_error hs] at h
      cases ts <;> cases h
    · rw [← (Cursor.items_of_start hs).2] at h
      obtain ⟨d, hd⟩ := Cursor.reach_of_items h
      exact ⟨c, d, rfl, hd⟩
  · rintro ⟨c, d, hs, hr, rfl, hk⟩
    rw [← (Cursor.items_of_start hs).2, hr.items_eq, Cursor.items, if_pos hk,
      ← List.map_singleton, ← List.map_append, mapM_id_map]

end Formula
