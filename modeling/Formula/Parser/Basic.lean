import Formula.Lexer
import Formula.Expr

/-!
Parsers over a lazily read text.

A parser sees one token, the current one, and reads another only when it consumes it. No
parser ever makes the text that is left longer; the type carries this, so a loop that
consumes a token each time around ends.
-/

namespace Formula

/-- Where a parser stands. `depth` counts the levels of nesting that are open and `reads`
the tokens asked of the lexer. -/
structure Cursor where
  lexer : Lexer
  current : Token
  depth : Nat
  reads : Nat
  rest_eq_nil : current.kind = .stop → lexer.rest = []

namespace Cursor

/-- How much is left: the current token, unless it is the end, and the unread text. -/
def size (c : Cursor) : Nat :=
  c.lexer.rest.length + if c.current.kind = .stop then 0 else 1

/-- Looks at the first token of a text. -/
def start (t : Text) : Except ParseError Cursor :=
  match h : (Lexer.ofText t).next with
  | (.ok tok, l) => .ok ⟨l, tok, 0, 1, Lexer.rest_eq_nil h⟩
  | (.error e, _) => .error e

end Cursor

/-- What a parser comes to: a value and where it stops, or an error and the number of tokens
that were asked for. -/
inductive Outcome (α : Type) where
  | ok (val : α) (next : Cursor)
  | fail (err : ParseError) (reads : Nat)

structure Parser (α : Type) where
  run : Cursor → Outcome α
  size_le : ∀ {c a c'}, run c = .ok a c' → c'.size ≤ c.size

namespace Parser

variable {α β : Type}

protected def pure (a : α) : Parser α where
  run c := .ok a c
  size_le h := by cases h; exact Nat.le_refl _

protected def bind (p : Parser α) (f : α → Parser β) : Parser β where
  run c := match p.run c with
    | .ok a c' => (f a).run c'
    | .fail e n => .fail e n
  size_le h := by
    split at h
    · rename_i a c' hp
      exact Nat.le_trans ((f a).size_le h) (p.size_le hp)
    · cases h

instance : Monad Parser where
  pure := Parser.pure
  bind := Parser.bind

@[simp] theorem run_pure (a : α) (c : Cursor) : (pure a : Parser α).run c = .ok a c := rfl

@[simp] theorem run_bind (p : Parser α) (f : α → Parser β) (c : Cursor) :
    (p >>= f).run c = match p.run c with
      | .ok a c' => (f a).run c'
      | .fail e n => .fail e n := rfl

/-- Fails at the current token. -/
def fail (fault : Token → ParseFault) : Parser α where
  run c := .fail ⟨c.current.pos, fault c.current⟩ c.reads
  size_le h := by cases h

/-- Fails at an earlier place. -/
def failAt (pos : Nat) (fault : ParseFault) : Parser α where
  run c := .fail ⟨pos, fault⟩ c.reads
  size_le h := by cases h

/-- The grammar wants something else at the current token. -/
def missing (wanted : Wanted) : Parser α := fail fun t => .grammar (.missing wanted t)

/-- Fails because no further level of nesting may be opened. -/
def tooDeep : Parser α where
  run c := .fail ⟨c.current.pos, .tooDeep c.depth⟩ c.reads
  size_le h := by cases h

/-- Builds the parser only when it is run. -/
def delay (p : Unit → Parser α) : Parser α where
  run c := (p ()).run c
  size_le h := (p ()).size_le h

def current : Parser Token where
  run c := .ok c.current c
  size_le h := by cases h; exact Nat.le_refl _

theorem size_next {c : Cursor} {t : Token} {l : Lexer} (h : c.lexer.next = (.ok t, l)) :
    (Cursor.mk l t d n (Lexer.rest_eq_nil h)).size ≤ c.lexer.rest.length := by
  unfold Cursor.size
  by_cases ht : t.kind = .stop
  · simp [ht, Lexer.rest_eq_nil h ht]
  · have := Lexer.length_rest_lt h ht
    simp only [ht, if_false]
    omega

/-- Consumes the current token and looks at the next one. -/
def next : Parser Token where
  run c := match h : c.lexer.next with
    | (.ok t, l) => .ok c.current ⟨l, t, c.depth, c.reads + 1, Lexer.rest_eq_nil h⟩
    | (.error e, _) => .fail e (c.reads + 1)
  size_le {c a c'} h := by
    split at h
    · rename_i t l hn
      cases h
      exact Nat.le_trans (size_next hn) (Nat.le_add_right _ _)
    · cases h

/-- Consuming a token other than the end leaves less. -/
theorem size_lt_of_next {c c' : Cursor} {t : Token} (h : next.run c = .ok t c')
    (hc : c.current.kind ≠ .stop) : c'.size < c.size := by
  unfold next at h
  simp only at h
  split at h
  · rename_i t l hn
    cases h
    refine Nat.lt_of_le_of_lt (size_next hn) ?_
    simp [Cursor.size, hc]
  · cases h

/-- Runs `p` one level deeper. -/
def nested (p : Parser α) : Parser α where
  run c := match p.run { c with depth := c.depth + 1 } with
    | .ok a c' => .ok a { c' with depth := c'.depth - 1 }
    | .fail e n => .fail e n
  size_le h := by
    split at h
    · rename_i a c' hp
      cases h
      have : c'.size ≤ _ := p.size_le hp
      exact this
    · cases h

section Many

variable {γ : Type} (wanted : Token.Kind → Option γ) (item : Parser α)

theorem size_lt_of_wanted {wanted : Token.Kind → Option γ} {item : Parser α} {c c₁ c₂ : Cursor}
    {g : γ} {t : Token} {a : α} (hstop : wanted .stop = none)
    (hg : wanted c.current.kind = some g) (h₁ : next.run c = .ok t c₁)
    (h₂ : item.run c₁ = .ok a c₂) : c₂.size < c.size :=
  Nat.lt_of_le_of_lt (item.size_le h₂) <| size_lt_of_next h₁ fun h => by
    rw [h, hstop] at hg
    cases hg

def runMany (hstop : wanted .stop = none) (c : Cursor) : Outcome (List (γ × α)) :=
  match _hg : wanted c.current.kind with
  | none => .ok [] c
  | some g => match _h₁ : next.run c with
    | .fail e n => .fail e n
    | .ok _ c₁ => match _h₂ : item.run c₁ with
      | .fail e n => .fail e n
      | .ok a c₂ => match runMany hstop c₂ with
        | .fail e n => .fail e n
        | .ok as c₃ => .ok ((g, a) :: as) c₃
termination_by c.size
decreasing_by exact size_lt_of_wanted hstop _hg _h₁ _h₂

/-- As long as the current token is wanted: consumes it and runs `item`. -/
def many (hstop : wanted .stop = none) : Parser (List (γ × α)) where
  run := runMany wanted item hstop
  size_le {c a c'} h := by
    fun_induction runMany wanted item hstop c generalizing a c' with
    | case1 c hg => cases h; exact Nat.le_refl _
    | case5 c g hg t c₁ h₁ x c₂ h₂ as c₃ h₃ ih =>
      cases h
      exact Nat.le_trans (ih h₃) (Nat.le_of_lt (size_lt_of_wanted hstop hg h₁ h₂))
    | case2 | case3 | case4 => cases h

theorem run_many (hstop : wanted .stop = none) (c : Cursor) :
    (many wanted item hstop).run c =
      match wanted c.current.kind with
      | none => .ok [] c
      | some g => (do
          let _ ← next
          let a ← item
          let as ← many wanted item hstop
          pure ((g, a) :: as) : Parser _).run c := by
  show runMany wanted item hstop c = _
  rw [runMany]
  split
  · simp [*]
  · rename_i g hg
    simp only [hg, run_bind, run_pure]
    cases h₁ : next.run c with
    | fail e n => simp
    | ok t c₁ =>
      dsimp only
      split
      · simp [*]
      · simp only [*, many]
        split <;> simp [*]

end Many

end Parser

end Formula
