import Formula.Proofs.Lexing.Tiling
import Formula.Proofs.Parser.FirstError

/-!
The place of an error.

Whatever the parser consumes is an item of the text, so wherever it stands the token before it and
the current one are neighbours among the items. An error of the parser lies at a token and says
something of it, or of it and the token before; an error of the lexer lies where the text breaks.
Main statement: `parse_error_position`.
-/

namespace Formula

open Formula.Parser

/-- The token is the opening parenthesis right after a name. -/
def Token.OpensCall (tok : Token) (before : Option Token) (n : Text) : Prop :=
  tok.kind = .leftParen ∧ ∃ name, before = some name ∧ name.kind = .word ∧ name.text = n

/-- The fault lies at the token `tok`, after the token `before`: a token that is not wanted is the
one that was found, an unknown name is the name that stands there, and the wrong number of arguments
and the call of a variable lie at the opening parenthesis after the name that is called. -/
def ParseFault.Concerns (before : Option Token) (tok : Token) : ParseFault → Prop
  | .grammar (.missing _ found) => found = tok
  | .grammar (.trailing found) => found = tok
  | .grammar (.variableCalled n) => tok.OpensCall before n
  | .unknownName n => tok.kind = .word ∧ tok.text = n
  | .arity n _ _ => tok.OpensCall before n
  | .tooDeep _ => True
  | .lexical _ | .grammar (.tooLong _ _) => False

/-- The parser has consumed the tokens `us` of the text and stands at the next. -/
def Cursor.Stands (t : Text) (us : List Token) (c : Cursor) : Prop :=
  (Lexer.ofText t).items = us.map .ok ++ c.items

/-- Where an error of the parser lies in the text. -/
inductive Lies (t : Text) (err : ParseError) : Prop
  | token {us : List Token} {tok : Token} {more : List (Except ParseError Token)} :
      (Lexer.ofText t).items = us.map .ok ++ .ok tok :: more → tok.pos = err.pos →
      err.fault.Concerns us.getLast? tok → Lies t err
  | text {us : List Token} : (Lexer.ofText t).items = us.map .ok ++ [.error err] → Lies t err

variable {α β γ : Type} {t : Text} {us : List Token} {c d : Cursor} {w : Token}
  {Q R : Token.Kind → Prop}

namespace Cursor

lemma Stands.consume (h : Stands t us c) (hk : c.current.kind ≠ .stop)
    (hd : next.run c = .ok c.current d) : Stands t (us ++ [c.current]) d := by
  unfold Stands at h ⊢
  rw [h, items, if_neg hk, items_of_next (next_eq_ok hd).2.2, List.map_append, List.append_assoc]
  rfl

lemma Stands.lies {err : ParseError} (h : Stands t us c) (hpos : c.current.pos = err.pos)
    (hf : err.fault.Concerns us.getLast? c.current) : Lies t err := .token h hpos hf

lemma stands_of_start (h : start t = .ok c) : Stands t [] c := (items_of_start h).2.symm

end Cursor

open Cursor (Stands)

/-- The outcome of a parser: a value where the kind of the current token satisfies `Q`, or an error
that lies in the text. -/
inductive StaysIn (t : Text) (Q : Token.Kind → Prop) : Outcome α → Prop
  | ok {a : α} {us : List Token} {c : Cursor} : Stands t us c → Q c.current.kind →
      StaysIn t Q (.ok a c)
  | fail {err : ParseError} {reads : ℕ} : Lies t err → StaysIn t Q (.fail err reads)

namespace StaysIn

lemma pure {a : α} (hc : Stands t us c) (hq : Q c.current.kind) :
    StaysIn t Q ((Pure.pure a : Parser α).run c) := .ok hc hq

lemma bind {p : Parser α} {f : α → Parser β} (h : StaysIn t Q (p.run c))
    (hf : ∀ a us d, p.run c = .ok a d → Stands t us d → Q d.current.kind →
      StaysIn t R ((f a).run d)) : StaysIn t R ((p >>= f).run c) := by
  rw [run_bind]
  generalize hp : p.run c = out at h ⊢
  cases h with
  | ok hd hq => exact hf _ _ _ hp hd hq
  | fail hl => exact .fail hl

/-- An error about the current token. -/
lemma refused {f : Token → ParseFault} (hc : Stands t us c)
    (hf : (f c.current).Concerns us.getLast? c.current) :
    StaysIn t Q ((Parser.fail f : Parser α).run c) := .fail (hc.lies rfl hf)

lemma consume {f : Token → Parser α} (hc : Stands t us c) (hk : c.current.kind ≠ .stop)
    (h : ∀ d, next.run c = .ok c.current d → Stands t (us ++ [c.current]) d →
      StaysIn t Q ((f c.current).run d)) :
    StaysIn t Q ((next >>= f).run c) := by
  rw [run_bind]
  rcases hn : c.lexer.next with ⟨err | tok, l⟩
  · have hitems : (Lexer.ofText t).items = (us ++ [c.current]).map .ok ++ [.error err] := by
      rw [hc, Cursor.items, if_neg hk, Lexer.items_of_error hn, List.map_append,
        List.append_assoc]
      rfl
    rw [fail_of_next hn]
    exact .fail (.text hitems)
  · obtain ⟨d, hd, -, -⟩ := Cursor.exists_next hn
    rw [hd]
    exact h d hd (hc.consume hk hd)

lemma nested {p : Parser α} (h : StaysIn t Q (p.run { c with depth := c.depth + 1 })) :
    StaysIn t Q ((Parser.nested p).run c) := by
  simp only [Parser.nested]
  generalize p.run _ = out at h ⊢
  cases h with
  | ok hd hq => exact .ok hd hq
  | fail hl => exact .fail hl

end StaysIn

/-- Wherever it is run in the text, the parser fails at a place in the text or goes on in it. -/
def KeepsTo (t : Text) (p : Parser α) : Prop :=
  ∀ us c, Stands t us c → StaysIn t (fun _ => True) (p.run c)

namespace KeepsTo

lemma bind {p : Parser α} {f : α → Parser β} (h : KeepsTo t p) (hf : ∀ a, KeepsTo t (f a)) :
    KeepsTo t (p >>= f) :=
  fun us c hc => (h us c hc).bind fun a us d _ hd _ => hf a us d hd

lemma pure (a : α) : KeepsTo t (Pure.pure a) := fun _ _ hc => .pure hc trivial

lemma many {wanted : Token.Kind → Option γ} {item : Parser α} (hitem : KeepsTo t item)
    (hstop : wanted .stop = none) : KeepsTo t (Parser.many wanted item hstop) := by
  intro us c hc
  induction hn : c.size using Nat.strongRecOn generalizing us c with
  | ind n ih =>
    rw [run_many]
    rcases hg : wanted c.current.kind with _ | g
    · exact .pure hc trivial
    · have hk : c.current.kind ≠ .stop := fun hk => by simp [hk, hstop] at hg
      refine .consume hc hk fun d hd hds => (hitem _ d hds).bind fun a us' e he hes _ => ?_
      have hlt := size_lt_of_wanted hstop hg hd he
      exact (ih e.size (by omega) us' e hes rfl).bind fun as _ _ _ h _ => .pure h trivial

end KeepsTo

/-! ### One level -/

section Level

variable {resolve : Text → Option Meaning} {base : Parser Expr} (hbase : KeepsTo t base)
include hbase

lemma keepsTo_factor : KeepsTo t (factor base) :=
  hbase.bind fun _ => (hbase.many rfl).bind fun _ => .pure _

lemma keepsTo_term : KeepsTo t (term base) :=
  (keepsTo_factor hbase).bind fun _ => ((keepsTo_factor hbase).many rfl).bind fun _ => .pure _

lemma keepsTo_expr : KeepsTo t (expr base) :=
  (keepsTo_term hbase).bind fun _ => ((keepsTo_term hbase).many rfl).bind fun _ => .pure _

/-- Arguments end before the parenthesis that closes them. -/
lemma staysIn_args (hc : Stands t us c) : StaysIn t (· = .rightParen) ((args base).run c) := by
  unfold args
  rw [run_bind, run_current]
  simp only
  split
  · exact .pure hc ‹_›
  · refine (keepsTo_expr hbase us c hc).bind fun a us d _ hd _ => ?_
    refine ((keepsTo_expr hbase).many rfl us d hd).bind fun r us e _ he _ => ?_
    rw [run_bind, run_current]
    simp only
    split
    · exact .pure he ‹_›
    · exact .refused he rfl

/-- The wrong number of arguments is an error at the opening parenthesis, right after the name. -/
lemma staysIn_call {callee : Callee} {arity : ℕ} (hc : Stands t (us ++ [w]) c) (hw : w.kind = .word)
    (hopen : c.current.kind = .leftParen) :
    StaysIn t (fun _ => True) ((call base w.text callee arity).run c) := by
  unfold call
  refine .consume hc (by simp [hopen]) fun d _ hd => ?_
  refine (staysIn_args hbase hd).bind fun as us' e _ he hclose => ?_
  refine .consume he (by simp [hclose]) fun f _ hf => ?_
  split
  · exact .pure hf trivial
  · exact .fail (hc.lies rfl ⟨hopen, w, List.getLast?_concat, hw, rfl⟩)

lemma staysIn_named (hc : Stands t us c) (hword : c.current.kind = .word) :
    StaysIn t (fun _ => True) ((named resolve base).run c) := by
  unfold named
  refine .consume hc (by simp [hword]) fun d _ hd => ?_
  rw [run_bind, run_current]
  simp only
  split
  · -- the name is what was consumed before the current token
    exact .fail (hc.lies rfl ⟨hword, rfl⟩)
  · split
    · exact .refused hd ⟨‹_›, c.current, List.getLast?_concat, hword, rfl⟩
    · exact .pure hd trivial
  · split
    · exact staysIn_call hbase hd hword ‹_›
    · split
      · exact .pure hd trivial
      · exact .refused hd rfl

lemma keepsTo_group : KeepsTo t (group base) := by
  refine (keepsTo_expr hbase).bind fun e us c hc => ?_
  rw [run_bind, run_current]
  simp only
  split
  · rename_i hclose
    exact .consume hc (by simp [hclose]) fun d _ hd => .pure hd trivial
  · exact .refused hc rfl

lemma keepsTo_atom : KeepsTo t (atom resolve base) := by
  intro us c hc
  unfold atom
  rw [run_bind, run_current]
  simp only
  split
  · rename_i hk
    exact .consume hc (by simp [hk]) fun d _ hd => .pure hd trivial
  · exact staysIn_named hbase hc (by assumption)
  · rename_i hk
    exact .consume hc (by simp [hk]) fun d _ hd => keepsTo_group hbase _ d hd
  · exact .refused hc rfl

lemma keepsTo_power : KeepsTo t (power resolve base) := by
  refine (keepsTo_atom hbase).bind fun a us c hc => ?_
  rw [run_bind, run_current]
  simp only
  split
  · rename_i o ho
    obtain ⟨hk, -⟩ := powerOperator?_eq_some.1 ho
    exact .consume hc (by simp [hk]) fun d _ hd => (hbase.bind fun b => .pure _) _ d hd
  · exact .pure hc trivial

lemma keepsTo_signed : KeepsTo t (signed resolve base) := by
  intro us c hc
  unfold signed
  rw [run_bind, run_current]
  simp only
  split
  · rename_i ho
    obtain ⟨hk, -⟩ := sumOperator?_eq_some.1 ho
    exact .consume hc (by simp [hk]) fun d _ hd => (hbase.bind fun a => .pure _) _ d hd
  · rename_i ho
    obtain ⟨hk, -⟩ := sumOperator?_eq_some.1 ho
    exact .consume hc (by simp [hk]) fun d _ hd => hbase _ d hd
  · exact keepsTo_power hbase us c hc

end Level

/-! ### All levels -/

variable {resolve : Text → Option Meaning} {err : ParseError}

lemma keepsTo_baseWithin (levels : ℕ) : KeepsTo t (baseWithin resolve levels) := by
  induction levels with
  | zero => exact fun us c hc => .fail (hc.lies rfl trivial)
  | succ levels ih => exact fun us c hc => .nested (keepsTo_signed ih us _ hc)

theorem keepsTo_sentence (levels : ℕ) : KeepsTo t (sentence resolve levels) := by
  refine (keepsTo_expr (keepsTo_baseWithin levels)).bind fun e us c hc => ?_
  rw [run_bind, run_current]
  simp only
  split
  · exact .pure hc trivial
  · exact .refused hc rfl

/-- An error within the bound on the length lies in the text. -/
theorem lies_of_parseText {levels reads : ℕ} (h : parseText resolve levels t = .fail err reads) :
    Lies t err := by
  unfold parseText at h
  split at h
  · rename_i c hs
    have hkeeps : KeepsTo t (sentence resolve levels) := keepsTo_sentence levels
    have hstays := hkeeps [] c (Cursor.stands_of_start hs)
    rw [h] at hstays
    cases hstays with
    | fail hl => exact hl
  · rename_i hs
    cases h
    have hitems : (Lexer.ofText t).items = ([] : List Token).map .ok ++ [.error err] :=
      Cursor.items_of_start_error hs
    exact .text hitems

/-! ### Places in the text -/

/-- What the text has at a position is no token. -/
def BreaksAt (t : Text) (p : ℕ) (f : LexFault) : Prop :=
  ∃ s r u, t = s ++ r ∧ byteLength s = p ∧ munch r = (.error f, u)

lemma BreaksAt.boundary {p : ℕ} {f : LexFault} (h : BreaksAt t p f) : Boundary t p := by
  obtain ⟨s, r, -, rfl, hp, -⟩ := h
  exact ⟨s, List.prefix_append _ _, hp⟩

lemma Lexer.last_eq_error {q : ℕ} {r : Text} (h : Lexer.last q r = .error err) :
    ∃ f u, err = ⟨q, .lexical f⟩ ∧ munch r = (.error f, u) := by
  rcases hm : munch r with ⟨f | k, u⟩
  · rw [Lexer.last_of_error hm] at h
    cases h
    exact ⟨f, u, rfl, rfl⟩
  · unfold Lexer.last at h
    rw [hm] at h
    cases h

/-- Every token stands where its position says, and the end at the end of the text. -/
lemma standsAt_of_mem_items (h : .ok w ∈ (Lexer.ofText t).items) :
    StandsAt t w.text w.pos ∧ (w.kind = .stop → w.pos = byteLength t) := by
  obtain ⟨ts, q, r, s, hitems, hs, hq, -, -, htokens, hlast⟩ := exists_tiles t
  rw [hitems, List.mem_append, List.mem_singleton] at h
  rcases h with h | h
  · obtain ⟨w', hw, hw'⟩ := List.mem_map.1 h
    cases hw'
    obtain ⟨hstop, -, hstands⟩ := htokens w hw
    exact ⟨hstands, fun hk => absurd hk hstop⟩
  · rcases hlast with rfl | ⟨f, hf⟩
    · rw [Lexer.last_nil] at h
      cases h
      rw [List.append_nil] at hs
      subst hs
      exact ⟨⟨t, [], (List.append_nil t).symm, hq⟩, fun _ => hq.symm⟩
    · rw [hf] at h
      cases h

lemma breaksAt_of_mem_items (h : .error err ∈ (Lexer.ofText t).items) :
    ∃ f, err.fault = .lexical f ∧ BreaksAt t err.pos f := by
  obtain ⟨ts, q, r, s, hitems, hs, hq, -⟩ := exists_tiles t
  rw [hitems, List.mem_append, List.mem_singleton] at h
  rcases h with h | h
  · obtain ⟨_, -, hw⟩ := List.mem_map.1 h
    cases hw
  · obtain ⟨f, u, rfl, hm⟩ := Lexer.last_eq_error h.symm
    exact ⟨f, rfl, s, r, u, hs, hq, hm⟩

lemma isPrefix_fitting (n : ℕ) (t : Text) : fitting n t <+: t := by
  induction t generalizing n with
  | nil => exact List.nil_prefix
  | cons c cs ih =>
    unfold fitting
    split
    · exact (List.prefix_cons_inj _).2 (ih _)
    · exact List.nil_prefix

/-- A text that is too long fails between two of its characters, within the bound. -/
lemma overflowPos_boundary (limit : ℕ) (t : Text) :
    Boundary t (overflowPos limit t) ∧ overflowPos limit t ≤ limit := by
  have hedge : Boundary t (byteLength (fitting limit t)) := ⟨_, isPrefix_fitting limit t, rfl⟩
  have hle := byteLength_fitting_le limit t
  unfold overflowPos
  simp only
  split
  · rename_i tok hfind
    have hstands := (standsAt_of_mem_items (List.mem_of_find?_eq_some hfind)).1
    rcases Nat.le_total tok.pos (byteLength (fitting limit t)) with h | h
    · rw [Nat.min_eq_left h]
      exact ⟨hstands.boundary, Nat.le_trans h hle⟩
    · rw [Nat.min_eq_right h]
      exact ⟨hedge, hle⟩
  · exact ⟨hedge, hle⟩

lemma Lies.place (h : Lies t err) :
    (∃ f, err.fault = .lexical f ∧ BreaksAt t err.pos f ∧ tokenize t = .error err) ∨
      ∃ us tok vs, lexed t = us ++ tok :: vs ∧ tok.pos = err.pos ∧
        StandsAt t tok.text tok.pos ∧ (tok.kind = .stop → tok.pos = byteLength t) ∧
        err.fault.Concerns us.getLast? tok := by
  cases h with
  | @token us tok more hitems hpos hf =>
    have hmem : .ok tok ∈ (Lexer.ofText t).items := by simp [hitems]
    obtain ⟨hstands, hstop⟩ := standsAt_of_mem_items hmem
    refine .inr ⟨us, tok, more.filterMap Except.toOption, ?_, hpos, hstands, hstop, hf⟩
    rw [lexed, hitems, List.filterMap_append, filterMap_map_ok]
    rfl
  | @text us hitems =>
    have hmem : .error err ∈ (Lexer.ofText t).items := by simp [hitems]
    obtain ⟨f, hf, hbreaks⟩ := breaksAt_of_mem_items hmem
    exact .inl ⟨f, hf, hbreaks, (lexed_of_break hitems).1⟩

/-- **Every error has a place in the text.** The position of an error that a parse fails with lies
between two characters of the text. Unless the text is too long, and then the error says so and lies
within the bound, it is the position where the text breaks, or that of a token of the text, which
may be the end, and the error is about that token: an unknown name is its text, and an error in the
number of arguments lies at the opening parenthesis after the name that is called. -/
theorem parse_error_position {σ : Type} (table : SymbolTable σ) (o : Options) (t : Text)
    (err : ParseError) (h : parse table.resolve o t = .error err) :
    (Error.parse err).position? = some err.pos ∧ err.pos ≤ byteLength t ∧ Boundary t err.pos ∧
    (o.maxLength < byteLength t → err.pos ≤ o.maxLength ∧
      err.fault = .grammar (.tooLong (byteLength t) o.maxLength)) ∧
    (byteLength t ≤ o.maxLength →
      (∃ f, err.fault = .lexical f ∧ BreaksAt t err.pos f ∧ tokenize t = .error err) ∨
        ∃ us tok vs, lexed t = us ++ tok :: vs ∧ tok.pos = err.pos ∧
          StandsAt t tok.text tok.pos ∧ (tok.kind = .stop → tok.pos = byteLength t) ∧
          err.fault.Concerns us.getLast? tok) := by
  suffices hplace : Boundary t err.pos ∧
      (o.maxLength < byteLength t → err.pos ≤ o.maxLength ∧
        err.fault = .grammar (.tooLong (byteLength t) o.maxLength)) ∧
      (byteLength t ≤ o.maxLength → Lies t err) from
    ⟨rfl, hplace.1.le, hplace.1, hplace.2.1, fun hle => (hplace.2.2 hle).place⟩
  unfold parse at h
  split at h
  · cases h
    obtain ⟨hboundary, hle⟩ := overflowPos_boundary o.maxLength t
    exact ⟨hboundary, fun _ => ⟨hle, rfl⟩, fun _ => by omega⟩
  · split at h
    · cases h
    · rename_i hparse
      cases h
      have hlies := lies_of_parseText hparse
      refine ⟨?_, fun _ => by omega, fun _ => hlies⟩
      rcases hlies.place with ⟨f, -, hbreaks, -⟩ | ⟨us, tok, vs, -, hpos, hstands, -⟩
      · exact hbreaks.boundary
      · rw [← hpos]
        exact hstands.boundary

/-- In ` f(x)` an argument is missing, and the error lies at the parenthesis after the name. Two
characters of `x+é` fit into three bytes, and the error lies behind them, not within the third. -/
theorem parse_error_position_call :
    (parse xfTable.resolve ⟨true, 8, 15⟩ [' ', 'f', '(', 'x', ')'] =
        .error ⟨2, .arity ['f'] 2 1⟩ ∧
      ∃ us tok vs, lexed [' ', 'f', '(', 'x', ')'] = us ++ tok :: vs ∧ tok.pos = 2 ∧
        (ParseFault.arity ['f'] 2 1).Concerns us.getLast? tok) ∧
    3 < byteLength ['x', '+', 'é'] ∧
      parse xfTable.resolve ⟨true, 8, 3⟩ ['x', '+', 'é'] =
        .error ⟨2, .grammar (.tooLong 4 3)⟩ ∧
      Boundary ['x', '+', 'é'] 2 ∧ ¬Boundary ['x', '+', 'é'] 3 := by
  have hcall : parse xfTable.resolve ⟨true, 8, 15⟩ [' ', 'f', '(', 'x', ')'] =
      .error ⟨2, .arity ['f'] 2 1⟩ := failure?_eq_some.1 (by decide +kernel)
  have hlong : parse xfTable.resolve ⟨true, 8, 3⟩ ['x', '+', 'é'] =
      .error ⟨2, .grammar (.tooLong 4 3)⟩ := failure?_eq_some.1 (by decide +kernel)
  obtain ⟨-, -, -, -, hplace⟩ := parse_error_position xfTable _ _ _ hcall
  obtain ⟨-, -, hboundary, -⟩ := parse_error_position xfTable _ _ _ hlong
  refine ⟨⟨hcall, ?_⟩, by decide, hlong, hboundary, by decide⟩
  rcases hplace (by decide) with ⟨f, hf, -⟩ | ⟨us, tok, vs, hlexed, hpos, -, -, hf⟩
  · cases hf
  · exact ⟨us, tok, vs, hlexed, hpos, hf⟩

end Formula
