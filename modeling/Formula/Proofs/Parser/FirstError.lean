import Formula.Proofs.Parser.Blocked
import Formula.Proofs.Parser.Depth

/-!
The first error of a text.

Tokens come in the order of their positions, so the position of an error tells what was read
before it. Main statement: an error of the grammar, or an unknown name, lies at the first token
with which no sentence goes on.
-/

namespace Formula

open Cursor (Reach)
open Grammar
open Formula.Parser

/-! ### Positions -/

namespace Lexer

/-- Where a token begins, or a place that is no token. -/
def place : Except ParseError Token → ℕ
  | .ok t => t.pos
  | .error err => err.pos

variable {l l' : Lexer} {t : Token}

lemma pos_le_skipBlanks (l : Lexer) : l.pos ≤ l.skipBlanks.pos := Nat.le_add_right _ _

lemma pos_le_of_next {x : Except ParseError Token} (h : l.next = (x, l')) : l.pos ≤ place x := by
  have hle := l.pos_le_skipBlanks
  unfold next read at h
  split at h
  · cases h
    exact hle
  · cases h
    exact hle

/-- Reading goes on behind the token. -/
lemma pos_lt_of_next (h : l.next = (.ok t, l')) (ht : t.kind ≠ .stop) : t.pos < l'.pos := by
  obtain ⟨hm, hpos, rfl⟩ := read_eq_ok h
  have hne : t.text ≠ [] := by
    have := munch_ne_nil (congrArg Prod.fst hm) ht
    rwa [hm] at this
  have hpre : t.text <+: l.skipBlanks.rest := by
    have := isPrefix_munch l.skipBlanks.rest
    rwa [hm] at this
  have hlen := List.length_pos_iff.2 hne
  have hbytes := length_le_byteLength t.text
  have hadv : (l.skipBlanks.advance t.text.length).pos = l.skipBlanks.pos + byteLength t.text := by
    rw [advance, ← List.prefix_iff_eq_take.1 hpre]
  omega

/-- The items are in the order of their places. -/
theorem items_ordered (l : Lexer) : (∀ x ∈ l.items, l.pos ≤ place x) ∧
    l.items.Pairwise (place · < place ·) := by
  fun_induction items l with
  | case1 l t l' h ht => exact ⟨by simpa using pos_le_of_next h, List.pairwise_singleton _ _⟩
  | case2 l t l' h ht ih =>
    have hle := pos_le_of_next h
    have hlt := pos_lt_of_next h ht
    have hall : ∀ x ∈ l'.items, t.pos < place x := fun x hx => Nat.lt_of_lt_of_le hlt (ih.1 x hx)
    refine ⟨?_, List.pairwise_cons.2 ⟨hall, ih.2⟩⟩
    rintro x (_ | ⟨_, hx⟩)
    · exact hle
    · exact Nat.le_of_lt (Nat.lt_of_le_of_lt hle (hall x hx))
  | case3 l err l' h => exact ⟨by simpa using pos_le_of_next h, List.pairwise_singleton _ _⟩

end Lexer

/-- The tokens of a text up to the first that is none. -/
def lexed (t : Text) : List Token := (Lexer.ofText t).items.filterMap Except.toOption

/-- The tokens that begin before a position. -/
def lexedBefore (t : Text) (pos : ℕ) : List Token := (lexed t).filter (·.pos < pos)

/-- The tokens that begin no later than at a position. -/
def lexedUpTo (t : Text) (pos : ℕ) : List Token := (lexed t).filter (·.pos ≤ pos)

/-- What comes before an element of an ordered list, and what comes up to it. -/
lemma filter_of_ordered {α : Type} {f : α → ℕ} {us vs : List α} {x : α}
    (h : (us ++ x :: vs).Pairwise (f · < f ·)) :
    (us ++ x :: vs).filter (f · < f x) = us ∧ (us ++ x :: vs).filter (f · ≤ f x) = us ++ [x] := by
  obtain ⟨-, hright, hleft⟩ := List.pairwise_append.1 h
  have hbefore : ∀ u ∈ us, f u < f x := fun u hu => hleft u hu x List.mem_cons_self
  have hafter : ∀ v ∈ vs, f x < f v := (List.pairwise_cons.1 hright).1
  rw [List.filter_append, List.filter_append, List.filter_cons_of_neg (by simp),
    List.filter_cons_of_pos (by simp)]
  have h₁ : us.filter (f · < f x) = us := List.filter_eq_self.2 fun u hu => by simp [hbefore u hu]
  have h₂ : us.filter (f · ≤ f x) = us :=
    List.filter_eq_self.2 fun u hu => by simp [Nat.le_of_lt (hbefore u hu)]
  have h₃ : vs.filter (f · < f x) = [] :=
    List.filter_eq_nil_iff.2 fun v hv => by simp [Nat.le_of_lt (hafter v hv)]
  have h₄ : vs.filter (f · ≤ f x) = [] :=
    List.filter_eq_nil_iff.2 fun v hv => by simp [hafter v hv]
  rw [h₁, h₂, h₃, h₄, List.append_nil]
  exact ⟨rfl, rfl⟩

variable {t : Text} {c d : Cursor} {ts : List Token} {s s' : Scan} {err : ParseError}
  {resolve : Text → Option Meaning}

lemma lexed_ordered (t : Text) : (lexed t).Pairwise (·.pos < ·.pos) := by
  refine (Lexer.items_ordered (Lexer.ofText t)).2.filterMap Except.toOption ?_
  rintro (_ | u) (_ | v) hlt u' hu v' hv <;> cases hu <;> cases hv
  exact hlt

lemma filterMap_map_ok (ts : List Token) :
    (ts.map Except.ok : List (Except ParseError Token)).filterMap Except.toOption = ts := by
  induction ts with
  | nil => rfl
  | cons t ts ih => exact congrArg (t :: ·) ih

/-- The end of the text is the last token. -/
lemma lexed_of_words (h : Words t ts) :
    ∃ last, lexed t = ts ++ [last] ∧ last.kind = .stop := by
  obtain ⟨last, htokens, hlast⟩ := h
  have hitems : (Lexer.ofText t).items = (ts ++ [last]).map .ok := eq_map_of_mapM_id htokens
  exact ⟨last, by rw [lexed, hitems, filterMap_map_ok], hlast⟩

/-- Where the parser stands tells which tokens it has read. -/
lemma lexed_at (hs : Cursor.start t = .ok c) (hr : Reach c ts d) :
    lexedBefore t d.current.pos = ts ∧ lexedUpTo t d.current.pos = ts ++ [d.current] := by
  have hord := lexed_ordered t
  obtain ⟨more, hmore⟩ : ∃ more, lexed t = ts ++ d.current :: more := by
    unfold lexed
    rw [← (Cursor.items_of_start hs).2, hr.items_eq, List.filterMap_append, filterMap_map_ok]
    exact ⟨_, rfl⟩
  unfold lexedBefore lexedUpTo
  rw [hmore] at hord ⊢
  exact filter_of_ordered hord

/-- Where reading breaks off, all that was read comes before the break. -/
lemma lexed_of_break (h : (Lexer.ofText t).items = ts.map .ok ++ [.error err]) :
    tokenize t = .error err ∧ lexed t = ts ∧ lexedBefore t err.pos = ts := by
  have hts : lexed t = ts := by
    rw [lexed, h, List.filterMap_append, filterMap_map_ok]
    exact List.append_nil ts
  refine ⟨by rw [tokenize, h, mapM_id_error], hts, ?_⟩
  have hord := (Lexer.items_ordered (Lexer.ofText t)).2
  rw [h] at hord
  have hall := (List.pairwise_append.1 hord).2.2
  rw [lexedBefore, hts]
  refine List.filter_eq_self.2 fun u hu => ?_
  exact decide_eq_true (hall (.ok u) (List.mem_map_of_mem hu) _ (List.mem_singleton_self _))

/-! ### Errors -/

/-- The error is one of the grammar or an unknown name. -/
lemma ParseFault.forbids_iff {f : ParseFault} :
    f.Forbids ↔ (∃ g, f = .grammar g) ∨ ∃ n, f = .unknownName n := by
  cases f <;> simp [Forbids]

lemma ParseFault.not_breaks {f : ParseFault} (h : f.Forbids) : ¬f.Breaks := by
  cases f <;> simp_all [Forbids, Breaks]

lemma ParseFault.breaks_iff {f : ParseFault} : f.Breaks ↔ ∃ g, f = .lexical g := by
  cases f <;> simp [Breaks]

lemma Cursor.breaks_of_start (h : Cursor.start t = .error err) : err.fault.Breaks := by
  unfold Cursor.start at h
  split at h
  · cases h
  · cases h
    exact Lexer.breaks_of_next (by assumption)

namespace Parser

/-- A blocked scan has read the beginning of a sentence, and the token where it is blocked does not
go on with it. -/
lemma Blocked.viable (hs : Cursor.start t = .ok c) (h : Blocked resolve Scan.start c err)
    (hf : err.fault.Forbids) : Viable resolve (lexedBefore t err.pos) ∧
      ¬Viable resolve (lexedUpTo t err.pos) ∧
      ∃ tok, tok.pos = err.pos ∧ lexedUpTo t err.pos = lexedBefore t err.pos ++ [tok] := by
  cases h with
  | @token ts s' d hr hrun hstep hpos _ =>
    obtain ⟨hb, hu⟩ := lexed_at hs hr
    rw [hpos, hb, hu]
    exact ⟨viable_iff.2 ⟨s', hrun⟩, not_viable_of_step hrun hstep, d.current, rfl, rfl⟩
  | text _ _ _ _ hn =>
    exact absurd (Lexer.breaks_of_next hn) (ParseFault.not_breaks hf)
  | other hf' _ => exact absurd hf hf'

/-- Where the text breaks a sentence could go on, but for an unknown name right before the break. -/
lemma Blocked.broken (hs : Cursor.start t = .ok c) (h : Blocked resolve Scan.start c err)
    (hb : err.fault.Breaks) : tokenize t = .error err ∧ lexedBefore t err.pos = lexed t ∧
      (Viable resolve (lexed t) ∨
        ∃ us w, lexed t = us ++ [w] ∧ Unknown resolve w ∧ Viable resolve us) := by
  cases h with
  | token _ _ _ _ hf =>
    exact absurd hb (ParseFault.not_breaks hf)
  | other _ hb' => exact absurd hb hb'
  | @text ts s' d l hr hrun hk hstep hn =>
    have hitems : (Lexer.ofText t).items = (ts ++ [d.current]).map .ok ++ [.error err] := by
      rw [← (Cursor.items_of_start hs).2, hr.items_eq, Cursor.items, if_neg hk,
        Lexer.items_of_error hn]
      simp
    obtain ⟨htok, hlexed, hbefore⟩ := lexed_of_break hitems
    refine ⟨htok, hbefore.trans hlexed.symm, ?_⟩
    rw [hlexed]
    rcases hstep with ⟨s'', hs''⟩ | hunknown
    · refine .inl (viable_iff.2 ⟨s'', ?_⟩)
      rw [Scan.run_append, hrun, Option.bind_some, Scan.run_singleton, hs'']
    · exact .inr ⟨ts, d.current, rfl, hunknown, viable_iff.2 ⟨s', hrun⟩⟩

end Parser

/-- **An error lies at the first token with which no sentence goes on.** Let a text within the bound
on its length fail. If the error is one of the grammar or an unknown name, the tokens before it are
the beginning of a sentence, and with the token at its place, which may be the end, they are not.
If the text breaks there, then nowhere before, and the tokens before the break are the beginning of
a sentence, but for the last of them, which may be an unknown name. -/
theorem parse_error_at_first_token {σ : Type} (table : SymbolTable σ) (o : Options) (t : Text)
    (err : ParseError) (hlength : byteLength t ≤ o.maxLength)
    (h : parse table.resolve o t = .error err) :
    ((∃ g, err.fault = .grammar g) ∨ (∃ n, err.fault = .unknownName n) →
      Viable table.resolve (lexedBefore t err.pos) ∧
      ¬Viable table.resolve (lexedUpTo t err.pos) ∧
      ∃ tok, tok.pos = err.pos ∧ lexedUpTo t err.pos = lexedBefore t err.pos ++ [tok]) ∧
    ((∃ f, err.fault = .lexical f) →
      tokenize t = .error err ∧ lexedBefore t err.pos = lexed t ∧
      (Viable table.resolve (lexed t) ∨
        ∃ us w, lexed t = us ++ [w] ∧ (w.kind = .word ∧ table.resolve w.text = none) ∧
          Viable table.resolve us)) := by
  rw [← ParseFault.forbids_iff, ← ParseFault.breaks_iff]
  unfold parse parseText at h
  rw [if_neg (Nat.not_lt.2 hlength)] at h
  rcases hs : Cursor.start t with err' | c
  · -- nothing has been read
    rw [hs] at h
    cases h
    have hitems : (Lexer.ofText t).items = ([] : List Token).map .ok ++ [.error err] :=
      Cursor.items_of_start_error hs
    have hbreaks : err.fault.Breaks := Cursor.breaks_of_start hs
    obtain ⟨htok, hlexed, hbefore⟩ := lexed_of_break hitems
    refine ⟨fun hf => absurd hbreaks (ParseFault.not_breaks hf), fun _ => ?_⟩
    refine ⟨htok, hbefore.trans hlexed.symm, .inl ?_⟩
    rw [hlexed]
    exact viable_iff.2 ⟨Scan.start, rfl⟩
  · rw [hs] at h
    simp only at h
    rcases hrun : (sentence table.resolve o.maxDepth).run c with ⟨e, d⟩ | ⟨err', reads⟩
    · rw [hrun] at h
      cases h
    · rw [hrun] at h
      cases h
      have hblocked := blocked_of_sentence hrun
      exact ⟨hblocked.viable hs, hblocked.broken hs⟩

/-- The error of a parse that fails. -/
def failure? : Except ParseError Expr → Option ParseError
  | .ok _ => none
  | .error err => some err

lemma failure?_eq_some {x : Except ParseError Expr} : failure? x = some err ↔ x = .error err := by
  cases x <;> simp [failure?]

/-- The text `f(x,-)`. -/
def missingOperand : Text := ['f', '(', 'x', ',', '-', ')']

/-- The text `f(x,-y@`. -/
def brokenAfterUnknown : Text := ['f', '(', 'x', ',', '-', 'y', '@']

/-- In `f(x,-)` the closing parenthesis is the first token too many. The text `f(x,-y@` fails for
the `@`, which is no token, and not for the unknown name before it. -/
theorem parse_error_at_first_token_call :
    (byteLength missingOperand ≤ 15 ∧
      parse xfTable.resolve ⟨true, 8, 15⟩ missingOperand =
        .error ⟨5, .grammar (.missing .operand ⟨.rightParen, [')'], 5⟩)⟩ ∧
      Viable xfTable.resolve (lexedBefore missingOperand 5) ∧
      ¬Viable xfTable.resolve (lexedUpTo missingOperand 5)) ∧
    byteLength brokenAfterUnknown ≤ 15 ∧
      parse xfTable.resolve ⟨true, 8, 15⟩ brokenAfterUnknown =
        .error ⟨6, .lexical (.unexpected '@')⟩ ∧
      tokenize brokenAfterUnknown = .error ⟨6, .lexical (.unexpected '@')⟩ ∧
      (Viable xfTable.resolve (lexed brokenAfterUnknown) ∨
        ∃ us w, lexed brokenAfterUnknown = us ++ [w] ∧
          (w.kind = .word ∧ xfTable.resolve w.text = none) ∧ Viable xfTable.resolve us) := by
  have hmissing : parse xfTable.resolve ⟨true, 8, 15⟩ missingOperand =
      .error ⟨5, .grammar (.missing .operand ⟨.rightParen, [')'], 5⟩)⟩ :=
    failure?_eq_some.1 (by decide +kernel)
  have hbroken : parse xfTable.resolve ⟨true, 8, 15⟩ brokenAfterUnknown =
      .error ⟨6, .lexical (.unexpected '@')⟩ := failure?_eq_some.1 (by decide +kernel)
  have hlen : byteLength missingOperand ≤ 15 := by decide
  have hlen' : byteLength brokenAfterUnknown ≤ 15 := by decide
  obtain ⟨hbefore, hupTo, -⟩ :=
    (parse_error_at_first_token xfTable _ missingOperand _ hlen hmissing).1 (.inl ⟨_, rfl⟩)
  obtain ⟨htok, -, hviable⟩ :=
    (parse_error_at_first_token xfTable _ brokenAfterUnknown _ hlen' hbroken).2 ⟨_, rfl⟩
  exact ⟨⟨hlen, hmissing, hbefore, hupTo⟩, hlen', hbroken, htok, hviable⟩

end Formula
