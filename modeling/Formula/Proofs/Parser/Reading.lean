import Formula.Proofs.Lexing.Tiling
import Formula.Proofs.Parser.Follow

/-!
How the parser reads a text.

Whatever the bound on nesting, the parser asks the lexer for one item after the other, for none
twice, and for nothing after the end or an error. It needs no bound to come to an end: the parser
that opens as many levels as it wants is determined by the grammar, and a bound above what is left
of the text makes no difference. Main statement: `tokens_read_once`.
-/

namespace Formula

open Cursor (Reach)

/-! ### Questions to the lexer -/

namespace Lexer

variable {l : Lexer} {n : ℕ}

/-- What the lexer answers if it is asked for the next item `n` times, and the lexer after that. -/
def ask (l : Lexer) : ℕ → List (Except ParseError Token) × Lexer
  | 0 => ([], l)
  | n + 1 => (l.next.1 :: (l.next.2.ask n).1, (l.next.2.ask n).2)

/-- Up to the end or the first error the answers are the items. -/
theorem answers_ask (h : n ≤ l.items.length) : (l.ask n).1 = l.items.take n := by
  induction n generalizing l with
  | zero => rfl
  | succ n ih =>
    rw [ask]
    rcases hn : l.next with ⟨err | tok, l'⟩
    -- an error is the last item, so this was the last question
    · rw [items_of_error hn, List.length_singleton] at h
      obtain rfl : n = 0 := by omega
      rw [items_of_error hn]
      rfl
    · rw [items_of_ok hn] at h ⊢
      rw [List.take_succ_cons]
      split at h
      · obtain rfl : n = 0 := by simpa using h
        rfl
      · rename_i hk
        rw [if_neg hk]
        exact congrArg (.ok tok :: ·) (ih (Nat.le_of_succ_le_succ h))

/-- The last item, and no other, is an error or the end. -/
lemma exists_items (t : Text) : ∃ (ts : List Token) (last : Except ParseError Token),
    (ofText t).items = ts.map .ok ++ [last] ∧ (∀ tok ∈ ts, tok.kind ≠ .stop) ∧
    isLast last = true := by
  obtain ⟨ts, q, r, -, hitems, -, -, -, -, htokens, hlast⟩ := exists_tiles t
  refine ⟨ts, last q r, hitems, fun tok htok => (htokens tok htok).1, ?_⟩
  rcases hlast with rfl | ⟨f, hf⟩
  · rfl
  · rw [hf]
    rfl

end Lexer

namespace Cursor

variable {c d : Cursor} {t : Text} {ts us : List Token} {last : Except ParseError Token}

lemma lexer_of_start (h : start t = .ok c) :
    (Lexer.ofText t).next = (.ok c.current, c.lexer) ∧ c.reads = 1 := by
  unfold start at h
  split at h
  · rename_i hn
    cases h
    exact ⟨hn, rfl⟩
  · cases h

lemma reads_of_next {tok : Token} (h : Parser.next.run c = .ok tok d) : d.reads = c.reads + 1 := by
  unfold Parser.next at h
  simp only at h
  split at h
  · cases h
    rfl
  · cases h

/-- One question for each token that is consumed. -/
lemma Reach.reads_eq (h : Reach c ts d) : d.reads = c.reads + ts.length := by
  induction h with
  | refl => rfl
  | head _ hn _ ih =>
    rw [ih, reads_of_next hn, List.length_cons]
    omega

lemma Reach.lexer_eq (h : Reach c ts d) : (c.lexer.ask ts.length).2 = d.lexer := by
  induction h with
  | refl => rfl
  | head _ hn _ ih =>
    rw [List.length_cons, Lexer.ask, (next_eq_ok hn).2.2]
    exact ih

/-- What is consumed comes before the last item. -/
lemma Reach.length_le (h : Reach c us d) (hitems : c.items = ts.map .ok ++ [last]) :
    us.length ≤ ts.length := by
  have hlength := congrArg List.length (h.items_eq.symm.trans hitems)
  rw [List.length_append, List.length_append, List.length_map, List.length_map] at hlength
  simp only [items, List.length_cons, List.length_nil] at hlength
  omega

/-- If the parser stands before the end, it has consumed all items but that. -/
lemma Reach.eq_of_stop (h : Reach c us d) (hitems : c.items = ts.map .ok ++ [last])
    (hstop : d.current.kind = .stop) : us = ts ∧ last = .ok d.current := by
  have heq : us.map .ok ++ [.ok d.current] = ts.map .ok ++ [last] := by
    rw [← hitems, h.items_eq, items, if_pos hstop]
  obtain ⟨hmap, hlast⟩ := List.append_inj' heq rfl
  have hinj : Function.Injective (Except.ok : Token → Except ParseError Token) :=
    fun _ _ => Except.ok.inj
  exact ⟨List.map_injective_iff.2 hinj hmap, (List.singleton_inj.1 hlast).symm⟩

/-- If there is an error behind the current token, the parser has consumed all items but those. -/
lemma Reach.length_of_error {err : ParseError} {l : Lexer} (h : Reach c us d)
    (hitems : c.items = ts.map .ok ++ [last]) (hstop : d.current.kind ≠ .stop)
    (hn : d.lexer.next = (.error err, l)) : ts.length = us.length + 1 ∧ last = .error err := by
  have heq : (us ++ [d.current]).map .ok ++ [.error err] = ts.map .ok ++ [last] := by
    rw [← hitems, h.items_eq, items, if_neg hstop, Lexer.items_of_error hn, List.map_append,
      List.append_assoc]
    rfl
  obtain ⟨hmap, hlast⟩ := List.append_inj' heq rfl
  exact ⟨by simpa using (congrArg List.length hmap).symm, (List.singleton_inj.1 hlast).symm⟩

end Cursor

/-! ### Nesting without a bound -/

namespace Parser

variable {α : Type} {strict : Prop} {resolve : Text → Option Meaning} {c : Cursor}
  {base : Parser Expr} {room levels limit : ℕ}

/-- The base of the grammar with no bound on nesting: each one opens a level for the next. -/
def Unbounded (resolve : Text → Option Meaning) (base : Parser Expr) : Prop :=
  ∀ c, base.run c = (nested (signed resolve base)).run c

/-- If less is left than there is room for, no level is missing, with whatever bound. -/
lemma Cut.complete {out more : Outcome α} (h : Cut strict room limit c out more)
    (hlt : c.size < room) :
    out = more ∧ ∀ room' limit', Cut False room' limit' c out out := by
  cases h with
  | ok hd => exact ⟨rfl, fun _ _ => .ok hd⟩
  | fail herr => exact ⟨rfl, fun _ _ => .fail herr⟩
  | deep hle _ => exact absurd hle (Nat.not_le_of_lt hlt)

lemma cuts_unbounded (hbase : Unbounded resolve base) (levels limit : ℕ) :
    Cuts False levels levels limit (baseWithin resolve levels) base := by
  induction levels with
  | zero => exact .tooDeep
  | succ levels ih =>
    intro c hc
    rw [hbase c]
    exact (cuts_signed ih).nested c hc

/-- A bound above what is left is none. -/
lemma run_baseWithin (hbase : Unbounded resolve base) (hlt : c.size < levels) :
    (baseWithin resolve levels).run c = base.run c :=
  (cuts_unbounded hbase levels _ c rfl).complete hlt |>.1

/-- The base that opens as many levels as there is text left. -/
def freeBase (resolve : Text → Option Meaning) : Parser Expr where
  run c := (baseWithin resolve (c.size + 1)).run c
  size_le h := (baseWithin resolve _).size_le h

lemma cuts_freeBase (levels limit : ℕ) :
    Cuts False levels levels limit (baseWithin resolve levels) (freeBase resolve) := by
  intro c hc
  rcases Nat.le_total levels (c.size + 1) with hle | hle
  · exact cuts_baseWithin hle c hc
  -- with more levels than there is text left both come to the same, and to no want of levels
  · obtain ⟨heq, hcut⟩ := (cuts_baseWithin hle c rfl).complete (Nat.lt_succ_self _)
    change Cut _ _ _ _ _ ((baseWithin resolve (c.size + 1)).run c)
    rw [← heq]
    exact hcut levels limit

lemma unbounded_freeBase (resolve : Text → Option Meaning) :
    Unbounded resolve (freeBase resolve) := fun c =>
  ((cuts_signed (cuts_freeBase c.size _)).nested c rfl).complete (Nat.lt_succ_self _) |>.1

/-- The grammar has one base, since it needs no bound to come to an end. -/
theorem unbounded_iff (resolve : Text → Option Meaning) (base : Parser Expr) :
    Unbounded resolve base ↔ base = freeBase resolve := by
  refine ⟨fun h => eq_of_run fun c => ?_, fun h => h ▸ unbounded_freeBase resolve⟩
  exact (run_baseWithin h (Nat.lt_succ_self _)).symm

end Parser

/-! ### Texts -/

open Formula.Parser

section Text

variable {resolve : Text → Option Meaning} {levels n : ℕ} {t : Text} {ts : List Token}
  {last : Except ParseError Token} {e : Expr} {c d : Cursor} {err : ParseError}

lemma length_items (h : (Lexer.ofText t).items = ts.map .ok ++ [last]) :
    (Lexer.ofText t).items.length = ts.length + 1 := by
  rw [h, List.length_append, List.length_map, List.length_singleton]

/-- The first token is asked for before any is consumed. -/
lemma reads_of_start (hs : Cursor.start t = .ok c) (hr : Reach c ts d) :
    d.reads = ts.length + 1 ∧ ((Lexer.ofText t).ask (ts.length + 1)).2 = d.lexer := by
  obtain ⟨hnext, hreads⟩ := Cursor.lexer_of_start hs
  rw [hr.reads_eq, hreads, Lexer.ask, hnext]
  exact ⟨Nat.add_comm _ _, hr.lexer_eq⟩

/-- A text that has a tree was consumed as a whole. -/
theorem reads_of_ok (hitems : (Lexer.ofText t).items = ts.map .ok ++ [last])
    (h : parseText resolve levels t = .ok e d) :
    last = .ok d.current ∧ d.reads = ts.length + 1 ∧
    (Lexer.ofText t).ask d.reads = ((Lexer.ofText t).items, d.lexer) ∧
    ∃ c, Cursor.start t = .ok c ∧ Reach c ts d := by
  have hlength := length_items hitems
  unfold parseText at h
  split at h
  · rename_i c hs
    have hstops : Stops (· = .stop) c ((sentence resolve levels).run c) := stopsAt_sentence levels c
    rw [h] at hstops
    cases hstops with
    | ok hr hstop =>
      rw [← (Cursor.items_of_start hs).2] at hitems
      obtain ⟨rfl, hlast⟩ := hr.eq_of_stop hitems hstop
      obtain ⟨hreads, hlexer⟩ := reads_of_start hs hr
      refine ⟨hlast, hreads, ?_, c, hs, hr⟩
      rw [hreads, ← hlexer]
      refine Prod.ext ?_ rfl
      rw [Lexer.answers_ask (by omega), List.take_of_length_le (by omega)]
  · cases h

/-- Before an error no more was asked for than there is, and all of it before one of the lexer. -/
theorem reads_of_fail (hitems : (Lexer.ofText t).items = ts.map .ok ++ [last])
    (h : parseText resolve levels t = .fail err n) :
    0 < n ∧ n ≤ ts.length + 1 ∧
    ((∃ f, err.fault = .lexical f) → last = .error err ∧ n = ts.length + 1) := by
  unfold parseText at h
  split at h
  · rename_i c hs
    have hstops : Stops (· = .stop) c ((sentence resolve levels).run c) := stopsAt_sentence levels c
    rw [h] at hstops
    rw [← (Cursor.items_of_start hs).2] at hitems
    cases hstops with
    | refused hr hfault =>
      have hle := hr.length_le hitems
      have hreads := (reads_of_start hs hr).1
      exact ⟨by omega, by omega, fun ⟨f, hf⟩ => absurd hf (hfault f)⟩
    | broken hr hstop hn =>
      obtain ⟨hlength, hlast⟩ := hr.length_of_error hitems hstop hn
      have hreads := (reads_of_start hs hr).1
      exact ⟨by omega, by omega, fun _ => ⟨hlast, by omega⟩⟩
  · rename_i hs
    cases h
    have heq : ts.map .ok ++ [last] = [] ++ [.error err] :=
      hitems.symm.trans (Cursor.items_of_start_error hs)
    obtain ⟨hnil, hlast⟩ := List.append_inj' heq rfl
    obtain rfl := List.map_eq_nil_iff.1 hnil
    exact ⟨Nat.one_pos, Nat.le_refl _, fun _ => ⟨List.singleton_inj.1 hlast, rfl⟩⟩

end Text

/-- **The parser comes to an end and reads every token once.** There is one parser, and no other,
that opens as many levels of nesting as it wants, and whoever may open more levels than there is
text left does what it does. The items of a text are its tokens and then the end or an error.
With whatever bound on nesting, each token that is consumed is not the end. If the text has a tree,
the parser has consumed all its tokens, in their order, the lexer was asked once for each of them
and once for the end, and it stands where these questions leave it. If there is an error, the lexer
was asked for some of the items, from the first on, and for all of them if the error is its own. -/
theorem tokens_read_once (resolve : Text → Option Meaning) (t : Text) :
    (∃ base, (∀ base', Unbounded resolve base' ↔ base' = base) ∧
      ∀ levels c, c.size < levels → (baseWithin resolve levels).run c = base.run c) ∧
    (∀ levels, StopsAt (· = .stop) (sentence resolve levels)) ∧
    ∃ (ts : List Token) (last : Except ParseError Token),
      (Lexer.ofText t).items = ts.map .ok ++ [last] ∧
      (∀ tok ∈ ts, tok.kind ≠ .stop) ∧ Lexer.isLast last = true ∧
      ∀ levels,
        (∀ e d, parseText resolve levels t = .ok e d →
          last = .ok d.current ∧ d.reads = ts.length + 1 ∧
          (Lexer.ofText t).ask d.reads = ((Lexer.ofText t).items, d.lexer) ∧
          ∃ c, Cursor.start t = .ok c ∧ Reach c ts d) ∧
        ∀ err n, parseText resolve levels t = .fail err n →
          (0 < n ∧ n ≤ ts.length + 1 ∧
            ((∃ f, err.fault = .lexical f) → last = .error err ∧ n = ts.length + 1)) ∧
          ((Lexer.ofText t).ask n).1 = (Lexer.ofText t).items.take n := by
  obtain ⟨ts, last, hitems, htokens, hlast⟩ := Lexer.exists_items t
  have hlength := length_items hitems
  refine ⟨⟨freeBase resolve, unbounded_iff resolve,
      fun levels c => run_baseWithin (unbounded_freeBase resolve)⟩,
    stopsAt_sentence, ts, last, hitems, htokens, hlast,
    fun levels => ⟨fun e d => reads_of_ok hitems, fun err n h => ?_⟩⟩
  have hreads := reads_of_fail hitems h
  exact ⟨hreads, Lexer.answers_ask (by omega)⟩

end Formula
