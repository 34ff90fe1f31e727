import Formula.Proofs.Lexing.Spelling
import Formula.Proofs.Number.Reading
import Formula.Render

/-!
Texts that read as a tree wherever they stand.

A fragment is put together from smaller ones as the grammar says, with parentheses, signs, commas
and blanks in between. None of its tokens runs into the next one: a blank or a character that is a
token of its own stands between them. A fragment that is an expression parses (`Fragment.parse`).
-/

namespace Formula

open Grammar

variable {resolve : Text → Option Meaning} {c c' : Cat} {a e : Expr} {as es : List Expr}
  {o : Operator} {p k : ℕ} {b s t u : Text} {ts us : List Token}

/-- At every position the text has tokens that read as the trees. -/
def Fragment (resolve : Text → Option Meaning) (c : Cat) (t : Text) (es : List Expr) : Prop :=
  ∀ p, ∃ ts n, Spells p t ts ∧ Reads Eq resolve c ts es n

/-! ### Spelling -/

lemma breaks_of_symbolKind? {c : Char} {k : Token.Kind} (hc : symbolKind? c = some k) (t : Text) :
    Breaks (c :: t) := by
  obtain ⟨hchar, hpoint, -⟩ := not_isBlank_of_symbolKind? hc
  exact breaks_cons.2 ⟨hchar, hpoint⟩

lemma breaks_of_isBlank {c : Char} (hc : isBlank c) (t : Text) : Breaks (c :: t) := by
  refine breaks_cons.2 ⟨fun hword => not_isBlank_of_isWordChar hword hc, ?_⟩
  rintro rfl
  revert hc
  decide

lemma breaks_append (hb : ∀ c ∈ b, isBlank c) (ht : Breaks t) : Breaks (b ++ t) := by
  cases b with
  | nil => exact ht
  | cons c b => exact breaks_of_isBlank (hb c List.mem_cons_self) (b ++ t)

lemma Operator.symbolKind?_symbol (o : Operator) : symbolKind? o.symbol = some (.operator o) := by
  cases o <;> decide

lemma symbolKind?_comma : symbolKind? ',' = some .comma := rfl

lemma isBlank_space : ∀ c ∈ [' '], isBlank c := by
  intro c hc
  rw [List.mem_singleton.1 hc]
  decide

namespace Spells

lemma parens (h : Spells (p + byteLength ['(']) t ts) :
    ∃ l r : Token, l.kind = .leftParen ∧ r.kind = .rightParen ∧
      Spells p (Formula.parens t) (l :: (ts ++ [r])) := by
  have hclose : Spells (p + byteLength ['('] + byteLength t) [')'] [⟨.rightParen, [')'], _⟩] :=
    .symbol rfl (.nil (by simp))
  exact ⟨_, _, rfl, rfl, .symbol rfl (h.append hclose (breaks_of_symbolKind? rfl _))⟩

/-- A character that is a token comes between two texts, with blanks before it. -/
lemma between {c : Char} {k : Token.Kind} (hc : symbolKind? c = some k)
    (hb : ∀ d ∈ b, isBlank d) (h : Spells p t ts)
    (hu : Spells (p + byteLength t + byteLength b + byteLength [c]) u us) :
    ∃ tok : Token, tok.kind = k ∧ Spells p (t ++ (b ++ c :: u)) (ts ++ tok :: us) := by
  have hbreak : Breaks (b ++ c :: u) := breaks_append hb (breaks_of_symbolKind? hc u)
  exact ⟨_, rfl, h.append ((Spells.symbol hc hu).blanks hb) hbreak⟩

end Spells

/-- A word is one token. -/
lemma munch_word (h : isWord u) : munch u = (.ok .word, u) := by
  cases u with
  | nil => cases h
  | cons c u =>
    unfold isWord at h
    rw [Bool.and_eq_true, List.all_eq_true] at h
    obtain ⟨hc, hu⟩ := h
    have hpoint : c ≠ '.' := by
      rintro rfl
      revert hc
      decide
    have hstart : ¬startsNumber (c :: u) := by
      rw [startsNumber_cons hpoint]
      exact fun hdigit => not_isWordStart_of_isDigit hdigit hc
    have hrun : (c :: u).takeWhile isWordChar = c :: u := by
      rw [List.takeWhile_eq_self_iff]
      intro d hd
      rcases List.mem_cons.1 hd with rfl | hd
      · exact isWordChar_of_isWordStart hc
      · exact hu d hd
    rw [munch, if_neg hstart, if_pos hc, hrun]

/-! ### Putting fragments together -/

namespace Fragment

/-- Blanks before a fragment do not matter. -/
lemma blanks (hb : ∀ d ∈ b, isBlank d) (h : Fragment resolve c t es) :
    Fragment resolve c (b ++ t) es := by
  intro p
  obtain ⟨ts, n, hs, hr⟩ := h (p + byteLength b)
  exact ⟨ts, n, hs.blanks hb, hr⟩

/-- Nor do blanks after it. -/
lemma blanksAfter (hb : ∀ d ∈ b, isBlank d) (h : Fragment resolve c t es) :
    Fragment resolve c (t ++ b) es := by
  intro p
  obtain ⟨ts, n, hs, hr⟩ := h p
  have hbreak : Breaks b := by
    rw [← List.append_nil b]
    exact breaks_append hb breaks_nil
  have happend := hs.append (.nil hb) hbreak
  rw [List.append_nil] at happend
  exact ⟨ts, n, happend, hr⟩

lemma base (h : Fragment resolve .atom t [a]) : Fragment resolve .base t [a] := by
  intro p
  obtain ⟨ts, n, hs, hr⟩ := h p
  exact ⟨ts, _, hs, .unsigned hr⟩

lemma term (h : Fragment resolve .base t [a]) : Fragment resolve .term t [a] := by
  intro p
  obtain ⟨ts, n, hs, hr⟩ := h p
  exact ⟨ts, _, hs, .productOf hr⟩

lemma expr (h : Fragment resolve .term t [a]) : Fragment resolve .expr t [a] := by
  intro p
  obtain ⟨ts, n, hs, hr⟩ := h p
  exact ⟨ts, _, hs, .sumOf hr⟩

/-- A literal stands for its value. -/
lemma number {x : Float} (h : munch t = (.ok (.number x), t)) :
    Fragment resolve .atom t [.const x] :=
  fun _ => ⟨_, _, .single h nofun, .number rfl⟩

lemma var (hu : munch u = (.ok .word, u)) (hr : resolve u = some (.variable k)) :
    Fragment resolve .atom u [.var k] :=
  fun _ => ⟨_, _, .single hu nofun, .variable rfl hr⟩

/-- **Parentheses** make an atom of any expression. -/
lemma parens (h : Fragment resolve .expr t [a]) :
    Fragment resolve .atom (Formula.parens t) [a] := by
  intro p
  obtain ⟨ts, n, hs, hread⟩ := h (p + byteLength ['('])
  obtain ⟨l, r, hl, hr, hspells⟩ := hs.parens
  exact ⟨_, _, hspells, .group hl hread hr⟩

lemma minus (h : Fragment resolve .base t [a]) : Fragment resolve .base ('-' :: t) [.neg a] := by
  intro p
  obtain ⟨ts, n, hs, hr⟩ := h (p + byteLength ['-'])
  exact ⟨_, _, .symbol rfl hs, .minus rfl hr⟩

lemma plus (h : Fragment resolve .base t [a]) : Fragment resolve .base ('+' :: t) [a] := by
  intro p
  obtain ⟨ts, n, hs, hr⟩ := h (p + byteLength ['+'])
  exact ⟨_, _, .symbol rfl hs, .plus rfl hr⟩

/-- A character that is a token between two fragments, with blanks before it. -/
lemma exists_between {d : Char} {k : Token.Kind} (hd : symbolKind? d = some k)
    (hb : ∀ d ∈ b, isBlank d) (h : Fragment resolve c t as) (h' : Fragment resolve c' u es)
    (p : ℕ) : ∃ ts us tok m n, Spells p (t ++ (b ++ d :: u)) (ts ++ tok :: us) ∧
      tok.kind = k ∧ Reads Eq resolve c ts as m ∧ Reads Eq resolve c' us es n := by
  obtain ⟨ts, m, hs, hr⟩ := h p
  obtain ⟨us, n, hs', hr'⟩ := h' _
  obtain ⟨tok, htok, hspells⟩ := Spells.between hd hb hs hs'
  exact ⟨ts, us, tok, m, n, hspells, htok, hr, hr'⟩

lemma sum (ho : IsSum o) (hb : ∀ d ∈ b, isBlank d) (h : Fragment resolve .expr t [a])
    (h' : Fragment resolve .term u [e]) :
    Fragment resolve .expr (t ++ (b ++ o.symbol :: u)) [.binary o a e] := by
  intro p
  obtain ⟨ts, us, tok, m, n, hspells, htok, hr, hr'⟩ :=
    exists_between o.symbolKind?_symbol hb h h' p
  exact ⟨_, _, hspells, .sum hr htok ho hr'⟩

lemma product (ho : IsProduct o) (hb : ∀ d ∈ b, isBlank d) (h : Fragment resolve .term t [a])
    (h' : Fragment resolve .base u [e]) :
    Fragment resolve .term (t ++ (b ++ o.symbol :: u)) [.binary o a e] := by
  intro p
  obtain ⟨ts, us, tok, m, n, hspells, htok, hr, hr'⟩ :=
    exists_between o.symbolKind?_symbol hb h h' p
  exact ⟨_, _, hspells, .product hr htok ho hr'⟩

/-- What is raised to a power must be an atom. -/
lemma power (hb : ∀ d ∈ b, isBlank d) (h : Fragment resolve .atom t [a])
    (h' : Fragment resolve .base u [e]) :
    Fragment resolve .base (t ++ (b ++ Operator.pow.symbol :: u)) [.binary .pow a e] := by
  intro p
  obtain ⟨ts, us, tok, m, n, hspells, htok, hr, hr'⟩ :=
    exists_between Operator.pow.symbolKind?_symbol hb h h' p
  exact ⟨_, _, hspells, .power hr htok hr'⟩

/-- Operands that are bases may stand on both sides of every operator but a power. -/
lemma binary (ho : o ≠ .pow) (h : Fragment resolve .base t [a])
    (h' : Fragment resolve .base u [e]) :
    Fragment resolve .expr (t ++ ' ' :: o.symbol :: ' ' :: u) [.binary o a e] := by
  have h' := h'.blanks isBlank_space
  by_cases hsum : IsSum o
  · exact sum hsum isBlank_space h.term.expr h'.term
  · have hproduct : IsProduct o := by
      cases o <;> simp_all [IsSum, IsProduct]
    exact (product hproduct isBlank_space h.term h').expr

/-! ### Calls -/

lemma arg (h : Fragment resolve .expr t [a]) : Fragment resolve (.args 1) t [a] := by
  intro p
  obtain ⟨ts, n, hs, hr⟩ := h p
  exact ⟨ts, _, hs, .arg hr⟩

lemma moreArgs (hb : ∀ d ∈ b, isBlank d) (h : Fragment resolve (.args (k + 1)) t as)
    (h' : Fragment resolve .expr u [e]) :
    Fragment resolve (.args (k + 2)) (t ++ (b ++ ',' :: u)) (as ++ [e]) := by
  intro p
  obtain ⟨ts, us, tok, m, n, hspells, htok, hr, hr'⟩ := exists_between symbolKind?_comma hb h h' p
  exact ⟨_, _, hspells, .moreArgs hr htok hr'⟩

/-- Texts behind a comma each. -/
def commaTail (ts : List Text) : Text := ts.flatMap fun t => ',' :: ' ' :: t

lemma commaList_cons (t : Text) (ts : List Text) : commaList (t :: ts) = t ++ commaTail ts := by
  induction ts generalizing t with
  | nil => exact (List.append_nil t).symm
  | cons u ts ih =>
    rw [commaList, ih]
    · rfl
    · exact List.cons_ne_nil u ts

lemma exists_args {texts : List Text} (h : Fragment resolve (.args (k + 1)) t as)
    (hrest : List.Forall₂ (fun u e => Fragment resolve .expr u [e]) texts es) :
    ∃ j, Fragment resolve (.args (j + 1)) (t ++ commaTail texts) (as ++ es) := by
  induction hrest generalizing t as k with
  | nil => exact ⟨k, by simpa [commaTail] using h⟩
  | cons hu _ ih =>
    obtain ⟨j, hj⟩ := ih (h.moreArgs (List.forall_mem_nil _) (hu.blanks isBlank_space))
    refine ⟨j, ?_⟩
    simpa [commaTail] using hj

lemma noArgs (hb : ∀ d ∈ b, isBlank d) : Fragment resolve (.args 0) b [] :=
  fun _ => ⟨[], 0, .nil hb, .noArgs⟩

/-- Arguments, with commas between them. -/
lemma args {texts : List Text}
    (h : List.Forall₂ (fun u e => Fragment resolve .expr u [e]) texts es) :
    Fragment resolve (.args es.length) (commaList texts) es := by
  cases h with
  | nil => exact noArgs (List.forall_mem_nil _)
  | @cons t e texts es ht hrest =>
    obtain ⟨j, hj⟩ := exists_args ht.arg hrest
    rw [commaList_cons]
    intro p
    obtain ⟨ts, n, hs, hr⟩ := hj p
    have hlength : (e :: es).length = j + 1 := hr.length_eq
    rw [hlength]
    exact ⟨ts, n, hs, hr⟩

/-- A function without arguments needs no parentheses. -/
lemma bare {f : Callee} (hu : munch u = (.ok .word, u)) (hf : resolve u = some (.function f 0)) :
    Fragment resolve .atom u [.call f []] :=
  fun _ => ⟨_, _, .single hu nofun, .bare rfl hf⟩

lemma call {f : Callee} (hu : munch u = (.ok .word, u)) (hb : ∀ d ∈ b, isBlank d)
    (hf : resolve u = some (.function f k)) (h : Fragment resolve (.args k) t as) :
    Fragment resolve .atom (u ++ (b ++ Formula.parens t)) [.call f as] := by
  intro p
  obtain ⟨ts, n, hs, hread⟩ := h (p + byteLength u + byteLength b + byteLength ['('])
  obtain ⟨l, r, hl, hr, hspells⟩ := hs.parens
  have hword : Spells p u [⟨.word, u, p⟩] := .single hu nofun
  have hbreak : Breaks (b ++ Formula.parens t) :=
    breaks_append hb (breaks_of_symbolKind? rfl _)
  exact ⟨_, _, hword.append (hspells.blanks hb) hbreak, .call rfl hf hl hread hr rfl⟩

/-! ### Parsing -/

/-- **A fragment parses** if the bounds admit it. -/
theorem parse (h : Fragment resolve .expr t [e]) : ∃ levels, ∀ o : Options,
    byteLength t ≤ o.maxLength → levels ≤ o.maxDepth → Formula.parse resolve o t = .ok e := by
  obtain ⟨ts, n, hs, hr⟩ := h 0
  exact ⟨n, fun o hlen => (parse_of_reads hlen (words_iff_spells.2 hs) hr).1⟩

end Fragment

end Formula
