import Formula.Proofs.Parser.Completeness
import Formula.Symbols

/-!
The parser accepts the sentences of the grammar, and no other text.

Main statement: a text has a tree if its tokens are a sentence of the documented grammar, and
the tree is the one that the grammar without a choice gives it.
-/

namespace Formula

open Formula.Grammar Formula.Parser

/-- The text has the tokens `ts`, and then its end. -/
def Words (t : Text) (ts : List Token) : Prop :=
  ∃ last, tokenize t = .ok (ts ++ [last]) ∧ last.kind = .stop

namespace Grammar

/-- An expression of the documented grammar, with as many arguments in every call as the
function takes. -/
def Sentence (resolve : Text → Option Meaning) (ts : List Token) : Prop :=
  Derives Eq resolve .expr ts

/-- What the grammar without a choice reads. -/
def ReadsAs (resolve : Text → Option Meaning) (ts : List Token) (e : Expr) : Prop :=
  ∃ n, Reads Eq resolve .expr ts [e] n

lemma sentence_iff {resolve : Text → Option Meaning} {ts : List Token} :
    Sentence resolve ts ↔ ∃ e, ReadsAs resolve ts e :=
  derives_expr_iff

end Grammar

variable {resolve : Text → Option Meaning} {o : Options} {t : Text} {ts : List Token}
  {e e' : Expr} {n : ℕ}

lemma words_iff : Words t ts ↔
    ∃ c d, Cursor.start t = .ok c ∧ Cursor.Reach c ts d ∧ d.current.kind = .stop := by
  simp only [Words, tokenize_eq_ok_iff]
  constructor
  · rintro ⟨last, ⟨c, d, hs, hr, rfl, hk⟩, -⟩
    exact ⟨c, d, hs, hr, hk⟩
  · rintro ⟨c, d, hs, hr, hk⟩
    exact ⟨d.current, ⟨c, d, hs, hr, rfl, hk⟩, hk⟩

/-- A text that parses is within its bounds and reads as its tree. -/
lemma reads_of_parse (h : parse resolve o t = .ok e) :
    byteLength t ≤ o.maxLength ∧
      ∃ ts n, Words t ts ∧ Reads Eq resolve .expr ts [e] n ∧ n ≤ o.maxDepth := by
  unfold parse at h
  split at h
  · cases h
  · rename_i hlen
    refine ⟨Nat.le_of_not_lt hlen, ?_⟩
    unfold parseText at h
    rcases hs : Cursor.start t with err | c
    · simp [hs] at h
    · rw [hs] at h
      simp only at h
      rcases hrun : (sentence resolve o.maxDepth).run c with ⟨a, d⟩ | ⟨err, reads⟩
      · rw [hrun] at h
        cases h
        obtain ⟨hstop, ts, n, hr, hread, hn⟩ := sound_sentence hrun
        exact ⟨ts, n, words_iff.2 ⟨c, d, hs, hr, hstop⟩, hread, hn⟩
      · rw [hrun] at h
        cases h

/-- What reads as a tree parses to it, or needs more levels than there are. -/
lemma parse_of_reads (hlen : byteLength t ≤ o.maxLength) (hw : Words t ts)
    (h : Reads Eq resolve .expr ts [e] n) :
    (n ≤ o.maxDepth → parse resolve o t = .ok e) ∧
      (o.maxDepth < n → ∃ pos, parse resolve o t = .error ⟨pos, .tooDeep o.maxDepth⟩) := by
  obtain ⟨c, d, hs, hr, hstop⟩ := words_iff.1 hw
  have hsettle : Settles o.maxDepth o.maxDepth n e d ((sentence resolve o.maxDepth).run c) :=
    complete_sentence (Cursor.items_of_start hs).1 h hr hstop
  unfold parse parseText
  rw [if_neg (Nat.not_lt.2 hlen), hs]
  simp only
  constructor
  · intro hn
    rw [hsettle.1 hn]
  · intro hn
    obtain ⟨pos, reads, hfail⟩ := hsettle.2 hn
    exact ⟨pos, by rw [hfail]⟩

/-- The tokens of a text read as one tree at most. -/
lemma reads_unique (hw : Words t ts) (h : ReadsAs resolve ts e) (h' : ReadsAs resolve ts e') :
    e = e' := by
  obtain ⟨n, h⟩ := h
  obtain ⟨n', h'⟩ := h'
  -- bounds that neither reading meets
  have hlen : byteLength t ≤ (Options.mk true (max n n') (byteLength t)).maxLength := Nat.le_refl _
  have hp := (parse_of_reads hlen hw h).1 (Nat.le_max_left _ _)
  have hp' := (parse_of_reads hlen hw h').1 (Nat.le_max_right _ _)
  exact Except.ok.inj (hp.symm.trans hp')

section Table

variable {σ : Type}

/-- **Parsing accepts the sentences of the grammar.** Within the bounds on length and nesting a
text has a tree if and only if its tokens are a sentence whose names the table resolves. The
tree is what the tokens read as, and they read as one tree only. -/
theorem parse_iff_sentence (table : SymbolTable σ) (o : Options) (t : Text)
    (hlength : byteLength t ≤ o.maxLength)
    (hdepth : ∀ pos limit, parse table.resolve o t ≠ .error ⟨pos, .tooDeep limit⟩) :
    ((∃ e, parse table.resolve o t = .ok e) ↔
      ∃ ts, Words t ts ∧ Sentence table.resolve ts) ∧
    (∀ e, parse table.resolve o t = .ok e ↔
      ∃ ts, Words t ts ∧ ReadsAs table.resolve ts e) ∧
    (∀ ts e e', Words t ts → ReadsAs table.resolve ts e → ReadsAs table.resolve ts e' →
      e = e') := by
  have hread (e : Expr) : parse table.resolve o t = .ok e ↔
      ∃ ts, Words t ts ∧ ReadsAs table.resolve ts e := by
    constructor
    · intro h
      obtain ⟨-, ts, n, hw, hr, -⟩ := reads_of_parse h
      exact ⟨ts, hw, n, hr⟩
    · rintro ⟨ts, hw, n, hr⟩
      have h := parse_of_reads hlength hw hr
      rcases Nat.lt_or_ge o.maxDepth n with hn | hn
      · obtain ⟨pos, hdeep⟩ := h.2 hn
        exact absurd hdeep (hdepth pos _)
      · exact h.1 hn
  refine ⟨?_, hread, fun ts e e' hw h h' => reads_unique hw h h'⟩
  simp only [hread, sentence_iff]
  exact ⟨fun ⟨e, ts, hw, h⟩ => ⟨ts, hw, e, h⟩, fun ⟨ts, hw, e, h⟩ => ⟨e, ts, hw, h⟩⟩

end Table

def xName : Name := ⟨['x'], rfl, by decide⟩

/-- A variable `x` and a function `f` of two arguments. -/
def xfTable : SymbolTable Unit :=
  [⟨xName, .variable 0 0⟩,
    ⟨⟨['f'], rfl, by decide⟩, .function ⟨2, false, fun _ => .done (.ok 0), by decide⟩⟩]

/-- The text `-x^-2*f(x,(+x))`. -/
def signedPower : Text :=
  ['-', 'x', '^', '-', '2', '*', 'f', '(', 'x', ',', '(', '+', 'x', ')', ')']

theorem signedPower_sentence :
    byteLength signedPower ≤ 15 ∧
      (∀ pos limit, parse xfTable.resolve ⟨true, 4, 15⟩ signedPower ≠
        .error ⟨pos, .tooDeep limit⟩) ∧
      ∃ ts, Words signedPower ts ∧ Sentence xfTable.resolve ts := by
  have hlength : byteLength signedPower ≤ 15 := by decide
  have hok : (parse xfTable.resolve ⟨true, 4, 15⟩ signedPower).isOk := by decide +kernel
  have hdepth (pos limit : ℕ) : parse xfTable.resolve ⟨true, 4, 15⟩ signedPower ≠
      .error ⟨pos, .tooDeep limit⟩ := by
    intro h
    rw [h] at hok
    cases hok
  refine ⟨hlength, hdepth, (parse_iff_sentence xfTable _ signedPower hlength hdepth).1.1 ?_⟩
  rcases h : parse xfTable.resolve ⟨true, 4, 15⟩ signedPower with err | e
  · rw [h] at hok
    cases hok
  · exact ⟨e, rfl⟩

end Formula
