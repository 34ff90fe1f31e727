import Formula.Proofs.Lexing.LongestMatch
import Formula.Proofs.Parser.Fragments
import Formula.Proofs.Symbols.Resolution
import Mathlib.Data.List.DropRight

/-!
Names of bindings are words of texts.

What a name is made of is said twice: a binding trims its name and looks at the characters, the
lexer skips blanks and reads the longest word. Both agree (`isName_trim_iff`), so a text in which a
bound name stands alone reads as what the name is bound to (`names_are_words`).
-/

namespace Formula

open Formula.Cursor (Reach)
open Formula.Grammar Formula.Parser

variable {σ : Type} {b b' raw t w : Text} {tok : Token}

/-! ### Blanks around a word -/

lemma forall_isWordChar (h : isWord w) : ∀ c ∈ w, isWordChar c := by
  cases w with
  | nil => exact List.forall_mem_nil _
  | cons c w =>
    unfold isWord at h
    rw [Bool.and_eq_true, List.all_eq_true] at h
    exact List.forall_mem_cons.2 ⟨isWordChar_of_isWordStart h.1, h.2⟩

lemma dropWhile_blanks (hb : ∀ c ∈ b, isBlank c) (ht : ∀ c ∈ t.head?, ¬isBlank c) :
    (b ++ t).dropWhile isBlank = t := by
  rw [List.dropWhile_append_of_pos hb]
  cases t with
  | nil => rfl
  | cons c t => exact List.dropWhile_cons_of_neg (ht c rfl)

/-- What is trimmed away are blanks. -/
lemma exists_trim (t : Text) :
    ∃ b b', (∀ c ∈ b, isBlank c) ∧ (∀ c ∈ b', isBlank c) ∧ t = b ++ (trim t ++ b') := by
  refine ⟨t.takeWhile isBlank, (t.dropWhile isBlank).rtakeWhile isBlank,
    fun c => List.mem_takeWhile_imp, fun c => List.mem_rtakeWhile_imp, ?_⟩
  have hright : trim t ++ (t.dropWhile isBlank).rtakeWhile isBlank = t.dropWhile isBlank :=
    List.rdropWhile_append_rtakeWhile
  calc t = t.takeWhile isBlank ++ t.dropWhile isBlank := List.takeWhile_append_dropWhile.symm
    _ = t.takeWhile isBlank ++ (trim t ++ (t.dropWhile isBlank).rtakeWhile isBlank) := by
      rw [hright]

/-- A word is what is left when the blanks around it are trimmed away. -/
lemma trim_of_isWord (hb : ∀ c ∈ b, isBlank c) (hw : isWord w) (hb' : ∀ c ∈ b', isBlank c) :
    trim (b ++ (w ++ b')) = w := by
  have hchar : ∀ c ∈ w, ¬isBlank c :=
    fun c hc => not_isBlank_of_isWordChar (forall_isWordChar hw c hc)
  have hleft : (b ++ (w ++ b')).dropWhile isBlank = w ++ b' := by
    refine dropWhile_blanks hb fun c hc => ?_
    cases w with
    | nil => cases hw
    | cons d w => exact hchar c (List.mem_of_mem_head? hc)
  have hright : (b'.reverse ++ w.reverse).dropWhile isBlank = w.reverse :=
    dropWhile_blanks (fun c hc => hb' c (List.mem_reverse.1 hc))
      fun c hc => hchar c (List.mem_reverse.1 (List.mem_of_mem_head? hc))
  calc trim (b ++ (w ++ b')) = ((w ++ b').reverse.dropWhile isBlank).reverse := by
        rw [trim, hleft]
    _ = w.reverse.reverse := by rw [List.reverse_append, hright]
    _ = w := List.reverse_reverse w

/-- A word with blanks around it is one token. -/
lemma spells_of_isWord (hb : ∀ c ∈ b, isBlank c) (hw : isWord w) (hb' : ∀ c ∈ b', isBlank c) :
    Spells 0 (b ++ (w ++ b')) [⟨.word, w, byteLength b⟩] := by
  have hbreak : Breaks b' := by
    have := breaks_append hb' breaks_nil
    rwa [List.append_nil] at this
  have hword : Spells (0 + byteLength b) (w ++ b') ([⟨.word, w, 0 + byteLength b⟩] ++ []) :=
    .append (.single (munch_word hw) nofun) (.nil hb') hbreak
  rw [Nat.zero_add] at hword
  exact .blanks hb (Nat.zero_add _ ▸ hword)

lemma isWord_of_munch (h : munch (w ++ t) = (.ok .word, w)) : isWord w := by
  cases (munches_iff_longest.1 ⟨h, nofun⟩).1 with
  | word hc hcs => simpa [isWord, hc] using hcs
  | symbol hc => cases hc

/-- A text with one token, a word, is this word with blanks around it. -/
lemma trim_of_spells (h : Spells 0 t [tok]) (hk : tok.kind = .word) :
    isWord tok.text ∧ trim t = tok.text := by
  cases h with
  | @cons _ b w b' k _ hb hw _ h =>
    obtain rfl : k = .word := hk
    have hword := isWord_of_munch hw
    exact ⟨hword, trim_of_isWord hb hword h.blank_of_nil⟩

/-- What is trimmed to a word has the word as its only token. -/
lemma tokenize_of_trim (h : isWord (trim t)) :
    ∃ p, tokenize t = .ok [⟨.word, trim t, p⟩, ⟨.stop, [], byteLength t⟩] := by
  obtain ⟨b, b', hb, hb', ht⟩ := exists_trim t
  have hspells := spells_of_isWord hb h hb'
  rw [← ht] at hspells
  exact ⟨_, tokenize_of_spells hspells⟩

/-- A text that can be a name is one word, and not too long. -/
lemma isName_trim_iff : IsName (trim raw) ↔
    ∃ word last, tokenize raw = .ok [word, last] ∧ word.kind = .word ∧ last.kind = .stop ∧
      byteLength word.text ≤ maxNameLength := by
  constructor
  · rintro ⟨hword, hlength⟩
    obtain ⟨p, htokens⟩ := tokenize_of_trim hword
    exact ⟨_, _, htokens, rfl, rfl, hlength⟩
  · rintro ⟨word, last, htokens, hword, hlast, hlength⟩
    have hspells : Spells 0 raw [word] := words_iff_spells.1 ⟨last, htokens, hlast⟩
    obtain ⟨hisword, htrim⟩ := trim_of_spells hspells hword
    rw [htrim]
    exact ⟨hisword, hlength⟩

/-! ### A name alone in a text -/

section Alone

variable {α β : Type} {resolve : Text → Option Meaning} {base : Parser Expr} {o : Options}
  {callee : Callee} {e : Expr} {arity levels reads : ℕ} {err : ParseError} {c d : Cursor}

lemma run_bind_of_fail {p : Parser α} (h : p.run c = .fail err reads) (f : α → Parser β) :
    (p >>= f).run c = .fail err reads := by
  rw [run_bind, h]

lemma run_baseWithin_of_fail
    (h : (signed resolve (baseWithin resolve levels)).run { c with depth := c.depth + 1 } =
      .fail err reads) : (baseWithin resolve (levels + 1)).run c = .fail err reads := by
  change (nested (signed resolve (baseWithin resolve levels))).run c = _
  simp only [nested, h]

/-- The parser of a sentence fails where that of its first operand does. -/
lemma run_sentence_of_fail (h : (baseWithin resolve levels).run c = .fail err reads) :
    (sentence resolve levels).run c = .fail err reads :=
  have hfactor : (factor (baseWithin resolve levels)).run c = .fail err reads :=
    run_bind_of_fail h _
  have hterm : (term (baseWithin resolve levels)).run c = .fail err reads :=
    run_bind_of_fail hfactor _
  have hexpr : (expr (baseWithin resolve levels)).run c = .fail err reads :=
    run_bind_of_fail hterm _
  run_bind_of_fail hexpr _

/-- A word is an operand without a sign. -/
lemma run_signed_of_fail (hk : c.current.kind = .word)
    (h : (named resolve base).run c = .fail err reads) :
    (signed resolve base).run c = .fail err reads := by
  have hatom : (atom resolve base).run c = .fail err reads := by
    rw [atom, run_bind, run_current]
    simp only [hk]
    exact h
  have hpower : (power resolve base).run c = .fail err reads := run_bind_of_fail hatom _
  rw [signed, run_bind, run_current]
  simp only [hk]
  exact hpower

/-- A function that takes arguments wants them. -/
lemma run_named_function (hnext : next.run c = .ok tok d)
    (hf : resolve tok.text = some (.function callee arity)) (harity : arity ≠ 0)
    (hd : d.current.kind = .stop) :
    (named resolve base).run c =
      .fail ⟨d.current.pos, .grammar (.missing (.arguments tok.text) d.current)⟩ d.reads := by
  rw [named, run_bind, hnext]
  simp [hf, hd, harity, missing, fail]

/-- The name of a function that takes arguments does not stand alone. -/
lemma parse_function_alone (ht : Spells 0 t [tok]) (hk : tok.kind = .word)
    (hf : resolve tok.text = some (.function callee arity)) (harity : arity ≠ 0)
    (hlength : byteLength t ≤ o.maxLength) (hdepth : 1 ≤ o.maxDepth) :
    parse resolve o t = .error ⟨byteLength t,
      .grammar (.missing (.arguments tok.text) ⟨.stop, [], byteLength t⟩)⟩ := by
  obtain ⟨c, d, hs, hr, hd, hstop⟩ := tokenize_eq_ok_iff.1 (tokenize_of_spells ht)
  obtain ⟨levels, hlevels⟩ : ∃ levels, o.maxDepth = levels + 1 := ⟨o.maxDepth - 1, by omega⟩
  -- the operand is read one level deeper
  obtain ⟨d', hnext, hd'⟩ : ∃ d', next.run { c with depth := c.depth + 1 } = .ok tok d' ∧
      d'.current = d.current := by
    cases hr.withDepth (c.depth + 1) with
    | head _ hn hrest => exact ⟨_, hn, by rw [hrest.eq_of_nil]⟩
  have htok : c.current = tok := by
    cases hr with
    | head => rfl
  have hnamed : (named resolve (baseWithin resolve levels)).run { c with depth := c.depth + 1 } =
      .fail ⟨d'.current.pos, .grammar (.missing (.arguments tok.text) d'.current)⟩ d'.reads :=
    run_named_function hnext hf harity (by rw [hd', hd])
  have hsigned := run_signed_of_fail (by rw [htok, hk]) hnamed
  have hsentence := run_sentence_of_fail (run_baseWithin_of_fail hsigned)
  unfold parse parseText
  rw [if_neg (Nat.not_lt.2 hlength), hs, hlevels]
  simp only [hsentence, hd', hd]

end Alone

/-- What a text parses to in which the name of a symbol of this kind stands alone, if the symbol has
the place `i` in its table and the text ends at `stop`. -/
def Symbol.Kind.alone (name : Text) (i stop : ℕ) : Symbol.Kind σ → Except ParseError Expr
  | .variable _ slot => .ok (.var slot)
  | .function f =>
    if f.arity = 0 then .ok (.call (.bound i) [])
    else .error ⟨stop, .grammar (.missing (.arguments name) ⟨.stop, [], stop⟩)⟩

namespace SymbolTable

variable {bs : List (Binding σ)} {table : SymbolTable σ} {r : Referent σ}

/-- One binding makes a table if its name can be one. -/
lemma ofBindings_single : (∃ table, ofBindings [⟨raw, r⟩] = .ok table) ↔ IsName (trim raw) := by
  rw [(ofBindings_iff _).1]
  simp [Accepts, bindingNames, maxBindings]

lemma eq_single (h : ofBindings [⟨raw, r⟩] = .ok table) :
    ∃ s : Symbol σ, table = [s] ∧ s.name.text = trim raw ∧ s.referent = r := by
  obtain ⟨s, rfl, hs⟩ := List.map_eq_singleton_iff.1 (List.perm_singleton.1 (perm_named h))
  obtain ⟨htext, href⟩ := Prod.mk.inj hs
  exact ⟨s, rfl, htext, href⟩

/-- No name is as long. -/
lemma resolve_of_long (hlong : maxNameLength < byteLength t) :
    table.resolve t = none := by
  have hindex : table.indexOf? t = none := by
    refine List.findIdx?_eq_none_iff.2 fun s _ => decide_eq_false ?_
    rintro rfl
    exact absurd s.name.length_le (Nat.not_le.2 hlong)
  have hbuiltin : Builtin.all.find? (·.name = t) = none := by
    refine List.find?_eq_none.2 fun b _ => ?_
    rw [decide_eq_true_eq]
    rintro rfl
    revert hlong
    cases b <;> decide
  rw [resolve_of_indexOf?_none hindex, hbuiltin, Option.map_none]

/-- Where a name stands alone the text parses to what the name is bound to. -/
theorem parse_alone (h : ofBindings bs = .ok table) {i : ℕ} {s : Symbol σ}
    (hs : table[i]? = some s) {o : Options} (hb : ∀ c ∈ b, isBlank c) (hb' : ∀ c ∈ b', isBlank c)
    (hlength : byteLength (b ++ (s.name.text ++ b')) ≤ o.maxLength) (hdepth : 1 ≤ o.maxDepth) :
    parse table.resolve o (b ++ (s.name.text ++ b')) =
      s.kind.alone s.name.text i (byteLength (b ++ (s.name.text ++ b'))) := by
  have hspells := spells_of_isWord hb s.name.isWord_text hb'
  have hresolve := resolve_of_getElem? h hs
  have hatom {e : Expr} (hread : Reads Eq table.resolve .atom
      [⟨.word, s.name.text, byteLength b⟩] [e] 0) :
      parse table.resolve o (b ++ (s.name.text ++ b')) = .ok e :=
    (parse_of_reads hlength (words_iff_spells.2 hspells)
      (.sumOf (.productOf (.unsigned hread)))).1 hdepth
  obtain ⟨name, ⟨v, slot⟩ | f⟩ := s
  · exact hatom (.variable rfl hresolve)
  · by_cases harity : f.arity = 0
    · rw [Symbol.Kind.alone, if_pos harity]
      refine hatom (.bare rfl ?_)
      rw [← harity]
      exact hresolve
    · rw [Symbol.Kind.alone, if_neg harity]
      exact parse_function_alone hspells rfl hresolve harity hlength hdepth

/-- **Names of bindings are words of texts.** A text is accepted as the name of a single binding if
and only if it is one word, with nothing but blanks around it, and the word is not too long; the
name is the word. Every name of a table that bindings make, alone in a text with blanks around it,
parses to what it is bound to, and if that is a function with arguments to the error that there are
none. A longer word never stands for anything. Tables with an index accept the same names and find
the same. -/
theorem names_are_words (C : Containers) (hC : C.Hold) :
    (∀ (raw : Text) (r : Referent σ),
      ((∃ table, ofBindings [⟨raw, r⟩] = .ok table) ↔
        ∃ word last, tokenize raw = .ok [word, last] ∧ word.kind = .word ∧ last.kind = .stop ∧
          byteLength word.text ≤ maxNameLength) ∧
      ((∃ table, C.ofBindings [⟨raw, r⟩] = .ok table) ↔
        ∃ table, ofBindings [⟨raw, r⟩] = .ok table) ∧
      ∀ table, ofBindings [⟨raw, r⟩] = .ok table → ∀ word last, tokenize raw = .ok [word, last] →
        ∃ s : Symbol σ, table = [s] ∧ s.name.text = word.text ∧ s.referent = r) ∧
    ∀ (bs : List (Binding σ)) table, ofBindings bs = .ok table →
      (∃ T, C.ofBindings bs = .ok T ∧ ∀ t, C.resolve T t = table.resolve t) ∧
      (∀ t, maxNameLength < byteLength t → table.resolve t = none) ∧
      ∀ (i : ℕ) s, table[i]? = some s → ∀ o b b', (∀ c ∈ b, isBlank c) → (∀ c ∈ b', isBlank c) →
        byteLength (b ++ (s.name.text ++ b')) ≤ o.maxLength → 1 ≤ o.maxDepth →
        parse table.resolve o (b ++ (s.name.text ++ b')) =
          s.kind.alone s.name.text i (byteLength (b ++ (s.name.text ++ b'))) := by
  refine ⟨fun raw r =>
      ⟨ofBindings_single.trans isName_trim_iff, ?_, fun table h word last hw => ?_⟩,
    fun bs table h => ⟨?_, fun t => resolve_of_long, fun i s hs o b b' => parse_alone h hs⟩⟩
  · exact (hC.endsAlike_ofBindings _).ok_iff
  · obtain ⟨s, rfl, htext, href⟩ := eq_single h
    obtain ⟨p, htokens⟩ := tokenize_of_trim (ofBindings_single.1 ⟨_, h⟩).1
    cases htokens.symm.trans hw
    exact ⟨s, rfl, htext, href⟩
  · obtain ⟨T, hT, -, -, hresolve⟩ := exists_indexed hC h
    exact ⟨T, hT, hresolve⟩

/-- The name of a variable, with blanks around it, and that of a function with an argument. -/
theorem names_are_words_mixed : Containers.lists.Hold ∧
    ofBindings mixedBindings = .ok mixedTable ∧
    (∀ c ∈ [' '], isBlank c) ∧ (∀ c ∈ ['\t', ' '], isBlank c) ∧
    parse mixedTable.resolve ⟨true, 1, 6⟩ [' ', 'c', 'o', 's', '\t', ' '] = .ok (.var 0) ∧
    parse mixedTable.resolve ⟨true, 1, 6⟩ [' ', 's', 'e', 't', '\t', ' '] =
      .error ⟨6, .grammar (.missing (.arguments ['s', 'e', 't']) ⟨.stop, [], 6⟩)⟩ := by
  obtain ⟨-, htables⟩ := names_are_words (σ := Unit) Containers.lists Containers.lists_hold
  obtain ⟨-, -, halone⟩ := htables mixedBindings mixedTable ofBindings_mixed
  have hb : ∀ c ∈ [' '], isBlank c := isBlank_space
  have hb' : ∀ c ∈ ['\t', ' '], isBlank c := List.all_eq_true.1 rfl
  refine ⟨Containers.lists_hold, ofBindings_mixed, hb, hb', ?_, ?_⟩
  · exact halone 1 _ rfl ⟨true, 1, 6⟩ _ _ hb hb' (by decide) (by decide)
  · exact halone 2 _ rfl ⟨true, 1, 6⟩ _ _ hb hb' (by decide) (by decide)

end SymbolTable

end Formula
