import Formula.Proofs.Lexing.Munch
import Formula.Proofs.Parser.Sentence

/-!
Texts and how they are spelled.

`Spells` says from the outside what tokens a text has: blanks, a token, and so on up to blanks at
the end. A text has the tokens that spell it (`words_iff_spells`), and texts that are spelled can
be put one behind the other if the second one breaks off the last token of the first.
-/

namespace Formula

variable {p q : ℕ} {b r t u : Text} {c : Char} {k : Token.Kind} {ts rs : List Token}

/-- The text has the tokens `ts` and no others; its first character is at position `p`. -/
inductive Spells : ℕ → Text → List Token → Prop
  | nil {p : ℕ} {b : Text} : (∀ c ∈ b, isBlank c) → Spells p b []
  | cons {p : ℕ} {b u t : Text} {k : Token.Kind} {ts : List Token} : (∀ c ∈ b, isBlank c) →
      munch (u ++ t) = (.ok k, u) → k ≠ .stop → Spells (p + byteLength b + byteLength u) t ts →
      Spells p (b ++ (u ++ t)) (⟨k, u, p + byteLength b⟩ :: ts)

/-! ### Tokenizing -/

/-- A token does not begin with a blank. -/
lemma not_isBlank_of_munch (h : (munch (c :: t)).1 = .ok k) : ¬isBlank c := by
  rw [munch] at h
  by_cases hstart : startsNumber (c :: t)
  · by_cases hc : c = '.'
    · subst hc
      decide
    · rw [startsNumber_cons hc] at hstart
      exact not_isBlank_of_isWordChar (isWordChar_of_isDigit hstart)
  · rw [if_neg hstart] at h
    by_cases hword : isWordStart c
    · exact not_isBlank_of_isWordChar (isWordChar_of_isWordStart hword)
    · rw [if_neg hword] at h
      split at h
      · rename_i hkind
        exact (not_isBlank_of_symbolKind? hkind).2.2
      · cases h

namespace Lexer

variable {l : Lexer}

lemma skipBlanks_eq (hb : ∀ c ∈ b, isBlank c) (ht : ∀ c ∈ t.head?, ¬isBlank c)
    (hrest : l.rest = b ++ t) :
    l.skipBlanks.rest = t ∧ l.skipBlanks.pos = l.pos + byteLength b := by
  have htake : t.takeWhile isBlank = [] := by
    cases t with
    | nil => rfl
    | cons c t => exact List.takeWhile_cons_of_neg (ht c rfl)
  have hrun : l.rest.takeWhile isBlank = b := by
    rw [hrest, List.takeWhile_append_of_pos hb, htake, List.append_nil]
  unfold skipBlanks advance
  simp only [hrun]
  rw [hrest, List.drop_left, List.take_left]
  exact ⟨rfl, rfl⟩

lemma exists_blanks (l : Lexer) : ∃ b, (∀ c ∈ b, isBlank c) ∧ l.rest = b ++ l.skipBlanks.rest ∧
    l.skipBlanks.pos = l.pos + byteLength b := by
  have hb : ∀ c ∈ l.rest.takeWhile isBlank, isBlank c := fun c => List.mem_takeWhile_imp
  have hrest : l.rest = l.rest.takeWhile isBlank ++ l.rest.dropWhile isBlank :=
    List.takeWhile_append_dropWhile.symm
  have hhead : ∀ c ∈ (l.rest.dropWhile isBlank).head?, ¬isBlank c := by
    intro c hc
    have := List.head?_dropWhile_not isBlank l.rest
    rw [hc] at this
    simpa using this
  obtain ⟨hskip, hpos⟩ := skipBlanks_eq hb hhead hrest
  exact ⟨_, hb, hskip ▸ hrest, hpos⟩

/-- The token after the blanks. -/
lemma next_eq_ok (hb : ∀ c ∈ b, isBlank c) (hu : munch (u ++ t) = (.ok k, u)) (hk : k ≠ .stop)
    (hrest : l.rest = b ++ (u ++ t)) :
    ∃ l', l.next = (.ok ⟨k, u, l.pos + byteLength b⟩, l') ∧ l'.rest = t ∧
      l'.pos = l.pos + byteLength b + byteLength u := by
  have hne : u ≠ [] := by
    have := munch_ne_nil (congrArg Prod.fst hu) hk
    rwa [hu] at this
  obtain ⟨c, cs, rfl⟩ := List.exists_cons_of_ne_nil hne
  have hhead : ∀ d ∈ (c :: cs ++ t).head?, ¬isBlank d := by
    rintro d ⟨⟩
    exact not_isBlank_of_munch (congrArg Prod.fst hu)
  obtain ⟨hrest', hpos'⟩ := skipBlanks_eq hb hhead hrest
  refine ⟨l.skipBlanks.advance (c :: cs).length, ?_, ?_, ?_⟩
  · unfold next read
    rw [hrest', hu]
    simp only
    rw [hpos']
  · rw [rest_advance, hrest', List.drop_left]
  · unfold advance
    simp only
    rw [hrest', hpos', List.take_left]

lemma next_eq_stop (hb : ∀ c ∈ l.rest, isBlank c) :
    l.next = (.ok ⟨.stop, [], l.skipBlanks.pos⟩, l.skipBlanks) := by
  have hrest : l.skipBlanks.rest = [] := by
    rw [rest_skipBlanks]
    exact List.dropWhile_eq_nil_iff.2 hb
  unfold next read
  rw [hrest]
  rcases h : l.skipBlanks with ⟨rest, pos, finished⟩
  rw [h] at hrest
  cases hrest
  rfl

/-- What spells the text are its items, with the end behind them. -/
lemma items_of_spells (h : Spells p t ts) (hrest : l.rest = t) (hpos : l.pos = p) :
    l.items = (ts ++ [⟨.stop, [], p + byteLength t⟩] : List Token).map .ok := by
  induction h generalizing l with
  | @nil p b hb =>
    have hskip := (skipBlanks_eq hb (t := []) (by simp) (by rw [hrest, List.append_nil])).2
    rw [items_of_ok (next_eq_stop (hrest ▸ hb)), hskip, hpos]
    rfl
  | @cons p b u t k ts hb hu hk _ ih =>
    obtain ⟨l', hnext, hrest', hpos'⟩ := next_eq_ok hb hu hk hrest
    have hitems := ih hrest' (hpos' ▸ hpos ▸ rfl)
    have hend : p + byteLength (b ++ (u ++ t)) =
        p + byteLength b + byteLength u + byteLength t := by
      rw [byteLength_append, byteLength_append]
      omega
    rw [items_of_ok hnext, if_neg hk, hitems, hpos, hend]
    rfl

/-- Items that are all tokens spell the text. -/
lemma spells_of_items {last : Token} (h : l.items = (ts ++ [last]).map .ok)
    (hlast : last.kind = .stop) : Spells l.pos l.rest ts := by
  induction ts generalizing l with
  | nil =>
    rcases hnext : l.next with ⟨err | tok, l'⟩
    · rw [items_of_error hnext] at h
      cases h
    · rw [items_of_ok hnext] at h
      cases (List.cons.inj h).1
      obtain ⟨hmunch, -, -⟩ := read_eq_ok hnext
      have hnil := eq_nil_of_munch_stop (t := l.skipBlanks.rest) (by rw [hmunch, hlast])
      rw [rest_skipBlanks] at hnil
      exact .nil (List.dropWhile_eq_nil_iff.1 hnil)
  | cons tok ts ih =>
    rcases hnext : l.next with ⟨err | tok', l'⟩
    · rw [items_of_error hnext] at h
      cases h
    · rw [items_of_ok hnext] at h
      obtain ⟨htok, hitems⟩ := List.cons.inj h
      cases htok
      have hkind : tok.kind ≠ .stop := by
        intro hstop
        rw [if_pos hstop] at hitems
        cases ts <;> cases hitems
      rw [if_neg hkind] at hitems
      have hspells := ih hitems
      obtain ⟨hmunch, hpos, rfl⟩ := read_eq_ok hnext
      obtain ⟨b, hb, hrest, hskip⟩ := exists_blanks l
      obtain ⟨t, ht⟩ : tok.text <+: l.skipBlanks.rest := by
        have := isPrefix_munch l.skipBlanks.rest
        rwa [hmunch] at this
      have hafter : (l.skipBlanks.advance tok.text.length).rest = t := by
        rw [rest_advance, ← ht, List.drop_left]
      have hafter' : (l.skipBlanks.advance tok.text.length).pos =
          l.pos + byteLength b + byteLength tok.text := by
        unfold advance
        simp only
        rw [← ht, List.take_left, hskip]
      rw [hafter, hafter'] at hspells
      rw [← ht] at hmunch hrest
      have htok : tok = ⟨tok.kind, tok.text, l.pos + byteLength b⟩ := by
        rw [← hskip, ← hpos]
      rw [htok, hrest]
      exact .cons hb hmunch hkind hspells

end Lexer

lemma tokenize_of_spells (h : Spells 0 t ts) :
    tokenize t = .ok (ts ++ [⟨.stop, [], byteLength t⟩]) := by
  have hitems := Lexer.items_of_spells (l := Lexer.ofText t) h rfl rfl
  rw [tokenize, hitems, mapM_id_map, Nat.zero_add]

/-- **The tokens of a text are those that spell it.** -/
theorem words_iff_spells : Words t ts ↔ Spells 0 t ts := by
  constructor
  · rintro ⟨last, hitems, hlast⟩
    exact Lexer.spells_of_items (eq_map_of_mapM_id hitems) hlast
  · intro h
    exact ⟨_, tokenize_of_spells h, rfl⟩

/-! ### Putting texts together -/

namespace Spells

lemma blanks (hb : ∀ c ∈ b, isBlank c) (h : Spells (p + byteLength b) t ts) :
    Spells p (b ++ t) ts := by
  cases h with
  | nil hb' =>
    refine .nil fun c hc => ?_
    rcases List.mem_append.1 hc with hc | hc
    · exact hb c hc
    · exact hb' c hc
  | @cons _ b' u t k ts hb' hu hk h =>
    have hall : ∀ c ∈ b ++ b', isBlank c := by
      intro c hc
      rcases List.mem_append.1 hc with hc | hc
      · exact hb c hc
      · exact hb' c hc
    have hpos : p + byteLength b + byteLength b' = p + byteLength (b ++ b') := by
      rw [byteLength_append, Nat.add_assoc]
    rw [hpos] at h ⊢
    rw [← List.append_assoc]
    exact .cons hall hu hk h

/-- One token. -/
lemma single (hu : munch u = (.ok k, u)) (hk : k ≠ .stop) : Spells p u [⟨k, u, p⟩] := by
  have h : Spells p ([] ++ (u ++ [])) [⟨k, u, p + byteLength []⟩] := by
    refine .cons (by simp) (by rwa [List.append_nil]) hk (.nil (by simp))
  simpa using h

/-- Behind a text comes another one that breaks its last token off. -/
lemma append (h : Spells p t ts) (hr : Spells (p + byteLength t) r rs) (hbreak : Breaks r) :
    Spells p (t ++ r) (ts ++ rs) := by
  induction h with
  | nil hb => exact hr.blanks hb
  | @cons p b u t k ts hb hu hk _ ih =>
    have hpos : p + byteLength b + byteLength u + byteLength t =
        p + byteLength (b ++ (u ++ t)) := by
      rw [byteLength_append, byteLength_append]
      omega
    have hreplaces : Replaces t (t ++ r) := by
      cases t with
      | nil => exact .inr hbreak
      | cons c t => exact .inl rfl
    have hmunch : munch (u ++ (t ++ r)) = (.ok k, u) := munch_append hu hk hreplaces
    rw [List.append_assoc, List.append_assoc]
    exact .cons hb hmunch hk (ih (hpos ▸ hr))

lemma munch_symbol (hc : symbolKind? c = some k) (t : Text) : munch (c :: t) = (.ok k, [c]) := by
  obtain ⟨hchar, hpoint, -⟩ := not_isBlank_of_symbolKind? hc
  have hstart : ¬startsNumber (c :: t) := by
    rw [startsNumber_cons hpoint]
    exact fun hdigit => hchar (isWordChar_of_isDigit hdigit)
  have hword : ¬isWordStart c := fun hword => hchar (isWordChar_of_isWordStart hword)
  rw [munch, if_neg hstart, if_neg hword, hc]

/-- A token of one character needs nothing to break it off. -/
lemma symbol (hc : symbolKind? c = some k) (h : Spells (p + byteLength [c]) t ts) :
    Spells p (c :: t) (⟨k, [c], p⟩ :: ts) := by
  have hk : k ≠ .stop := by
    rintro rfl
    exact symbolKind?_ne_stop c hc
  have h' : Spells p ([] ++ ([c] ++ t)) (⟨k, [c], p + byteLength []⟩ :: ts) :=
    .cons (by simp) (munch_symbol hc t) hk h
  simpa using h'

end Spells

end Formula
