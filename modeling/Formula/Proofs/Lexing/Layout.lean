import Formula.Proofs.Lexing.LongestMatch
import Formula.Proofs.Parser.Fragments
import Mathlib.Data.List.Forall2
import Mathlib.Logic.Relation

/-!
Texts laid out differently.

Blanks can be put in wherever no token is cut, and taken out between two tokens if one of them is a
character that is a token of its own. What has been laid out differently has like tokens, at other
places (`Relaid.tokens`, `tokens_of_relaid`).
-/

namespace Formula

/-- The token says the same, maybe at another place. -/
def Token.Like (tok tok' : Token) : Prop := tok'.kind = tok.kind ∧ tok'.text = tok.text

/-- The token ends before the cut or begins behind it. -/
def Token.Spares (tok : Token) (p q : ℕ) : Prop :=
  q ≤ tok.pos ∨ tok.pos + byteLength tok.text ≤ p

/-- One edit of the blanks in a text. -/
inductive Relaid : Text → Text → Prop
  /-- Blanks are put in where no token is cut. -/
  | insert {b r s : Text} {ts : List Token} : (∀ c ∈ b, isBlank c) → Words (s ++ r) ts →
      (∀ tok ∈ ts, tok.Spares (byteLength s) (byteLength s)) → Relaid (s ++ r) (s ++ (b ++ r))
  /-- Blanks are taken out between two tokens, one of which is a single character. -/
  | delete {b r s : Text} {tok tok' : Token} {us vs : List Token} : (∀ c ∈ b, isBlank c) →
      Words (s ++ (b ++ r)) (us ++ tok :: tok' :: vs) →
      tok.pos + byteLength tok.text ≤ byteLength s → byteLength s + byteLength b ≤ tok'.pos →
      (tok.kind.char?.isSome ∨ tok'.kind.char?.isSome) → Relaid (s ++ (b ++ r)) (s ++ r)

variable {p q : ℕ} {b r s t u : Text} {ts us vs : List Token} {tok tok' : Token}

lemma Token.Like.refl (tok : Token) : tok.Like tok := ⟨rfl, rfl⟩

lemma Token.Like.trans {tok'' : Token} (h : tok.Like tok') (h' : tok'.Like tok'') :
    tok.Like tok'' := ⟨h'.1.trans h.1, h'.2.trans h.2⟩

lemma forall₂_like_trans (h : List.Forall₂ Token.Like ts us) (h' : List.Forall₂ Token.Like us vs) :
    List.Forall₂ Token.Like ts vs := by
  induction h generalizing vs with
  | nil => exact h'
  | cons hlike _ ih =>
    cases h' with
    | cons hlike' h' => exact .cons (hlike.trans hlike') (ih h')

lemma eq_nil_of_byteLength (h : byteLength t = 0) : t = [] := by
  cases t with
  | nil => rfl
  | cons c t =>
    have := c.utf8Size_pos
    rw [byteLength_cons] at h
    omega

/-- Of two ways to cut a text, the shorter first part is the start of the longer. -/
lemma exists_of_append_eq (h : s ++ r = u ++ t) (hle : byteLength s ≤ byteLength u) :
    ∃ v, u = s ++ v ∧ r = v ++ t := by
  rcases List.append_eq_append_iff.1 h with ⟨v, hu, hr⟩ | ⟨v, hs, ht⟩
  · exact ⟨v, hu, hr⟩
  · have hv : v = [] := by
      refine eq_nil_of_byteLength ?_
      rw [hs, byteLength_append] at hle
      omega
    subst hv
    exact ⟨[], by rw [hs, List.append_nil, List.append_nil], ht.symm⟩

/-- A place behind a token cuts what follows the token. -/
lemma exists_behind (h : b ++ (u ++ t) = s ++ r)
    (hend : p + byteLength b + byteLength u ≤ p + byteLength s) :
    ∃ v, s = b ++ u ++ v ∧ t = v ++ r ∧
      p + byteLength s = p + byteLength b + byteLength u + byteLength v := by
  have hle : byteLength (b ++ u) ≤ byteLength s := by
    rw [byteLength_append]
    omega
  obtain ⟨v, rfl, rfl⟩ := exists_of_append_eq ((List.append_assoc b u t).trans h) hle
  refine ⟨v, rfl, rfl, ?_⟩
  rw [byteLength_append, byteLength_append]
  omega

/-- Blanks in front of a text change nothing for the token before. -/
lemma replaces_blanks (hb : ∀ c ∈ b, isBlank c) (r : Text) : Replaces r (b ++ r) := by
  cases b with
  | nil => exact .inl rfl
  | cons c b => exact .inr (breaks_of_isBlank (hb c List.mem_cons_self) (b ++ r))

namespace Spells

/-! ### Where the tokens are -/

lemma byteLength_pos (h : Spells p t ts) : ∀ tok ∈ ts, 0 < byteLength tok.text := by
  induction h with
  | nil _ => exact List.forall_mem_nil _
  | @cons p b u t k ts _ hu hk _ ih =>
    refine List.forall_mem_cons.2 ⟨Nat.pos_of_ne_zero fun hzero => ?_, ih⟩
    have hne := munch_ne_nil (congrArg Prod.fst hu) hk
    rw [hu] at hne
    exact hne (eq_nil_of_byteLength hzero)

lemma unique (h : Spells 0 t us) (h' : Spells 0 t vs) : us = vs :=
  (List.append_inj' (Except.ok.inj ((tokenize_of_spells h).symm.trans (tokenize_of_spells h')))
    rfl).1

lemma ordered (h : Spells p t ts) :
    ts.Pairwise fun tok tok' => tok.pos + byteLength tok.text ≤ tok'.pos := by
  induction h with
  | nil _ => exact .nil
  | cons _ _ _ h ih => exact .cons h.le_pos ih

/-- A text can be spelled from another position on. -/
lemma shift (h : Spells p t ts) (q : ℕ) :
    ∃ ts', Spells q t ts' ∧ List.Forall₂ Token.Like ts ts' := by
  induction h generalizing q with
  | nil hb => exact ⟨[], .nil hb, .nil⟩
  | @cons p b u t k ts hb hu hk _ ih =>
    obtain ⟨ts', hts', hlike⟩ := ih (q + byteLength b + byteLength u)
    exact ⟨_, .cons hb hu hk hts', .cons ⟨rfl, rfl⟩ hlike⟩

/-- A text breaks off what is before if its first token is a single character. -/
lemma breaks {c : Char} (h : Spells p (s ++ r) (us ++ tok :: vs)) (hc : tok.kind.char? = some c)
    (hus : ∀ tok ∈ us, tok.pos + byteLength tok.text ≤ p + byteLength s)
    (hpos : p + byteLength s ≤ tok.pos) : Breaks r := by
  generalize htext : s ++ r = t at h
  induction us generalizing p s t with
  | nil =>
    cases h with
    | @cons _ b u t k _ hb hu hk _ =>
      obtain ⟨v, rfl, rfl⟩ := exists_of_append_eq htext (Nat.le_of_add_le_add_left hpos)
      have hsymbol := symbolKind?_of_char? hc
      obtain rfl : u = [c] := eq_singleton_of_munch hsymbol hu
      exact breaks_append (fun d hd => hb d (List.mem_append_right _ hd))
        (breaks_of_symbolKind? hsymbol t)
  | cons tok₁ us ih =>
    cases h with
    | @cons _ b u t k _ hb hu hk h =>
      obtain ⟨hend, hus⟩ := List.forall_mem_cons.1 hus
      obtain ⟨s₁, rfl, rfl, hlength⟩ := exists_behind htext.symm hend
      rw [hlength] at hus hpos
      exact ih hus hpos _ rfl h

/-- Blanks may take the place of what lies between tokens if what comes next is still broken
off. -/
theorem relay {m m' : Text} (hm' : ∀ c ∈ m', isBlank c)
    (h : Spells p (s ++ (m ++ r)) ts)
    (hspares : ∀ tok ∈ ts, tok.Spares (p + byteLength s) (p + byteLength s + byteLength m))
    (hseam : Replaces (m ++ r) (m' ++ r) ∨
      ∀ tok ∈ ts, tok.pos + byteLength tok.text = p + byteLength s → tok.kind.char?.isSome) :
    ∃ ts', Spells p (s ++ (m' ++ r)) ts' ∧ List.Forall₂ Token.Like ts ts' := by
  generalize htext : s ++ (m ++ r) = t at h
  induction h generalizing s with
  | @nil p t hb =>
    subst htext
    refine ⟨[], .nil fun c hc => ?_, .nil⟩
    simp only [List.mem_append] at hb hc
    rcases hc with hc | hc | hc
    · exact hb c (.inl hc)
    · exact hm' c hc
    · exact hb c (.inr (.inr hc))
  | @cons p b u t k ts hb hu hk h ih =>
    obtain ⟨hfirst, hspares⟩ := List.forall_mem_cons.1 hspares
    rcases hfirst with hbehind | hbefore
    · -- the blanks lie before the first token
      dsimp only at hbehind
      have hcut : (s ++ m) ++ r = b ++ (u ++ t) := by rw [List.append_assoc, htext]
      have hle : byteLength (s ++ m) ≤ byteLength b := by
        rw [byteLength_append]
        omega
      obtain ⟨v, rfl, rfl⟩ := exists_of_append_eq hcut hle
      have hblank : ∀ c ∈ s ++ (m' ++ v), isBlank c := by
        intro c hc
        simp only [List.mem_append] at hb hc
        rcases hc with hc | hc | hc
        · exact hb c (.inl (.inl hc))
        · exact hm' c hc
        · exact hb c (.inr hc)
      obtain ⟨ts', hts', hlike⟩ := h.shift (p + byteLength (s ++ (m' ++ v)) + byteLength u)
      have hnew := Spells.cons hblank hu hk hts'
      rw [List.append_assoc, List.append_assoc] at hnew
      exact ⟨_, hnew, .cons ⟨rfl, rfl⟩ hlike⟩
    · -- the blanks lie behind the first token
      obtain ⟨s₁, rfl, rfl, hlength⟩ := exists_behind htext.symm hbefore
      rw [hlength] at hspares hseam
      have hmunch : munch (u ++ (s₁ ++ (m' ++ r))) = (.ok k, u) := by
        cases s₁ with
        | cons c s₁ => exact munch_append hu hk (.inl rfl)
        | nil =>
          rcases hseam with hreplaces | hsymbol
          · exact munch_append hu hk hreplaces
          · -- a single character is a token whatever comes next
            obtain ⟨c, hc⟩ := Option.isSome_iff_exists.1 (hsymbol _ List.mem_cons_self rfl)
            have hc' : symbolKind? c = some k := symbolKind?_of_char? hc
            obtain rfl : u = [c] := eq_singleton_of_munch hc' hu
            exact munch_symbol hc' _
      have hseam' := hseam.imp_right fun h => (List.forall_mem_cons.1 h).2
      obtain ⟨ts', hts', hlike⟩ := ih hspares hseam' rfl
      have hnew := Spells.cons hb hmunch hk hts'
      rw [List.append_assoc, List.append_assoc]
      exact ⟨_, hnew, .cons ⟨rfl, rfl⟩ hlike⟩

end Spells

/-- A text that tokenizes is spelled by its tokens, up to the end. -/
lemma exists_spells (h : tokenize t = .ok ts) :
    ∃ us, Spells 0 t us ∧ ts = us ++ [⟨.stop, [], byteLength t⟩] := by
  obtain ⟨us, q, r, hcuts, rfl | ⟨f, hf⟩⟩ := exists_cuts_longest t
  · have hspells : Spells 0 t us := words_iff_spells.1 ⟨_, tokenize_of_cuts hcuts, rfl⟩
    exact ⟨us, hspells, Except.ok.inj (h.symm.trans (tokenize_of_spells hspells))⟩
  · cases h.symm.trans (tokenize_of_refused hcuts hf)

namespace Relaid

variable {t' : Text}

/-- Blanks that are put in leave the tokens. -/
lemma spells_insert (hb : ∀ c ∈ b, isBlank c) (h : Spells 0 (s ++ r) ts)
    (hspares : ∀ tok ∈ ts, tok.Spares (byteLength s) (byteLength s)) :
    ∃ ts', Spells 0 (s ++ (b ++ r)) ts' ∧ List.Forall₂ Token.Like ts ts' := by
  refine Spells.relay (m := []) hb h ?_ (.inl (replaces_blanks hb r))
  simpa using hspares

/-- What is taken out between two tokens leaves them if one is a single character. -/
lemma spells_delete (h : Spells 0 (s ++ (b ++ r)) (us ++ tok :: tok' :: vs))
    (hend : tok.pos + byteLength tok.text ≤ byteLength s)
    (hpos : byteLength s + byteLength b ≤ tok'.pos)
    (hsymbol : tok.kind.char?.isSome ∨ tok'.kind.char?.isSome) :
    ∃ ts', Spells 0 (s ++ r) ts' ∧ List.Forall₂ Token.Like (us ++ tok :: tok' :: vs) ts' := by
  have htext := h.byteLength_pos
  obtain ⟨-, hright, hcross⟩ := List.pairwise_append.1 h.ordered
  have hbefore : ∀ x ∈ us, x.pos + byteLength x.text ≤ tok.pos :=
    fun x hx => hcross x hx tok List.mem_cons_self
  have hbehind : ∀ x ∈ tok' :: vs, byteLength s + byteLength b ≤ x.pos := by
    refine List.forall_mem_cons.2 ⟨hpos, fun x hx => ?_⟩
    have hnext := (List.pairwise_cons.1 (List.pairwise_cons.1 hright).2).1 x hx
    omega
  refine Spells.relay (m := b) (List.forall_mem_nil _) h (fun x hx => ?_) ?_
  · rw [Nat.zero_add]
    rcases List.mem_append.1 hx with hx | hx
    · have := hbefore x hx
      exact .inr (by omega)
    · rcases List.mem_cons.1 hx with rfl | hx
      · exact .inr hend
      · exact .inl (hbehind x hx)
  · rw [Nat.zero_add]
    rcases hsymbol with hsymbol | hsymbol
    · -- no other token ends where the blanks begin
      refine .inr fun x hx hx' => ?_
      have hx₀ := htext x hx
      have htok₀ := htext tok (by simp)
      rcases List.mem_append.1 hx with hx | hx
      · have := hbefore x hx
        omega
      · rcases List.mem_cons.1 hx with rfl | hx
        · exact hsymbol
        · have := hbehind x hx
          omega
    · obtain ⟨c, hc⟩ := Option.isSome_iff_exists.1 hsymbol
      rw [← List.append_assoc, List.append_cons] at h
      refine .inl (.inr (h.breaks hc (fun x hx => ?_) ?_))
      · rw [byteLength_append, Nat.zero_add]
        rcases List.mem_append.1 hx with hx | hx
        · have := hbefore x hx
          omega
        · rw [List.mem_singleton.1 hx]
          omega
      · rw [byteLength_append, Nat.zero_add]
        exact hpos

/-- What is laid out differently has like tokens. -/
theorem spells (h : Relaid t t') (ht : Spells 0 t ts) :
    ∃ ts', Spells 0 t' ts' ∧ List.Forall₂ Token.Like ts ts' := by
  cases h with
  | insert hb hwords hspares =>
    obtain rfl := ht.unique (words_iff_spells.1 hwords)
    exact spells_insert hb ht hspares
  | delete _ hwords hend hpos hsymbol =>
    obtain rfl := ht.unique (words_iff_spells.1 hwords)
    exact spells_delete ht hend hpos hsymbol

/-- However often it is edited, it has like tokens. -/
theorem spells_of_reflTransGen (h : Relation.ReflTransGen Relaid t t') (ht : Spells 0 t ts) :
    ∃ ts', Spells 0 t' ts' ∧ List.Forall₂ Token.Like ts ts' := by
  induction h with
  | refl => exact ⟨ts, ht, List.forall₂_same.2 fun tok _ => .refl tok⟩
  | tail _ hstep ih =>
    obtain ⟨us, hus, hlike⟩ := ih
    obtain ⟨ts', hts', hlike'⟩ := hstep.spells hus
    exact ⟨ts', hts', forall₂_like_trans hlike hlike'⟩

/-- **Layout leaves the tokens.** -/
theorem tokenize_of_reflTransGen (h : Relation.ReflTransGen Relaid t t')
    (ht : tokenize t = .ok ts) :
    ∃ ts', tokenize t' = .ok ts' ∧ List.Forall₂ Token.Like ts ts' := by
  obtain ⟨us, hus, rfl⟩ := exists_spells ht
  obtain ⟨us', hus', hlike⟩ := spells_of_reflTransGen h hus
  exact ⟨_, tokenize_of_spells hus', List.rel_append hlike (.cons ⟨rfl, rfl⟩ .nil)⟩

end Relaid

end Formula
