import Formula.Proofs.Lexing.Layout
import Formula.Proofs.Parser.FirstError

/-!
Parsing texts that are laid out differently.

The parser looks at the kinds and texts of tokens. It copies the place of a token into an error and
does nothing else with it, so side by side on like tokens it makes the same tree or the same error,
at tokens that correspond (`layout_does_not_matter`).
-/

namespace Formula

open Formula.Parser

/-- The same fault, with the token that was found at another place. -/
def ParseFault.moveTo (pos : ℕ) : ParseFault → ParseFault
  | .grammar (.missing wanted found) => .grammar (.missing wanted { found with pos := pos })
  | .grammar (.trailing found) => .grammar (.trailing { found with pos := pos })
  | f => f

lemma Token.Like.eq_move {tok tok' : Token} (h : tok.Like tok') :
    tok' = { tok with pos := tok'.pos } := by
  rw [← h.1, ← h.2]

/-- The place of the token that was found is not in the message. -/
lemma ParseFault.message_moveTo (f : ParseFault) (p q : ℕ) :
    (ParseError.mk p (f.moveTo q)).message = (ParseError.mk p f).message := by
  rcases f with f | (_ | _ | _ | _) | _ | _ | _ <;> rfl

variable {α β γ : Type} {R : Token → Token → Prop} {P Q : Token.Kind → Prop} {c c' d d' : Cursor}

/-- The cursors stand before related tokens, up to the end. -/
structure Cursor.Twin (R : Token → Token → Prop) (c c' : Cursor) : Prop where
  depth : c'.depth = c.depth
  items : ∃ us us', c.items = us.map .ok ∧ c'.items = us'.map .ok ∧ List.Forall₂ R us us'

/-- The outcomes of a parser on related tokens: the same value, where the kind of the current token
satisfies `Q`, or the same error at related tokens. -/
inductive Matches (R : Token → Token → Prop) (Q : Token.Kind → Prop) :
    Outcome α → Outcome α → Prop
  | ok {a : α} {c c' : Cursor} : c.Twin R c' → Q c.current.kind → Matches R Q (.ok a c) (.ok a c')
  | fail {tok tok' : Token} {f : ParseFault} {n n' : ℕ} : R tok tok' →
      Matches R Q (.fail ⟨tok.pos, f⟩ n) (.fail ⟨tok'.pos, f.moveTo tok'.pos⟩ n')

namespace Cursor

/-- Where only tokens are left the current one can be consumed. -/
lemma exists_next_of_items {us : List Token} (h : c.lexer.items = us.map .ok) :
    ∃ d, next.run c = .ok c.current d ∧ d.depth = c.depth ∧ d.items = us.map .ok := by
  rcases hn : c.lexer.next with ⟨err | tok, l⟩
  · rw [Lexer.items_of_error hn] at h
    cases us <;> cases h
  · obtain ⟨d, hd, rfl, rfl⟩ := exists_next hn
    exact ⟨d, hd, (next_eq_ok hd).2.1, by rw [← items_of_next hn, h]⟩

namespace Twin

lemma current (h : c.Twin R c') : R c.current c'.current := by
  obtain ⟨us, us', hus, hus', hR⟩ := h.items
  cases hR with
  | nil => cases hus
  | cons hw _ =>
    cases (List.cons.inj hus).1
    cases (List.cons.inj hus').1
    exact hw

/-- Before other tokens than the end both cursors go on. -/
lemma consume (h : c.Twin R c') (hk : c.current.kind ≠ .stop) (hk' : c'.current.kind ≠ .stop) :
    ∃ d d', next.run c = .ok c.current d ∧ next.run c' = .ok c'.current d' ∧ d.Twin R d' := by
  obtain ⟨us, us', hus, hus', hR⟩ := h.items
  rw [Cursor.items, if_neg hk] at hus
  rw [Cursor.items, if_neg hk'] at hus'
  cases hR with
  | nil => cases hus
  | @cons _ _ us us' _ hR =>
    obtain ⟨d, hd, hdepth, hitems⟩ := exists_next_of_items (List.cons.inj hus).2
    obtain ⟨d', hd', hdepth', hitems'⟩ := exists_next_of_items (List.cons.inj hus').2
    exact ⟨d, d', hd, hd', by rw [hdepth, hdepth', h.depth], us, us', hitems, hitems', hR⟩

lemma deeper (h : c.Twin R c') : ({ c with depth := c.depth + 1 } : Cursor).Twin R
    { c' with depth := c'.depth + 1 } := ⟨by rw [h.depth], h.items⟩

end Twin

end Cursor

open Cursor (Twin)

/-- Related tokens say the same. -/
def SaysSame (R : Token → Token → Prop) : Prop := ∀ tok tok', R tok tok' → tok.Like tok'

namespace Matches

lemma bind {p : Parser α} {f f' : α → Parser β} (h : Matches R P (p.run c) (p.run c'))
    (hf : ∀ a d d', p.run c = .ok a d → d.Twin R d' → P d.current.kind →
      Matches R Q ((f a).run d) ((f' a).run d')) :
    Matches R Q ((p >>= f).run c) ((p >>= f').run c') := by
  rw [run_bind, run_bind]
  generalize hp : p.run c = out at h ⊢
  generalize p.run c' = out' at h ⊢
  cases h with
  | ok hd hP => exact hf _ _ _ hp hd hP
  | fail hR => exact .fail hR

lemma consume {f f' : Token → Parser α} (hR : SaysSame R) (h : c.Twin R c')
    (hk : c.current.kind ≠ .stop)
    (hf : ∀ d d', next.run c = .ok c.current d → d.Twin R d' →
      Matches R Q ((f c.current).run d) ((f' c'.current).run d')) :
    Matches R Q ((next >>= f).run c) ((next >>= f').run c') := by
  have hk' : c'.current.kind ≠ .stop := by rwa [(hR _ _ h.current).1]
  obtain ⟨d, d', hd, hd', htwin⟩ := h.consume hk hk'
  rw [run_bind, run_bind, hd, hd']
  exact hf d d' hd htwin

/-- Both fail at the current token. -/
lemma refused {fault : Token → ParseFault} (h : c.Twin R c')
    (hf : fault c'.current = (fault c.current).moveTo c'.current.pos) :
    Matches R Q ((Parser.fail fault : Parser α).run c) ((Parser.fail fault).run c') := by
  simp only [Parser.fail, hf]
  exact .fail h.current

/-- Both find the current token where something else is wanted. -/
lemma missing (hR : SaysSame R) (h : c.Twin R c') (wanted : Wanted) :
    Matches R Q ((Parser.missing wanted : Parser α).run c) ((Parser.missing wanted).run c') := by
  refine refused h ?_
  rw [(hR _ _ h.current).eq_move]
  rfl

lemma nested {p : Parser α}
    (h : Matches R Q (p.run { c with depth := c.depth + 1 })
      (p.run { c' with depth := c'.depth + 1 })) :
    Matches R Q ((Parser.nested p).run c) ((Parser.nested p).run c') := by
  simp only [Parser.nested]
  generalize p.run _ = out at h ⊢
  generalize p.run _ = out' at h ⊢
  cases h with
  | @ok a d d' hd hQ =>
    have hdepth : d'.depth - 1 = d.depth - 1 := by rw [hd.depth]
    exact .ok ⟨hdepth, hd.items⟩ hQ
  | fail hR => exact .fail hR

end Matches

/-- On related tokens the parser does the same. -/
def Blind (R : Token → Token → Prop) (p : Parser α) : Prop :=
  ∀ c c', c.Twin R c' → Matches R (fun _ => True) (p.run c) (p.run c')

namespace Blind

lemma bind {p : Parser α} {f : α → Parser β} (h : Blind R p) (hf : ∀ a, Blind R (f a)) :
    Blind R (p >>= f) :=
  fun c c' hc => (h c c' hc).bind fun a d d' _ hd _ => hf a d d' hd

lemma pure (a : α) : Blind R (Pure.pure a) := fun _ _ hc => .ok hc trivial

lemma many {wanted : Token.Kind → Option γ} {item : Parser α} (hR : SaysSame R)
    (hitem : Blind R item) (hstop : wanted .stop = none) :
    Blind R (Parser.many wanted item hstop) := by
  intro c c' hc
  induction hn : c.size using Nat.strongRecOn generalizing c c' with
  | ind n ih =>
    rw [run_many, run_many, (hR _ _ hc.current).1]
    rcases hg : wanted c.current.kind with _ | g
    · exact .ok hc trivial
    · have hk : c.current.kind ≠ .stop := fun hk => by simp [hk, hstop] at hg
      refine .consume hR hc hk fun d d' hd hds => (hitem d d' hds).bind fun a e e' he hes _ => ?_
      have hlt := size_lt_of_wanted hstop hg hd he
      exact (ih e.size (by omega) e e' hes rfl).bind fun as _ _ _ h _ => .ok h trivial

end Blind

/-! ### One level -/

section Level

variable {resolve : Text → Option Meaning} {base : Parser Expr} (hR : SaysSame R)
  (hbase : Blind R base)
include hR hbase

lemma blind_factor : Blind R (factor base) :=
  hbase.bind fun _ => (hbase.many hR rfl).bind fun _ => .pure _

lemma blind_term : Blind R (term base) :=
  (blind_factor hR hbase).bind fun _ => ((blind_factor hR hbase).many hR rfl).bind fun _ => .pure _

lemma blind_expr : Blind R (expr base) :=
  (blind_term hR hbase).bind fun _ => ((blind_term hR hbase).many hR rfl).bind fun _ => .pure _

/-- Arguments end before the parenthesis that closes them. -/
lemma matches_args (hc : c.Twin R c') :
    Matches R (· = .rightParen) ((args base).run c) ((args base).run c') := by
  unfold args
  rw [run_bind, run_bind, run_current, run_current]
  simp only [(hR _ _ hc.current).1]
  split
  · exact .ok hc ‹_›
  · refine (blind_expr hR hbase c c' hc).bind fun a d d' _ hd _ => ?_
    refine ((blind_expr hR hbase).many hR rfl d d' hd).bind fun r e e' _ he _ => ?_
    rw [run_bind, run_bind, run_current, run_current]
    simp only [(hR _ _ he.current).1]
    split
    · exact .ok he ‹_›
    · exact .missing hR he _

/-- The wrong number of arguments is an error at the opening parenthesis. -/
lemma matches_call {name : Text} {callee : Callee} {arity : ℕ} (hc : c.Twin R c')
    (hopen : c.current.kind = .leftParen) :
    Matches R (fun _ => True) ((call base name callee arity).run c)
      ((call base name callee arity).run c') := by
  unfold call
  refine .consume hR hc (by simp [hopen]) fun d d' _ hd => ?_
  refine (matches_args hR hbase hd).bind fun as e e' _ he hclose => ?_
  refine .consume hR he (by simp [hclose]) fun f f' _ hf => ?_
  split
  · exact .ok hf trivial
  · exact .fail hc.current

lemma matches_named (hc : c.Twin R c') (hword : c.current.kind = .word) :
    Matches R (fun _ => True) ((named resolve base).run c) ((named resolve base).run c') := by
  unfold named
  refine .consume hR hc (by simp [hword]) fun d d' _ hd => ?_
  rw [run_bind, run_bind, run_current, run_current]
  simp only [(hR _ _ hc.current).2, (hR _ _ hd.current).1]
  split
  · exact .fail hc.current
  · split
    · exact .refused hd rfl
    · exact .ok hd trivial
  · split
    · exact matches_call hR hbase hd ‹_›
    · split
      · exact .ok hd trivial
      · exact .missing hR hd _

lemma blind_group : Blind R (group base) := by
  refine (blind_expr hR hbase).bind fun e c c' hc => ?_
  rw [run_bind, run_bind, run_current, run_current]
  simp only [(hR _ _ hc.current).1]
  split
  · rename_i hclose
    exact .consume hR hc (by simp [hclose]) fun d d' _ hd => .ok hd trivial
  · exact .missing hR hc _

lemma blind_atom : Blind R (atom resolve base) := by
  intro c c' hc
  unfold atom
  rw [run_bind, run_bind, run_current, run_current]
  simp only [(hR _ _ hc.current).1]
  split
  · rename_i hk
    exact .consume hR hc (by simp [hk]) fun d d' _ hd => .ok hd trivial
  · exact matches_named hR hbase hc (by assumption)
  · rename_i hk
    exact .consume hR hc (by simp [hk]) fun d d' _ hd => blind_group hR hbase d d' hd
  · exact .missing hR hc _

lemma blind_power : Blind R (power resolve base) := by
  refine (blind_atom hR hbase).bind fun a c c' hc => ?_
  rw [run_bind, run_bind, run_current, run_current]
  simp only [(hR _ _ hc.current).1]
  split
  · rename_i o ho
    obtain ⟨hk, -⟩ := powerOperator?_eq_some.1 ho
    exact .consume hR hc (by simp [hk]) fun d d' _ hd => (hbase.bind fun b => .pure _) d d' hd
  · exact .ok hc trivial

lemma blind_signed : Blind R (signed resolve base) := by
  intro c c' hc
  unfold signed
  rw [run_bind, run_bind, run_current, run_current]
  simp only [(hR _ _ hc.current).1]
  split
  · rename_i ho
    obtain ⟨hk, -⟩ := sumOperator?_eq_some.1 ho
    exact .consume hR hc (by simp [hk]) fun d d' _ hd => (hbase.bind fun a => .pure _) d d' hd
  · rename_i ho
    obtain ⟨hk, -⟩ := sumOperator?_eq_some.1 ho
    exact .consume hR hc (by simp [hk]) fun d d' _ hd => hbase d d' hd
  · exact blind_power hR hbase c c' hc

end Level

/-! ### All levels -/

variable {resolve : Text → Option Meaning}

lemma blind_baseWithin (hR : SaysSame R) (levels : ℕ) : Blind R (baseWithin resolve levels) := by
  induction levels with
  | zero =>
    intro c c' hc
    simp only [baseWithin, tooDeep, hc.depth]
    exact .fail hc.current
  | succ levels ih => exact fun c c' hc => .nested (blind_signed hR ih _ _ hc.deeper)

theorem blind_sentence (resolve : Text → Option Meaning) (hR : SaysSame R) (levels : ℕ) :
    Blind R (sentence resolve levels) := by
  refine (blind_expr hR (blind_baseWithin hR levels)).bind fun e c c' hc => ?_
  rw [run_bind, run_bind, run_current, run_current]
  simp only [(hR _ _ hc.current).1]
  split
  · exact .ok hc trivial
  · refine .refused hc ?_
    rw [(hR _ _ hc.current).eq_move]
    rfl

/-! ### Texts -/

/-- The tokens say the same and have the same place in the two lists. -/
def Token.Corresponds (ts ts' : List Token) (tok tok' : Token) : Prop :=
  tok.Like tok' ∧ ∃ i : ℕ, ts[i]? = some tok ∧ ts'[i]? = some tok'

variable {t t' : Text} {ts ts' : List Token} {o : Options}

lemma saysSame_corresponds (ts ts' : List Token) : SaysSame (Token.Corresponds ts ts') :=
  fun _ _ h => h.1

lemma forall₂_corresponds (h : List.Forall₂ Token.Like ts ts') :
    List.Forall₂ (Token.Corresponds ts ts') ts ts' := by
  obtain ⟨hlength, hlike⟩ := List.forall₂_iff_get.1 h
  refine List.forall₂_iff_get.2 ⟨hlength, fun i hi hi' => ⟨hlike i hi hi', i, ?_, ?_⟩⟩
  · exact List.getElem?_eq_getElem hi
  · exact List.getElem?_eq_getElem hi'

lemma exists_start (h : tokenize t = .ok ts) :
    ∃ c, Cursor.start t = .ok c ∧ c.depth = 0 ∧ c.items = ts.map .ok := by
  have hitems := eq_map_of_mapM_id h
  rcases hs : Cursor.start t with err | c
  · rw [Cursor.items_of_start_error hs] at hitems
    rcases ts with _ | ⟨tok, _ | _⟩ <;> cases hitems
  · obtain ⟨hdepth, hc⟩ := Cursor.items_of_start hs
    exact ⟨c, rfl, hdepth, hc.trans hitems⟩

/-- Texts with like tokens parse to the same tree or have the same error at tokens that
correspond. -/
theorem parse_of_like (resolve : Text → Option Meaning) (h : tokenize t = .ok ts)
    (h' : tokenize t' = .ok ts') (hlike : List.Forall₂ Token.Like ts ts')
    (hlength : byteLength t ≤ o.maxLength) (hlength' : byteLength t' ≤ o.maxLength) :
    (∃ e, parse resolve o t = .ok e ∧ parse resolve o t' = .ok e) ∨
      ∃ (tok tok' : Token) (f : ParseFault), tok.Corresponds ts ts' tok' ∧
        parse resolve o t = .error ⟨tok.pos, f⟩ ∧
        parse resolve o t' = .error ⟨tok'.pos, f.moveTo tok'.pos⟩ := by
  obtain ⟨c, hs, hdepth, hitems⟩ := exists_start h
  obtain ⟨c', hs', hdepth', hitems'⟩ := exists_start h'
  have htwin : c.Twin (Token.Corresponds ts ts') c' :=
    ⟨by rw [hdepth, hdepth'], ts, ts', hitems, hitems', forall₂_corresponds hlike⟩
  have hmatches := blind_sentence resolve (saysSame_corresponds ts ts') o.maxDepth c c' htwin
  unfold parse parseText
  rw [if_neg (Nat.not_lt.2 hlength), if_neg (Nat.not_lt.2 hlength'), hs, hs']
  dsimp only
  generalize (sentence resolve o.maxDepth).run c = out at hmatches ⊢
  generalize (sentence resolve o.maxDepth).run c' = out' at hmatches ⊢
  cases hmatches with
  | ok _ _ => exact .inl ⟨_, rfl, rfl⟩
  | fail hR => exact .inr ⟨_, _, _, hR, rfl, rfl⟩

section Table

variable {σ : Type}

/-- **Layout does not matter.** Blanks are put into a text where no token is cut, and taken out
between two tokens one of which is a single character, as often as one likes. What comes out has the
same tokens at other places. If the bound on the length admits both texts they parse to the same
tree, or to the same error with the same message but for the place: it moves to the token that
corresponds to the one where the error was. -/
theorem layout_does_not_matter (table : SymbolTable σ) (o : Options)
    (h : Relation.ReflTransGen Relaid t t') (ht : tokenize t = .ok ts) :
    ∃ ts', tokenize t' = .ok ts' ∧ List.Forall₂ Token.Like ts ts' ∧
      (byteLength t ≤ o.maxLength → byteLength t' ≤ o.maxLength →
        (∀ e, parse table.resolve o t = .ok e ↔ parse table.resolve o t' = .ok e) ∧
        ∀ err, parse table.resolve o t = .error err →
          ∃ tok tok' : Token, tok.Corresponds ts ts' tok' ∧ err.pos = tok.pos ∧
            parse table.resolve o t' = .error ⟨tok'.pos, err.fault.moveTo tok'.pos⟩ ∧
            ∀ p, (ParseError.mk p (err.fault.moveTo tok'.pos)).message =
              (ParseError.mk p err.fault).message) := by
  obtain ⟨ts', ht', hlike⟩ := Relaid.tokenize_of_reflTransGen h ht
  refine ⟨ts', ht', hlike, fun hlength hlength' => ?_⟩
  rcases parse_of_like table.resolve ht ht' hlike hlength hlength' with
    ⟨e, he, he'⟩ | ⟨tok, tok', f, hcorr, herr, herr'⟩
  · rw [he, he']
    exact ⟨fun _ => Iff.rfl, nofun⟩
  · rw [herr, herr']
    refine ⟨fun e => iff_of_false nofun nofun, fun err heq => ?_⟩
    cases heq
    exact ⟨tok, tok', hcorr, rfl, rfl, fun p => f.message_moveTo p tok'.pos⟩

end Table

/-- The text `x )`. -/
def spacedOut : Text := ['x', ' ', ')']

/-- The text `  x)`. -/
def movedRight : Text := [' ', ' ', 'x', ')']

lemma spells_x : Spells 0 ['x'] [⟨.word, ['x'], 0⟩] := .single (munch_word rfl) nofun

lemma spells_spacedOut :
    Spells 0 spacedOut [⟨.word, ['x'], 0⟩, ⟨.rightParen, [')'], 2⟩] := by
  have hclose : Spells 1 [' ', ')'] [⟨.rightParen, [')'], 2⟩] :=
    .blanks isBlank_space (.symbol rfl (.nil (List.forall_mem_nil _)))
  have hbreak : Breaks [' ', ')'] := breaks_of_isBlank rfl _
  exact spells_x.append hclose hbreak

lemma spells_close : Spells 0 ['x', ')'] [⟨.word, ['x'], 0⟩, ⟨.rightParen, [')'], 1⟩] := by
  have hclose : Spells 1 [')'] [⟨.rightParen, [')'], 1⟩] :=
    .symbol rfl (.nil (List.forall_mem_nil _))
  have hsymbol : symbolKind? ')' = some .rightParen := rfl
  exact spells_x.append hclose (breaks_of_symbolKind? hsymbol [])

lemma relaid_spacedOut : Relation.ReflTransGen Relaid spacedOut movedRight := by
  have hwords : Words (['x'] ++ ([' '] ++ [')']))
      ([] ++ ⟨.word, ['x'], 0⟩ :: ⟨.rightParen, [')'], 2⟩ :: []) :=
    words_iff_spells.2 spells_spacedOut
  have hdelete : Relaid spacedOut ['x', ')'] :=
    .delete isBlank_space hwords (by decide) (by decide) (.inr rfl)
  have hinsert : Relaid ['x', ')'] movedRight :=
    .insert (b := [' ', ' ']) (s := []) (r := ['x', ')']) (List.all_eq_true.1 rfl)
      (words_iff_spells.2 spells_close) fun tok _ => .inl (Nat.zero_le _)
  exact .head hdelete (.single hinsert)

/-- The error moves with the parenthesis. -/
theorem layout_does_not_matter_spacedOut :
    Relation.ReflTransGen Relaid spacedOut movedRight ∧
    (∃ ts, tokenize spacedOut = .ok ts) ∧
    byteLength spacedOut ≤ 4 ∧ byteLength movedRight ≤ 4 ∧
    ∃ pos, parse xfTable.resolve ⟨true, 4, 4⟩ movedRight =
      .error ⟨pos, .grammar (.trailing ⟨.rightParen, [')'], pos⟩)⟩ := by
  have htokens := tokenize_of_spells spells_spacedOut
  have hlength : byteLength spacedOut ≤ 4 := by decide
  have hlength' : byteLength movedRight ≤ 4 := by decide
  obtain ⟨ts', -, -, hparse⟩ := layout_does_not_matter xfTable ⟨true, 4, 4⟩ relaid_spacedOut htokens
  have herr : parse xfTable.resolve ⟨true, 4, 4⟩ spacedOut =
      .error ⟨2, .grammar (.trailing ⟨.rightParen, [')'], 2⟩)⟩ :=
    failure?_eq_some.1 (by decide +kernel)
  obtain ⟨tok, tok', -, -, herr', -⟩ := (hparse hlength hlength').2 _ herr
  exact ⟨relaid_spacedOut, ⟨_, htokens⟩, hlength, hlength', tok'.pos, herr'⟩

end Formula
