import Formula.Proofs.Parser.Places
import Mathlib.Order.Bounds.Basic

/-!
Where a text is reported that is too long.

The text is read token by token, up to the first token that does not end within the bound. The error
lies where that token begins, but never behind the last place between two characters within the
bound. Main statement: `overlong_position`.
-/

namespace Formula

/-- Where the text of the token ends. -/
def Token.endPos (tok : Token) : ℕ := tok.pos + byteLength tok.text

/-- The lexer reads the token, a well-formed one, before anything is at fault. It is the first that
does not end within the limit. -/
def FirstBeyond (limit : ℕ) (t : Text) (tok : Token) : Prop :=
  ∃ (us : List Token) (more : List (Except ParseError Token)),
    (Lexer.ofText t).items = us.map .ok ++ .ok tok :: more ∧
    (∀ u ∈ us, u.endPos ≤ limit) ∧ limit < tok.endPos ∧ tok.kind ≠ .stop

/-- From the lexer on, tokens are read one after the other until one does not end within the limit,
the text ends, or it is at fault. This takes `n` tokens and comes to position `p`, which is at most
`edge`. -/
inductive Search (limit edge : ℕ) : Lexer → (p n : ℕ) → Prop
  | stop {l l' : Lexer} {tok : Token} : l.next = (.ok tok, l') → tok.kind = .stop →
      Search limit edge l edge 1
  | fault {l l' : Lexer} {err : ParseError} : l.next = (.error err, l') →
      Search limit edge l edge 1
  | beyond {l l' : Lexer} {tok : Token} : l.next = (.ok tok, l') → tok.kind ≠ .stop →
      limit < tok.endPos → Search limit edge l (min tok.pos edge) 1
  | within {l l' : Lexer} {tok : Token} {p n : ℕ} : l.next = (.ok tok, l') → tok.kind ≠ .stop →
      tok.endPos ≤ limit → Search limit edge l' p n → Search limit edge l p (n + 1)

variable {limit edge p n : ℕ} {t : Text} {tok : Token} {l l' : Lexer} {err : ParseError}
  {item : Except ParseError Token} {items : List (Except ParseError Token)}

/-! ### The last place within the limit -/

lemma length_fitting_le (h : Boundary t p) (hp : p ≤ limit) : p ≤ byteLength (fitting limit t) := by
  obtain ⟨s, ⟨r, rfl⟩, rfl⟩ := h
  induction s generalizing limit with
  | nil => exact Nat.zero_le _
  | cons c s ih =>
    rw [byteLength_cons] at hp ⊢
    have hrest : byteLength s ≤ byteLength (fitting (limit - c.utf8Size) (s ++ r)) := ih (by omega)
    rw [List.cons_append, fitting, if_pos (by omega), byteLength_cons]
    omega

/-- The whole characters within the limit end at the last such place. -/
lemma isGreatest_fitting (limit : ℕ) (t : Text) :
    IsGreatest {q | Boundary t q ∧ q ≤ limit} (byteLength (fitting limit t)) :=
  ⟨⟨⟨_, isPrefix_fitting limit t, rfl⟩, byteLength_fitting_le limit t⟩,
    fun _ hq => length_fitting_le hq.1 hq.2⟩

/-! ### The search among the items -/

/-- The item ends the search: a token that does not end within the limit, or a fault. -/
def leaves (limit : ℕ) : Except ParseError Token → Bool
  | .ok tok => limit < tok.endPos
  | .error _ => true

@[simp] lemma leaves_ok : leaves limit (.ok tok) = decide (limit < tok.endPos) := rfl

@[simp] lemma leaves_error : leaves limit (.error err) = true := rfl

/-- What the search comes to that ends with the first such item. -/
def foundPos (limit edge : ℕ) (items : List (Except ParseError Token)) : ℕ :=
  match items.find? (leaves limit) with
  | some (.ok tok) => min tok.pos edge
  | _ => edge

lemma overflowPos_eq (limit : ℕ) (t : Text) : overflowPos limit t =
    foundPos limit (byteLength (fitting limit t)) (Lexer.ofText t).items :=
  rfl

/-- Only tokens are passed over, and they end within the limit. -/
lemma exists_passed (h : ∀ x ∈ items, leaves limit x = false) :
    ∃ us : List Token, items = us.map .ok ∧ ∀ u ∈ us, u.endPos ≤ limit := by
  induction items with
  | nil => exact ⟨[], rfl, List.forall_mem_nil _⟩
  | cons x items ih =>
    obtain ⟨hx, hitems⟩ := List.forall_mem_cons.1 h
    obtain ⟨us, rfl, hus⟩ := ih hitems
    rcases x with err | u
    · cases hx
    · exact ⟨u :: us, rfl, List.forall_mem_cons.2 ⟨Nat.le_of_not_lt (of_decide_eq_false hx), hus⟩⟩

lemma firstBeyond_iff : FirstBeyond limit t tok ↔
    (Lexer.ofText t).items.find? (leaves limit) = some (.ok tok) ∧ tok.kind ≠ .stop := by
  rw [List.find?_eq_some_iff_append]
  constructor
  · rintro ⟨us, more, hitems, hus, hlt, hk⟩
    refine ⟨⟨decide_eq_true hlt, us.map .ok, more, hitems, ?_⟩, hk⟩
    rintro _ hx
    obtain ⟨u, hu, rfl⟩ := List.mem_map.1 hx
    simpa using hus u hu
  · rintro ⟨⟨hleaves, passed, more, hitems, hpassed⟩, hk⟩
    obtain ⟨us, rfl, hus⟩ := exists_passed fun x hx => by simpa using hpassed x hx
    exact ⟨us, more, hitems, hus, of_decide_eq_true hleaves, hk⟩

lemma FirstBeyond.overflowPos_eq (h : FirstBeyond limit t tok) :
    overflowPos limit t = min tok.pos (byteLength (fitting limit t)) := by
  rw [Formula.overflowPos_eq, foundPos, (firstBeyond_iff.1 h).1]

/-- The end lies behind the limit, and is no place for the error. -/
lemma overflowPos_of_none (hlong : limit < byteLength t) (h : ∀ tok, ¬FirstBeyond limit t tok) :
    overflowPos limit t = byteLength (fitting limit t) := by
  rw [overflowPos_eq, foundPos]
  split
  · rename_i tok hfind
    have hstop : tok.kind = .stop := by
      by_contra hk
      exact h tok (firstBeyond_iff.2 ⟨hfind, hk⟩)
    have hpos := (standsAt_of_mem_items (List.mem_of_find?_eq_some hfind)).2 hstop
    have hle := byteLength_fitting_le limit t
    exact Nat.min_eq_right (by omega)
  · rfl

/-! ### The search token by token -/

lemma text_of_stop (h : l.next = (.ok tok, l')) (hstop : tok.kind = .stop) : tok.text = [] := by
  obtain ⟨hmunch, -, -⟩ := Lexer.read_eq_ok h
  have hnil := eq_nil_of_munch_stop (t := l.skipBlanks.rest) (by rw [hmunch, hstop])
  rw [hnil] at hmunch
  exact (congrArg Prod.snd hmunch).symm

/-- The search comes to an end, since the items do. -/
lemma exists_search (hedge : edge ≤ limit) (l : Lexer) :
    ∃ n ≤ l.items.length, Search limit edge l (foundPos limit edge l.items) n := by
  fun_induction Lexer.items l with
  | case1 l tok l' hnext hstop =>
    refine ⟨1, Nat.le_refl _, ?_⟩
    -- the end has no text, so it lies beyond the limit only if it begins there, behind the edge
    have htext := text_of_stop hnext hstop
    have hfound : foundPos limit edge [.ok tok] = edge := by
      have hend : tok.endPos = tok.pos := by rw [Token.endPos, htext, byteLength_nil, Nat.add_zero]
      by_cases hlt : limit < tok.pos
      · simp only [foundPos, List.find?_cons, leaves_ok, hend, hlt, decide_true]
        omega
      · simp [foundPos, hend, hlt]
    rw [hfound]
    exact .stop hnext hstop
  | case2 l tok l' hnext hk ih =>
    by_cases hlt : limit < tok.endPos
    · have hfind : (.ok tok :: l'.items).find? (leaves limit) = some (.ok tok) :=
        List.find?_cons_of_pos (decide_eq_true hlt)
      rw [foundPos, hfind]
      exact ⟨1, by simp, .beyond hnext hk hlt⟩
    · have hfind : (.ok tok :: l'.items).find? (leaves limit) = l'.items.find? (leaves limit) :=
        List.find?_cons_of_neg (by simpa using hlt)
      obtain ⟨n, hn, hsearch⟩ := ih
      rw [foundPos, hfind]
      exact ⟨n + 1, Nat.succ_le_succ hn, .within hnext hk (Nat.le_of_not_lt hlt) hsearch⟩
  | case3 l err l' hnext => exact ⟨1, Nat.le_refl _, .fault hnext⟩

lemma length_items_le (t : Text) : (Lexer.ofText t).items.length ≤ byteLength t + 1 := by
  obtain ⟨ts, q, r, s, hitems, rfl, rfl, -, hlength, -⟩ := exists_tiles t
  rw [hitems, List.length_append, List.length_map, List.length_singleton, byteLength_append]
  omega

/-! ### The tokens before the error -/

lemma mem_items_of_mem_lexed (h : tok ∈ lexed t) : .ok tok ∈ (Lexer.ofText t).items := by
  obtain ⟨_ | _, hmem, heq⟩ := List.mem_filterMap.1 h
  · cases heq
  · cases heq
    exact hmem

lemma exists_firstBeyond (h : tok ∈ lexed t) (hk : tok.kind ≠ .stop) (hlt : limit < tok.endPos) :
    ∃ u, FirstBeyond limit t u := by
  obtain ⟨ts, q, r, s, hitems, -, -, -, -, htokens, hlast⟩ := exists_tiles t
  have hmem := mem_items_of_mem_lexed h
  rw [hitems, List.mem_append, List.mem_singleton] at hmem
  rcases hmem with hmem | hmem
  · obtain ⟨tok', htok, heq⟩ := List.mem_map.1 hmem
    cases heq
    have hsome : (ts.find? (limit < ·.endPos)).isSome :=
      List.find?_isSome.2 ⟨tok, htok, decide_eq_true hlt⟩
    obtain ⟨u, hu⟩ := Option.isSome_iff_exists.1 hsome
    obtain ⟨hbeyond, us, vs, rfl, hus⟩ := List.find?_eq_some_iff_append.1 hu
    refine ⟨u, us, vs.map .ok ++ [Lexer.last q r], by simp [hitems], fun v hv => ?_,
      of_decide_eq_true hbeyond, (htokens u (by simp)).1⟩
    simpa using hus v hv
  · -- the last item is the end or an error
    rcases hlast with rfl | ⟨f, hf⟩
    · rw [Lexer.last_nil] at hmem
      cases hmem
      exact absurd rfl hk
    · rw [hf] at hmem
      cases hmem

/-- Every token before the error ends within the limit. -/
lemma endPos_le_of_lt (hlong : limit < byteLength t) (h : tok ∈ lexed t)
    (hpos : tok.pos < overflowPos limit t) : tok.endPos ≤ limit := by
  have hle := (overflowPos_boundary limit t).2
  by_contra hlt
  by_cases hk : tok.kind = .stop
  · have hend := (standsAt_of_mem_items (mem_items_of_mem_lexed h)).2 hk
    omega
  · obtain ⟨u, hu⟩ := exists_firstBeyond h hk (Nat.lt_of_not_le hlt)
    rw [hu.overflowPos_eq] at hpos
    obtain ⟨us, more, hitems, hus, -⟩ := hu
    have hlexed : lexed t = us ++ u :: more.filterMap Except.toOption := by
      rw [lexed, hitems, List.filterMap_append, filterMap_map_ok]
      rfl
    -- the token comes before the first that leaves the limit
    have hord := lexed_ordered t
    rw [hlexed, List.mem_append, List.mem_cons] at h
    rw [hlexed] at hord
    obtain ⟨-, hright, -⟩ := List.pairwise_append.1 hord
    rcases h with h | rfl | h
    · exact hlt (hus tok h)
    · omega
    · have hafter := (List.pairwise_cons.1 hright).1 tok h
      omega

lemma FirstBeyond.mem_items (h : FirstBeyond limit t tok) :
    .ok tok ∈ (Lexer.ofText t).items := by
  obtain ⟨us, more, hitems, -⟩ := h
  simp [hitems]

/-- The token begins between two characters, so within the limit it begins no later than the last
such place. -/
lemma FirstBeyond.overflowPos_of_le (h : FirstBeyond limit t tok) (hpos : tok.pos ≤ limit) :
    overflowPos limit t = tok.pos := by
  have hboundary := (standsAt_of_mem_items h.mem_items).1.boundary
  rw [h.overflowPos_eq]
  exact Nat.min_eq_left (length_fitting_le hboundary hpos)

/-- **Where a text is reported that is too long.** A text that is longer than allowed fails,
whatever it holds, with an error that says so. Let `b` be the last place between two characters
within the bound. If the lexer comes to a token that does not end within the bound before it comes
to a fault, the error lies where that token begins or at `b`, whichever comes first, and otherwise
at `b`. The search for it ends, after at most one token more than the text has bytes. The error lies
between two characters within the bound, every token that begins before it ends within the bound,
and where the token that does not begins within the bound the error lies exactly where it begins. -/
theorem overlong_position {σ : Type} (table : SymbolTable σ) (o : Options) (t : Text)
    (h : o.maxLength < byteLength t) : ∃ p b n,
    parse table.resolve o t = .error ⟨p, .grammar (.tooLong (byteLength t) o.maxLength)⟩ ∧
    IsGreatest {q | Boundary t q ∧ q ≤ o.maxLength} b ∧
    (∀ tok, FirstBeyond o.maxLength t tok → p = min tok.pos b) ∧
    ((∀ tok, ¬FirstBeyond o.maxLength t tok) → p = b) ∧
    Search o.maxLength b (.ofText t) p n ∧ n ≤ byteLength t + 1 ∧
    Boundary t p ∧ p ≤ o.maxLength ∧
    (∀ tok ∈ lexed t, tok.pos < p → tok.endPos ≤ o.maxLength) ∧
    ∀ tok, FirstBeyond o.maxLength t tok → tok.pos ≤ o.maxLength → p = tok.pos := by
  obtain ⟨n, hn, hsearch⟩ := exists_search (byteLength_fitting_le o.maxLength t) (.ofText t)
  rw [← overflowPos_eq] at hsearch
  obtain ⟨hboundary, hle⟩ := overflowPos_boundary o.maxLength t
  refine ⟨overflowPos o.maxLength t, byteLength (fitting o.maxLength t), n, ?_,
    isGreatest_fitting o.maxLength t, fun tok htok => htok.overflowPos_eq,
    overflowPos_of_none h, hsearch, Nat.le_trans hn (length_items_le t), hboundary, hle,
    fun tok htok hpos => endPos_le_of_lt h htok hpos,
    fun tok htok hpos => htok.overflowPos_of_le hpos⟩
  rw [parse, if_pos h]

/-- In `x+12` the number begins within three bytes and ends behind them. The error lies where it
begins, although there is a character more within the bound. -/
theorem overlong_position_number : 3 < byteLength ['x', '+', '1', '2'] ∧
    parse xfTable.resolve ⟨true, 8, 3⟩ ['x', '+', '1', '2'] =
      .error ⟨2, .grammar (.tooLong 4 3)⟩ ∧
    (∀ tok ∈ lexed ['x', '+', '1', '2'], tok.pos < 2 → tok.endPos ≤ 3) ∧
    ∃ n ≤ 5, ∃ b, Search 3 b (.ofText ['x', '+', '1', '2']) 2 n := by
  obtain ⟨p, b, n, hparse, -, -, -, hsearch, hn, -, -, hbefore, -⟩ :=
    overlong_position xfTable ⟨true, 8, 3⟩ ['x', '+', '1', '2'] (by decide)
  have hat : parse xfTable.resolve ⟨true, 8, 3⟩ ['x', '+', '1', '2'] =
      .error ⟨2, .grammar (.tooLong 4 3)⟩ := failure?_eq_some.1 (by decide +kernel)
  obtain rfl : 2 = p := by
    rw [hat] at hparse
    injection hparse with herr
    injection herr
  exact ⟨by decide, hat, hbefore, n, hn, b, hsearch⟩

end Formula
