import Formula.Proofs.Parser.Sentence

/-!
What the bound on nesting does.

A parser with few levels of nesting does what the parser with more levels does, until it wants a
level that it may not open. It then fails for that reason, and has met a token for every level
that it opened. So a bound above the length of a text is none, and a text that reads as a tree
parses from the number of levels on that it needs. Counting the levels that are open comes to the
same as counting those that are left.
-/

namespace Formula

open Grammar

/-- The lexer knows nothing of levels. -/
lemma Lexer.fault_of_next {l l' : Lexer} {err : ParseError} (h : l.next = (.error err, l'))
    (k : ℕ) : err.fault ≠ .tooDeep k := by
  unfold next read at h
  split at h
  · cases h
  · cases h
    exact nofun

namespace Parser

variable {α β γ : Type} {strict : Prop} {c d : Cursor} {room levels limit : ℕ}

/-- The outcome of a parser with few levels beside the outcome of one with more: the same, and no
want of levels, or else the want of levels, with at least `room` tokens left where they began. If
`strict`, the other parser wants the levels too. -/
inductive Cut (strict : Prop) (room limit : ℕ) (c : Cursor) : Outcome α → Outcome α → Prop
  | ok {a : α} {d : Cursor} : d.depth = c.depth → Cut strict room limit c (.ok a d) (.ok a d)
  | fail {err : ParseError} {reads : ℕ} : (∀ k, err.fault ≠ .tooDeep k) →
      Cut strict room limit c (.fail err reads) (.fail err reads)
  | deep {pos reads : ℕ} {more : Outcome α} : room ≤ c.size →
      (strict → more = .fail ⟨pos, .tooDeep limit⟩ reads) →
      Cut strict room limit c (.fail ⟨pos, .tooDeep limit⟩ reads) more

/-- The parser `p` does what `q` does but for the want of levels. -/
def Cuts (strict : Prop) (room levels limit : ℕ) (p q : Parser α) : Prop :=
  ∀ c : Cursor, c.depth + levels = limit → Cut strict room limit c (p.run c) (q.run c)

/-- What happens at a later cursor happens to the parser that came there. -/
lemma Cut.before {room' : ℕ} {out more : Outcome α} (h : Cut strict room limit d out more)
    (hdepth : d.depth = c.depth) (hroom : room ≤ d.size → room' ≤ c.size) :
    Cut strict room' limit c out more := by
  cases h with
  | ok hd => exact .ok (hd.trans hdepth)
  | fail herr => exact .fail herr
  | deep hle hmore => exact .deep (hroom hle) hmore

lemma Cut.bind {p q : Parser α} {f g : α → Parser β}
    (h : Cut strict room limit c (p.run c) (q.run c))
    (hf : ∀ a d, d.depth = c.depth → d.size ≤ c.size →
      Cut strict room limit d ((f a).run d) ((g a).run d)) :
    Cut strict room limit c ((p >>= f).run c) ((q >>= g).run c) := by
  rw [run_bind, run_bind]
  generalize hp : p.run c = out at h ⊢
  generalize q.run c = more at h ⊢
  cases h with
  | ok hd =>
    have hle := p.size_le hp
    exact (hf _ _ hd hle).before hd fun hroom => Nat.le_trans hroom hle
  | fail herr => exact .fail herr
  | deep hle hmore => exact .deep hle fun h => by rw [hmore h]

lemma fault_of_next {err : ParseError} {reads : ℕ} (h : next.run c = .fail err reads) (k : ℕ) :
    err.fault ≠ .tooDeep k := by
  unfold next at h
  simp only at h
  split at h
  · cases h
  · cases h
    exact Lexer.fault_of_next (by assumption) k

/-- A token that is consumed makes room for one more level. -/
lemma Cut.consume {f g : Token → Parser α} (hstop : c.current.kind ≠ .stop)
    (h : ∀ t d, d.depth = c.depth → d.size < c.size →
      Cut strict room limit d ((f t).run d) ((g t).run d)) :
    Cut strict (room + 1) limit c ((next >>= f).run c) ((next >>= g).run c) := by
  rw [run_bind, run_bind]
  rcases hn : next.run c with ⟨t, d⟩ | ⟨err, reads⟩
  · have hdepth := (Cursor.next_eq_ok hn).2.1
    have hlt := size_lt_of_next hn hstop
    exact (h t d hdepth hlt).before hdepth fun hroom => by omega
  · exact .fail (fault_of_next hn)

namespace Cuts

lemma bind {p q : Parser α} {f g : α → Parser β} (h : Cuts strict room levels limit p q)
    (hf : ∀ a, Cuts strict room levels limit (f a) (g a)) :
    Cuts strict room levels limit (p >>= f) (q >>= g) :=
  fun c hc => (h c hc).bind fun a d hd _ => hf a d (by omega)

lemma pure (a : α) : Cuts strict room levels limit (pure a) (pure a) := fun _ _ => .ok rfl

/-- What follows may depend on the current token. -/
lemma current {f g : Token → Parser α} (h : ∀ c : Cursor, c.depth + levels = limit →
      Cut strict room limit c ((f c.current).run c) ((g c.current).run c)) :
    Cuts strict room levels limit (Parser.current >>= f) (Parser.current >>= g) := h

lemma next : Cuts strict room levels limit next next := by
  intro c _
  rcases hn : Parser.next.run c with ⟨t, d⟩ | ⟨err, reads⟩
  · exact .ok (Cursor.next_eq_ok hn).2.1
  · exact .fail (fault_of_next hn)

lemma many {wanted : Token.Kind → Option γ} {p q : Parser α} (h : Cuts strict room levels limit p q)
    (hstop : wanted .stop = none) :
    Cuts strict room levels limit (many wanted p hstop) (many wanted q hstop) := by
  intro c hc
  induction hn : c.size using Nat.strongRecOn generalizing c with
  | ind n ih =>
    rw [run_many, run_many]
    rcases hg : wanted c.current.kind with _ | g
    · exact .ok rfl
    · have hstop' : c.current.kind ≠ .stop := fun hk => by simp [hk, hstop] at hg
      refine (?_ : Cut strict (room + 1) limit c _ _).before rfl fun hroom => by omega
      refine .consume hstop' fun _ d hd hlt => (h d (by omega)).bind fun a d' hd' hle => ?_
      refine (ih d'.size (by omega) d' (by omega) rfl).bind fun as _ _ _ => ?_
      exact .ok rfl

lemma tooDeep {q : Parser α} : Cuts False 0 0 limit tooDeep q := by
  intro c hc
  rw [Nat.add_zero] at hc
  subst hc
  exact .deep (Nat.zero_le _) False.elim

lemma nested {p q : Parser α} (h : Cuts strict room levels limit p q) :
    Cuts strict room (levels + 1) limit (nested p) (nested q) := by
  intro c hc
  have h : Cut strict room limit { c with depth := c.depth + 1 }
      (p.run { c with depth := c.depth + 1 }) (q.run { c with depth := c.depth + 1 }) :=
    h _ (by simp only; omega)
  simp only [Parser.nested]
  generalize p.run _ = out at h ⊢
  generalize q.run _ = out' at h ⊢
  cases h with
  | ok hd => exact .ok (by simp [hd])
  | fail herr => exact .fail herr
  | deep hroom hmore => exact .deep hroom fun h => by rw [hmore h]

end Cuts

/-! ### One level -/

section Level

variable {resolve : Text → Option Meaning} {p q : Parser Expr}
  (h : Cuts strict levels levels limit p q)
include h

lemma cuts_factor : Cuts strict levels levels limit (factor p) (factor q) :=
  h.bind fun _ => (h.many rfl).bind fun _ => .pure _

lemma cuts_term : Cuts strict levels levels limit (term p) (term q) :=
  (cuts_factor h).bind fun _ => ((cuts_factor h).many rfl).bind fun _ => .pure _

lemma cuts_expr : Cuts strict levels levels limit (expr p) (expr q) :=
  (cuts_term h).bind fun _ => ((cuts_term h).many rfl).bind fun _ => .pure _

lemma cuts_args : Cuts strict levels levels limit (args p) (args q) := by
  refine .current fun c hc => ?_
  split
  · exact .ok rfl
  · refine ((cuts_expr h).bind fun a => ((cuts_expr h).many rfl).bind fun r =>
      .current fun d _ => ?_) c hc
    split
    · exact .ok rfl
    · exact .fail (by simp)

lemma cuts_call (name : Text) (callee : Callee) (arity : ℕ) :
    Cuts strict levels levels limit (call p name callee arity) (call q name callee arity) := by
  refine .bind .next fun paren => (cuts_args h).bind fun as => .bind .next fun _ => ?_
  split
  · exact .pure _
  · exact fun _ _ => .fail (by simp)

lemma cuts_group : Cuts strict levels levels limit (group p) (group q) := by
  refine (cuts_expr h).bind fun e => .current fun c hc => ?_
  split
  · exact (Cuts.next.bind fun _ => .pure e) c hc
  · exact .fail (by simp)

/-- A name is consumed before its arguments are read. -/
lemma cut_named (hc : c.depth + levels = limit) (hword : c.current.kind = .word) :
    Cut strict (levels + 1) limit c ((named resolve p).run c) ((named resolve q).run c) := by
  refine .consume (by simp [hword]) fun name d hd _ => ?_
  have hd' : d.depth + levels = limit := by omega
  refine Cuts.current (fun d hd => ?_) d hd'
  split
  · exact .fail (by simp)
  · split
    · exact .fail (by simp)
    · exact .ok rfl
  · split
    · exact cuts_call h _ _ _ d hd
    · split
      · exact .ok rfl
      · exact .fail (by simp)

lemma cuts_atom : Cuts strict (levels + 1) levels limit (atom resolve p) (atom resolve q) := by
  refine .current fun c hc => ?_
  split
  · exact (Cuts.next.bind fun _ => .pure _) c hc
  · exact cut_named h hc (by assumption)
  · exact .consume (by simp [*]) fun _ d hd _ => cuts_group h d (by omega)
  · exact .fail (by simp)

lemma cuts_power : Cuts strict (levels + 1) levels limit (power resolve p) (power resolve q) := by
  refine (cuts_atom h).bind fun a => .current fun c hc => ?_
  split
  · rename_i o ho
    have hstop : c.current.kind ≠ .stop := fun hk => by simp [hk, powerOperator?] at ho
    exact .consume hstop fun _ d hd _ => (h.bind fun b => .pure _) d (by omega)
  · exact .ok rfl

lemma cuts_signed :
    Cuts strict (levels + 1) levels limit (signed resolve p) (signed resolve q) := by
  refine .current fun c hc => ?_
  have hstop {o : Operator} (ho : sumOperator? c.current.kind = some o) :
      c.current.kind ≠ .stop := fun hk => by simp [hk, sumOperator?] at ho
  split
  · exact .consume (hstop (by assumption)) fun _ d hd _ => (h.bind fun a => .pure _) d (by omega)
  · exact .consume (hstop (by assumption)) fun _ d hd _ => h d (by omega)
  · exact cuts_power h c hc

end Level

/-! ### All levels -/

section Table

variable {resolve : Text → Option Meaning}

/-- The parser of few levels fails only where it has met a token for each of them. -/
theorem cuts_baseWithin {more : ℕ} (hle : levels ≤ more) :
    Cuts False levels levels limit (baseWithin resolve levels) (baseWithin resolve more) := by
  induction levels generalizing more with
  | zero => exact .tooDeep
  | succ levels ih =>
    obtain ⟨more, rfl⟩ : ∃ k, more = k + 1 := ⟨more - 1, by omega⟩
    exact (cuts_signed (ih (Nat.le_of_succ_le_succ hle))).nested

lemma cuts_sentence {more : ℕ} (hle : levels ≤ more) :
    Cuts False levels levels limit (sentence resolve levels) (sentence resolve more) := by
  refine (cuts_expr (cuts_baseWithin hle)).bind fun e => .current fun c _ => ?_
  split
  · exact .ok rfl
  · exact .fail (by simp)

end Table

/-! ### Levels counted by the cursor -/

section Counted

variable {resolve : Text → Option Meaning} {base : Parser Expr}

/-- The base of the grammar if the cursor counts the levels: each one opens a level for the next,
unless more than `limit` levels would be open. -/
def Counted (resolve : Text → Option Meaning) (limit : ℕ) (base : Parser Expr) : Prop :=
  ∀ c : Cursor, base.run c =
    if limit < c.depth + 1 then .fail ⟨c.current.pos, .tooDeep limit⟩ c.reads
    else (nested (signed resolve base)).run c

/-- The base that opens as many levels as the cursor leaves of the bound. -/
def countedBase (resolve : Text → Option Meaning) (limit : ℕ) : Parser Expr where
  run c :=
    if limit < c.depth + 1 then .fail ⟨c.current.pos, .tooDeep limit⟩ c.reads
    else (baseWithin resolve (limit - c.depth)).run c
  size_le h := by
    split at h
    · cases h
    · exact (baseWithin resolve _).size_le h

lemma eq_of_run {p q : Parser α} (h : ∀ c, p.run c = q.run c) : p = q := by
  obtain ⟨p, hp⟩ := p
  obtain ⟨q, hq⟩ := q
  obtain rfl : p = q := funext h
  rfl

lemma Cut.eq {out more : Outcome α} (h : Cut True room limit c out more) : out = more := by
  cases h with
  | ok _ => rfl
  | fail _ => rfl
  | deep _ hmore => exact (hmore trivial).symm

/-- Whatever a parser with more levels does, one with few does the same as itself. -/
lemma Cut.self {out more : Outcome α} (h : Cut strict room limit c out more) :
    Cut True room limit c out out := by
  cases h with
  | ok hd => exact .ok hd
  | fail herr => exact .fail herr
  | deep hle _ => exact .deep hle fun _ => rfl

lemma run_tooDeep (hc : c.depth = limit) :
    (tooDeep : Parser α).run c = .fail ⟨c.current.pos, .tooDeep limit⟩ c.reads := by
  rw [← hc]
  rfl

lemma cuts_counted (hbase : Counted resolve limit base) (levels : ℕ) :
    Cuts True levels levels limit (baseWithin resolve levels) base := by
  induction levels with
  | zero =>
    intro c hc
    rw [hbase c, if_pos (by omega), baseWithin, run_tooDeep hc]
    exact .deep (Nat.zero_le _) fun _ => rfl
  | succ levels ih =>
    intro c hc
    rw [hbase c, if_neg (by omega)]
    exact (cuts_signed ih).nested c hc

lemma cuts_countedBase (levels : ℕ) :
    Cuts True levels levels limit (baseWithin resolve levels) (countedBase resolve limit) := by
  intro c hc
  have hrun : (countedBase resolve limit).run c = (baseWithin resolve levels).run c := by
    simp only [countedBase]
    split
    · obtain rfl : levels = 0 := by omega
      exact (run_tooDeep hc).symm
    · rw [show limit - c.depth = levels by omega]
  rw [hrun]
  exact (cuts_baseWithin (Nat.le_refl levels) c hc).self

lemma counted_countedBase (resolve : Text → Option Meaning) (limit : ℕ) :
    Counted resolve limit (countedBase resolve limit) := by
  intro c
  by_cases hc : limit < c.depth + 1
  · simp only [countedBase, if_pos hc]
  · obtain ⟨levels, hlevels⟩ : ∃ levels, c.depth + (levels + 1) = limit :=
      ⟨limit - (c.depth + 1), by omega⟩
    rw [if_neg hc, ← (cuts_countedBase _ c hlevels).eq]
    exact ((cuts_signed (cuts_countedBase levels)).nested c hlevels).eq

/-- **The levels left are those that the cursor has not counted.** One base, and no other, counts
the open levels against the bound, and fails with the bound if there would be one too many. Where
the open levels and those left add up to the bound, a base and an expression with these levels left
do what they do with the counting base. So it makes no difference which of the two is asked, and
the number that is given for the want of levels is the bound. -/
theorem counted_levels (resolve : Text → Option Meaning) (limit : ℕ) :
    ∃ base, (∀ base', Counted resolve limit base' ↔ base' = base) ∧
      ∀ levels c, c.depth + levels = limit →
        (baseWithin resolve levels).run c = base.run c ∧
          (expr (baseWithin resolve levels)).run c = (expr base).run c := by
  refine ⟨countedBase resolve limit, fun base => ⟨fun h => eq_of_run fun c => ?_, ?_⟩,
    fun levels c hc => ?_⟩
  · by_cases hc : limit < c.depth + 1
    · rw [h c, if_pos hc]
      exact (if_pos hc).symm
    · have hlevels : c.depth + (limit - c.depth) = limit := by omega
      rw [← (cuts_counted h _ c hlevels).eq, ← (cuts_countedBase _ c hlevels).eq]
  · rintro rfl
    exact counted_countedBase resolve limit
  · have hbase : Cuts True levels levels limit (baseWithin resolve levels)
        (countedBase resolve limit) := cuts_countedBase levels
    exact ⟨(hbase c hc).eq, (cuts_expr hbase c hc).eq⟩

end Counted

end Parser

/-! ### Texts -/

open Formula.Parser

variable {resolve : Text → Option Meaning} {t : Text} {e e' : Expr} {m n : ℕ}

lemma length_le_byteLength (t : Text) : t.length ≤ byteLength t := by
  induction t with
  | nil => exact Nat.le_refl 0
  | cons c cs ih =>
    have hpos := c.utf8Size_pos
    rw [List.length_cons, byteLength_cons]
    omega

namespace Cursor

variable {c : Cursor}

/-- A text has no more tokens than characters. -/
lemma size_of_start (h : start t = .ok c) : c.size ≤ t.length := by
  unfold start at h
  split at h
  · rename_i tok l hn
    cases h
    exact size_next (c := ⟨Lexer.ofText t, ⟨.comma, [], 0⟩, 0, 0, fun h => by cases h⟩) hn
  · cases h

lemma fault_of_start {err : ParseError} (h : start t = .error err) (k : ℕ) :
    err.fault ≠ .tooDeep k := by
  unfold start at h
  split at h
  · cases h
  · cases h
    exact Lexer.fault_of_next (by assumption) k

end Cursor

/-- What a text comes to if `d` levels of nesting may be opened. -/
def parseWithin (resolve : Text → Option Meaning) (o : Options) (t : Text) (d : ℕ) :
    Except ParseError Expr :=
  parse resolve { o with maxDepth := d } t

/-- A text comes to the same within few levels as within more, unless it wants more of them, and
then it has a byte for each of the few. -/
lemma parseWithin_cases (o : Options) (t : Text) {d more : ℕ} (hle : d ≤ more) :
    (parseWithin resolve o t d = parseWithin resolve o t more ∧
      ∀ pos k, parseWithin resolve o t d ≠ .error ⟨pos, .tooDeep k⟩) ∨
    d ≤ byteLength t ∧ ∃ pos, parseWithin resolve o t d = .error ⟨pos, .tooDeep d⟩ := by
  unfold parseWithin parse parseText
  split
  · exact .inl ⟨rfl, nofun⟩
  · rcases hs : Cursor.start t with err | c
    · refine .inl ⟨rfl, fun pos k h => Cursor.fault_of_start hs k ?_⟩
      cases h
      rfl
    · have hcut : Cut False d d c ((sentence resolve d).run c) ((sentence resolve more).run c) :=
        cuts_sentence hle c (by rw [(Cursor.items_of_start hs).1, Nat.zero_add])
      have hsize := Cursor.size_of_start hs
      have hbytes := length_le_byteLength t
      simp only
      generalize (sentence resolve d).run c = out at hcut ⊢
      generalize (sentence resolve more).run c = out' at hcut ⊢
      cases hcut with
      | ok _ => exact .inl ⟨rfl, nofun⟩
      | fail herr =>
        refine .inl ⟨rfl, fun pos k h => herr k ?_⟩
        cases h
        rfl
      | deep hroom _ => exact .inr ⟨by omega, _, rfl⟩

/-- The text reads as the tree and needs `n` levels of nesting. -/
def Needs (resolve : Text → Option Meaning) (t : Text) (e : Expr) (n : ℕ) : Prop :=
  ∃ ts, Words t ts ∧ Reads Eq resolve .expr ts [e] n

lemma parseWithin_of_needs {o : Options} (hlen : byteLength t ≤ o.maxLength)
    (h : Needs resolve t e n) (d : ℕ) :
    (n ≤ d → parseWithin resolve o t d = .ok e) ∧
      (d < n → ∃ pos, parseWithin resolve o t d = .error ⟨pos, .tooDeep d⟩) := by
  obtain ⟨ts, hw, hread⟩ := h
  have hlen' : byteLength t ≤ { o with maxDepth := d }.maxLength := hlen
  exact parse_of_reads hlen' hw hread

/-- One tree and one need are all that a text has. -/
lemma needs_unique (h : Needs resolve t e n) (h' : Needs resolve t e' m) : e' = e ∧ m = n := by
  have hlen : byteLength t ≤ (Options.mk true 0 (byteLength t)).maxLength := Nat.le_refl _
  have hle {e e' : Expr} {m n : ℕ} (h : Needs resolve t e n) (h' : Needs resolve t e' m) :
      n ≤ m := by
    by_contra hlt
    obtain ⟨pos, hdeep⟩ := (parseWithin_of_needs hlen h m).2 (Nat.lt_of_not_le hlt)
    cases hdeep.symm.trans ((parseWithin_of_needs hlen h' m).1 (Nat.le_refl m))
  obtain rfl := Nat.le_antisymm (hle h' h) (hle h h')
  have hok := (parseWithin_of_needs hlen h m).1 (Nat.le_refl m)
  have hok' := (parseWithin_of_needs hlen h' m).1 (Nat.le_refl m)
  exact ⟨Except.ok.inj (hok'.symm.trans hok), rfl⟩

/-- **Nesting costs what it needs**: a bound above the number of bytes is none. With any bound a
text comes to what it comes to without, or fails for want of levels. A text that parses without a
bound has one tree and one need of levels, and parses within a bound if and only if the bound is
not below the need; so more levels do no harm. A chain of operands needs what the deepest of them
needs. -/
theorem parseWithin_need (resolve : Text → Option Meaning) (o : Options) (t : Text) (free : ℕ)
    (hfree : byteLength t < free) :
    (∀ pos k, parseWithin resolve o t free ≠ .error ⟨pos, .tooDeep k⟩) ∧
    (∀ d, parseWithin resolve o t d = parseWithin resolve o t free ∨
      ∃ pos, parseWithin resolve o t d = .error ⟨pos, .tooDeep d⟩) ∧
    (∀ e, parseWithin resolve o t free = .ok e →
      ∃ n, (∀ e' m, Needs resolve t e' m ↔ e' = e ∧ m = n) ∧
        ∀ d, (n ≤ d → parseWithin resolve o t d = .ok e) ∧
          (d < n → ∃ pos, parseWithin resolve o t d = .error ⟨pos, .tooDeep d⟩)) ∧
    (∀ d d' e, d ≤ d' → parseWithin resolve o t d = .ok e → parseWithin resolve o t d' = .ok e) ∧
    (∀ u v a r m n, Tree resolve .term u a m → Chain sumOperator? (Tree resolve .term) v r n →
      Tree resolve .expr (u ++ v) (joinLeft a r) (max m n)) ∧
    (∀ u v a r m n, Tree resolve .base u a m → Chain productOperator? (Tree resolve .base) v r n →
      Tree resolve .term (u ++ v) (joinLeft a r) (max m n)) := by
  refine ⟨?_, fun d => ?_, fun e he => ?_, fun d d' e hle he => ?_, ?_, ?_⟩
  · rcases parseWithin_cases o t (Nat.le_refl free) with ⟨-, hnot⟩ | ⟨hle, -⟩
    · exact hnot
    · omega
  · rcases Nat.le_total d free with hle | hle
    · exact (parseWithin_cases o t hle).imp And.left And.right
    · rcases parseWithin_cases o t hle with ⟨heq, -⟩ | ⟨hle', -⟩
      · exact .inl heq.symm
      · omega
  · obtain ⟨hlen, ts, n, hw, hread, -⟩ := reads_of_parse he
    have hneeds : Needs resolve t e n := ⟨ts, hw, hread⟩
    refine ⟨n, fun e' m => ⟨needs_unique hneeds, ?_⟩, parseWithin_of_needs hlen hneeds⟩
    rintro ⟨rfl, rfl⟩
    exact hneeds
  · rcases parseWithin_cases o t hle with ⟨heq, -⟩ | ⟨-, pos, hdeep⟩
    · exact heq.symm.trans he
    · cases hdeep.symm.trans he
  · intro u v a r m n hu hv
    refine joinLeft_of_chain (fun ha ht hb => ?_) (.sumOf hu) hv
    obtain ⟨ht, ho⟩ := sumOperator?_eq_some.1 ht
    exact .sum ha ht ho hb
  · intro u v a r m n hu hv
    refine joinLeft_of_chain (fun ha ht hb => ?_) (.productOf hu) hv
    obtain ⟨ht, ho⟩ := productOperator?_eq_some.1 ht
    exact .product ha ht ho hb

/-- The text `-x^-2*f(x,(+x))` needs four levels. -/
theorem signedPower_need : byteLength signedPower < 16 ∧
    ∃ e, parseWithin xfTable.resolve ⟨true, 0, 15⟩ signedPower 16 = .ok e ∧
      ∀ e' m, Needs xfTable.resolve signedPower e' m ↔ e' = e ∧ m = 4 := by
  have hbytes : byteLength signedPower < 16 := by decide
  have hfree : (parseWithin xfTable.resolve ⟨true, 0, 15⟩ signedPower 16).isOk := by
    decide +kernel
  have hfour : (parseWithin xfTable.resolve ⟨true, 0, 15⟩ signedPower 4).isOk := by
    decide +kernel
  have hthree : (parseWithin xfTable.resolve ⟨true, 0, 15⟩ signedPower 3).isOk = false := by
    decide +kernel
  refine ⟨hbytes, ?_⟩
  rcases he : parseWithin xfTable.resolve ⟨true, 0, 15⟩ signedPower 16 with err | e
  · rw [he] at hfree
    cases hfree
  · obtain ⟨n, hn, hwithin⟩ :=
      (parseWithin_need xfTable.resolve ⟨true, 0, 15⟩ signedPower 16 hbytes).2.2.1 e he
    have hle : n ≤ 4 := by
      by_contra hlt
      obtain ⟨pos, hdeep⟩ := (hwithin 4).2 (Nat.lt_of_not_le hlt)
      rw [hdeep] at hfour
      cases hfour
    have hlt : 3 < n := by
      by_contra hle
      rw [(hwithin 3).1 (Nat.le_of_not_lt hle)] at hthree
      cases hthree
    obtain rfl : n = 4 := by omega
    exact ⟨e, rfl, hn⟩

end Formula
