import Formula.Proofs.Parser.Calls
import Formula.Proofs.Parser.FirstError

/-!
Which wrong number of arguments is reported.

The parser counts the arguments of a call when it comes to the parenthesis that closes them. So
whatever it has consumed, the calls that ended there were right, and the first that is not is the
one it reports. Main statement: `first_wrong_call_reported`.
-/

namespace Formula

open Cursor (Reach)
open Formula.Grammar Formula.Parser

/-- The number of arguments is wrong. -/
def ParseFault.Counts : ParseFault → Prop
  | .arity .. => True
  | _ => False

variable {α β γ : Type} {resolve : Text → Option Meaning} {us ts : List Token} {c d e : Cursor}
  {err : ParseError} {cat : Cat} {levels : ℕ}

lemma ParseFault.Breaks.not_counts {f : ParseFault} (h : f.Breaks) : ¬f.Counts := by
  cases f <;> simp_all [Breaks, Counts]

/-- On the way to the end of the text the parser consumes the same tokens. -/
lemma Cursor.Reach.rest (h : Reach c us d) (hend : Reach c ts e) (he : e.current.kind = .stop) :
    ∃ vs, ts = us ++ vs ∧ Reach d vs e := by
  induction h generalizing ts with
  | refl c => exact ⟨ts, rfl, hend⟩
  | head hk hn _ ih =>
    cases hend with
    | refl => exact absurd he hk
    | head _ hn' hend =>
      cases hn.symm.trans hn'
      obtain ⟨vs, rfl, hvs⟩ := ih hend
      exact ⟨vs, rfl, hvs⟩

namespace Parser

/-- The last of the tokens ends the first call that is not right, and the error is about it. -/
inductive Noticed (resolve : Text → Option Meaning) : List Token → ParseError → Prop
  | closed {us : List Token} {r : Token} (call : Call resolve (us ++ [r])) : call.upTo = us →
      AllRight resolve us → ¬call.Right → Noticed resolve (us ++ [r]) call.error

/-- The outcome of a parser that runs after the tokens `us`: a wrong number of arguments is
noticed where the call ends. -/
inductive Audited (resolve : Text → Option Meaning) (us : List Token) (c : Cursor) :
    Outcome α → Prop
  | ok {a : α} {d : Cursor} : Audited resolve us c (.ok a d)
  | fail {err : ParseError} {reads : ℕ} : (err.fault.Counts → ∃ ts d, Reach c ts d ∧
      Noticed resolve (us ++ ts) err) → Audited resolve us c (.fail err reads)

namespace Audited

/-- What happens at a later cursor happens to the parser that came there. -/
lemma before {out : Outcome α} (hr : Reach c ts d) (h : Audited resolve (us ++ ts) d out) :
    Audited resolve us c out := by
  cases h with
  | ok => exact .ok
  | fail h =>
    refine .fail fun hf => ?_
    obtain ⟨ts', e, hr', hn⟩ := h hf
    exact ⟨_, e, hr.trans hr', List.append_assoc us ts ts' ▸ hn⟩

lemma bind {p : Parser α} {f : α → Parser β} (h : Audited resolve us c (p.run c))
    (hf : ∀ a d, p.run c = .ok a d →
      ∃ ts, Reach c ts d ∧ Audited resolve (us ++ ts) d ((f a).run d)) :
    Audited resolve us c ((p >>= f).run c) := by
  rw [run_bind]
  generalize hp : p.run c = out at h ⊢
  cases h with
  | ok =>
    obtain ⟨ts, hr, h⟩ := hf _ _ hp
    exact h.before hr
  | fail h => exact .fail h

/-- What is made of the value is not about calls. -/
lemma map {p : Parser α} {g : α → β} (h : Audited resolve us c (p.run c)) :
    Audited resolve us c ((p >>= fun a => pure (g a)).run c) := by
  rw [run_bind]
  generalize p.run c = out at h ⊢
  cases h with
  | ok => exact .ok
  | fail h => exact .fail h

/-- Other errors are not about calls. -/
lemma other {f : Token → ParseFault} (h : ¬(f c.current).Counts) :
    Audited resolve us c ((Parser.fail f : Parser α).run c) := .fail fun hf => absurd hf h

lemma consume {f : Token → Parser α} (hk : c.current.kind ≠ .stop)
    (h : ∀ d, next.run c = .ok c.current d →
      Audited resolve (us ++ [c.current]) d ((f c.current).run d)) :
    Audited resolve us c ((next >>= f).run c) := by
  rw [run_bind]
  rcases hn : c.lexer.next with ⟨err | t, l⟩
  · rw [fail_of_next hn]
    exact .fail fun hf => absurd hf (Lexer.breaks_of_next hn).not_counts
  · obtain ⟨d, hd, -, -⟩ := Cursor.exists_next hn
    rw [hd]
    exact (h d hd).before (.single hk hd)

lemma nested {p : Parser α} (h : Audited resolve us { c with depth := c.depth + 1 }
    (p.run { c with depth := c.depth + 1 })) : Audited resolve us c ((Parser.nested p).run c) := by
  simp only [Parser.nested]
  generalize p.run _ = out at h ⊢
  cases h with
  | ok => exact .ok
  | fail h =>
    refine .fail fun hf => ?_
    obtain ⟨ts, d, hr, hn⟩ := h hf
    exact ⟨ts, _, hr.withDepth c.depth, hn⟩

end Audited

/-- Where an operand begins: all calls that have ended are right, and no name waits for its
arguments. -/
structure Clear (resolve : Text → Option Meaning) (us : List Token) : Prop where
  allRight : AllRight resolve us
  endsNoName : EndsNoName us

namespace Clear

lemma nil : Clear resolve [] := ⟨.nil, endsNoName_nil⟩

lemma snoc {t : Token} (h : AllRight resolve us) (hword : t.kind ≠ .word)
    (hclose : t.kind ≠ .rightParen) : Clear resolve (us ++ [t]) :=
  ⟨h.snoc hclose, endsNoName_snoc hword⟩

/-- What the parser accepts has right calls only. -/
lemma read {es : List Expr} {n : ℕ} (h : Clear resolve us) (hread : Reads Eq resolve cat ts es n) :
    AllRight resolve (us ++ ts) :=
  h.allRight.append h.endsNoName hread.derives.allRight hread.derives.balanced

end Clear

/-- The parser reports the first call that is not right. -/
def Audits (resolve : Text → Option Meaning) (p : Parser α) : Prop :=
  ∀ us c, Clear resolve us → Audited resolve us c (p.run c)

/-- What follows an operand finds all calls right that have ended. -/
lemma Audits.bind {p : Parser Expr} {f : Expr → Parser α} (h : Audits resolve p)
    (hsound : Sound p (Tree resolve cat) levels) (hus : Clear resolve us)
    (hf : ∀ a ts d, AllRight resolve (us ++ ts) →
      Audited resolve (us ++ ts) d ((f a).run d)) :
    Audited resolve us c ((p >>= f).run c) := by
  refine (h us c hus).bind fun a d ha => ?_
  obtain ⟨ts, n, hr, hread, -⟩ := hsound ha
  exact ⟨ts, hr, hf a ts d (hus.read hread)⟩

/-- The token is neither a name nor a closing parenthesis. -/
def Links (k : Token.Kind) : Prop := k ≠ .word ∧ k ≠ .rightParen

/-- A loop over operands, after an operand. -/
lemma Audited.many {wanted : Token.Kind → Option γ} {item : Parser Expr}
    (hitem : Audits resolve item) (hsound : Sound item (Tree resolve cat) levels)
    (hstop : wanted .stop = none) (hlinks : ∀ k g, wanted k = some g → Links k)
    (hus : AllRight resolve us) :
    Audited resolve us c ((many wanted item hstop).run c) := by
  induction hn : c.size using Nat.strongRecOn generalizing us c with
  | ind n ih =>
    rw [run_many]
    rcases hg : wanted c.current.kind with _ | g
    · exact .ok
    · obtain ⟨hword, hclose⟩ := hlinks _ _ hg
      have hk : c.current.kind ≠ .stop := fun hk => by simp [hk, hstop] at hg
      have hclear : Clear resolve (us ++ [c.current]) := .snoc hus hword hclose
      refine .consume hk fun d hd => (hitem _ d hclear).bind fun a e he => ?_
      obtain ⟨ts, n, hr, hread, -⟩ := hsound he
      have hlt := size_lt_of_wanted hstop hg hd he
      exact ⟨ts, hr, (ih e.size (by omega) (hclear.read hread) rfl).map⟩

/-- Operands with operators between them. -/
lemma Audits.joined {wanted : Token.Kind → Option Operator} {item : Parser Expr}
    (hitem : Audits resolve item) (hsound : Sound item (Tree resolve cat) levels)
    (hstop : wanted .stop = none) (hwanted : ∀ k o, wanted k = some o → k = .operator o)
    (join : Expr → List (Operator × Expr) → Expr) :
    Audits resolve (do
      let a ← item
      let r ← Parser.many wanted item hstop
      pure (join a r)) := by
  intro us c hus
  have hlinks (k : Token.Kind) (o : Operator) (h : wanted k = some o) : Links k := by
    rw [hwanted k o h]
    exact ⟨nofun, nofun⟩
  exact hitem.bind hsound hus fun a ts d hts => (Audited.many hitem hsound hstop hlinks hts).map

/-! ### One level -/

section Level

variable {base : Parser Expr} (hbase : Sound base (Tree resolve .base) levels)
  (hpower : ∀ ⦃c a d⦄, base.run c = .ok a d → powerOperator? d.current.kind = none)
  (haudit : Audits resolve base)
include hbase hpower haudit

omit hpower in
lemma audits_factor : Audits resolve (factor base) :=
  haudit.joined hbase rfl
    (fun _ _ h => (powerOperator?_eq_some.1 h).2 ▸ (powerOperator?_eq_some.1 h).1) joinRight

lemma audits_term : Audits resolve (term base) :=
  (audits_factor hbase haudit).joined (sound_factor hbase hpower) rfl
    (fun _ _ h => (productOperator?_eq_some.1 h).1) joinLeft

lemma audits_expr : Audits resolve (expr base) :=
  (audits_term hbase hpower haudit).joined (sound_term hbase hpower) rfl
    (fun _ _ h => (sumOperator?_eq_some.1 h).1) joinLeft

lemma audits_args : Audits resolve (args base) := by
  intro us c hus
  have hlinks (k : Token.Kind) (x : Unit) (h : comma? k = some x) : Links k := by
    rw [comma?_eq_some.1 h]
    exact ⟨nofun, nofun⟩
  have hsound := sound_expr hbase hpower
  have hexpr := audits_expr hbase hpower haudit
  unfold args
  rw [run_bind, run_current]
  simp only
  split
  · exact .ok
  · refine hexpr.bind hsound hus fun a ts d hts => ?_
    refine (Audited.many hexpr hsound rfl hlinks hts).bind fun r e he => ?_
    obtain ⟨-, ts', -, hr', -, -⟩ := hsound.many rfl he
    refine ⟨ts', hr', ?_⟩
    rw [run_bind, run_current]
    simp only
    split
    · exact .ok
    · exact .other id

/-- A call from its opening parenthesis on, after its name. -/
lemma audited_call {name : Token} {callee : Callee} {arity : ℕ}
    (hus : AllRight resolve (us ++ [name])) (hword : name.kind = .word)
    (hresolve : resolve name.text = some (.function callee arity))
    (hopen : c.current.kind = .leftParen) :
    Audited resolve (us ++ [name]) c ((call base name.text callee arity).run c) := by
  unfold call
  have hclear : Clear resolve ((us ++ [name]) ++ [c.current]) :=
    .snoc hus (by simp [hopen]) (by simp [hopen])
  refine .consume (by simp [hopen]) fun d _ => ?_
  refine (audits_args hbase hpower haudit _ d hclear).bind fun as e has => ?_
  obtain ⟨hclose, ts, n, hr, hread, -⟩ := sound_args hbase hpower has
  refine ⟨ts, hr, .consume (by simp [hclose]) fun f _ => ?_⟩
  split
  · exact .ok
  · rename_i hwrong
    -- what has been consumed is the call, up to its closing parenthesis
    let this : Call resolve (((us ++ [name]) ++ [c.current] ++ ts) ++ [e.current]) :=
      ⟨us, name, c.current, ts, e.current, [], callee, arity, as.length, by simp, hword, hresolve,
        hopen, hclose, hread.derives.phrase⟩
    refine .fail fun _ => ⟨[], f, .refl f, ?_⟩
    rw [List.append_nil]
    exact .closed this (by simp [this, Call.upTo]) (hclear.read hread) hwrong

lemma audited_named (hus : Clear resolve us) (hword : c.current.kind = .word) :
    Audited resolve us c ((named resolve base).run c) := by
  unfold named
  refine .consume (by simp [hword]) fun d _ => ?_
  have hnamed : AllRight resolve (us ++ [c.current]) := hus.allRight.snoc (by simp [hword])
  rw [run_bind, run_current]
  simp only
  split
  · exact .fail fun hf => absurd hf id
  · split
    · exact .other id
    · exact .ok
  · rename_i callee arity hresolve
    split
    · exact audited_call hbase hpower haudit hnamed hword hresolve ‹_›
    · split
      · exact .ok
      · exact .other id

lemma audits_group : Audits resolve (group base) := by
  intro us c hus
  unfold group
  refine (audits_expr hbase hpower haudit).bind (sound_expr hbase hpower) hus fun a ts d _ => ?_
  rw [run_bind, run_current]
  simp only
  split
  · rename_i hclose
    exact .consume (by simp [hclose]) fun e _ => .ok
  · exact .other id

lemma audits_atom : Audits resolve (atom resolve base) := by
  intro us c hus
  unfold atom
  rw [run_bind, run_current]
  simp only
  split
  · rename_i hk
    exact .consume (by simp [hk]) fun d _ => .ok
  · exact audited_named hbase hpower haudit hus ‹_›
  · rename_i hk
    have hclear : Clear resolve (us ++ [c.current]) :=
      .snoc hus.allRight (by simp [hk]) (by simp [hk])
    exact .consume (by simp [hk]) fun d _ => audits_group hbase hpower haudit _ d hclear
  · exact .other id

lemma audits_power : Audits resolve (power resolve base) := by
  intro us c hus
  unfold power
  refine (audits_atom hbase hpower haudit).bind (sound_atom hbase hpower) hus
    fun a ts d hts => ?_
  rw [run_bind, run_current]
  simp only
  split
  · rename_i ho
    obtain ⟨hk, -⟩ := powerOperator?_eq_some.1 ho
    have hclear : Clear resolve ((us ++ ts) ++ [d.current]) :=
      .snoc hts (by simp [hk]) (by simp [hk])
    exact .consume (by simp [hk]) fun e _ => (haudit _ e hclear).map
  · exact .ok

lemma audits_signed : Audits resolve (signed resolve base) := by
  intro us c hus
  unfold signed
  rw [run_bind, run_current]
  simp only
  split
  · rename_i ho
    obtain ⟨hk, -⟩ := sumOperator?_eq_some.1 ho
    have hclear : Clear resolve (us ++ [c.current]) :=
      .snoc hus.allRight (by simp [hk]) (by simp [hk])
    exact .consume (by simp [hk]) fun d _ => (haudit _ d hclear).map
  · rename_i ho
    obtain ⟨hk, -⟩ := sumOperator?_eq_some.1 ho
    exact .consume (by simp [hk]) fun d _ =>
      haudit _ d (.snoc hus.allRight (by simp [hk]) (by simp [hk]))
  · exact audits_power hbase hpower haudit us c hus

end Level

/-! ### All levels -/

theorem audits_baseWithin (levels : ℕ) : Audits resolve (baseWithin resolve levels) := by
  induction levels with
  | zero => exact fun _ _ _ => .fail fun hf => absurd hf id
  | succ levels ih =>
    intro us c hus
    exact .nested (audits_signed (fun _ _ _ h => (sound_baseWithin levels h).2)
      (fun _ _ _ h => (sound_baseWithin levels h).1) ih us _ hus)

/-- **The parser reports the first call that is not right.** -/
theorem noticed_of_sentence {reads : ℕ} (h : (sentence resolve levels).run c = .fail err reads)
    (hf : err.fault.Counts) : ∃ ts d, Reach c ts d ∧ Noticed resolve ts err := by
  have hbase : Sound (baseWithin resolve levels) (Tree resolve .base) levels :=
    fun _ _ _ h => (sound_baseWithin levels h).2
  have hpower : ∀ ⦃c a d⦄, (baseWithin resolve levels).run c = .ok a d →
      powerOperator? d.current.kind = none := fun _ _ _ h => (sound_baseWithin levels h).1
  have haudited : Audited resolve [] c ((sentence resolve levels).run c) := by
    unfold sentence
    refine (audits_expr hbase hpower (audits_baseWithin levels)).bind (sound_expr hbase hpower) .nil
      fun a ts d _ => ?_
    rw [run_bind, run_current]
    simp only
    split
    · exact .ok
    · exact .other id
  rw [h] at haudited
  cases haudited with
  | fail h => exact h hf

/-- If the tokens up to the end are a sentence, they are not what is wrong with the text. -/
lemma Blocked.not_forbids (h : Blocked resolve Scan.start c err) (hr : Reach c ts d)
    (hd : d.current.kind = .stop) (hphrase : Phrase resolve .expr ts) : ¬err.fault.Forbids := by
  cases h with
  | text _ _ _ _ hn => exact fun hf => ParseFault.not_breaks hf (Lexer.breaks_of_next hn)
  | other hf _ => exact hf
  | @token us s' e hr' hrun hstep _ _ =>
    obtain ⟨vs, rfl, hvs⟩ := hr'.rest hr hd
    obtain ⟨p, hp, hcross⟩ := Scan.crosses_of_phrase hphrase [] _ (.inl rfl)
    have hsentence : Scan.start.run resolve ((us ++ vs) ++ [d.current]) = some ⟨.ended, []⟩ := by
      rw [Scan.run_append, Scan.start, hcross, Option.bind_some, Scan.run_singleton,
        Scan.step_stop hp hd]
    obtain ⟨more, hmore⟩ : ∃ more, vs ++ [d.current] = e.current :: more := by
      cases hvs with
      | refl => exact ⟨[], rfl⟩
      | head => exact ⟨_, rfl⟩
    rw [List.append_assoc, hmore, Scan.run_append, hrun, Option.bind_some, Scan.run, hstep]
      at hsentence
    cases hsentence

end Parser

/-! ### The first wrong call -/

/-- The call is not right, and of all such calls its closing parenthesis comes first. -/
def Grammar.Call.FirstWrong (call : Call resolve ts) : Prop :=
  ¬call.Right ∧ ∀ other : Call resolve ts, ¬other.Right → call.closing.pos ≤ other.closing.pos

/-- In the order of the tokens there is one first wrong call. -/
lemma Grammar.Call.FirstWrong.unique {call other : Call resolve ts}
    (hord : ts.Pairwise (·.pos < ·.pos)) (h : call.FirstWrong) (h' : other.FirstWrong) :
    other = call := by
  have hpos : call.closing.pos = other.closing.pos :=
    Nat.le_antisymm (h.2 other h'.1) (h'.2 call h.1)
  have hupTo (call : Call resolve ts) :
      call.upTo = ts.filter (·.pos < call.closing.pos) := by
    have hord' := hord
    rw [call.eq_upTo] at hord'
    have := (filter_of_ordered hord').1
    rw [← call.eq_upTo] at this
    exact this.symm
  refine Call.eq_of_upTo ?_
  rw [hupTo call, hupTo other, hpos]

/-- The first wrong call is the one that ends where all calls before are right. -/
lemma Grammar.Call.firstWrong_of_closed {vs : List Token} {r : Token}
    (call : Call resolve (us ++ [r])) (hupTo : call.upTo = us) (hright : AllRight resolve us)
    (hwrong : ¬call.Right) (hord : (us ++ r :: vs).Pairwise (·.pos < ·.pos)) :
    ∃ first : Call resolve (us ++ r :: vs), first.FirstWrong ∧ call.error = first.error := by
  have hclosing : call.closing = r := by
    have hr := call.eq_upTo
    rw [hupTo] at hr
    exact (List.cons.inj (List.append_cancel_left hr)).1.symm
  have htokens : us ++ r :: vs =
      call.before ++ call.name :: call.opening :: (call.args ++ call.closing :: vs) := by
    calc us ++ r :: vs = call.upTo ++ call.closing :: vs := by rw [hclosing, hupTo]
      _ = _ := by simp [Call.upTo]
  refine ⟨call.among _ _ htokens, ⟨hwrong, fun other hother => ?_⟩, rfl⟩
  change call.closing.pos ≤ other.closing.pos
  rw [hclosing]
  rcases other.ends_in with ⟨w, hw, -⟩ | ⟨w, -, hw⟩
  · exact absurd (hright.right_of_left other hw) hother
  · have hafter := (List.pairwise_cons.1 (List.pairwise_append.1 hord).2.1).1
    rcases w with _ | ⟨s, w⟩
    · exact Nat.le_of_eq (congrArg Token.pos (List.cons.inj hw).1)
    · have hsub : ∀ tok ∈ w ++ other.closing :: other.after, r.pos < tok.pos :=
        fun tok h => hafter tok ((List.cons.inj hw).2 ▸ h)
      exact Nat.le_of_lt (hsub _ (List.mem_append_right w List.mem_cons_self))

/-- What the parser notices is the first wrong call of the whole text. -/
lemma Parser.Noticed.firstWrong {vs : List Token} (h : Noticed resolve us err)
    (hord : (us ++ vs).Pairwise (·.pos < ·.pos)) :
    ∃ call : Call resolve (us ++ vs), call.FirstWrong ∧ err = call.error := by
  cases h with
  | @closed us r call hupTo hright hwrong =>
    rw [List.append_assoc] at hord ⊢
    exact call.firstWrong_of_closed hupTo hright hwrong hord

lemma words_unique {t : Text} (h : Words t ts) (h' : Words t us) : ts = us := by
  obtain ⟨_, htokens, -⟩ := h
  obtain ⟨_, htokens', -⟩ := h'
  exact (List.append_inj' (Except.ok.inj (htokens.symm.trans htokens')) rfl).1

lemma words_ordered {t : Text} (h : Words t ts) : ts.Pairwise (·.pos < ·.pos) := by
  obtain ⟨last, hlexed, -⟩ := lexed_of_words h
  have hord := lexed_ordered t
  rw [hlexed] at hord
  exact (List.pairwise_append.1 hord).1

/-- The error of a text whose tokens are a sentence but for the numbers of arguments. -/
lemma firstWrong_of_error {o : Options} {t : Text} (hlength : byteLength t ≤ o.maxLength)
    (hdepth : ∀ pos limit, parse resolve o t ≠ .error ⟨pos, .tooDeep limit⟩) (hw : Words t ts)
    (hphrase : Phrase resolve .expr ts) (h : parse resolve o t = .error err) :
    ∃ call : Call resolve ts, call.FirstWrong ∧ err = call.error := by
  have hdeep (limit : ℕ) : err.fault ≠ .tooDeep limit := by
    rintro hf
    exact hdepth err.pos limit (by rw [h, ← hf])
  obtain ⟨c, d, hs, hr, hstop⟩ := words_iff.1 hw
  unfold parse parseText at h
  rw [if_neg (Nat.not_lt.2 hlength), hs] at h
  simp only at h
  rcases hrun : (sentence resolve o.maxDepth).run c with ⟨e, d'⟩ | ⟨err', reads⟩
  · rw [hrun] at h
    cases h
  · rw [hrun] at h
    cases h
    have hblocked := blocked_of_sentence hrun
    have hforbids := hblocked.not_forbids hr hstop hphrase
    have hbreaks : ¬err.fault.Breaks := by
      intro hb
      obtain ⟨last, htokens, -⟩ := hw
      cases htokens.symm.trans (hblocked.broken hs hb).1
    have hcounts : err.fault.Counts := by
      rcases hf : err.fault with _ | _ | _ | _ | limit
      · exact absurd (hf ▸ trivial) hbreaks
      · exact absurd (hf ▸ trivial) hforbids
      · exact absurd (hf ▸ trivial) hforbids
      · trivial
      · exact absurd hf (hdeep limit)
    obtain ⟨us, e, hr', hnoticed⟩ := noticed_of_sentence hrun hcounts
    obtain ⟨vs, rfl, -⟩ := hr'.rest hr hstop
    exact hnoticed.firstWrong (words_ordered hw)

/-- **The first wrong call is reported.** Let the tokens of a text within the bounds be a sentence
but for the numbers of arguments. If every call has as many arguments as its function takes, the
text parses. Otherwise it fails for the call whose closing parenthesis comes first of those that
have not, at its opening parenthesis, with the number of arguments that the function takes and the
number that it has. The calls are the names that stand before an opening parenthesis, and their
arguments are what stands between the commas that no inner parenthesis encloses. -/
theorem first_wrong_call_reported {σ : Type} (table : SymbolTable σ) (o : Options) (t : Text)
    (ts : List Token) (hlength : byteLength t ≤ o.maxLength)
    (hdepth : ∀ pos limit, parse table.resolve o t ≠ .error ⟨pos, .tooDeep limit⟩)
    (hwords : Words t ts) (hphrase : Phrase table.resolve .expr ts) :
    ((∀ call : Call table.resolve ts, call.Right) → ∃ e, parse table.resolve o t = .ok e) ∧
    ((∃ call : Call table.resolve ts, ¬call.Right) →
      ∃ call : Call table.resolve ts, call.FirstWrong ∧ (∀ other, other.FirstWrong → other = call) ∧
        parse table.resolve o t = .error call.error) ∧
    Called table.resolve ts ∧
    ∀ call : Call table.resolve ts, call.count = argumentCount call.args := by
  refine ⟨fun hright => ?_, fun ⟨wrong, hwrong⟩ => ?_, hphrase.called, fun call =>
    call.phrase.count_eq⟩
  · rcases h : parse table.resolve o t with err | e
    · obtain ⟨call, ⟨hcall, -⟩, -⟩ := firstWrong_of_error hlength hdepth hwords hphrase h
      exact absurd (hright call) hcall
    · exact ⟨e, rfl⟩
  · rcases h : parse table.resolve o t with err | e
    · obtain ⟨call, hcall, rfl⟩ := firstWrong_of_error hlength hdepth hwords hphrase h
      exact ⟨call, hcall, fun other hother => hcall.unique (words_ordered hwords) hother, rfl⟩
    · -- what parses has right calls only
      obtain ⟨-, us, n, hus, hread, -⟩ := reads_of_parse h
      obtain rfl := words_unique hwords hus
      exact absurd (hread.derives.allRight wrong) hwrong

/-- The text `f(f(x),x,x)`. -/
def wrongTwice : Text := ['f', '(', 'f', '(', 'x', ')', ',', 'x', ',', 'x', ')']

def wrongTwiceTokens : List Token :=
  [⟨.word, ['f'], 0⟩, ⟨.leftParen, ['('], 1⟩, ⟨.word, ['f'], 2⟩, ⟨.leftParen, ['('], 3⟩,
    ⟨.word, ['x'], 4⟩, ⟨.rightParen, [')'], 5⟩, ⟨.comma, [','], 6⟩, ⟨.word, ['x'], 7⟩,
    ⟨.comma, [','], 8⟩, ⟨.word, ['x'], 9⟩, ⟨.rightParen, [')'], 10⟩]

lemma words_wrongTwice : Words wrongTwice wrongTwiceTokens := by
  have htokens : (tokenize wrongTwice).toOption =
      some (wrongTwiceTokens ++ [⟨.stop, [], 11⟩]) := by decide +kernel
  refine ⟨⟨.stop, [], 11⟩, ?_, rfl⟩
  rcases h : tokenize wrongTwice with err | ts
  · rw [h] at htokens
    cases htokens
  · rw [h] at htokens
    exact congrArg Except.ok (Option.some.inj htokens)

lemma phrase_x (pos : ℕ) : Phrase xfTable.resolve .expr [⟨.word, ['x'], pos⟩] :=
  have hx : xfTable.resolve ['x'] = some (.variable 0) := rfl
  (Phrase.base_of_atom (.variable rfl hx)).expr_of_base

lemma phrase_wrongTwice : Phrase xfTable.resolve .expr wrongTwiceTokens := by
  have hf : xfTable.resolve ['f'] = some (.function (.bound 1) 2) := rfl
  have hinner : Phrase xfTable.resolve .expr
      [⟨.word, ['f'], 2⟩, ⟨.leftParen, ['('], 3⟩, ⟨.word, ['x'], 4⟩, ⟨.rightParen, [')'], 5⟩] :=
    (Phrase.base_of_atom (.call rfl hf rfl (.arg (phrase_x 4)) rfl trivial)).expr_of_base
  have hargs : Phrase xfTable.resolve (.args 3)
      [⟨.word, ['f'], 2⟩, ⟨.leftParen, ['('], 3⟩, ⟨.word, ['x'], 4⟩, ⟨.rightParen, [')'], 5⟩,
        ⟨.comma, [','], 6⟩, ⟨.word, ['x'], 7⟩, ⟨.comma, [','], 8⟩, ⟨.word, ['x'], 9⟩] :=
    .moreArgs (t := ⟨.comma, [','], 8⟩)
      (.moreArgs (t := ⟨.comma, [','], 6⟩) (.arg hinner) rfl (phrase_x 7)) rfl (phrase_x 9)
  exact (Phrase.base_of_atom (.call rfl hf rfl hargs rfl trivial)).expr_of_base

/-- In `f(f(x),x,x)`, where `f` takes two arguments, both calls are wrong. The inner one is
reported, which has one argument and ends first. -/
theorem first_wrong_call_reported_inner :
    byteLength wrongTwice ≤ 15 ∧
      (∀ pos limit, parse xfTable.resolve ⟨true, 8, 15⟩ wrongTwice ≠
        .error ⟨pos, .tooDeep limit⟩) ∧
      Words wrongTwice wrongTwiceTokens ∧ Phrase xfTable.resolve .expr wrongTwiceTokens ∧
      ∃ call : Call xfTable.resolve wrongTwiceTokens, call.FirstWrong ∧
        call.error = ⟨3, .arity ['f'] 2 1⟩ := by
  have hlength : byteLength wrongTwice ≤ 15 := by decide
  have herr : parse xfTable.resolve ⟨true, 8, 15⟩ wrongTwice = .error ⟨3, .arity ['f'] 2 1⟩ :=
    failure?_eq_some.1 (by decide +kernel)
  have hdepth (pos limit : ℕ) : parse xfTable.resolve ⟨true, 8, 15⟩ wrongTwice ≠
      .error ⟨pos, .tooDeep limit⟩ := by
    rw [herr]
    exact nofun
  obtain ⟨hok, hfail, -, -⟩ := first_wrong_call_reported xfTable ⟨true, 8, 15⟩ wrongTwice
    wrongTwiceTokens hlength hdepth words_wrongTwice phrase_wrongTwice
  have hwrong : ∃ call : Call xfTable.resolve wrongTwiceTokens, ¬call.Right := by
    by_contra hall
    obtain ⟨e, he⟩ := hok fun call => not_not.1 fun hcall => hall ⟨call, hcall⟩
    cases herr.symm.trans he
  obtain ⟨call, hcall, -, hcallerr⟩ := hfail hwrong
  exact ⟨hlength, hdepth, words_wrongTwice, phrase_wrongTwice, call, hcall,
    Except.error.inj (hcallerr.symm.trans herr)⟩

end Formula
