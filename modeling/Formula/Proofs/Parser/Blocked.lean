import Formula.Proofs.Parser.Prefix
import Formula.Proofs.Parser.Sentence

/-!
Where errors lie.

The parser follows the scan of viable prefixes token by token: what it consumes the scan takes,
and where it wants another token the scan is blocked. So an error of the grammar lies at the first
token with which no sentence goes on. Names are looked up after the next token is read, so a text
that is broken right after an unknown name fails for the break.
-/

namespace Formula

open Cursor (Reach)
open Grammar

/-- A token may not stand where it stands. -/
def ParseFault.Forbids : ParseFault → Prop
  | .grammar _ | .unknownName _ => True
  | _ => False

/-- The text is not made of tokens. -/
def ParseFault.Breaks : ParseFault → Prop
  | .lexical _ => True
  | _ => False

lemma Lexer.breaks_of_next {l l' : Lexer} {err : ParseError} (h : l.next = (.error err, l')) :
    err.fault.Breaks := by
  unfold next read at h
  split at h
  · cases h
  · cases h
    exact trivial

namespace Parser

variable (resolve : Text → Option Meaning)

/-- A name that stands for nothing. -/
def Unknown (t : Token) : Prop := t.kind = .word ∧ resolve t.text = none

/-- Where an error lies if the scan comes to the cursor: at a token that the scan does not take, or
behind a token that it takes or that is an unknown name. Errors about calls and levels of nesting
lie anywhere. -/
inductive Blocked (s : Scan) (c : Cursor) (err : ParseError) : Prop
  | token {ts : List Token} {s' : Scan} {d : Cursor} : Reach c ts d →
      s.run resolve ts = some s' → s'.step resolve d.current = none → err.pos = d.current.pos →
      err.fault.Forbids → Blocked s c err
  | text {ts : List Token} {s' : Scan} {d : Cursor} {l : Lexer} : Reach c ts d →
      s.run resolve ts = some s' → d.current.kind ≠ .stop →
      (∃ s'', s'.step resolve d.current = some s'') ∨ Unknown resolve d.current →
      d.lexer.next = (.error err, l) → Blocked s c err
  | other : ¬err.fault.Forbids → ¬err.fault.Breaks → Blocked s c err

variable {α β γ : Type}

lemma fail_of_next {c : Cursor} {l : Lexer} {err : ParseError}
    (h : c.lexer.next = (.error err, l)) : next.run c = .fail err (c.reads + 1) := by
  unfold next
  simp only
  split
  · rename_i hn
    cases h.symm.trans hn
  · rename_i hn
    cases h.symm.trans hn
    rfl

/-- The outcome of a parser beside the scan: a value where the scan has come to satisfy `Q`, with
the current token, or an error where the scan is blocked. -/
inductive Goes (s : Scan) (c : Cursor) (Q : Scan → Token → Prop) : Outcome α → Prop
  | ok {a : α} {ts : List Token} {s' : Scan} {d : Cursor} : Reach c ts d →
      s.run resolve ts = some s' → Q s' d.current → Goes s c Q (.ok a d)
  | fail {err : ParseError} {reads : ℕ} : Blocked resolve s c err → Goes s c Q (.fail err reads)

variable {resolve} {s s' : Scan} {c d : Cursor} {ts : List Token} {t : Token}
  {Q R : Scan → Token → Prop}

lemma Blocked.before {err : ParseError} (hr : Reach c ts d) (hs : s.run resolve ts = some s')
    (h : Blocked resolve s' d err) : Blocked resolve s c err := by
  have hrun {us : List Token} {s'' : Scan} (h : s'.run resolve us = some s'') :
      s.run resolve (ts ++ us) = some s'' := by
    rw [Scan.run_append, hs]
    exact h
  cases h with
  | token hr' hs' hstep hpos hf => exact .token (hr.trans hr') (hrun hs') hstep hpos hf
  | text hr' hs' hk hstep hn => exact .text (hr.trans hr') (hrun hs') hk hstep hn
  | other hf hb => exact .other hf hb

namespace Goes

/-- What happens at a later cursor happens to the parser that came there. -/
lemma before {out : Outcome α} (hr : Reach c ts d) (hs : s.run resolve ts = some s')
    (h : Goes resolve s' d Q out) : Goes resolve s c Q out := by
  cases h with
  | ok hr' hs' hq =>
    refine .ok (hr.trans hr') ?_ hq
    rw [Scan.run_append, hs]
    exact hs'
  | fail hb => exact .fail (hb.before hr hs)

lemma pure {a : α} (h : Q s c.current) : Goes resolve s c Q ((Pure.pure a : Parser α).run c) :=
  .ok (.refl c) rfl h

lemma bind {p : Parser α} {f : α → Parser β} (h : Goes resolve s c Q (p.run c))
    (hf : ∀ a s' d, p.run c = .ok a d → Q s' d.current → Goes resolve s' d R ((f a).run d)) :
    Goes resolve s c R ((p >>= f).run c) := by
  rw [run_bind]
  generalize hp : p.run c = out at h ⊢
  cases h with
  | ok hr hs hq => exact (hf _ _ _ hp hq).before hr hs
  | fail hb => exact .fail hb

lemma forbidden {f : Token → ParseFault} (h : s.step resolve c.current = none)
    (hf : (f c.current).Forbids) : Goes resolve s c Q ((Parser.fail f : Parser α).run c) :=
  .fail (.token (.refl c) rfl h rfl hf)

/-- A token that the scan takes is consumed. -/
lemma consume {f : Token → Parser α} (hk : c.current.kind ≠ .stop)
    (hs : s.step resolve c.current = some s')
    (h : ∀ d, next.run c = .ok c.current d → Goes resolve s' d Q ((f c.current).run d)) :
    Goes resolve s c Q ((next >>= f).run c) := by
  rw [run_bind]
  rcases hn : c.lexer.next with ⟨err | t, l⟩
  · have hfail : next.run c = .fail err (c.reads + 1) := fail_of_next hn
    rw [hfail]
    exact .fail (.text (.refl c) rfl hk (.inl ⟨s', hs⟩) hn)
  · obtain ⟨d, hd, -, -⟩ := Cursor.exists_next hn
    rw [hd]
    exact (h d hd).before (.single hk hd) (by rw [Scan.run_singleton, hs])

/-- A loop whose tokens the scan takes, each with an item after it. -/
lemma many {wanted : Token.Kind → Option γ} {item : Parser α} (hstop : wanted .stop = none)
    (hstep : ∀ s t g, Q s t → wanted t.kind = some g →
      ∃ s', s.step resolve t = some s' ∧ ∀ c, Goes resolve s' c Q (item.run c))
    (h : Q s c.current) : Goes resolve s c (fun s t => Q s t ∧ wanted t.kind = none)
      ((many wanted item hstop).run c) := by
  induction hn : c.size using Nat.strongRecOn generalizing s c with
  | ind n ih =>
    rw [run_many]
    rcases hg : wanted c.current.kind with _ | g
    · exact .pure ⟨h, hg⟩
    · have hk : c.current.kind ≠ .stop := fun hk => by simp [hk, hstop] at hg
      obtain ⟨s', hs', hitem⟩ := hstep s c.current g h hg
      refine .consume hk hs' fun d hd => (hitem d).bind fun a s'' e he hq => ?_
      have hlt := size_lt_of_wanted hstop hg hd he
      refine (ih e.size (by omega) hq rfl).bind fun as s₃ e' _ hq' => ?_
      exact .pure hq'

/-- The scan knows nothing of levels. -/
lemma nested {p : Parser α} {n : ℕ} (h : Goes resolve s { c with depth := n } Q
      (p.run { c with depth := c.depth + 1 })) (hn : n = c.depth + 1) :
    Goes resolve s c Q ((Parser.nested p).run c) := by
  subst hn
  simp only [Parser.nested]
  generalize p.run _ = out at h ⊢
  cases h with
  | @ok a ts s' d hr hs hq =>
    have hr' : Reach c ts { d with depth := d.depth - 1 } := by
      simpa [hr.depth_eq] using hr.withDepth c.depth
    exact .ok hr' hs hq
  | fail hb =>
    refine .fail ?_
    cases hb with
    | token hr hs hstep hpos hf => exact .token (hr.withDepth c.depth) hs hstep hpos hf
    | text hr hs hk hstep hn => exact .text (hr.withDepth c.depth) hs hk hstep hn
    | other hf hb => exact .other hf hb

end Goes

/-! ### Operands -/

/-- Where an operand is over: `ends` is what is known of the token after it. -/
def After (ends : Token.Kind → Prop) (ps : List Paren) (s : Scan) (t : Token) : Prop :=
  ∃ p : Phase, s = ⟨p, ps⟩ ∧ p.Closes ∧ (p = .named → t.kind ≠ .leftParen) ∧ ends t.kind

/-- Where an operand begins: no parenthesis that has just been opened is closed again. -/
def Before (p : Phase) (t : Token) : Prop :=
  p = .operand ∨ p = .opened ∧ t.kind ≠ .rightParen

/-- The parser takes an operand, in step with the scan. -/
def Takes (resolve : Text → Option Meaning) (ends : Token.Kind → Prop) (p : Parser α) : Prop :=
  ∀ (ph : Phase) (ps : List Paren) (c : Cursor), Before ph c.current →
    Goes resolve ⟨ph, ps⟩ c (After ends ps) (p.run c)

variable {ends : Token.Kind → Prop} {ps : List Paren} {o : Operator} {ph : Phase}

lemma Before.opens (h : Before ph t) : ph.Opens := h.imp id And.left

lemma Before.step_eq (h : Before ph t) :
    Scan.step resolve ⟨ph, ps⟩ t = Scan.begin resolve ps t := by
  rcases h with rfl | ⟨rfl, ht⟩
  · rfl
  · exact if_neg ht

namespace After

lemma mono {ends' : Token.Kind → Prop} (h : After ends ps s t) (hle : ends t.kind → ends' t.kind) :
    After ends' ps s t := by
  obtain ⟨p, rfl, hp, hn, he⟩ := h
  exact ⟨p, rfl, hp, hn, hle he⟩

lemma step_eq (h : After ends ps s t) : s.step resolve t = Scan.goOn ps t := by
  obtain ⟨p, rfl, rfl | rfl, hn, -⟩ := h
  · rfl
  · exact if_neg (hn rfl)

lemma operator (h : After ends ps s t) (ht : t.kind = .operator o) :
    s.step resolve t = some ⟨.operand, ps⟩ := by
  simp [h.step_eq, Scan.goOn, ht]

/-- An operand that was no bare name of a function. -/
lemma of_operator (he : ends t.kind) : After ends ps ⟨.operator, ps⟩ t :=
  ⟨_, rfl, .inl rfl, nofun, he⟩

end After

/-- After a whole expression the scan takes only what closes it. -/
lemma goOn_eq_none {q : Paren} (hop : ∀ o, t.kind ≠ .operator o) (hclose : t.kind ≠ .rightParen)
    (hcomma : t.kind = .comma → q = .group) : Scan.goOn (q :: ps) t = none := by
  unfold Scan.goOn
  split
  · exact absurd ‹_› (hop _)
  · cases hcomma ‹_›
    cases ‹_ = _›
  · exact absurd ‹_› hclose
  · cases ‹_ = _›
  · rfl

lemma goOn_nil_eq_none (hop : ∀ o, t.kind ≠ .operator o) (hstop : t.kind ≠ .stop) :
    Scan.goOn [] t = none := by
  unfold Scan.goOn
  split
  · exact absurd ‹_› (hop _)
  · cases ‹_ = _›
  · cases ‹_ = _›
  · exact absurd ‹_› hstop
  · rfl

lemma begin_eq_none (hnum : ∀ x, t.kind ≠ .number x) (hword : t.kind ≠ .word)
    (hopen : t.kind ≠ .leftParen) (hsign : sumOperator? t.kind = none) :
    Scan.begin resolve ps t = none := by
  unfold Scan.begin
  split
  · exact absurd ‹_› (hnum _)
  · exact absurd ‹_› hword
  · simp_all [sumOperator?]
  · simp_all [sumOperator?]
  · exact absurd ‹_› hopen
  · rfl

def NoPower (k : Token.Kind) : Prop := powerOperator? k = none

def NoFactor (k : Token.Kind) : Prop := NoPower k ∧ productOperator? k = none

def NoOperator (k : Token.Kind) : Prop := ∀ o, k ≠ .operator o

lemma NoFactor.noOperator {k : Token.Kind} (h : NoFactor k) (hs : sumOperator? k = none) :
    NoOperator k := by
  obtain ⟨hp, hf⟩ := h
  rintro o rfl
  cases o with
  | add | sub => cases hs
  | mul | div | mod => cases hf
  | pow => cases hp

/-- Operands with operators between them. -/
lemma Takes.joined {item : Parser Expr} {ends' : Token.Kind → Prop}
    {wanted : Token.Kind → Option Operator} (hitem : Takes resolve ends item)
    (hstop : wanted .stop = none) (hw : ∀ k o, wanted k = some o → k = .operator o)
    (hends : ∀ k, ends k → wanted k = none → ends' k)
    (join : Expr → List (Operator × Expr) → Expr) :
    Takes resolve ends' (do
      let a ← item
      let r ← Parser.many wanted item hstop
      pure (join a r)) := by
  intro ph ps c hb
  have hstep (s : Scan) (t : Token) (o : Operator) (h : After ends ps s t)
      (ho : wanted t.kind = some o) :
      ∃ s', s.step resolve t = some s' ∧ ∀ c, Goes resolve s' c (After ends ps) (item.run c) :=
    ⟨_, h.operator (hw _ _ ho), fun c => hitem _ ps c (.inl rfl)⟩
  refine (hitem ph ps c hb).bind fun a s d _ ha => ?_
  refine (Goes.many hstop hstep ha).bind fun r s e _ hr => ?_
  exact .pure (hr.1.mono fun he => hends _ he hr.2)

/-! ### One level -/

section Level

variable {base : Parser Expr} (hbase : Takes resolve NoPower base)
include hbase

lemma takes_factor : Takes resolve NoPower (factor base) :=
  hbase.joined rfl (fun _ _ h => (powerOperator?_eq_some.1 h).2 ▸ (powerOperator?_eq_some.1 h).1)
    (fun _ h _ => h) joinRight

lemma takes_term : Takes resolve NoFactor (term base) :=
  (takes_factor hbase).joined rfl (fun _ _ h => (productOperator?_eq_some.1 h).1)
    (fun _ => And.intro) joinLeft

lemma takes_expr : Takes resolve NoOperator (expr base) :=
  (takes_term hbase).joined rfl (fun _ _ h => (sumOperator?_eq_some.1 h).1)
    (fun _ => NoFactor.noOperator) joinLeft

/-- Arguments are taken up to the parenthesis that closes them. -/
lemma goes_args (c : Cursor) : Goes resolve (Scan.openCall ps) c
    (fun s t => t.kind = .rightParen ∧ ∃ p : Phase, s = ⟨p, .arguments :: ps⟩ ∧
      (p = .opened ∨ p.Closes)) ((args base).run c) := by
  have hstep (s : Scan) (t : Token) (x : Unit) (h : After NoOperator (.arguments :: ps) s t)
      (hx : comma? t.kind = some x) : ∃ s', s.step resolve t = some s' ∧
        ∀ c, Goes resolve s' c (After NoOperator (.arguments :: ps)) ((expr base).run c) := by
    obtain ⟨p, rfl, hp, -, -⟩ := h
    exact ⟨_, Scan.step_comma hp (comma?_eq_some.1 hx),
      fun c => takes_expr hbase _ _ c (.inl rfl)⟩
  unfold args
  rw [run_bind, run_current]
  simp only
  split
  · rename_i hclose
    exact .pure ⟨hclose, _, rfl, .inl rfl⟩
  · rename_i hclose
    refine (takes_expr hbase _ _ c (.inr ⟨rfl, hclose⟩)).bind fun a s d _ ha => ?_
    refine (Goes.many rfl hstep ha).bind fun r s e _ hr => ?_
    obtain ⟨hr, hcomma⟩ := hr
    rw [run_bind, run_current]
    simp only
    split
    · rename_i hclose
      obtain ⟨p, rfl, hp, -, -⟩ := hr
      exact .pure ⟨hclose, p, rfl, .inr hp⟩
    · rename_i hclose
      refine .forbidden ?_ trivial
      rw [hr.step_eq]
      obtain ⟨-, -, -, -, hop⟩ := hr
      exact goOn_eq_none hop hclose fun ht => by simp [ht, comma?] at hcomma

/-- A call is taken from its opening parenthesis on. -/
lemma goes_call {name : Text} {callee : Callee} {arity : ℕ} (hopen : c.current.kind = .leftParen)
    (hs : s.step resolve c.current = some (Scan.openCall ps)) :
    Goes resolve s c (After (fun _ => True) ps) ((call base name callee arity).run c) := by
  unfold call
  refine .consume (by simp [hopen]) hs fun d _ => (goes_args hbase d).bind fun as s e _ has => ?_
  obtain ⟨hclose, p, rfl, hp⟩ := has
  refine .consume (by simp [hclose]) (Scan.step_rightParen hp hclose) fun f _ => ?_
  split
  · exact .pure (.of_operator trivial)
  · exact .fail (.other id id)

lemma goes_named (hb : Before ph c.current) (hword : c.current.kind = .word) :
    Goes resolve ⟨ph, ps⟩ c (After (fun _ => True) ps) ((named resolve base).run c) := by
  have hk : c.current.kind ≠ .stop := by simp [hword]
  unfold named
  rcases hr : resolve c.current.text with _ | ⟨slot⟩ | ⟨callee, arity⟩
  · -- the name is looked up when the token after it has been read
    rw [run_bind]
    have hblock : Scan.step resolve ⟨ph, ps⟩ c.current = none := by
      rw [hb.step_eq]
      simp [Scan.begin, hword, hr]
    rcases hn : c.lexer.next with ⟨err | t, l⟩
    · rw [fail_of_next hn]
      exact .fail (.text (.refl c) rfl hk (.inr ⟨hword, hr⟩) hn)
    · obtain ⟨d, hd, -, -⟩ := Cursor.exists_next hn
      rw [hd]
      simp only [run_bind, run_current, hr]
      exact .fail (.token (.refl c) rfl hblock rfl trivial)
  · refine .consume hk (Scan.step_variable hb.opens hword hr) fun d _ => ?_
    simp only [run_bind, run_current, hr]
    split
    · rename_i hopen
      refine .forbidden ?_ trivial
      simp [Scan.step, Scan.goOn, hopen]
    · exact .pure (.of_operator trivial)
  · refine .consume hk (Scan.step_function hb.opens hword hr) fun d _ => ?_
    simp only [run_bind, run_current, hr]
    by_cases hopen : d.current.kind = .leftParen
    · rw [if_pos hopen]
      exact goes_call hbase hopen (Scan.step_call hopen)
    · rw [if_neg hopen]
      by_cases harity : arity = 0
      · rw [if_pos harity, if_pos harity]
        exact .pure ⟨_, rfl, .inr rfl, fun _ => hopen, trivial⟩
      · rw [if_neg harity, if_neg harity]
        exact .forbidden (if_neg hopen) trivial

/-- A group is taken from its first operand on. -/
lemma goes_group (c : Cursor) :
    Goes resolve ⟨.operand, .group :: ps⟩ c (After (fun _ => True) ps) ((group base).run c) := by
  unfold group
  refine (takes_expr hbase _ _ c (.inl rfl)).bind fun e s d _ he => ?_
  rw [run_bind, run_current]
  simp only
  split
  · rename_i hclose
    obtain ⟨p, rfl, hp, -, -⟩ := he
    exact .consume (by simp [hclose]) (Scan.step_rightParen (.inr hp) hclose)
      fun f _ => .pure (.of_operator trivial)
  · rename_i hclose
    refine .forbidden ?_ trivial
    rw [he.step_eq]
    obtain ⟨-, -, -, -, hop⟩ := he
    exact goOn_eq_none hop hclose fun _ => rfl

lemma goes_atom (hb : Before ph c.current) (hsign : sumOperator? c.current.kind = none) :
    Goes resolve ⟨ph, ps⟩ c (After (fun _ => True) ps) ((atom resolve base).run c) := by
  unfold atom
  rw [run_bind, run_current]
  simp only
  split
  · rename_i hk
    exact .consume (by simp [hk]) (Scan.step_number hb.opens hk)
      fun d _ => .pure (.of_operator trivial)
  · exact goes_named hbase hb (by assumption)
  · rename_i hk
    exact .consume (by simp [hk]) (Scan.step_group hb.opens hk) fun d _ => goes_group hbase d
  · refine .forbidden ?_ trivial
    rw [hb.step_eq]
    exact begin_eq_none ‹_› ‹_› ‹_› hsign

lemma goes_power (hb : Before ph c.current) (hsign : sumOperator? c.current.kind = none) :
    Goes resolve ⟨ph, ps⟩ c (After NoPower ps) ((power resolve base).run c) := by
  unfold power
  refine (goes_atom hbase hb hsign).bind fun a s d _ ha => ?_
  rw [run_bind, run_current]
  simp only
  split
  · rename_i o ho
    obtain ⟨hk, -⟩ := powerOperator?_eq_some.1 ho
    exact .consume (by simp [hk]) (ha.operator hk) fun e _ =>
      (hbase _ ps e (.inl rfl)).bind fun b s f _ hb => .pure hb
  · rename_i ho
    exact .pure (ha.mono fun _ => ho)

lemma takes_signed : Takes resolve NoPower (signed resolve base) := by
  intro ph ps c hb
  unfold signed
  rw [run_bind, run_current]
  simp only
  split
  · rename_i ho
    obtain ⟨hk, ho⟩ := sumOperator?_eq_some.1 ho
    exact .consume (by simp [hk]) (Scan.step_sign hb.opens hk ho) fun d _ =>
      (hbase _ ps d (.inl rfl)).bind fun a s e _ ha => .pure ha
  · rename_i ho
    obtain ⟨hk, ho⟩ := sumOperator?_eq_some.1 ho
    exact .consume (by simp [hk]) (Scan.step_sign hb.opens hk ho) fun d _ => hbase _ ps d (.inl rfl)
  · exact goes_power hbase hb ‹_›

end Level

/-! ### All levels -/

theorem takes_baseWithin (levels : ℕ) : Takes resolve NoPower (baseWithin resolve levels) := by
  induction levels with
  | zero => exact fun _ _ _ _ => .fail (.other id id)
  | succ levels ih =>
    intro ph ps c hb
    exact .nested (takes_signed ih ph ps { c with depth := c.depth + 1 } hb) rfl

/-- **The parser follows the scan**: where it fails the scan is blocked. -/
theorem blocked_of_sentence {err : ParseError} {levels reads : ℕ}
    (h : (sentence resolve levels).run c = .fail err reads) :
    Blocked resolve Scan.start c err := by
  have hgoes : Goes resolve Scan.start c (fun _ t => t.kind = .stop)
      ((sentence resolve levels).run c) := by
    unfold sentence
    refine (takes_expr (takes_baseWithin levels) _ _ c (.inl rfl)).bind fun e s d _ he => ?_
    rw [run_bind, run_current]
    simp only
    split
    · exact .pure ‹_›
    · rename_i hstop
      refine .forbidden ?_ trivial
      rw [he.step_eq]
      obtain ⟨-, -, -, -, hop⟩ := he
      exact goOn_nil_eq_none hop hstop
  rw [h] at hgoes
  cases hgoes with
  | fail hb => exact hb

end Parser

end Formula
