import Formula.Proofs.Parser.Balance
import Formula.Proofs.Parser.Prefix

/-!
Calls among tokens.

A call is cut out of a list of tokens by its parentheses, and the closing one tells which call it
is. Of the calls in two lists of tokens put one behind the other none lies in both, unless the first
ends with a name. In a sentence every name before an opening parenthesis is called.
-/

namespace Formula.Grammar

variable {fits : ℕ → ℕ → Prop} {resolve : Text → Option Meaning} {cat : Cat}
  {t : Token} {ts us u v w : List Token}

lemma Derives.phrase (h : Derives fits resolve cat ts) : Phrase resolve cat ts :=
  h.mono fun _ => trivial

/-- A call among the tokens: the name of a function and its arguments, in parentheses. -/
@[ext]
structure Call (resolve : Text → Option Meaning) (ts : List Token) where
  before : List Token
  name : Token
  opening : Token
  args : List Token
  closing : Token
  after : List Token
  callee : Callee
  arity : ℕ
  count : ℕ
  tokens_eq : ts = before ++ name :: opening :: (args ++ closing :: after)
  word : name.kind = .word
  resolves : resolve name.text = some (.function callee arity)
  opens : opening.kind = .leftParen
  closes : closing.kind = .rightParen
  phrase : Phrase resolve (.args count) args

namespace Call

/-- The call has as many arguments as the function takes. -/
def Right (c : Call resolve ts) : Prop := c.count = c.arity

/-- What is reported of a call that is not right. -/
def error (c : Call resolve ts) : ParseError :=
  ⟨c.opening.pos, .arity c.name.text c.arity c.count⟩

/-- The tokens before the closing parenthesis. -/
def upTo (c : Call resolve ts) : List Token := c.before ++ c.name :: c.opening :: c.args

lemma eq_upTo (c : Call resolve ts) : ts = c.upTo ++ c.closing :: c.after := by
  rw [upTo, List.append_assoc]
  exact c.tokens_eq

/-- The same call among other tokens. -/
def among (c : Call resolve ts) (before after : List Token)
    (h : us = before ++ c.name :: c.opening :: (c.args ++ c.closing :: after)) : Call resolve us :=
  { c with before := before, after := after, tokens_eq := h }

/-- The closing parenthesis tells which call it is. -/
lemma eq_of_upTo {c c' : Call resolve ts} (h : c.upTo = c'.upTo) : c = c' := by
  have htokens := c.eq_upTo.symm.trans c'.eq_upTo
  rw [h] at htokens
  obtain ⟨hclosing, hafter⟩ := List.cons.inj (List.append_cancel_left htokens)
  have hopened : (c.before ++ [c.name]) ++ c.opening :: c.args =
      (c'.before ++ [c'.name]) ++ c'.opening :: c'.args := by
    simpa [upTo] using h
  obtain ⟨hnamed, hopening, hargs⟩ := c.phrase.balanced.opening_unique c'.phrase.balanced
    (rise_of_leftParen c.opens) (rise_of_leftParen c'.opens) hopened
  obtain ⟨hbefore, hname⟩ := List.append_inj' hnamed rfl
  replace hname : c.name = c'.name := (List.cons.inj hname).1
  have hmeaning : some (Meaning.function c.callee c.arity) =
      some (Meaning.function c'.callee c'.arity) := by
    rw [← c.resolves, ← c'.resolves, hname]
  obtain ⟨hcallee, harity⟩ := Meaning.function.inj (Option.some.inj hmeaning)
  have hcount : c.count = c'.count := by
    rw [c.phrase.count_eq, c'.phrase.count_eq, hargs]
  exact Call.ext hbefore hname hopening hargs hclosing hafter hcallee harity hcount

/-- A call among two lists of tokens ends in the first or in the second. -/
lemma ends_in (c : Call resolve (u ++ v)) :
    (∃ w, u = c.upTo ++ c.closing :: w ∧ c.after = w ++ v) ∨
      ∃ w, c.upTo = u ++ w ∧ v = w ++ c.closing :: c.after := by
  rcases List.append_eq_append_iff.1 c.eq_upTo with ⟨w, hw, hv⟩ | ⟨w, hu, hw⟩
  · exact .inr ⟨w, hw, hv⟩
  · rcases w with _ | ⟨t, w⟩
    · exact .inr ⟨[], by simpa using hu.symm, hw.symm⟩
    · obtain ⟨rfl, hafter⟩ := List.cons.inj hw
      exact .inl ⟨w, hu, hafter⟩

/-- Arguments do not end among balanced tokens that they did not begin with: the closing parenthesis
would close what is not open there. -/
lemma not_balanced_end {z : List Token} (c : Call resolve ts) (hargs : c.args = z ++ w) :
    ¬Balanced (w ++ c.closing :: c.after) := by
  intro hbal
  have hz := c.phrase.balanced.level_nonneg hargs
  have hlevel := c.phrase.balanced.level_eq
  have hclosed := hbal.level_nonneg (u := w ++ [c.closing]) (v := c.after) (by simp)
  rw [hargs] at hlevel
  simp only [level_append, level_cons, level_nil, rise_of_rightParen c.closes] at hlevel hclosed
  omega

end Call

variable (resolve) in
/-- Every call among the tokens is right. -/
def AllRight (ts : List Token) : Prop := ∀ c : Call resolve ts, c.Right

/-- The tokens do not end with a name. -/
def EndsNoName (ts : List Token) : Prop := ∀ us w, ts = us ++ [w] → w.kind ≠ .word

lemma endsNoName_nil : EndsNoName [] := fun us w h => by simp at h

lemma endsNoName_snoc (h : t.kind ≠ .word) : EndsNoName (ts ++ [t]) := by
  intro us w hw
  obtain ⟨-, hw⟩ := List.append_inj' hw rfl
  obtain ⟨rfl, -⟩ := List.cons.inj hw
  exact h

namespace AllRight

lemma nil : AllRight resolve [] := by
  intro c
  have := c.tokens_eq
  simp at this

/-- A call that ends in the first of two lists of tokens lies there. -/
lemma right_of_left (hu : AllRight resolve u) (c : Call resolve (u ++ v))
    (h : u = c.upTo ++ c.closing :: w) : c.Right := by
  have htokens : u = c.before ++ c.name :: c.opening :: (c.args ++ c.closing :: w) := by
    simpa [Call.upTo] using h
  exact hu (c.among _ _ htokens)

/-- A call that begins and ends in the second of two lists of tokens lies there. -/
lemma right_of_right {z : List Token} (hv : AllRight resolve v) (c : Call resolve (u ++ v))
    (hend : v = w ++ c.closing :: c.after) (hw : w = z ++ c.name :: c.opening :: c.args) :
    c.Right := by
  have htokens : w ++ c.closing :: c.after =
      z ++ c.name :: c.opening :: (c.args ++ c.closing :: c.after) := by
    rw [hw]
    simp
  exact hv (c.among _ _ (hend.trans htokens))

/-- A token ends a call only if it closes a parenthesis. -/
lemma snoc_of_last (hu : AllRight resolve u)
    (ht : ∀ c : Call resolve (u ++ [t]), c.upTo = u → c.closing = t → c.Right) :
    AllRight resolve (u ++ [t]) := by
  intro c
  rcases c.ends_in with ⟨w, hw, -⟩ | ⟨w, hw, hlast⟩
  · exact hu.right_of_left c hw
  · rcases List.singleton_eq_append_iff.1 hlast with ⟨rfl, hclosing⟩ | ⟨-, hclosing⟩
    · exact ht c (by rw [hw, List.append_nil]) (List.cons.inj hclosing).1
    · cases hclosing

lemma snoc (hu : AllRight resolve u) (ht : t.kind ≠ .rightParen) : AllRight resolve (u ++ [t]) :=
  hu.snoc_of_last fun c _ hc => absurd (hc ▸ c.closes) ht

/-- No call lies in both of two lists of tokens if the second closes no parenthesis of the first
and the first does not end with the name that is called. -/
lemma append (hu : AllRight resolve u) (hname : EndsNoName u) (hv : AllRight resolve v)
    (hbal : Balanced v) : AllRight resolve (u ++ v) := by
  intro c
  rcases c.ends_in with ⟨w, hw, -⟩ | ⟨w, hw, hend⟩
  · exact hu.right_of_left c hw
  · rcases List.append_eq_append_iff.1 (show c.before ++ _ = u ++ w from hw) with
      ⟨z, hz, hw⟩ | ⟨z, -, hw⟩
    · rcases z with _ | ⟨s, _ | ⟨s', z⟩⟩
      · exact hv.right_of_right (z := []) c hend hw.symm
      · obtain ⟨rfl, -⟩ := List.cons.inj hw
        exact absurd c.word (hname _ _ hz)
      · -- the arguments would begin in the first list and end in the second
        obtain ⟨-, hw⟩ := List.cons.inj hw
        obtain ⟨-, hargs⟩ := List.cons.inj hw
        exact absurd (hend ▸ hbal) (c.not_balanced_end hargs)
    · exact hv.right_of_right c hend hw

/-- A token that neither names nor closes parts calls from calls. -/
lemma between (hu : AllRight resolve u) (hv : AllRight resolve v) (hbal : Balanced v)
    (hword : t.kind ≠ .word) (hclose : t.kind ≠ .rightParen) :
    AllRight resolve (u ++ t :: v) := by
  have := (hu.snoc hclose).append (endsNoName_snoc hword) hv hbal
  rwa [List.append_assoc] at this

end AllRight

/-- In a phrase of the grammar that counts arguments every call is right. -/
theorem Derives.allRight (h : Derives Eq resolve cat ts) : AllRight resolve ts := by
  induction h with
  | sumOf _ ih | productOf _ ih | factorOf _ ih | unsigned _ ih | powerOf _ ih | arg _ ih =>
    exact ih
  | sum _ ht _ hv ih₁ ih₂ | product _ ht _ hv ih₁ ih₂ | factor _ ht hv ih₁ ih₂
  | power _ ht hv ih₁ ih₂ | moreArgs _ ht hv ih₁ ih₂ =>
    exact ih₁.between ih₂ hv.balanced (by simp [ht]) (by simp [ht])
  | signed ht _ hu ih => exact AllRight.nil.between ih hu.balanced (by simp [ht]) (by simp [ht])
  | number ht | «variable» ht _ | bare ht _ => exact AllRight.nil.snoc (by simp [ht])
  | @call t l u r f arity count ht hres hl hu hr hfits ih =>
    have hopened : AllRight resolve ([t] ++ l :: u) :=
      (AllRight.nil.snoc (by simp [ht])).between ih hu.balanced (by simp [hl]) (by simp [hl])
    have hclosed : AllRight resolve (([t] ++ l :: u) ++ [r]) := by
      refine hopened.snoc_of_last fun c hc _ => ?_
      -- the parenthesis closes this call and no other
      let this : Call resolve (([t] ++ l :: u) ++ [r]) :=
        ⟨[], t, l, u, r, [], f, arity, count, by simp, ht, hres, hl, hr, hu.phrase⟩
      obtain rfl : c = this := Call.eq_of_upTo hc
      exact hfits.symm
    simpa using hclosed
  | @group l u r hl hu hr ih =>
    have hopened : AllRight resolve ([] ++ l :: u) :=
      AllRight.nil.between ih hu.balanced (by simp [hl]) (by simp [hl])
    refine hopened.snoc_of_last fun c hc _ => ?_
    -- no name stands before the parenthesis that is closed
    have hupTo : (c.before ++ [c.name]) ++ c.opening :: c.args = [] ++ l :: u := by
      simpa [Call.upTo] using hc
    have hname := (c.phrase.balanced.opening_unique hu.balanced (rise_of_leftParen c.opens)
      (rise_of_leftParen hl) hupTo).1
    simp at hname
  | noArgs => exact .nil

/-! ### What is called -/

variable (resolve) in
/-- Every name before an opening parenthesis is called. -/
def Called (ts : List Token) : Prop :=
  ∀ before name opening rest, ts = before ++ name :: opening :: rest → name.kind = .word →
    opening.kind = .leftParen → ∃ c : Call resolve ts, c.before = before

namespace Called

lemma nil : Called resolve [] := by
  intro before name opening rest h
  simp at h

lemma singleton : Called resolve [t] := by
  intro before name opening rest h
  have hlen := congrArg List.length h
  simp only [List.length_append, List.length_cons, List.length_nil] at hlen
  omega

lemma append (hu : Called resolve u) (hv : Called resolve v)
    (hopen : ∀ s w, v = s :: w → s.kind ≠ .leftParen) : Called resolve (u ++ v) := by
  intro before name opening rest h hname hopening
  have right {z : List Token} (hz : v = z ++ name :: opening :: rest) :
      ∃ c : Call resolve (u ++ v), c.before = u ++ z := by
    obtain ⟨c, rfl⟩ := hv z name opening rest hz hname hopening
    exact ⟨c.among (u ++ c.before) c.after (by rw [List.append_assoc, ← c.tokens_eq]), rfl⟩
  rcases List.append_eq_append_iff.1 h with ⟨z, rfl, hz⟩ | ⟨z, hu', hz⟩
  · exact right hz
  · rcases z with _ | ⟨s, _ | ⟨s', z⟩⟩
    · obtain ⟨c, hc⟩ := right (z := []) hz.symm
      exact ⟨c, by simpa [hc] using hu'⟩
    · obtain ⟨-, hz⟩ := List.cons.inj hz
      exact absurd hopening (hopen _ _ hz.symm)
    · obtain ⟨rfl, htail⟩ := List.cons.inj hz
      obtain ⟨rfl, -⟩ := List.cons.inj htail
      obtain ⟨c, rfl⟩ := hu before _ _ z hu' hname hopening
      refine ⟨c.among c.before (c.after ++ v) ?_, rfl⟩
      calc u ++ v
          = (c.before ++ c.name :: c.opening :: (c.args ++ c.closing :: c.after)) ++ v :=
            congrArg (· ++ v) c.tokens_eq
        _ = _ := by simp

lemma cons (hv : Called resolve v) (ht : t.kind ≠ .word) : Called resolve (t :: v) := by
  intro before name opening rest h hname hopening
  rcases before with _ | ⟨s, before⟩
  · obtain ⟨rfl, -⟩ := List.cons.inj h
    exact absurd hname ht
  · obtain ⟨rfl, htail⟩ := List.cons.inj h
    obtain ⟨c, rfl⟩ := hv before name opening rest htail hname hopening
    exact ⟨c.among (t :: c.before) c.after (by rw [List.cons_append, ← c.tokens_eq]), rfl⟩

lemma between (hu : Called resolve u) (hv : Called resolve v) (hword : t.kind ≠ .word)
    (hopen : t.kind ≠ .leftParen) : Called resolve (u ++ t :: v) :=
  hu.append (hv.cons hword) fun _ _ h => (List.cons.inj h).1 ▸ hopen

end Called

theorem Derives.called (h : Derives fits resolve cat ts) : Called resolve ts := by
  induction h with
  | sumOf _ ih | productOf _ ih | factorOf _ ih | unsigned _ ih | powerOf _ ih | arg _ ih =>
    exact ih
  | sum _ ht _ _ ih₁ ih₂ | product _ ht _ _ ih₁ ih₂ | factor _ ht _ ih₁ ih₂
  | power _ ht _ ih₁ ih₂ | moreArgs _ ht _ ih₁ ih₂ =>
    exact ih₁.between ih₂ (by simp [ht]) (by simp [ht])
  | signed ht _ _ ih => exact ih.cons (by simp [ht])
  | number | «variable» | bare => exact .singleton
  | @call t l u r f arity count ht hres hl hu hr _ ih =>
    have hrest : Called resolve (l :: (u ++ [r])) :=
      (ih.between .nil (by simp [hr]) (by simp [hr])).cons (by simp [hl])
    intro before name opening rest h hname hopening
    rcases before with _ | ⟨s, before⟩
    · exact ⟨⟨[], t, l, u, r, [], f, arity, count, rfl, ht, hres, hl, hr, hu.phrase⟩, rfl⟩
    · obtain ⟨rfl, htail⟩ := List.cons.inj h
      obtain ⟨c, rfl⟩ := hrest before name opening rest htail hname hopening
      exact ⟨c.among (t :: c.before) c.after (by rw [List.cons_append, ← c.tokens_eq]), rfl⟩
  | group hl _ hr ih => exact (ih.between .nil (by simp [hr]) (by simp [hr])).cons (by simp [hl])
  | noArgs => exact .nil

end Formula.Grammar
