import Formula.Proofs.Grammar

/-!
Prefixes of sentences.

A list of tokens is viable if a sentence begins with it. The scan below tells so from left to
right: of what it has read it keeps the parentheses that are open and what the last token leaves
to be done. It takes a token if and only if some sentence goes on with it.
-/

namespace Formula.Grammar

variable (resolve : Text → Option Meaning)

/-- A phrase of the documented grammar, with any number of arguments in every call. -/
def Phrase (c : Cat) (ts : List Token) : Prop := Derives (fun _ _ => True) resolve c ts

/-- Some sentence, its end included, begins with the tokens. -/
def Viable (ts : List Token) : Prop :=
  ∃ rest us last, ts ++ rest = us ++ [last] ∧ last.kind = .stop ∧ Phrase resolve .expr us

/-- What an open parenthesis encloses. -/
inductive Paren where
  | group | arguments

/-- What the last token leaves to be done. -/
inductive Phase where
  | operand
  /-- The arguments of a call begin, if there are any. -/
  | opened
  /-- The arguments of the function that was named have to be opened. -/
  | callee
  /-- They may be opened, or else the name is an operand. -/
  | named
  /-- An operand is complete. -/
  | operator
  | ended

/-- How far a list of tokens has come. The parenthesis that was opened last comes first. -/
structure Scan where
  phase : Phase
  parens : List Paren

namespace Scan

/-- The first token of an operand. -/
def begin (ps : List Paren) (t : Token) : Option Scan :=
  match t.kind with
  | .number _ => some ⟨.operator, ps⟩
  | .word => match resolve t.text with
    | some (.variable _) => some ⟨.operator, ps⟩
    | some (.function _ 0) => some ⟨.named, ps⟩
    | some (.function _ (_ + 1)) => some ⟨.callee, ps⟩
    | none => none
  | .operator .add | .operator .sub => some ⟨.operand, ps⟩
  | .leftParen => some ⟨.operand, .group :: ps⟩
  | _ => none

/-- A token after an operand. -/
def goOn (ps : List Paren) (t : Token) : Option Scan :=
  match t.kind, ps with
  | .operator _, ps => some ⟨.operand, ps⟩
  | .comma, .arguments :: ps => some ⟨.operand, .arguments :: ps⟩
  | .rightParen, _ :: ps => some ⟨.operator, ps⟩
  | .stop, [] => some ⟨.ended, []⟩
  | _, _ => none

/-- The parenthesis after the name of a function. -/
def openCall (ps : List Paren) : Scan := ⟨.opened, .arguments :: ps⟩

def step (s : Scan) (t : Token) : Option Scan :=
  match s.phase with
  | .operand => begin resolve s.parens t
  | .opened => if t.kind = .rightParen then goOn s.parens t else begin resolve s.parens t
  | .callee => if t.kind = .leftParen then some (openCall s.parens) else none
  | .named => if t.kind = .leftParen then some (openCall s.parens) else goOn s.parens t
  | .operator => goOn s.parens t
  | .ended => none

def run : Scan → List Token → Option Scan
  | s, [] => some s
  | s, t :: ts => (s.step resolve t).bind (run · ts)

/-- Where a text begins. -/
def start : Scan := ⟨.operand, []⟩

end Scan

/-- An operand may begin. -/
def Phase.Opens (p : Phase) : Prop := p = .operand ∨ p = .opened

/-- An operand may be over. -/
def Phase.Closes (p : Phase) : Prop := p = .operator ∨ p = .named

variable {resolve} {s s' : Scan} {t : Token} {ts us : List Token} {p : Phase} {q : Paren}
  {ps : List Paren} {o : Operator} {c : Cat}

namespace Scan

lemma run_append : s.run resolve (ts ++ us) = (s.run resolve ts).bind (·.run resolve us) := by
  induction ts generalizing s with
  | nil => rfl
  | cons t ts ih =>
    rw [List.cons_append, run, run]
    cases s.step resolve t with
    | none => rfl
    | some s => exact ih

lemma run_singleton : s.run resolve [t] = s.step resolve t := by
  rw [run]
  cases s.step resolve t <;> rfl

lemma run_cons (h : s.step resolve t = some s') : s.run resolve (t :: ts) = s'.run resolve ts := by
  rw [run, h]
  rfl

/-! ### What the scan takes -/

lemma step_of_opens (h : p.Opens) (ht : t.kind ≠ .rightParen) :
    step resolve ⟨p, ps⟩ t = begin resolve ps t := by
  rcases h with rfl | rfl
  · rfl
  · exact if_neg ht

lemma step_of_closes (h : p.Closes) (ht : t.kind ≠ .leftParen) :
    step resolve ⟨p, ps⟩ t = goOn ps t := by
  rcases h with rfl | rfl
  · rfl
  · exact if_neg ht

lemma step_number {x : Float} (h : p.Opens) (ht : t.kind = .number x) :
    step resolve ⟨p, ps⟩ t = some ⟨.operator, ps⟩ := by
  rw [step_of_opens h (by simp [ht])]
  simp [begin, ht]

lemma step_sign (h : p.Opens) (ht : t.kind = .operator o) (ho : IsSum o) :
    step resolve ⟨p, ps⟩ t = some ⟨.operand, ps⟩ := by
  rw [step_of_opens h (by simp [ht])]
  rcases ho with rfl | rfl <;> simp [begin, ht]

lemma step_group (h : p.Opens) (ht : t.kind = .leftParen) :
    step resolve ⟨p, ps⟩ t = some ⟨.operand, .group :: ps⟩ := by
  rw [step_of_opens h (by simp [ht])]
  simp [begin, ht]

lemma step_variable {k : ℕ} (h : p.Opens) (ht : t.kind = .word)
    (hr : resolve t.text = some (.variable k)) :
    step resolve ⟨p, ps⟩ t = some ⟨.operator, ps⟩ := by
  rw [step_of_opens h (by simp [ht])]
  simp [begin, ht, hr]

/-- The name of a function may be called, and is an operand if it takes no arguments. -/
lemma step_function {f : Callee} {arity : ℕ} (h : p.Opens) (ht : t.kind = .word)
    (hr : resolve t.text = some (.function f arity)) :
    step resolve ⟨p, ps⟩ t = some ⟨if arity = 0 then .named else .callee, ps⟩ := by
  rw [step_of_opens h (by simp [ht])]
  cases arity <;> simp [begin, ht, hr]

lemma step_call {arity : ℕ} (ht : t.kind = .leftParen) :
    step resolve ⟨if arity = 0 then .named else .callee, ps⟩ t = some (openCall ps) := by
  split <;> simp [step, ht]

lemma step_operator (h : p.Closes) (ht : t.kind = .operator o) :
    step resolve ⟨p, ps⟩ t = some ⟨.operand, ps⟩ := by
  rw [step_of_closes h (by simp [ht])]
  simp [goOn, ht]

lemma step_comma (h : p.Closes) (ht : t.kind = .comma) :
    step resolve ⟨p, .arguments :: ps⟩ t = some ⟨.operand, .arguments :: ps⟩ := by
  rw [step_of_closes h (by simp [ht])]
  simp [goOn, ht]

lemma step_rightParen (h : p = .opened ∨ p.Closes) (ht : t.kind = .rightParen) :
    step resolve ⟨p, q :: ps⟩ t = some ⟨.operator, ps⟩ := by
  rcases h with rfl | rfl | rfl <;> simp [step, goOn, ht]

lemma step_stop (h : p.Closes) (ht : t.kind = .stop) :
    step resolve ⟨p, []⟩ t = some ⟨.ended, []⟩ := by
  rw [step_of_closes h (by simp [ht])]
  simp [goOn, ht]

/-! ### Phrases are taken -/

/-- From where a phrase may begin the scan comes to where it may be over. -/
def Crosses (resolve : Text → Option Meaning) : Cat → List Token → Prop
  | .args count, ts => ∀ ps, ∃ p, (count = 0 ∧ p = .opened ∨ p.Closes ∧ count ≠ 0) ∧
      (openCall ps).run resolve ts = some ⟨p, .arguments :: ps⟩
  | _, ts => ∀ ps (p : Phase), p.Opens → ∃ p' : Phase, p'.Closes ∧
      run resolve ⟨p, ps⟩ ts = some ⟨p', ps⟩

/-- Two phrases and an operator between them. -/
lemma crosses_operator {u v : List Token} {p : Phase}
    (hu : ∃ p' : Phase, p'.Closes ∧ run resolve ⟨p, ps⟩ u = some ⟨p', ps⟩)
    (ht : t.kind = .operator o)
    (hv : ∃ p' : Phase, p'.Closes ∧ run resolve ⟨.operand, ps⟩ v = some ⟨p', ps⟩) :
    ∃ p' : Phase, p'.Closes ∧ run resolve ⟨p, ps⟩ (u ++ t :: v) = some ⟨p', ps⟩ := by
  obtain ⟨p₁, hp₁, hu⟩ := hu
  obtain ⟨p₂, hp₂, hv⟩ := hv
  refine ⟨p₂, hp₂, ?_⟩
  rw [run_append, hu, Option.bind_some, run_cons (step_operator hp₁ ht), hv]

theorem crosses_of_phrase (h : Phrase resolve c ts) : Crosses resolve c ts := by
  have opens : Phase.operand.Opens := .inl rfl
  induction h with
  | sumOf _ ih | productOf _ ih | factorOf _ ih | unsigned _ ih | powerOf _ ih => exact ih
  | sum _ ht _ _ ih₁ ih₂ | product _ ht _ _ ih₁ ih₂ | factor _ ht _ ih₁ ih₂
  | power _ ht _ ih₁ ih₂ =>
    exact fun ps p hp => crosses_operator (ih₁ ps p hp) ht (ih₂ ps _ opens)
  | signed ht ho _ ih =>
    intro ps p hp
    rw [run_cons (step_sign hp ht ho)]
    exact ih ps _ opens
  | number ht => exact fun ps p hp => ⟨_, .inl rfl, by rw [run_singleton, step_number hp ht]⟩
  | «variable» ht hr =>
    exact fun ps p hp => ⟨_, .inl rfl, by rw [run_singleton, step_variable hp ht hr]⟩
  | bare ht hr =>
    exact fun ps p hp => ⟨_, .inr rfl, by rw [run_singleton, step_function hp ht hr, if_pos rfl]⟩
  | call ht hr hl _ hclose _ ih =>
    intro ps p hp
    obtain ⟨p', hp', hrun⟩ := ih ps
    have hend : p' = .opened ∨ p'.Closes := hp'.imp And.right And.left
    refine ⟨_, .inl rfl, ?_⟩
    rw [run_cons (step_function hp ht hr), run_cons (step_call hl), run_append, hrun,
      Option.bind_some, run_singleton, step_rightParen hend hclose]
  | group hl _ hclose ih =>
    intro ps p hp
    obtain ⟨p', hp', hrun⟩ := ih (.group :: ps) _ opens
    refine ⟨_, .inl rfl, ?_⟩
    rw [run_cons (step_group hp hl), run_append, hrun, Option.bind_some, run_singleton,
      step_rightParen (.inr hp') hclose]
  | noArgs => exact fun ps => ⟨.opened, .inl ⟨rfl, rfl⟩, rfl⟩
  | arg _ ih =>
    intro ps
    obtain ⟨p, hp, hrun⟩ := ih (.arguments :: ps) _ (.inr rfl)
    exact ⟨p, .inr ⟨hp, Nat.one_ne_zero⟩, hrun⟩
  | moreArgs _ ht _ ih₁ ih₂ =>
    intro ps
    obtain ⟨p₁, hp₁, h₁⟩ := ih₁ ps
    obtain ⟨p₂, hp₂, h₂⟩ := ih₂ (.arguments :: ps) _ opens
    have hclose : p₁.Closes := hp₁.elim (fun h => absurd h.1 (Nat.succ_ne_zero _)) And.left
    refine ⟨p₂, .inr ⟨hp₂, Nat.succ_ne_zero _⟩, ?_⟩
    rw [run_append, h₁, Option.bind_some, run_cons (step_comma hclose ht), h₂]

end Scan

/-! ### Phrases that grow to the right -/

lemma Phrase.factor_pow {u v : List Token} (hu : Phrase resolve .factor u)
    (ht : t.kind = .operator .pow) (hv : Phrase resolve .base v) :
    Phrase resolve .factor (u ++ t :: v) := by
  generalize hc : Cat.factor = c at hu
  induction hu with
  | factorOf h => exact .factor h ht (.factorOf hv)
  | factor h ht' _ _ ih =>
    rw [List.append_assoc, List.cons_append]
    exact .factor h ht' (ih hc)
  | _ => cases hc

/-- A term takes one more base after any operator but a sum. -/
lemma Phrase.term_operator {u v : List Token} (hu : Phrase resolve .term u)
    (ht : t.kind = .operator o) (ho : ¬IsSum o) (hv : Phrase resolve .base v) :
    Phrase resolve .term (u ++ t :: v) := by
  by_cases hp : IsProduct o
  · exact .product hu ht hp (.factorOf hv)
  · obtain rfl : o = .pow := by
      simp only [IsSum, IsProduct] at ho hp
      cases o <;> simp_all
    cases hu with
    | productOf h => exact .productOf (Phrase.factor_pow h ht hv)
    | product h ht' ho' h' =>
      rw [List.append_assoc, List.cons_append]
      exact .product h ht' ho' (Phrase.factor_pow h' ht hv)

/-- An expression takes one more base after any operator. -/
lemma Phrase.expr_operator {u v : List Token} (hu : Phrase resolve .expr u)
    (ht : t.kind = .operator o) (hv : Phrase resolve .base v) :
    Phrase resolve .expr (u ++ t :: v) := by
  by_cases ho : IsSum o
  · exact .sum hu ht ho (.productOf (.factorOf hv))
  · cases hu with
    | sumOf h => exact .sumOf (Phrase.term_operator h ht ho hv)
    | sum h ht' ho' h' =>
      rw [List.append_assoc, List.cons_append]
      exact .sum h ht' ho' (Phrase.term_operator h' ht ho hv)

lemma Phrase.expr_of_base {u : List Token} (h : Phrase resolve .base u) :
    Phrase resolve .expr u :=
  .sumOf (.productOf (.factorOf h))

lemma Phrase.base_of_atom {u : List Token} (h : Phrase resolve .atom u) :
    Phrase resolve .base u :=
  .unsigned (.powerOf h)

variable (resolve) in
/-- What may stand within a parenthesis before something is added or the parenthesis is closed. -/
def Enclosed : Paren → List Token → Prop
  | .group, u => Phrase resolve .expr u
  | .arguments, u => ∃ count, Phrase resolve (.args (count + 1)) u

lemma Enclosed.of_base {u : List Token} (h : Phrase resolve .base u) : Enclosed resolve q u := by
  cases q with
  | group => exact h.expr_of_base
  | arguments => exact ⟨0, .arg h.expr_of_base⟩

lemma Enclosed.operator {u v : List Token} (hu : Enclosed resolve q u)
    (ht : t.kind = .operator o) (hv : Phrase resolve .base v) :
    Enclosed resolve q (u ++ t :: v) := by
  cases q with
  | group => exact Phrase.expr_operator hu ht hv
  | arguments =>
    obtain ⟨count, hu⟩ := hu
    refine ⟨count, ?_⟩
    cases hu with
    | arg h => exact .arg (Phrase.expr_operator h ht hv)
    | moreArgs h ht' h' =>
      rw [List.append_assoc, List.cons_append]
      exact .moreArgs h ht' (Phrase.expr_operator h' ht hv)

namespace Scan

variable (resolve)

/-! ### What completes a scan -/

/-- The tokens complete a sentence after an operand. -/
inductive Rest : List Paren → List Token → Prop
  | stop {t : Token} : t.kind = .stop → Rest [] [t]
  | operator {ps : List Paren} {t : Token} {o : Operator} {u w : List Token} :
      t.kind = .operator o → Phrase resolve .base u → Rest ps w → Rest ps (t :: (u ++ w))
  | comma {ps : List Paren} {t : Token} {u w : List Token} :
      t.kind = .comma → Phrase resolve .base u → Rest (.arguments :: ps) w →
      Rest (.arguments :: ps) (t :: (u ++ w))
  | close {ps : List Paren} {q : Paren} {t : Token} {w : List Token} :
      t.kind = .rightParen → Rest ps w → Rest (q :: ps) (t :: w)

/-- The tokens complete a sentence after the name of a function that is called. -/
def RestOfCall (ps : List Paren) (w : List Token) : Prop :=
  ∃ l u r v count, w = l :: (u ++ r :: v) ∧ l.kind = .leftParen ∧
    Phrase resolve (.args count) u ∧ r.kind = .rightParen ∧ Rest resolve ps v

/-- The tokens complete a sentence where an operand has to follow. -/
def RestOfOperand (ps : List Paren) (w : List Token) : Prop :=
  ∃ u v, w = u ++ v ∧ Phrase resolve .base u ∧ Rest resolve ps v

/-- The tokens complete a sentence. -/
def Completes (s : Scan) (w : List Token) : Prop :=
  match s.phase with
  | .operand => RestOfOperand resolve s.parens w
  | .opened => RestOfOperand resolve s.parens w ∨
      ∃ r v q ps, w = r :: v ∧ r.kind = .rightParen ∧ s.parens = q :: ps ∧ Rest resolve ps v
  | .callee => RestOfCall resolve s.parens w
  | .named => RestOfCall resolve s.parens w ∨ Rest resolve s.parens w
  | .operator => Rest resolve s.parens w
  | .ended => w = []

variable {resolve}

/-- What is within a parenthesis goes on up to where the parenthesis is closed. -/
lemma Rest.closed {u w : List Token} (h : Rest resolve (q :: ps) w) (hu : Enclosed resolve q u) :
    ∃ v r w', u ++ w = v ++ r :: w' ∧ Enclosed resolve q v ∧ r.kind = .rightParen ∧
      Rest resolve ps w' := by
  generalize hqs : q :: ps = qs at h
  induction h generalizing u with
  | stop => cases hqs
  | @operator _ t _ b w ht hb _ ih =>
    rw [← List.cons_append, ← List.append_assoc]
    exact ih (hu.operator ht hb) hqs
  | @comma _ t b w ht hb _ ih =>
    cases hqs
    obtain ⟨count, hu⟩ := hu
    rw [← List.cons_append, ← List.append_assoc]
    exact ih ⟨count + 1, .moreArgs hu ht hb.expr_of_base⟩ rfl
  | close ht hw =>
    cases hqs
    exact ⟨u, _, _, rfl, hu, ht, hw⟩

/-- An expression outside all parentheses goes on up to the end. -/
lemma Rest.to_end {u w : List Token} (h : Rest resolve [] w) (hu : Phrase resolve .expr u) :
    ∃ v last, u ++ w = v ++ [last] ∧ last.kind = .stop ∧ Phrase resolve .expr v := by
  generalize hqs : [] = qs at h
  induction h generalizing u with
  | stop ht => exact ⟨u, _, rfl, ht, hu⟩
  | @operator _ t _ b w ht hb _ ih =>
    rw [← List.cons_append, ← List.append_assoc]
    exact ih (hu.expr_operator ht hb) hqs
  | comma | close => cases hqs

/-- A call is an operand. -/
lemma RestOfCall.named {w : List Token} {f : Callee} {arity : ℕ} (h : RestOfCall resolve ps w)
    (ht : t.kind = .word) (hr : resolve t.text = some (.function f arity)) :
    RestOfOperand resolve ps (t :: w) := by
  obtain ⟨l, u, r, v, count, rfl, hl, hu, hclose, hv⟩ := h
  refine ⟨t :: l :: (u ++ [r]), v, by simp, ?_, hv⟩
  exact .base_of_atom (.call ht hr hl hu hclose trivial)

lemma RestOfOperand.of_atom {w : List Token} (h : Phrase resolve .atom [t])
    (hw : Rest resolve ps w) : RestOfOperand resolve ps (t :: w) :=
  ⟨[t], w, rfl, h.base_of_atom, hw⟩

/-- The operand that a token begins. -/
lemma restOfOperand_of_begin {w : List Token} (h : begin resolve ps t = some s)
    (hw : Completes resolve s w) : RestOfOperand resolve ps (t :: w) := by
  unfold begin at h
  split at h
  · rename_i ht
    cases h
    exact .of_atom (.number ht) hw
  · rename_i ht
    split at h
    · rename_i hr
      cases h
      exact .of_atom (.variable ht hr) hw
    · rename_i hr
      cases h
      exact hw.elim (·.named ht hr) (.of_atom (.bare ht hr))
    · rename_i hr
      cases h
      exact RestOfCall.named hw ht hr
    · cases h
  · rename_i ht
    cases h
    obtain ⟨u, v, rfl, hu, hv⟩ := hw
    exact ⟨t :: u, v, rfl, .signed ht (.inl rfl) hu, hv⟩
  · rename_i ht
    cases h
    obtain ⟨u, v, rfl, hu, hv⟩ := hw
    exact ⟨t :: u, v, rfl, .signed ht (.inr rfl) hu, hv⟩
  · rename_i ht
    cases h
    obtain ⟨u, v, rfl, hu, hv⟩ := hw
    obtain ⟨u', r, v', huv, hu', hr, hv'⟩ := hv.closed (.of_base hu)
    refine ⟨t :: (u' ++ [r]), v', by simp [huv], ?_, hv'⟩
    exact .base_of_atom (.group ht hu' hr)
  · cases h

lemma rest_of_goOn {w : List Token} (h : goOn ps t = some s) (hw : Completes resolve s w) :
    Rest resolve ps (t :: w) := by
  unfold goOn at h
  split at h
  · rename_i ht
    cases h
    obtain ⟨u, v, rfl, hu, hv⟩ := hw
    exact .operator ht hu hv
  · rename_i ht
    cases h
    obtain ⟨u, v, rfl, hu, hv⟩ := hw
    exact .comma ht hu hv
  · rename_i ht
    cases h
    exact .close ht hw
  · rename_i ht
    cases h
    obtain rfl : w = [] := hw
    exact .stop ht
  · cases h

/-- The arguments that a parenthesis opens. -/
lemma restOfCall_of_open {w : List Token} (ht : t.kind = .leftParen)
    (hw : Completes resolve (openCall ps) w) : RestOfCall resolve ps (t :: w) := by
  rcases hw with ⟨u, v, rfl, hu, hv⟩ | ⟨r, v, q, qs, rfl, hr, hqs, hv⟩
  · obtain ⟨u', r, v', huv, ⟨count, hu'⟩, hr, hv'⟩ := hv.closed (q := .arguments) (.of_base hu)
    exact ⟨t, u', r, v', _, by rw [huv], ht, hu', hr, hv'⟩
  · cases hqs
    exact ⟨t, [], r, v, 0, rfl, ht, .noArgs, hr, hv⟩

/-- **What completes a scan after a token completes it with the token.** -/
lemma completes_of_step {w : List Token} (h : s.step resolve t = some s')
    (hw : Completes resolve s' w) : Completes resolve s (t :: w) := by
  obtain ⟨p, ps⟩ := s
  unfold step at h
  cases p with
  | operand => exact restOfOperand_of_begin h hw
  | opened =>
    simp only at h
    split at h
    · rename_i ht
      refine .inr ?_
      cases rest_of_goOn h hw with
      | close _ hv => exact ⟨_, _, _, _, rfl, ht, rfl, hv⟩
      | stop ht' | operator ht' | comma ht' => simp [ht] at ht'
    · exact .inl (restOfOperand_of_begin h hw)
  | callee =>
    simp only at h
    split at h
    · rename_i ht
      cases h
      exact restOfCall_of_open ht hw
    · cases h
  | named =>
    simp only at h
    split at h
    · rename_i ht
      cases h
      exact .inl (restOfCall_of_open ht hw)
    · exact .inr (rest_of_goOn h hw)
  | operator => exact rest_of_goOn h hw
  | ended => cases h

lemma completes_of_run {w : List Token} (h : s.run resolve ts = some s')
    (hw : Completes resolve s' w) : Completes resolve s (ts ++ w) := by
  induction ts generalizing s with
  | nil =>
    cases h
    exact hw
  | cons t ts ih =>
    rw [run] at h
    obtain ⟨s₁, hs₁, h⟩ := Option.bind_eq_some_iff.1 h
    exact completes_of_step hs₁ (ih h)

variable (resolve) in
/-- What is open can be closed. -/
lemma exists_rest (ps : List Paren) : ∃ w, Rest resolve ps w := by
  induction ps with
  | nil => exact ⟨[⟨.stop, [], 0⟩], .stop rfl⟩
  | cons q ps ih =>
    obtain ⟨w, hw⟩ := ih
    exact ⟨⟨.rightParen, [')'], 0⟩ :: w, .close rfl hw⟩

variable (resolve) in
/-- Every scan can be completed. -/
lemma exists_completes (s : Scan) : ∃ w, Completes resolve s w := by
  obtain ⟨p, ps⟩ := s
  obtain ⟨w, hw⟩ := exists_rest resolve ps
  have hone : RestOfOperand resolve ps (⟨.number 1, ['1'], 0⟩ :: w) := .of_atom (.number rfl) hw
  have hcall : RestOfCall resolve ps (⟨.leftParen, ['('], 0⟩ :: ⟨.rightParen, [')'], 0⟩ :: w) :=
    ⟨_, [], _, w, 0, rfl, rfl, .noArgs, rfl, hw⟩
  cases p with
  | operand => exact ⟨_, hone⟩
  | opened => exact ⟨_, .inl hone⟩
  | callee => exact ⟨_, hcall⟩
  | named => exact ⟨_, .inl hcall⟩
  | operator => exact ⟨_, hw⟩
  | ended => exact ⟨[], rfl⟩

end Scan

/-- **Tokens begin a sentence if and only if the scan takes them.** -/
theorem viable_iff : Viable resolve ts ↔ ∃ s, Scan.start.run resolve ts = some s := by
  constructor
  · rintro ⟨rest, us, last, heq, hlast, hus⟩
    obtain ⟨p, hp, hrun⟩ := Scan.crosses_of_phrase hus [] _ (.inl rfl)
    have hall : Scan.start.run resolve (ts ++ rest) = some ⟨.ended, []⟩ := by
      rw [heq, Scan.run_append, Scan.start, hrun, Option.bind_some, Scan.run_singleton,
        Scan.step_stop hp hlast]
    rw [Scan.run_append] at hall
    obtain ⟨s, hs, -⟩ := Option.bind_eq_some_iff.1 hall
    exact ⟨s, hs⟩
  · rintro ⟨s, hs⟩
    obtain ⟨w, hw⟩ := Scan.exists_completes resolve s
    obtain ⟨u, v, huv, hu, hv⟩ := Scan.completes_of_run hs hw
    obtain ⟨us, last, heq, hlast, hus⟩ := hv.to_end hu.expr_of_base
    exact ⟨w, us, last, huv.trans heq, hlast, hus⟩

/-- A token that the scan does not take ends every hope of a sentence. -/
lemma not_viable_of_step (h : Scan.start.run resolve ts = some s) (ht : s.step resolve t = none) :
    ¬Viable resolve (ts ++ [t]) := by
  rw [viable_iff, Scan.run_append, h]
  rintro ⟨s', hs'⟩
  rw [Option.bind_some, Scan.run_singleton, ht] at hs'
  cases hs'

end Formula.Grammar
