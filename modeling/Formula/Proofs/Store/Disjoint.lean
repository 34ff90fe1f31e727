import Formula.Proofs.Store.Atomic
import Formula.Proofs.Store.Closing

/-!
Parts of a store that have nothing to do with each other.

A part is made of variables, expressions and some of the state of the host. What is done with one
part changes nothing else, and depends on nothing else. So it makes no difference how the uses of
two parts are mixed.
-/

namespace Formula

open Store

variable {σ α β : Type} {w w' w₀ w₀' : Store σ} {e : ExprId} {v : VarId} {depth : ℕ}
  {bs : List (Binding σ)} {o : Options} {text : Text}

/-- Variables and expressions that belong together, and what their host functions have of the
state of the host. -/
structure Part (σ α : Type) where
  vars : VarId → Prop
  exprs : ExprId → Prop
  view : σ → α

variable {A : Part σ α} {B : Part σ β}

/-- Host code of `A` that runs on two stores sees the same, and leaves what `B` has of the states of
the host as it was. -/
def Part.rights (A : Part σ α) (B : Part σ β) (b b' : β) : Rights σ where
  host h h' := A.view h = A.view h' ∧ B.view h = b ∧ B.view h' = b'
  vars := A.vars
  evals := A.exprs

/-- The function touches what belongs to `A`, and of the state of the host nothing that belongs to
`B`. -/
def HostFunction.KeepsTo (A : Part σ α) (B : Part σ β) (f : HostFunction σ) : Prop :=
  ∀ b b' args, (f.code args).Tied (A.rights B b b') (f.code args)

def Target.KeepsTo (A : Part σ α) (B : Part σ β) : Target σ → Prop
  | .builtin _ => True
  | .host _ f => f.KeepsTo A B

lemma Target.KeepsTo.tied {t : Target σ} (h : t.KeepsTo A B) (b b' : β) :
    t.Tied (A.rights B b b') := by
  cases t with
  | builtin _ => trivial
  | host n f => exact h b b'

/-- The bindings are of variables of `A`, and of functions that keep to it. -/
def Part.Binds (A : Part σ α) (B : Part σ β) (bs : List (Binding σ)) : Prop :=
  (∀ v ∈ boundVars bs, A.vars v) ∧ ∀ b ∈ bs, ∀ f, b.referent = .function f → f.KeepsTo A B

namespace Op

/-- The operation is one on variables and expressions of `A`. -/
def KeepsTo (A : Part σ α) (B : Part σ β) : Op σ → Prop
  | host _ => False
  | newVariable v _ | clone v | update v _ | increment v | decrement v => A.vars v
  | compile _ e bs _ _ | validate _ e bs _ _ => A.exprs e ∧ A.Binds B bs
  | evaluate _ e | close e | drop e => A.exprs e

/-- What the caller is told. -/
inductive Answer where
  | nothing
  | done (r : Except Error Unit)
  | value (r : Except Error Float)
  | valid (r : Bool)

def answer (w : Store σ) : Op σ → Answer
  | host _ | newVariable .. | clone _ | close _ | drop _ => .nothing
  | update v x => .done (w.update v x).1
  | increment v => .done (w.increment v).1
  | decrement v => .done (w.decrement v).1
  | compile depth e bs o text => .done (Formula.compile depth e bs o text w).1
  | validate depth e bs o text => .valid (validateWith depth e bs o text w).1
  | evaluate depth e => .value (Formula.evaluate depth e w).1

/-- The answers to operations that are done one after the other. -/
def answers : Store σ → List (Op σ) → List Answer
  | _, [] => []
  | w, o :: os => o.answer w :: answers (o.run w) os

/-- The answers to two mixed sequences of operations, each told from which it is. -/
def mixedAnswers : Store σ → List (Op σ ⊕ Op σ) → List (Answer ⊕ Answer)
  | _, [] => []
  | w, .inl o :: os => .inl (o.answer w) :: mixedAnswers (o.run w) os
  | w, .inr o :: os => .inr (o.answer w) :: mixedAnswers (o.run w) os

end Op

namespace Part

/-- `A` is closed: its expressions have slots for its variables only, its variables listen with
slots of its expressions only, and the functions that are called keep to it. -/
structure Apart (A : Part σ α) (B : Part σ β) (w : Store σ) : Prop where
  listener : ∀ v s, A.vars v → w.listener v = some s → A.exprs s.owner
  slots : ∀ e c, A.exprs e → w.exprs.get? e = some c → ∀ a ∈ c.slots, A.vars a.var
  calls : ∀ e c p, A.exprs e → w.exprs.get? e = some c → c.program = some p →
    ∀ t argc, .call t argc ∈ p → t.KeepsTo A B

/-- The stores are the same in `A`. -/
structure Agrees (A : Part σ α) (w w' : Store σ) : Prop where
  cell : ∀ v, A.vars v → w.cell v = w'.cell v
  exprs : ∀ e, A.exprs e → w.exprs.get? e = w'.exprs.get? e
  view : A.view w.host = A.view w'.host

/-- The stores are the same outside of `A`. -/
structure Spares (A : Part σ α) (B : Part σ β) (w w' : Store σ) : Prop where
  cell : ∀ v, ¬A.vars v → w'.cell v = w.cell v
  exprs : ∀ e, ¬A.exprs e → w'.exprs.get? e = w.exprs.get? e
  view : B.view w'.host = B.view w.host

lemma Agrees.refl (A : Part σ α) (w : Store σ) : A.Agrees w w :=
  ⟨fun _ _ => rfl, fun _ _ => rfl, rfl⟩

lemma Agrees.trans {w'' : Store σ} (h : A.Agrees w w') (h' : A.Agrees w' w'') : A.Agrees w w'' :=
  ⟨fun v hv => (h.cell v hv).trans (h'.cell v hv), fun e he => (h.exprs e he).trans (h'.exprs e he),
    h.view.trans h'.view⟩

lemma Spares.refl (A : Part σ α) (B : Part σ β) (w : Store σ) : A.Spares B w w :=
  ⟨fun _ _ => rfl, fun _ _ => rfl, rfl⟩

/-- What spares all that is outside of `A` spares `B`. -/
lemma Spares.agrees (h : A.Spares B w w') (hvars : ∀ v, A.vars v → ¬B.vars v)
    (hexprs : ∀ e, A.exprs e → ¬B.exprs e) : B.Agrees w' w :=
  ⟨fun v hv => h.cell v fun hA => hvars v hA hv, fun e he => h.exprs e fun hA => hexprs e hA he,
    h.view⟩

lemma Apart.of_agrees (h : A.Apart B w) (hsame : A.Agrees w' w) : A.Apart B w' := by
  refine ⟨fun v s hv hs => ?_, fun e c he hc => ?_, fun e c p he hc => ?_⟩
  · rw [Store.listener, hsame.cell v hv] at hs
    exact h.listener v s hv hs
  · rw [hsame.exprs e he] at hc
    exact h.slots e c he hc
  · rw [hsame.exprs e he] at hc
    exact h.calls e c p he hc

/-- Two stores, come from `w₀` and `w₀'` by what was done with `A`. -/
structure Beside (A : Part σ α) (B : Part σ β) (w₀ w₀' w w' : Store σ) : Prop where
  agrees : A.Agrees w w'
  apart : A.Apart B w
  left : A.Spares B w₀ w
  right : A.Spares B w₀' w'

namespace Beside

lemma refl (h : A.Agrees w w') (hw : A.Apart B w) : A.Beside B w w' w w' :=
  ⟨h, hw, .refl A B w, .refl A B w'⟩

/-! ### Small steps -/

/-- A variable of `A` changes. -/
lemma setCell (h : A.Beside B w₀ w₀' w w') (hv : A.vars v) (c : Cell)
    (hc : ∀ s, c.listener = some s → A.exprs s.owner) :
    A.Beside B w₀ w₀' (w.setCell v c) (w'.setCell v c) := by
  have hspares {w₀ w : Store σ} (h : A.Spares B w₀ w) : A.Spares B w₀ (w.setCell v c) := by
    refine ⟨fun u hu => ?_, h.exprs, h.view⟩
    have hne : v ≠ u := by
      rintro rfl
      exact hu hv
    rw [cell_setCell, if_neg hne]
    exact h.cell u hu
  refine ⟨⟨fun u hu => ?_, h.agrees.exprs, h.agrees.view⟩, ⟨fun u s hu hs => ?_, h.apart.slots,
    h.apart.calls⟩, hspares h.left, hspares h.right⟩
  · rw [cell_setCell, cell_setCell, h.agrees.cell u hu]
  · rw [Store.listener, cell_setCell] at hs
    split at hs
    · exact hc s hs
    · exact h.apart.listener u s hu hs

/-- An expression of `A` changes, comes or goes. -/
lemma setExprs (h : A.Beside B w₀ w₀' w w') (he : A.exprs e) {t t' : Table ExprId (Compiled σ)}
    {x : Option (Compiled σ)} (ht : ∀ j, t.get? j = if e = j then x else w.exprs.get? j)
    (ht' : ∀ j, t'.get? j = if e = j then x else w'.exprs.get? j)
    (hslots : ∀ c, x = some c → ∀ a ∈ c.slots, A.vars a.var)
    (hcalls : ∀ c p, x = some c → c.program = some p →
      ∀ t argc, .call t argc ∈ p → t.KeepsTo A B) :
    A.Beside B w₀ w₀' { w with exprs := t } { w' with exprs := t' } := by
  have hspares {w₀ w : Store σ} {t : Table ExprId (Compiled σ)} (h : A.Spares B w₀ w)
      (ht : ∀ j, t.get? j = if e = j then x else w.exprs.get? j) :
      A.Spares B w₀ { w with exprs := t } := by
    refine ⟨h.cell, fun j hj => ?_, h.view⟩
    have hne : e ≠ j := by
      rintro rfl
      exact hj he
    rw [ht, if_neg hne]
    exact h.exprs j hj
  refine ⟨⟨h.agrees.cell, fun j hj => ?_, h.agrees.view⟩, ⟨h.apart.listener, fun j c hj hc => ?_,
    fun j c p hj hc => ?_⟩, hspares h.left ht, hspares h.right ht'⟩
  · rw [ht, ht', h.agrees.exprs j hj]
  · rw [ht] at hc
    split at hc
    · exact hslots c hc
    · exact h.apart.slots j c hj hc
  · rw [ht] at hc
    split at hc
    · exact hcalls c p hc
    · exact h.apart.calls j c p hj hc

lemma modifyExpr (h : A.Beside B w₀ w₀' w w') (he : A.exprs e) (f : Compiled σ → Compiled σ)
    (hslots : ∀ c, (∀ a ∈ c.slots, A.vars a.var) → ∀ a ∈ (f c).slots, A.vars a.var)
    (hcalls : ∀ c p, (f c).program = some p → c.program = some p ∨
      ∀ t argc, .call t argc ∈ p → t.KeepsTo A B) :
    A.Beside B w₀ w₀' (w.modifyExpr e f) (w'.modifyExpr e f) := by
  have hget {w : Store σ} (j : ExprId) : (w.exprs.modify e f).get? j =
      if e = j then (w.exprs.get? e).map f else w.exprs.get? j := by
    rw [Table.get?_modify]
    split
    · rename_i hj
      rw [hj]
    · rfl
  refine h.setExprs he (fun j => hget j) (fun j => ?_) (fun c hc => ?_) fun c p hc hp => ?_
  · rw [hget, h.agrees.exprs e he]
  · obtain ⟨c, hc', rfl⟩ := Option.map_eq_some_iff.1 hc
    exact hslots c (h.apart.slots e c he hc')
  · obtain ⟨c, hc', rfl⟩ := Option.map_eq_some_iff.1 hc
    rcases hcalls c p hp with hp | hall
    · exact h.apart.calls e c p he hc' hp
    · exact hall

lemma erase (h : A.Beside B w₀ w₀' w w') (he : A.exprs e) :
    A.Beside B w₀ w₀' { w with exprs := w.exprs.erase e } { w' with exprs := w'.exprs.erase e } :=
  h.setExprs he (fun _ => Table.get?_erase ..) (fun _ => Table.get?_erase ..) nofun nofun

lemma prepare (h : A.Beside B w₀ w₀' w w') (he : A.exprs e) (text : Text) :
    A.Beside B w₀ w₀' (w.prepare e text) (w'.prepare e text) := by
  refine h.setExprs he (fun _ => Table.get?_put ..) (fun _ => Table.get?_put ..) (fun c hc => ?_)
    fun c p hc hp => ?_
  · cases hc
    exact List.forall_mem_nil _
  · cases hc
    cases hp

lemma emit (h : A.Beside B w₀ w₀' w w') (r r' : Record) :
    A.Beside B w₀ w₀' (w.emit r) (w'.emit r') :=
  ⟨⟨h.agrees.cell, h.agrees.exprs, h.agrees.view⟩,
    ⟨h.apart.listener, h.apart.slots, h.apart.calls⟩, ⟨h.left.cell, h.left.exprs, h.left.view⟩,
    ⟨h.right.cell, h.right.exprs, h.right.view⟩⟩

lemma update (h : A.Beside B w₀ w₀' w w') (hv : A.vars v) (x : Float) :
    Ends (A.Beside B w₀ w₀') (w.update v x) (w'.update v x) := by
  have hl : w.listener v = w'.listener v := congrArg Cell.listener (h.agrees.cell v hv)
  rcases hs : w'.listener v with _ | s
  · rw [update_of_none w (hl.trans hs), update_of_none w' hs]
    exact ⟨rfl, h⟩
  · rw [update_of_some w (hl.trans hs), update_of_some w' hs]
    have hs' : A.exprs s.owner := h.apart.listener v s hv (hl.trans hs)
    have hcell := h.setCell hv ⟨x, some s⟩ fun t ht => by cases ht; exact hs'
    refine ⟨rfl, hcell.modifyExpr hs' _ (fun c hc a ha => ?_) fun c p hp => .inl hp⟩
    obtain ⟨b, hb, hvar⟩ : ∃ b ∈ c.slots, a.var = b.var := by
      simp only [List.mem_iff_getElem?, List.getElem?_modify] at ha
      obtain ⟨i, hi⟩ := ha
      obtain ⟨b, hb, rfl⟩ := Option.map_eq_some_iff.1 hi
      refine ⟨b, List.mem_of_getElem? hb, ?_⟩
      split
      · rfl
      · rfl
    rw [hvar]
    exact hc b hb

/-- Host code and programs of `A` run the same on both stores. -/
lemma tie (A : Part σ α) (B : Part σ β) (w₀ w₀' : Store σ) :
    Tie (A.rights B (B.view w₀.host) (B.view w₀'.host)) (fun _ => Eq) (A.Beside B w₀ w₀') where
  host h := ⟨h.agrees.view, h.left.view, h.right.view⟩
  put h hh := ⟨⟨h.agrees.cell, h.agrees.exprs, hh.1⟩, ⟨h.apart.listener, h.apart.slots,
    h.apart.calls⟩, ⟨h.left.cell, h.left.exprs, hh.2.1⟩, ⟨h.right.cell, h.right.exprs, hh.2.2⟩⟩
  value h hv := congrArg Cell.value (h.agrees.cell _ hv)
  isBound h hv := by rw [Store.isBound, Store.isBound, h.agrees.cell _ hv]
  update x h hv := h.update hv x
  stack s h he := h.modifyExpr he _ (fun _ hc => hc) fun _ _ hp => .inl hp
  entry {w w' e} h he := by
    rw [← h.agrees.exprs e he]
    rcases hc : w.exprs.get? e with _ | c
    · exact .none
    · refine .some (Compiled.like_self fun p hp t argc hmem => ?_)
      exact (h.apart.calls e c p he hc hp t argc hmem).tied _ _
  slot h he hk := by
    unfold slotValue
    rw [h.agrees.exprs _ he, hk]
  emit r h _ := h.emit r r

lemma evaluate (h : A.Beside B w₀ w₀' w w') (he : A.exprs e) (depth : ℕ) :
    Ends (A.Beside B w₀ w₀') (Formula.evaluate depth e w) (Formula.evaluate depth e w') :=
  ((tie A B w₀ w₀').evaluate depth e w w' he h).1

/-! ### Compiling and closing -/

lemma attach (h : A.Beside B w₀ w₀' w w') (he : A.exprs e) (hv : A.vars v) (n : Name) :
    Ends (A.Beside B w₀ w₀') (w.attach e n v) (w'.attach e n v) := by
  unfold Store.attach
  rw [← h.agrees.exprs e he, ← h.agrees.cell v hv]
  rcases w.exprs.get? e with _ | c
  · exact ⟨rfl, h⟩
  · simp only
    split
    · exact ⟨rfl, h⟩
    · have hcell := h.setCell hv { w.cell v with listener := some ⟨e, c.slots.length⟩ }
        fun s hs => by cases hs; exact he
      refine ⟨rfl, hcell.modifyExpr he _ (fun c hc a ha => ?_) fun _ _ hp => .inl hp⟩
      rcases List.mem_append.1 ha with ha | ha
      · exact hc a ha
      · rw [List.mem_singleton.1 ha]
        exact hv

lemma attachAll (h : A.Beside B w₀ w₀' w w') (he : A.exprs e) {vs : List (Name × VarId)}
    (hvs : ∀ nv ∈ vs, A.vars nv.2) :
    Ends (A.Beside B w₀ w₀') (w.attachAll e vs) (w'.attachAll e vs) := by
  induction vs generalizing w w' with
  | nil => exact ⟨rfl, h⟩
  | cons nv vs ih =>
    obtain ⟨hanswer, hstore⟩ := h.attach he (hvs nv List.mem_cons_self) nv.1
    unfold Store.attachAll
    rcases hx : w.attach e nv.1 nv.2 with ⟨err | _, w₁⟩
    · rcases hx' : w'.attach e nv.1 nv.2 with ⟨err' | _, w₁'⟩
      · rw [hx, hx'] at hanswer hstore
        exact ⟨hanswer, hstore⟩
      · rw [hx, hx'] at hanswer
        cases hanswer
    · rcases hx' : w'.attach e nv.1 nv.2 with ⟨err' | _, w₁'⟩
      · rw [hx, hx'] at hanswer
        cases hanswer
      · rw [hx, hx'] at hstore
        exact ih hstore fun nv hnv => hvs nv (List.mem_cons_of_mem _ hnv)

lemma detachAll (h : A.Beside B w₀ w₀' w w') (k : ℕ) {ss : List Slot}
    (hss : ∀ a ∈ ss, A.vars a.var) :
    A.Beside B w₀ w₀' (w.detachAll e k ss) (w'.detachAll e k ss) := by
  induction ss generalizing w w' k with
  | nil => exact h
  | cons a ss ih =>
    have ha := hss a List.mem_cons_self
    have hone : A.Beside B w₀ w₀' (w.detach ⟨e, k⟩ a.var) (w'.detach ⟨e, k⟩ a.var) := by
      unfold Store.detach
      rw [← h.agrees.cell _ ha]
      simp only
      split
      · exact h.setCell ha _ nofun
      · exact h
    exact ih hone (k + 1) fun b hb => hss b (List.mem_cons_of_mem a hb)

lemma release (h : A.Beside B w₀ w₀' w w') (he : A.exprs e) :
    A.Beside B w₀ w₀' (w.release e) (w'.release e) := by
  unfold Store.release
  rw [← h.agrees.exprs e he]
  rcases hc : w.exprs.get? e with _ | c
  · exact h
  · exact (h.detachAll 0 (h.apart.slots e c he hc)).modifyExpr he _
      (fun _ _ => List.forall_mem_nil _) fun _ _ hp => .inl hp

lemma abandon (h : A.Beside B w₀ w₀' w w') (he : A.exprs e) :
    A.Beside B w₀ w₀' (w.abandon e) (w'.abandon e) :=
  (h.release he).erase he

lemma close (h : A.Beside B w₀ w₀' w w') (he : A.exprs e) :
    A.Beside B w₀ w₀' (w.close e) (w'.close e) := by
  unfold Store.close
  rw [← h.agrees.exprs e he]
  split
  · have hclosed := (h.release he).modifyExpr he
      (fun c => { c with program := none, stack := some [] }) (fun _ hc => hc)
      fun _ _ hp => by cases hp
    exact hclosed.emit _ _
  · exact h

lemma drop (h : A.Beside B w₀ w₀' w w') (he : A.exprs e) :
    A.Beside B w₀ w₀' (w.drop e) (w'.drop e) :=
  (h.close he).erase he

lemma install (h : A.Beside B w₀ w₀' w w') (he : A.exprs e) {p : Program σ}
    (hp : ∀ t argc, .call t argc ∈ p → t.KeepsTo A B) (text : Text) :
    A.Beside B w₀ w₀' (w.install e text p) (w'.install e text p) := by
  have hstored := h.modifyExpr he (fun c => { c with program := some p }) (fun _ hc => hc)
    fun _ q hq => .inr (by cases hq; exact hp)
  exact hstored.emit _ _

/-- Both stores get the same program, and it calls functions of the table. -/
lemma lower (h : A.Beside B w₀ w₀' w w') {table : SymbolTable σ} {tree : Expr}
    (hfits : tree.Fits table) (ht : ∀ c t, table.target c = .ok t → t.KeepsTo A B)
    (depth : ℕ) (fold : Bool) :
    Lowered (Target.KeepsTo A B) Eq (A.Beside B w₀ w₀')
      (Formula.lower (Formula.evaluate depth) table fold tree w)
      (Formula.lower (Formula.evaluate depth) table fold tree w') :=
  ((tie A B w₀ w₀').lower ((tie A B w₀ w₀').evaluate depth)
    (fun (_ : fold = true) _ ht _ => ht.tied _ _) (Step.like_self hfits ht) h).1

lemma build (h : A.Beside B w₀ w₀' w w') (he : A.exprs e) (hbs : A.Binds B bs)
    {table : SymbolTable σ} (htable : SymbolTable.ofBindings bs = .ok table) (depth : ℕ)
    (o : Options) (text : Text) :
    Ends (A.Beside B w₀ w₀') (build depth e table o text w) (build depth e table o text w') := by
  have hvars : ∀ nv ∈ table.vars, A.vars nv.2 := fun nv hnv =>
    hbs.1 _ ((SymbolTable.perm_vars htable).mem_iff.1 (List.mem_map_of_mem hnv))
  have htargets : ∀ c t, table.target c = .ok t → t.KeepsTo A B := by
    intro c t ht
    cases t with
    | builtin b => trivial
    | host n f =>
      obtain ⟨i, hi⟩ := SymbolTable.functionAt?_of_target ht
      obtain ⟨b, hb, href⟩ := SymbolTable.mem_of_functionAt? htable hi
      exact hbs.2 b hb f href
  unfold Formula.build
  rcases (h.attachAll he hvars).cases with
    ⟨err, w₁, w₁', hx, hx', h₁⟩ | ⟨_, w₁, w₁', hx, hx', h₁⟩
  · simp only [hx, hx']
    exact ⟨rfl, h₁⟩
  · simp only [hx, hx']
    rcases hp : parse table.resolve o text with err | tree
    · exact ⟨rfl, h₁⟩
    · have hlowered := h₁.lower (fits_of_parseWith (parseWith_of_parse htable hp)) htargets depth
        o.foldConstants
      simp only
      generalize Formula.lower (Formula.evaluate depth) table o.foldConstants tree w₁ = x
        at hlowered ⊢
      generalize Formula.lower (Formula.evaluate depth) table o.foldConstants tree w₁' = x'
        at hlowered ⊢
      cases hlowered with
      | error err h₂ => exact ⟨rfl, h₂⟩
      | ok hlike h₂ =>
        obtain rfl := hlike.eq
        exact ⟨rfl, h₂.install he hlike.calls text⟩

lemma compile (h : A.Beside B w₀ w₀' w w') (he : A.exprs e) (hbs : A.Binds B bs) (depth : ℕ)
    (o : Options) (text : Text) :
    Ends (A.Beside B w₀ w₀') (compile depth e bs o text w) (compile depth e bs o text w') := by
  unfold Formula.compile
  rcases htable : SymbolTable.ofBindings bs with err | table
  · exact ⟨rfl, h⟩
  · rcases ((h.prepare he text).build he hbs htable depth o text).cases with
      ⟨err, w₁, w₁', hx, hx', h₁⟩ | ⟨_, w₁, w₁', hx, hx', h₁⟩
    · simp only [hx, hx']
      exact ⟨rfl, (h₁.abandon he).emit _ _⟩
    · simp only [hx, hx']
      exact ⟨rfl, h₁⟩

/-- **One operation** on `A` answers the same on both stores. -/
lemma op (h : A.Beside B w₀ w₀' w w') {o : Op σ} (ho : o.KeepsTo A B) :
    o.answer w = o.answer w' ∧ A.Beside B w₀ w₀' (o.run w) (o.run w') := by
  have hends {r r' : Except Error Unit × Store σ} (h : Ends (A.Beside B w₀ w₀') r r') :
      Op.Answer.done r.1 = .done r'.1 ∧ A.Beside B w₀ w₀' r.2 r'.2 := ⟨congrArg _ h.1, h.2⟩
  cases o with
  | host _ => exact ho.elim
  | newVariable v x => exact ⟨rfl, h.setCell ho ⟨x, none⟩ nofun⟩
  | clone v => exact ⟨rfl, h⟩
  | update v x => exact hends (h.update ho x)
  | increment v =>
    have hvalue : w.value v = w'.value v := congrArg Cell.value (h.agrees.cell v ho)
    simp only [Op.answer, Op.run, Store.increment, hvalue]
    exact hends (h.update ho _)
  | decrement v =>
    have hvalue : w.value v = w'.value v := congrArg Cell.value (h.agrees.cell v ho)
    simp only [Op.answer, Op.run, Store.decrement, hvalue]
    exact hends (h.update ho _)
  | compile depth e bs o text => exact hends (h.compile ho.1 ho.2 depth o text)
  | validate depth e bs o text =>
    simp only [Op.answer, Op.run, validateWith]
    rcases (h.compile ho.1 ho.2 depth o text).cases with
      ⟨err, w₁, w₁', hx, hx', h₁⟩ | ⟨_, w₁, w₁', hx, hx', h₁⟩
    · simp only [hx, hx']
      exact ⟨trivial, h₁⟩
    · simp only [hx, hx']
      exact ⟨trivial, h₁.drop ho.1⟩
  | evaluate depth e =>
    obtain ⟨hanswer, hstore⟩ := h.evaluate ho depth
    exact ⟨congrArg Op.Answer.value hanswer, hstore⟩
  | close e => exact ⟨rfl, h.close ho⟩
  | drop e => exact ⟨rfl, h.drop ho⟩

end Beside

/-! ### Mixed runs -/

/-- A store that is in `A` like a run on `A` alone, and in `B` like a run on `B` alone. -/
structure Mixes (A : Part σ α) (B : Part σ β) (w wA wB : Store σ) : Prop where
  left : A.Agrees w wA
  right : B.Agrees w wB
  apart : A.Apart B w
  apart' : B.Apart A w

variable {wA wB : Store σ}

lemma Mixes.symm (h : A.Mixes B w wA wB) : B.Mixes A w wB wA :=
  ⟨h.right, h.left, h.apart', h.apart⟩

/-- An operation on `A` is one of the run on `A`, and none of the run on `B`. -/
lemma Mixes.op (h : A.Mixes B w wA wB) (hvars : ∀ v, A.vars v → ¬B.vars v)
    (hexprs : ∀ e, A.exprs e → ¬B.exprs e) {o : Op σ} (ho : o.KeepsTo A B) :
    o.answer w = o.answer wA ∧ A.Mixes B (o.run w) (o.run wA) wB ∧ A.Spares B w (o.run w) := by
  obtain ⟨hanswer, hrun⟩ := (Beside.refl h.left h.apart).op ho
  have hright : B.Agrees (o.run w) w := hrun.left.agrees hvars hexprs
  exact ⟨hanswer, ⟨hrun.agrees, hright.trans h.right, hrun.apart, h.apart'.of_agrees hright⟩,
    hrun.left⟩

/-- The stores are the same outside of both parts. -/
structure SparesBoth (A : Part σ α) (B : Part σ β) (w w' : Store σ) : Prop where
  cell : ∀ v, ¬A.vars v → ¬B.vars v → w'.cell v = w.cell v
  exprs : ∀ e, ¬A.exprs e → ¬B.exprs e → w'.exprs.get? e = w.exprs.get? e

end Part

open Formula.Part

/-- What comes of two sequences of operations that are mixed, one on `A` and one on `B`. -/
lemma Part.Mixes.runAll {wA wB : Store σ} (hvars : ∀ v, A.vars v → ¬B.vars v)
    (hexprs : ∀ e, A.exprs e → ¬B.exprs e) (os : List (Op σ ⊕ Op σ))
    (hleft : ∀ o, .inl o ∈ os → o.KeepsTo A B) (hright : ∀ o, .inr o ∈ os → o.KeepsTo B A)
    (h : A.Mixes B w wA wB) :
    let w' := Op.runAll w (os.map (Sum.elim id id))
    (Op.mixedAnswers w os).filterMap Sum.getLeft? = Op.answers wA (os.filterMap Sum.getLeft?) ∧
    (Op.mixedAnswers w os).filterMap Sum.getRight? = Op.answers wB (os.filterMap Sum.getRight?) ∧
    A.Mixes B w' (Op.runAll wA (os.filterMap Sum.getLeft?))
      (Op.runAll wB (os.filterMap Sum.getRight?)) ∧
    A.SparesBoth B w w' := by
  induction os generalizing w wA wB with
  | nil => exact ⟨rfl, rfl, h, fun _ _ _ => rfl, fun _ _ _ => rfl⟩
  | cons o os ih =>
    have hleft' : ∀ o, .inl o ∈ os → o.KeepsTo A B := fun o ho =>
      hleft o (List.mem_cons_of_mem _ ho)
    have hright' : ∀ o, .inr o ∈ os → o.KeepsTo B A := fun o ho =>
      hright o (List.mem_cons_of_mem _ ho)
    rcases o with o | o
    · obtain ⟨hanswer, hmixes, hspares⟩ := h.op hvars hexprs (hleft o List.mem_cons_self)
      obtain ⟨hlefts, hrights, hend, hboth⟩ := ih hleft' hright' hmixes
      exact ⟨congrArg₂ List.cons hanswer hlefts, hrights, hend,
        fun v hA hB => (hboth.cell v hA hB).trans (hspares.cell v hA),
        fun e hA hB => (hboth.exprs e hA hB).trans (hspares.exprs e hA)⟩
    · obtain ⟨hanswer, hmixes, hspares⟩ := h.symm.op (fun v hB hA => hvars v hA hB)
        (fun e hB hA => hexprs e hA hB) (hright o List.mem_cons_self)
      obtain ⟨hlefts, hrights, hend, hboth⟩ := ih hleft' hright' hmixes.symm
      exact ⟨hlefts, congrArg₂ List.cons hanswer hrights, hend,
        fun v hA hB => (hboth.cell v hA hB).trans (hspares.cell v hB),
        fun e hA hB => (hboth.exprs e hA hB).trans (hspares.exprs e hB)⟩

/-- **Parts that are apart do not interfere.** Let two parts have no variable and no expression in
common, and let what is done with each keep to it. However two sequences of operations are mixed,
every operation answers as if the other sequence were not there. In the end the variables with
their listeners, the expressions and the state of the host are in each part what its own sequence
makes of them, and all else is as it was. -/
theorem disjoint_parts_independent (A : Part σ α) (B : Part σ β)
    (hvars : ∀ v, A.vars v → ¬B.vars v) (hexprs : ∀ e, A.exprs e → ¬B.exprs e) (w : Store σ)
    (hA : A.Apart B w) (hB : B.Apart A w) (first second : List (Op σ))
    (hfirst : ∀ o ∈ first, o.KeepsTo A B) (hsecond : ∀ o ∈ second, o.KeepsTo B A)
    (mix : List (Op σ ⊕ Op σ)) (hleft : mix.filterMap Sum.getLeft? = first)
    (hright : mix.filterMap Sum.getRight? = second) :
    let w' := Op.runAll w (mix.map (Sum.elim id id))
    (Op.mixedAnswers w mix).filterMap Sum.getLeft? = Op.answers w first ∧
    (Op.mixedAnswers w mix).filterMap Sum.getRight? = Op.answers w second ∧
    A.Agrees w' (Op.runAll w first) ∧ B.Agrees w' (Op.runAll w second) ∧
    (∀ v, ¬A.vars v → ¬B.vars v → w'.cell v = w.cell v) ∧
    ∀ e, ¬A.exprs e → ¬B.exprs e → w'.exprs.get? e = w.exprs.get? e := by
  subst hleft hright
  have hmixes : A.Mixes B w w w := ⟨.refl A w, .refl B w, hA, hB⟩
  obtain ⟨hlefts, hrights, hend, hboth⟩ := hmixes.runAll hvars hexprs mix
    (fun o ho => hfirst o (List.mem_filterMap.2 ⟨_, ho, rfl⟩))
    (fun o ho => hsecond o (List.mem_filterMap.2 ⟨_, ho, rfl⟩))
  exact ⟨hlefts, hrights, hend.left, hend.right, hboth.cell, hboth.exprs⟩

lemma one_le_maxArity : 1 ≤ maxArity := by decide

/-- Counts a call in the state of the host, and sets a variable to the argument. -/
def countingFunction (count : ℕ × ℕ → ℕ × ℕ) (v : VarId) : HostFunction (ℕ × ℕ) where
  arity := 1
  isPure := false
  code args := .get fun h => .put (count h) <|
    .update v (args.headD 0) fun _ => .done (.ok (args.headD 0))
  arity_le := one_le_maxArity

/-- Makes variable `k` and compiles `f(x)` under the number `k`, with that variable. The expression
is evaluated before it is dropped. -/
def countingOps (count : ℕ × ℕ → ℕ × ℕ) (k : ℕ) : List (Op (ℕ × ℕ)) :=
  [.newVariable k 5,
    .compile 2 k [⟨['x'], .variable k⟩, ⟨['f'], .function (countingFunction count k)⟩]
      ⟨true, 4, 15⟩ ['f', '(', 'x', ')'],
    .evaluate 2 k, .drop k]

lemma keepsTo_countingOps {A : Part (ℕ × ℕ) α} {B : Part (ℕ × ℕ) β} {count : ℕ × ℕ → ℕ × ℕ}
    {k : ℕ} (hv : A.vars k) (he : A.exprs k)
    (hA : ∀ h h', A.view h = A.view h' → A.view (count h) = A.view (count h'))
    (hB : ∀ h, B.view (count h) = B.view h) : ∀ o ∈ countingOps count k, o.KeepsTo A B := by
  have hfunction : (countingFunction count k).KeepsTo A B := by
    intro b b' args
    refine .get fun h h' hh => .put ⟨hA h h' hh.1, ?_, ?_⟩ (.update hv fun _ => .done _)
    · exact (hB h).trans hh.2.1
    · exact (hB h').trans hh.2.2
  simpa [countingOps, Op.KeepsTo, Part.Binds, boundVars, Referent.var?, hv, he] using hfunction

/-- Two expressions that count their evaluations, each in its half of the state of the host. -/
theorem disjoint_parts_counting :
    let A : Part (ℕ × ℕ) ℕ := ⟨(· = 0), (· = 0), Prod.fst⟩
    let B : Part (ℕ × ℕ) ℕ := ⟨(· = 1), (· = 1), Prod.snd⟩
    let first := countingOps (Prod.map Nat.succ id) 0
    let second := countingOps (Prod.map id Nat.succ) 1
    let mix := (first.zip second).flatMap fun p => [.inr p.2, .inl p.1]
    let w : Store (ℕ × ℕ) := .empty (0, 0)
    let w' := Op.runAll w (mix.map (Sum.elim id id))
    A.Apart B w ∧ B.Apart A w ∧ (∀ o ∈ first, o.KeepsTo A B) ∧ (∀ o ∈ second, o.KeepsTo B A) ∧
    (Op.mixedAnswers w mix).filterMap Sum.getLeft? = Op.answers w first ∧
    (Op.mixedAnswers w mix).filterMap Sum.getRight? = Op.answers w second ∧
    A.Agrees w' (Op.runAll w first) ∧ B.Agrees w' (Op.runAll w second) := by
  intro A B first second mix w w'
  have hA : A.Apart B w := ⟨nofun, nofun, nofun⟩
  have hB : B.Apart A w := ⟨nofun, nofun, nofun⟩
  have hfirst : ∀ o ∈ first, o.KeepsTo A B :=
    keepsTo_countingOps rfl rfl (fun _ _ h => congrArg Nat.succ h) fun _ => rfl
  have hsecond : ∀ o ∈ second, o.KeepsTo B A :=
    keepsTo_countingOps rfl rfl (fun _ _ h => congrArg Nat.succ h) fun _ => rfl
  obtain ⟨hlefts, hrights, hleft, hright, -⟩ := disjoint_parts_independent A B (by simp [A, B])
    (by simp [A, B]) w hA hB first second hfirst hsecond mix rfl rfl
  exact ⟨hA, hB, hfirst, hsecond, hlefts, hrights, hleft, hright⟩

end Formula
