import Formula.Proofs.Store.Twins

/-!
Which bindings matter.

Two lists of bindings that have the same for every word of a text come to the same when it is
compiled and evaluated. What can tell them apart is host code that touches a variable which only one
of them binds: it is told whether it is bound, and cannot set it where it is not.
-/

namespace Formula

open Store SymbolTable

variable {σ : Type} {w : Store σ} {es : List Event} {e : ExprId} {bs bs' : List (Binding σ)}
  {text : Text}

/-- The two lists have the same variable or function for every word of the text, or both none. -/
def SameNames (text : Text) (bs bs' : List (Binding σ)) : Prop :=
  ∀ tok ∈ lexed text, tok.kind = .word → ∀ r, Binds bs tok.text r ↔ Binds bs' tok.text r

/-- The text names the function. -/
def NamesFunction (text : Text) (bs : List (Binding σ)) (f : HostFunction σ) : Prop :=
  ∃ tok ∈ lexed text, tok.kind = .word ∧ Binds bs tok.text (.function f)

/-- Only one of the two lists binds the variable. -/
def OneSided (bs bs' : List (Binding σ)) (v : VarId) : Prop :=
  ¬(v ∈ boundVars bs ↔ v ∈ boundVars bs')

/-- The order of the bindings makes no variable one-sided. -/
lemma not_oneSided_of_perm (h : bs.Perm bs') (v : VarId) : ¬OneSided bs bs' v :=
  not_not.2 ((h.map _).filterMap _).mem_iff

/-- The host functions that expressions of the store call have `Q`. -/
def Store.Calls (Q : HostFunction σ → Prop) (w : Store σ) : Prop :=
  ∀ j c p, w.exprs.get? j = some c → c.program = some p →
    ∀ n f argc, .call (.host n f) argc ∈ p → Q f

/-- The functions that a text may call: builtins, and what it names. -/
def Target.Named (text : Text) (bs : List (Binding σ)) : Target σ → Prop
  | .builtin _ => True
  | .host _ f => NamesFunction text bs f

lemma Target.Named.tied {D : VarId → Prop} {t : Target σ} (h : t.Named text bs)
    (hf : ∀ f, NamesFunction text bs f → t.isPure = f.isPure → f.Spares D) :
    t.Tied (.sparing D) := by
  cases t with
  | builtin _ => trivial
  | host n f => exact fun args => (hf f h rfl args).tied

/-- Expressions that call nothing but functions with `Spares` keep to the rights. -/
lemma Store.Calls.tied {D : VarId → Prop} (h : w.Calls (·.Spares D)) {j : ExprId} {x : Outline σ}
    {p : Program σ} (hx : w.outline j = some x) (hp : x.program = some p) {t : Target σ} {argc : ℕ}
    (ht : .call t argc ∈ p) : t.Tied (.sparing D) := by
  obtain ⟨c, hc, rfl⟩ := outline_eq_some hx
  cases t with
  | builtin _ => trivial
  | host n f => exact fun args => (h j c p hc hp n f argc ht args).tied

/-- A variable that both lists bind, or neither, has a slot in both tables or in none. -/
lemma mem_vars_iff {table table' : SymbolTable σ} (hb : ofBindings bs = .ok table)
    (hb' : ofBindings bs' = .ok table') {v : VarId} (hv : ¬OneSided bs bs' v) :
    v ∈ table.vars.map Prod.snd ↔ v ∈ table'.vars.map Prod.snd := by
  rw [(perm_vars hb).mem_iff, (perm_vars hb').mem_iff]
  exact not_not.1 hv

/-- A slot of one expression goes with one slot of the other. -/
lemma SymbolTable.Shares.unique {vs vs' : List (Name × VarId)} (hvs : (vs.map Prod.snd).Nodup)
    (hvs' : (vs'.map Prod.snd).Nodup) {k₁ k₁' k₂ k₂' : ℕ} (h₁ : Shares vs vs' k₁ k₁')
    (h₂ : Shares vs vs' k₂ k₂') : k₁ = k₂ ↔ k₁' = k₂' := by
  obtain ⟨nv₁, hk₁, hk₁'⟩ := h₁
  obtain ⟨nv₂, hk₂, hk₂'⟩ := h₂
  have hinj {us : List (Name × VarId)} (hus : (us.map Prod.snd).Nodup) {i j : ℕ}
      (hi : us[i]? = some nv₁) (hj : us[j]? = some nv₂) : i = j ↔ nv₁ = nv₂ := by
    constructor
    · rintro rfl
      exact Option.some.inj (hi.symm.trans hj)
    · rintro rfl
      have hlt : i < us.length := (List.getElem?_eq_some_iff.1 hi).1
      exact (List.getElem?_inj hlt hus.of_map).1 (hi.trans hj.symm)
  rw [hinj hvs hk₁ hk₂, hinj hvs' hk₁' hk₂']

/-- The same program, but for the numbers of slots: a slot of one goes with the slot of the other
for the same name and variable, and with no other. -/
def Compiled.Renumbered (c c' : Compiled σ) : Prop :=
  ∃ p p', c.program = some p ∧ c'.program = some p' ∧
    Program.Like (fun _ => True) (Shares (c.slots.map Slot.symbol) (c'.slots.map Slot.symbol))
      p p' ∧
    ∀ k₁ k₁' k₂ k₂', Shares (c.slots.map Slot.symbol) (c'.slots.map Slot.symbol) k₁ k₁' →
      Shares (c.slots.map Slot.symbol) (c'.slots.map Slot.symbol) k₂ k₂' → (k₁ = k₂ ↔ k₁' = k₂')

/-- Programs that differ in the numbers of slots look the same. -/
lemma Compiled.Renumbered.looks {c c' : Compiled σ} (h : c.Renumbered c') :
    c.display? = c'.display? ∧ c.nodeCount = c'.nodeCount := by
  obtain ⟨p, p', hp, hp', hlike, -⟩ := h
  simp only [Compiled.display?, Compiled.nodeCount, hp, hp']
  exact ⟨Program.render_eq hlike, hlike.length_eq⟩

lemma Twins.renumbered {r : Rights σ} {P : Target σ → Prop} {vs vs' : List (Name × VarId)}
    {w₁ w₁' : Store σ} (h : Twins r P none e vs vs' w₁ w₁') (hlive : w₁.Live e)
    (hvs : (vs.map Prod.snd).Nodup) (hvs' : (vs'.map Prod.snd).Nodup) :
    ∃ c c', w₁.exprs.get? e = some c ∧ w₁'.exprs.get? e = some c' ∧ c.Renumbered c' := by
  obtain ⟨c, c', p, p', hc, hc', rfl, rfl, hp, hp', hlike⟩ := h.exists_programs hlive
  exact ⟨c, c', hc, hc', p, p', hp, hp', hlike.mono fun _ _ => trivial,
    fun _ _ _ _ h₁ h₂ => h₁.unique hvs hvs' h₂⟩

/-! ### Rights for what is folded -/

/-- Rights that are enough for the code that runs while the text is compiled, and that touch no
variable that only one of the lists binds. -/
structure Rights.Covers (r : Rights σ) (fold : Bool) (text : Text) (bs bs' : List (Binding σ))
    (w : Store σ) : Prop where
  host : r.host = Eq
  vars : ∀ v, r.vars v → ¬OneSided bs bs' v
  calls : ∀ j x p, w.outline j = some x → x.program = some p → r.evals j →
    ∀ t argc, .call t argc ∈ p → t.Tied r
  folds : fold = true → ∀ t, Target.Named text bs t → t.isPure = true → t.Tied r

lemma Rights.covers_sparing {fold : Bool} (hcalls : w.Calls (·.Spares (OneSided bs bs')))
    (hpure : ∀ f, NamesFunction text bs f → f.isPure = true → f.Spares (OneSided bs bs')) :
    (Rights.sparing (OneSided bs bs')).Covers fold text bs bs' w where
  host := rfl
  vars _ hv := hv
  calls _ _ _ hx hp _ _ _ ht := hcalls.tied hx hp ht
  folds _ _ ht hp := ht.tied fun f hf hsame => hpure f hf (hsame.symm.trans hp)

/-- Where nothing is folded no code runs. -/
lemma Rights.covers_nothing (text : Text) (bs bs' : List (Binding σ)) (w : Store σ) :
    Rights.Covers ⟨Eq, fun _ => False, fun _ => False⟩ false text bs bs' w where
  host := rfl
  vars _ hv := hv.elim
  calls _ _ _ _ _ hj := hj.elim
  folds hf := nomatch hf

/-! ### Two lists of bindings -/

variable {table table' : SymbolTable σ} {o : Options} {depth : ℕ}

lemma free_of_unbound (hb : ofBindings bs = .ok table) (hdistinct : (boundVars bs).Nodup)
    (hunbound : ∀ v ∈ boundVars bs, w.isBound v = false) : w.Free table.vars := by
  rw [free_vars_iff hb]
  rintro (⟨v, hv, hbound⟩ | hdup)
  · rw [hunbound v hv] at hbound
    cases hbound
  · exact hdup hdistinct

lemma compile_of_parse_error {err : ParseError} (hb : ofBindings bs = .ok table)
    (hfree : w.Free table.vars) (hp : parse table.resolve o text = .error err) :
    (compile depth e bs o text w).1 = .error (.parse err) := by
  rcases compile_of_table hb with ⟨hnot, -⟩ | ⟨-, ⟨err', hp', hr⟩ | ⟨tree, hp', -⟩⟩
  · exact absurd hfree hnot
  · cases hp.symm.trans hp'
    exact hr
  · cases hp.symm.trans hp'

/-- The parser makes the same error of the text, or like trees. -/
lemma SameNames.parse (h : SameNames text bs bs') (hb : ofBindings bs = .ok table)
    (hb' : ofBindings bs' = .ok table') (o : Options) :
    (∃ err, parse table.resolve o text = .error err ∧
      parse table'.resolve o text = .error err) ∨
    ∃ tree tree', parse table.resolve o text = .ok tree ∧
      parse table'.resolve o text = .ok tree' ∧
      Expr.Like (Target.Named text bs) (Shares table.vars table'.vars) table table' tree tree' :=
  parse_like o text fun tok htok hk => Parser.agree_of_binds hb hb' (h tok htok hk)
    (fun _ => trivial) fun _ _ hf => ⟨tok, htok, hk, hf⟩

/-- The stores that two compilations leave. -/
lemma SameNames.twins (h : SameNames text bs bs') (hb : ofBindings bs = .ok table)
    (hb' : ofBindings bs' = .ok table') (hfree : w.Free table.vars) (hfree' : w.Free table'.vars)
    (hw : w.Coherent none) (he : w.exprs.get? e = none) {r : Rights σ}
    (hr : r.Covers o.foldConstants text bs bs' w) (hok : (compile depth e bs o text w).1 = .ok ()) :
    (compile depth e bs o text w).2.Live e ∧
      Twins r (Target.Named text bs) none e table.vars table'.vars
        (compile depth e bs o text w).2 (compile depth e bs' o text w).2 ∧
      compileInvocations depth e bs o text w = compileInvocations depth e bs' o text w := by
  rcases h.parse hb hb' o with ⟨err, hp, -⟩ | ⟨tree, tree', hp, hp', htree⟩
  · cases (compile_of_parse_error hb hfree hp).symm.trans hok
  · obtain ⟨w₁, w₁', h₁, h₁', hlive, htwins, hcalls⟩ := Twins.compile hb hb' hfree hfree' hp hp'
      htree hw he hr.host (fun v hv => mem_vars_iff hb hb' (hr.vars v hv)) hr.calls hr.folds depth
    rw [h₁, h₁']
    exact ⟨hlive, htwins, hcalls⟩

/-- **Only the bindings that a text names matter**, and their order does not. Take two lists of
bindings that make tables, each of different variables that are unbound, and that have the same for
every word of a text. Compiling the text with either of them gives the same parse error, or both
compile. If no host code that touches a variable which only one list binds can run while constants
are folded, the compilations make the same calls and have the same effect, and the two programs
differ only in the numbers of slots: they have the same text and the same number of nodes. If no
host function touches such a variable, the two expressions evaluate to the same with the same calls
wherever variables have the same values and the host is in the same state. If the lists differ only
in their order, there is no such variable to touch. -/
theorem only_named_bindings_matter (h : Reachable w es) (he : w.exprs.get? e = none)
    (hb : ofBindings bs = .ok table) (hb' : ofBindings bs' = .ok table')
    (hdistinct : (boundVars bs).Nodup ∧ (boundVars bs').Nodup)
    (hunbound : ∀ v, v ∈ boundVars bs ∨ v ∈ boundVars bs' → w.isBound v = false)
    (hsame : SameNames text bs bs') (o : Options) (depth : ℕ) :
    let r := compile depth e bs o text w
    let r' := compile depth e bs' o text w
    ((∃ err, r.1 = .error (.parse err) ∧ r'.1 = .error (.parse err)) ∨
      r.1 = .ok () ∧ r'.1 = .ok ()) ∧
    (r.1 = .ok () →
      (o.foldConstants = true → w.Calls (·.Spares (OneSided bs bs')) ∧
        ∀ f, NamesFunction text bs f → f.isPure = true → f.Spares (OneSided bs bs')) →
      (∃ c c', r.2.exprs.get? e = some c ∧ r'.2.exprs.get? e = some c' ∧ c.Renumbered c' ∧
        c.display? = c'.display? ∧ c.nodeCount = c'.nodeCount) ∧
      (∀ v, r.2.value v = r'.2.value v) ∧ r.2.host = r'.2.host ∧
      compileInvocations depth e bs o text w = compileInvocations depth e bs' o text w) ∧
    (r.1 = .ok () → w.Calls (·.Spares (OneSided bs bs')) →
      (∀ f, NamesFunction text bs f → f.Spares (OneSided bs bs')) →
      ∀ u u' us us', Reachable u us → Reachable u' us' → u.outline = r.2.outline →
        u'.outline = r'.2.outline → (∀ v, u.value v = u'.value v) → u.host = u'.host →
        ∀ n, (evaluate n e u).1 = (evaluate n e u').1 ∧
          evaluateInvocations n e u = evaluateInvocations n e u') ∧
    (bs.Perm bs' → ∀ f : HostFunction σ, f.Spares (OneSided bs bs')) := by
  intro r r'
  have hfree : w.Free table.vars :=
    free_of_unbound hb hdistinct.1 fun v hv => hunbound v (.inl hv)
  have hfree' : w.Free table'.vars :=
    free_of_unbound hb' hdistinct.2 fun v hv => hunbound v (.inr hv)
  have hw : w.Coherent none := h.consistent.coherent
  refine ⟨?_, fun hok hfold => ?_, fun hok hcalls hnamed u u' us us' hu hu' hout hout' hvalue hhost
    n => ?_, fun hperm f args => (f.code args).spares_of_forall_not (not_oneSided_of_perm hperm)⟩
  · rcases hsame.parse hb hb' o with ⟨err, hp, hp'⟩ | ⟨tree, tree', hp, hp', -⟩
    · exact .inl ⟨err, compile_of_parse_error hb hfree hp, compile_of_parse_error hb' hfree' hp'⟩
    · obtain ⟨_, _, -, hr, -⟩ := compile_of_parse hb hfree hp depth e
      obtain ⟨_, _, -, hr', -⟩ := compile_of_parse hb' hfree' hp' depth e
      exact .inr ⟨congrArg Prod.fst hr, congrArg Prod.fst hr'⟩
  · obtain ⟨rights, hcovers⟩ : ∃ rights : Rights σ,
        rights.Covers o.foldConstants text bs bs' w := by
      rcases hf : o.foldConstants with _ | _
      · exact ⟨_, Rights.covers_nothing text bs bs' w⟩
      · exact ⟨_, Rights.covers_sparing (hfold hf).1 (hfold hf).2⟩
    obtain ⟨hlive, htwins, hinvocations⟩ := hsame.twins hb hb' hfree hfree' hw he hcovers hok
    obtain ⟨c, c', hc, hc', hre⟩ := htwins.renumbered hlive hfree.2 hfree'.2
    exact ⟨⟨c, c', hc, hc', hre, hre.looks⟩, htwins.value, htwins.host, hinvocations⟩
  · have hcovers : (Rights.sparing (OneSided bs bs')).Covers o.foldConstants text bs bs' w :=
      Rights.covers_sparing hcalls fun f hf _ => hnamed f hf
    obtain ⟨-, htwins, -⟩ := hsame.twins hb hb' hfree hfree' hw he hcovers hok
    have hresumed := htwins.of_outline hout hout' hu.consistent.coherent hu'.consistent.coherent
      hvalue hhost
    have htie : Tie (Rights.sparing (OneSided bs bs'))
        (fun j => if j = e then Shares table.vars table'.vars else Eq)
        (Twins (Rights.sparing (OneSided bs bs')) (Target.Named text bs) none e table.vars
          table'.vars) :=
      Twins.tie rfl (fun _ hv => mem_vars_iff hb hb' hv) fun _ t ht =>
        ht.tied fun f hf _ => hnamed f hf
    obtain ⟨hends, hinvocations⟩ := htie.evaluate n e u u' trivial hresumed
    exact ⟨hends.1, hinvocations⟩

/-- The bindings for `put(inc(2*3))-x` in another order, with a variable that it does not name. -/
def putBindingsMore : List (Binding Unit) :=
  [⟨['i', 'n', 'c'], .function inc⟩, ⟨['p', 'u', 't'], .function put⟩, ⟨['y'], .variable 1⟩,
    ⟨['x'], .variable 0⟩]

lemma ofBindings_putMore : ∃ table, ofBindings putBindingsMore = .ok table := by
  have hnames : readNames maxBindings putBindingsMore =
      .ok [(⟨['i', 'n', 'c'], rfl, by decide⟩, .function inc),
        (⟨['p', 'u', 't'], rfl, by decide⟩, .function put),
        (⟨['y'], rfl, by decide⟩, .variable 1), (xName, .variable 0)] := rfl
  exact ⟨_, (ofBindings_of_sorted hnames (by decide)).trans rfl⟩

lemma sameNames_put : SameNames putText putBindings putBindingsMore := by
  have hwords : ∀ tok ∈ lexed putText, tok.kind = .word → tok.text ≠ trim ['y'] := by
    decide +kernel
  intro tok htok hk r
  have hother : (tok.text, r) ≠ Binding.named (⟨['y'], .variable 1⟩ : Binding Unit) :=
    fun h => hwords tok htok hk (congrArg Prod.fst h)
  simp only [Binds, putBindings, putBindingsMore, List.map_cons, List.mem_cons, hother, false_or]
  exact or_left_comm

/-- No function of the text touches the variable that only one list binds. -/
lemma spares_put (f : HostFunction Unit) (h : NamesFunction putText putBindings f) :
    f.Spares (OneSided putBindings putBindingsMore) := by
  obtain ⟨tok, -, -, hf⟩ := h
  have hboth : ¬OneSided putBindings putBindingsMore 0 := not_not.2 (by decide)
  obtain ⟨b, hb, hnamed⟩ := List.mem_map.1 hf
  have href : b.referent = .function f := congrArg Prod.snd hnamed
  simp only [putBindings, List.mem_cons, List.not_mem_nil, or_false] at hb
  rcases hb with rfl | rfl | rfl
  · cases href
    exact fun _ => ⟨hboth, fun _ => trivial⟩
  · cases href
    exact fun _ => trivial
  · cases href

/-- The slot of `x` has another number, and nothing else is different. -/
theorem only_named_bindings_put : ∃ (w : Store Unit) (es : List Event) (table' : SymbolTable Unit),
    Reachable w es ∧ w.exprs.get? 0 = none ∧ ofBindings putBindings = .ok putTable ∧
    ofBindings putBindingsMore = .ok table' ∧ SameNames putText putBindings putBindingsMore ∧
    ∃ w₁ w₁', compile 1 0 putBindings ⟨true, 4, 15⟩ putText w = (.ok (), w₁) ∧
      compile 1 0 putBindingsMore ⟨true, 4, 15⟩ putText w = (.ok (), w₁') ∧
      (∃ c c', w₁.exprs.get? 0 = some c ∧ w₁'.exprs.get? 0 = some c' ∧ c.Renumbered c' ∧
        c.display? = c'.display? ∧ c.nodeCount = c'.nodeCount) ∧
      (evaluate 1 0 w₁).1 = (evaluate 1 0 w₁').1 ∧
      evaluateInvocations 1 0 w₁ = evaluateInvocations 1 0 w₁' := by
  have hreachable := ((Reachable.empty ()).op (.newVariable 0 5) rfl).op (.newVariable 1 7) rfl
  obtain ⟨table', hb'⟩ := ofBindings_putMore
  have hunbound : ∀ v, v ∈ boundVars putBindings ∨ v ∈ boundVars putBindingsMore →
      ((Op.newVariable 1 7).run ((Op.newVariable 0 5).run (.empty ()))).isBound v = false := by
    rintro v -
    simp only [Op.run, newVariable, isBound, cell_setCell]
    split
    · rfl
    · split
      · rfl
      · rfl
  have hcalls : ((Op.newVariable 1 7).run ((Op.newVariable 0 5).run (.empty ()))).Calls
      (·.Spares (OneSided putBindings putBindingsMore)) := by
    intro j c p hc
    cases hc
  obtain ⟨hcompiled, hlooks, hruns, -⟩ := only_named_bindings_matter hreachable rfl ofBindings_put
    hb' (by decide) hunbound sameNames_put ⟨true, 4, 15⟩ 1
  have hisOk : (compile 1 0 putBindings ⟨true, 4, 15⟩ putText
      ((Op.newVariable 1 7).run ((Op.newVariable 0 5).run (.empty ())))).1.isOk = true := by
    simp only [compile, ofBindings_put]
    decide +kernel
  rcases hcompiled with ⟨err, herr, -⟩ | ⟨hok, hok'⟩
  · rw [herr] at hisOk
    cases hisOk
  · obtain ⟨hrenumbered, hvalue, hhost, -⟩ :=
      hlooks hok fun _ => ⟨hcalls, fun f hf _ => spares_put f hf⟩
    obtain ⟨hvalues, hinvocations⟩ := hruns hok hcalls spares_put _ _ _ _
      (hreachable.op (.compile 1 0 putBindings ⟨true, 4, 15⟩ putText) rfl)
      (hreachable.op (.compile 1 0 putBindingsMore ⟨true, 4, 15⟩ putText) rfl) rfl rfl hvalue hhost
      1
    exact ⟨_, _, table', hreachable, rfl, ofBindings_put, hb', sameNames_put, _, _,
      Prod.ext hok rfl, Prod.ext hok' rfl, hrenumbered, hvalues, hinvocations⟩

/-! ### Where a function does touch such a variable -/

/-- Adds one to the variable with number zero, and answers with the sum. Its calls may be folded. -/
def bump : HostFunction Unit where
  arity := 0
  isPure := true
  code _ := .value 0 fun x => .update 0 (x + 1) fun r =>
    .done ((r.mapError Error.message).map fun _ => x + 1)
  arity_le := Nat.zero_le maxArity

def bumpName : Name := ⟨['b', 'u', 'm', 'p'], rfl, by decide⟩

def bumpBindings : List (Binding Unit) := [⟨['b', 'u', 'm', 'p'], .function bump⟩]

/-- The same, with a variable that the text does not name. -/
def bumpBindingsMore : List (Binding Unit) :=
  [⟨['b', 'u', 'm', 'p'], .function bump⟩, ⟨['x'], .variable 0⟩]

/-- The text `1+bump()`. -/
def bumpText : Text := ['1', '+', 'b', 'u', 'm', 'p', '(', ')']

lemma ofBindings_bump : ofBindings bumpBindings = .ok [⟨bumpName, .function bump⟩] := by
  have hnames : readNames maxBindings bumpBindings = .ok [(bumpName, .function bump)] := rfl
  rw [ofBindings_of_sorted hnames (by decide)]
  rfl

lemma ofBindings_bumpMore :
    ofBindings bumpBindingsMore = .ok [⟨bumpName, .function bump⟩, ⟨xName, .variable 0 0⟩] := by
  have hnames : readNames maxBindings bumpBindingsMore =
      .ok [(bumpName, .function bump), (xName, .variable 0)] := rfl
  rw [ofBindings_of_sorted hnames (by decide)]
  rfl

/-- A variable that only one list binds, and that the text does not name, makes a difference if a
function sets it while constants are folded: without it the call fails and stays in the program,
with it the whole text is one constant. -/
theorem folding_tells_bindings_apart : ∃ (w : Store Unit) (es : List Event)
    (table table' : SymbolTable Unit), Reachable w es ∧ w.exprs.get? 0 = none ∧
    ofBindings bumpBindings = .ok table ∧ ofBindings bumpBindingsMore = .ok table' ∧
    ((boundVars bumpBindings).Nodup ∧ (boundVars bumpBindingsMore).Nodup) ∧
    (∀ v, v ∈ boundVars bumpBindings ∨ v ∈ boundVars bumpBindingsMore → w.isBound v = false) ∧
    SameNames bumpText bumpBindings bumpBindingsMore ∧
    ∃ c c', (compile 1 0 bumpBindings ⟨true, 4, 15⟩ bumpText w).2.exprs.get? 0 = some c ∧
      (compile 1 0 bumpBindingsMore ⟨true, 4, 15⟩ bumpText w).2.exprs.get? 0 = some c' ∧
      c.nodeCount = 3 ∧ c'.nodeCount = 1 ∧
      ∀ p p', c.program = some p → c'.program = some p' →
        ∀ P slots, ¬Program.Like P slots p p' := by
  have hreachable := (Reachable.empty ()).op (.newVariable 0 1) rfl
  have hwords : ∀ tok ∈ lexed bumpText, tok.kind = .word → tok.text = ['b', 'u', 'm', 'p'] := by
    decide +kernel
  have hsame : SameNames bumpText bumpBindings bumpBindingsMore := by
    intro tok htok hk r
    rw [hwords tok htok hk]
    have hname : ['b', 'u', 'm', 'p'] ≠ trim ['x'] := by decide
    have hother : (['b', 'u', 'm', 'p'], r) ≠ Binding.named (⟨['x'], .variable 0⟩ : Binding Unit) :=
      fun h => hname (congrArg Prod.fst h)
    simp only [Binds, bumpBindings, bumpBindingsMore, List.map_cons, List.mem_cons, hother,
      false_or]
  have hcount : (((compile 1 0 bumpBindings ⟨true, 4, 15⟩ bumpText
      ((Op.newVariable 0 1).run (.empty ()))).2.exprs.get? 0).map Compiled.nodeCount) = some 3 := by
    simp only [compile, ofBindings_bump]
    decide +kernel
  have hcount' : (((compile 1 0 bumpBindingsMore ⟨true, 4, 15⟩ bumpText
      ((Op.newVariable 0 1).run (.empty ()))).2.exprs.get? 0).map Compiled.nodeCount) = some 1 := by
    simp only [compile, ofBindings_bumpMore]
    decide +kernel
  obtain ⟨c, hc, hn⟩ := Option.map_eq_some_iff.1 hcount
  obtain ⟨c', hc', hn'⟩ := Option.map_eq_some_iff.1 hcount'
  refine ⟨_, _, _, _, hreachable, rfl, ofBindings_bump, ofBindings_bumpMore, by decide, ?_, hsame,
    c, c', hc, hc', hn, hn', fun p p' hp hp' P slots hlike => ?_⟩
  · rintro v -
    simp only [Op.run, newVariable, isBound, cell_setCell]
    split
    · rfl
    · rfl
  · have hlength := hlike.length_eq
    rw [Compiled.nodeCount, hp] at hn
    rw [Compiled.nodeCount, hp'] at hn'
    change p.length = 3 at hn
    change p'.length = 1 at hn'
    omega

end Formula
