import Formula.Proofs.Evaluation.Safety
import Formula.Proofs.Store.Protocol
import Formula.Proofs.Symbols

/-!
How compilations end, and what the expressions are that they leave.

A text that parses compiles if its variables are free. Every expression of a reachable store has
a program that finds its slots, so it evaluates.
-/

namespace Formula

variable {σ β : Type} {w w' : Store σ} {es : List Event} {e : ExprId} {depth : ℕ}
  {bs : List (Binding σ)} {o : Options} {text : Text}

/-! ### The ends of a compilation -/

/-- The store once the new expression has attached what variables it can. -/
def Store.attached (w : Store σ) (e : ExprId) (text : Text) (vs : List (Name × VarId)) :
    Store σ :=
  ((w.prepare e text).attachAll e vs).2

/-- The store after an attempt that failed. -/
def Store.withdrawn (w : Store σ) (e : ExprId) (text : Text) (vs : List (Name × VarId))
    (err : Error) : Store σ :=
  ((w.attached e text vs).abandon e).emit (.failed text err)

/-- What a compilation comes to, and what is observed of the calls that it folds. -/
inductive Compilation (observe : Target σ → List Float → Store σ → List β) (depth : ℕ)
    (e : ExprId) (bs : List (Binding σ)) (o : Options) (text : Text) (w : Store σ) :
    Except Error Unit × Store σ → List β → Prop
  | naming {err : Error} : SymbolTable.ofBindings bs = .error err →
      Compilation observe depth e bs o text w (.error err, w) []
  | bound {table : SymbolTable σ} : SymbolTable.ofBindings bs = .ok table →
      ¬w.Free table.vars →
      Compilation observe depth e bs o text w
        (.error (.state .alreadyBound), w.withdrawn e text table.vars (.state .alreadyBound)) []
  | parse {table : SymbolTable σ} {err : ParseError} : SymbolTable.ofBindings bs = .ok table →
      w.Free table.vars → parse table.resolve o text = .error err →
      Compilation observe depth e bs o text w
        (.error (.parse err), w.withdrawn e text table.vars (.parse err)) []
  | done {table : SymbolTable σ} {tree : Expr} {p : Program σ} {w' : Store σ} :
      SymbolTable.ofBindings bs = .ok table → w.Free table.vars →
      parse table.resolve o text = .ok tree → tree.Fits table →
      (w.attached e text table.vars).layout e = some (none, table.vars.length) →
      lower (evaluate depth) table o.foldConstants tree (w.attached e text table.vars) =
        (.ok p, w') →
      p.Yields table.vars.length →
      Compilation observe depth e bs o text w (.ok (), w'.install e text p)
        (Lowering.gather (evaluate depth) observe table o.foldConstants tree.steps []
          (w.attached e text table.vars))

lemma parseWith_of_parse {table : SymbolTable σ} {tree : Expr}
    (hb : SymbolTable.ofBindings bs = .ok table) (hp : parse table.resolve o text = .ok tree) :
    parseWith bs o text = .ok (table, tree) := by
  simp only [parseWith, hb, hp]

/-- A compilation ends in one of these ways. -/
theorem compilation (observe : Target σ → List Float → Store σ → List β) (depth : ℕ)
    (e : ExprId) (bs : List (Binding σ)) (o : Options) (text : Text) (w : Store σ) :
    Compilation observe depth e bs o text w (compile depth e bs o text w)
      (gatherCompile observe depth e bs o text w) := by
  unfold compile gatherCompile
  rcases hb : SymbolTable.ofBindings bs with err | table
  · exact .naming hb
  · rcases Store.attachAll_cases (w.layout_prepare e text) table.vars with
      ⟨hfree, w₁, hw₁, hlayout⟩ | ⟨hfree, w₁, hw₁⟩
    · obtain rfl : w.attached e text table.vars = w₁ := congrArg Prod.snd hw₁
      simp only [build, hw₁]
      rcases hp : parse table.resolve o text with err | tree
      · exact .parse hb hfree hp
      · have hfits := fits_of_parseWith (parseWith_of_parse hb hp)
        obtain ⟨p, w', hlower, hyields⟩ := lower_yields hfits (evaluate depth) o.foldConstants
          (w.attached e text table.vars)
        rw [Nat.zero_add] at hlayout
        simp only [hlower]
        exact .done hb hfree hp hfits hlayout hlower hyields
    · obtain rfl : w.attached e text table.vars = w₁ := congrArg Prod.snd hw₁
      simp only [build, hw₁]
      exact .bound hb hfree

namespace Store

lemma frame_attached (w : Store σ) (e : ExprId) (text : Text) (vs : List (Name × VarId)) :
    Frame e w (w.attached e text vs) :=
  (Frame.prepare w e text).trans (Frame.attachAll _ e vs)

lemma frame_withdrawn (w : Store σ) (e : ExprId) (text : Text) (vs : List (Name × VarId))
    (err : Error) : Frame e w (w.withdrawn e text vs err) :=
  ((w.frame_attached e text vs).trans (Frame.abandon _ e)).trans (Frame.emit _ e _)

lemma get?_withdrawn (w : Store σ) (e : ExprId) (text : Text) (vs : List (Name × VarId))
    (err : Error) : (w.withdrawn e text vs err).exprs.get? e = none :=
  get?_abandon _ e

end Store

/-! ### Sound stores -/

namespace Layout.Sound

/-- It is enough to look at the one expression that changes. -/
lemma of_ne {l l' : Layout σ} (h : l.Sound) (hne : ∀ e', e ≠ e' → l' e' = l e')
    (hself : ∀ p n, l' e = some (some p, n) → p.Yields n) : l'.Sound := by
  intro e' p n hl
  by_cases he : e = e'
  · subst he
    exact hself p n hl
  · exact h e' p n ((hne e' he).symm.trans hl)

lemma of_gone (h : w.layout.Sound) (hframe : Store.Frame e w w')
    (hgone : w'.exprs.get? e = none) : w'.layout.Sound := by
  refine h.of_ne (fun e' he => hframe.layout_of_ne he) fun p n hl => ?_
  rw [Store.layout, hgone] at hl
  cases hl

lemma compile (h : w.layout.Sound) : (compile depth e bs o text w).2.layout.Sound := by
  have hend := compilation (Target.calls (evaluate depth)) depth e bs o text w
  generalize Formula.compile depth e bs o text w = r at hend ⊢
  generalize gatherCompile _ depth e bs o text w = is at hend
  cases hend with
  | naming _ => exact h
  | bound _ _ => exact h.of_gone (w.frame_withdrawn e text _ _) (w.get?_withdrawn e text _ _)
  | parse _ _ _ => exact h.of_gone (w.frame_withdrawn e text _ _) (w.get?_withdrawn e text _ _)
  | @done table tree p w' _ _ _ _ hlayout hlower hyields =>
    have hlowered := (w.attached e text table.vars).layout_lower depth table o.foldConstants tree
    rw [hlower] at hlowered
    have hinstalled := Store.layout_install ((congrFun hlowered e).trans hlayout) text p
    refine h.of_ne (fun e' (he : e ≠ e') => ?_) fun q n hq => ?_
    · have hinstall := (Store.Frame.install w' e text p).layout_of_ne he
      have hattached := (w.frame_attached e text table.vars).layout_of_ne he
      exact (hinstall.trans (congrFun hlowered e')).trans hattached
    · rw [hinstalled] at hq
      cases hq
      exact hyields

lemma close (h : w.layout.Sound) (e : ExprId) : (w.close e).layout.Sound := by
  refine h.of_ne (fun e' he => (Store.Frame.close w e).layout_of_ne he) fun p n hl => ?_
  exact absurd (Store.live_iff.2 ⟨p, n, hl⟩) (w.not_live_close e)

lemma drop (h : w.layout.Sound) (e : ExprId) : (w.drop e).layout.Sound :=
  h.of_gone (Store.Frame.drop w e) (w.get?_drop e)

lemma op (h : w.layout.Sound) (o : Op σ) : (o.run w).layout.Sound := by
  cases o with
  | host s => exact h
  | newVariable v x => exact h
  | clone v => exact h
  | update v x => exact (w.layout_update v x).symm ▸ h
  | increment v => exact (w.layout_update v _).symm ▸ h
  | decrement v => exact (w.layout_update v _).symm ▸ h
  | compile depth e bs o text => exact h.compile
  | validate depth e bs o text =>
    have hcompiled : (Formula.compile depth e bs o text w).2.layout.Sound := h.compile
    simp only [Op.run, validateWith]
    rcases hr : Formula.compile depth e bs o text w with ⟨err | _, w'⟩
    · rwa [hr] at hcompiled
    · rw [hr] at hcompiled
      exact hcompiled.drop e
  | evaluate depth e => exact (w.layout_evaluate depth e).symm ▸ h
  | close e => exact h.close e
  | drop e => exact h.drop e

end Layout.Sound

theorem Reachable.sound (h : Reachable w es) : w.layout.Sound := by
  induction h with
  | empty host => exact nofun
  | op o _ _ ih => exact ih.op o

/-! ### What a compilation answers -/

lemma Store.isBound_eq_false_iff (w : Store σ) (v : VarId) :
    w.isBound v = false ↔ w.listener v = none :=
  Option.isSome_eq_false_iff.trans Option.isNone_iff_eq_none

/-- Variables with one slot each are free if they have no listener and one name each. -/
lemma free_vars_iff {table : SymbolTable σ} (h : SymbolTable.ofBindings bs = .ok table) :
    w.Free table.vars ↔
      ¬((∃ v ∈ boundVars bs, w.isBound v = true) ∨ ¬(boundVars bs).Nodup) := by
  have hperm := SymbolTable.perm_vars h
  have hlistener : (∀ nv ∈ table.vars, w.listener nv.2 = none) ↔
      ∀ v ∈ boundVars bs, w.listener v = none := by
    rw [← List.forall_mem_map (f := Prod.snd) (P := fun v => w.listener v = none)]
    exact forall_congr' fun v => imp_congr_left hperm.mem_iff
  unfold Store.Free
  rw [hlistener, hperm.nodup_iff]
  simp [← Store.isBound_eq_false_iff]

lemma compile_of_naming {err : Error} (h : SymbolTable.ofBindings bs = .error err) :
    compile depth e bs o text w = (.error err, w) := by
  simp only [compile, h]

/-- Once there is a table, the variables are looked at first, and then the text. -/
lemma compile_of_table {table : SymbolTable σ} (h : SymbolTable.ofBindings bs = .ok table) :
    (¬w.Free table.vars ∧ (compile depth e bs o text w).1 = .error (.state .alreadyBound)) ∨
    (w.Free table.vars ∧
      ((∃ err, parse table.resolve o text = .error err ∧
        (compile depth e bs o text w).1 = .error (.parse err)) ∨
      ∃ tree, parse table.resolve o text = .ok tree ∧
        (compile depth e bs o text w).1 = .ok ())) := by
  have hend := compilation (Target.calls (evaluate depth)) depth e bs o text w
  generalize compile depth e bs o text w = r at hend ⊢
  generalize gatherCompile _ depth e bs o text w = is at hend
  cases hend with
  | naming hb => cases h.symm.trans hb
  | bound hb hfree =>
    cases h.symm.trans hb
    exact .inl ⟨hfree, rfl⟩
  | parse hb hfree hp =>
    cases h.symm.trans hb
    exact .inr ⟨hfree, .inl ⟨_, hp, rfl⟩⟩
  | done hb hfree hp =>
    cases h.symm.trans hb
    exact .inr ⟨hfree, .inr ⟨_, hp, rfl⟩⟩

/-- The calls of a compilation are those of the calls that it folds. -/
lemma exact_compileInvocations (h : w.layout.Sound) :
    ∀ i ∈ compileInvocations depth e bs o text w, i.Exact := by
  have hend := compilation (Target.invocations (evaluate depth) (evaluateInvocations depth)) depth
    e bs o text w
  unfold compileInvocations
  generalize Formula.compile depth e bs o text w = r at hend
  generalize gatherCompile _ depth e bs o text w = is at hend ⊢
  cases hend with
  | @done table tree p w' _ _ _ hfits hlayout _ _ =>
    have hsound : (w.attached e text table.vars).layout.Sound := by
      refine h.of_ne (fun e' (he : e ≠ e') => ?_) fun q n hq => ?_
      · exact (w.frame_attached e text table.vars).layout_of_ne he
      · rw [hlayout] at hq
        cases hq
    have hvalid := (Expr.leaves_of_fits hfits).forall_valid
    simp only [List.mem_reverse] at hvalid
    exact Lowering.exact_steps (nestedExact hsound depth) hvalid [] rfl
  | _ => exact List.forall_mem_nil _

/-- With the number of arguments that it takes, host code runs. -/
lemma Invocation.Exact.call_eq {i : Invocation σ} (h : i.Exact) {n : Name}
    {f : HostFunction σ} (hi : i.target = .host n f) : f.call i.args = f.code i.args := by
  unfold Exact at h
  rw [hi] at h
  exact if_pos h

/-- **What parses compiles and evaluates** in every reachable store. A compilation answers with the
first thing that is wrong: the names, a variable that is bound already or has two names, the text.
It fails for no other reason. A live expression and a tree that was parsed have a value, or a host
function failed and its failure is the result. All functions, those that are called by host code
or while constants are folded too, are called with the number of arguments that they take. -/
theorem compiles_and_evaluates (h : Reachable w es) (bs : List (Binding σ)) (o : Options)
    (text : Text) :
    (∀ depth e,
      let r := (compile depth e bs o text w).1
      let taken := (∃ v ∈ boundVars bs, w.isBound v = true) ∨ ¬(boundVars bs).Nodup
      (∀ err, SymbolTable.ofBindings bs = .error err → r = .error err) ∧
      (∀ table, SymbolTable.ofBindings bs = .ok table →
        (r = .error (.state .alreadyBound) ↔ taken) ∧
        (¬taken → ∀ err, parse table.resolve o text = .error err → r = .error (.parse err)) ∧
        (¬taken → ∀ tree, parse table.resolve o text = .ok tree → r = .ok ())) ∧
      (∀ err, r = .error err →
        (∃ n f, err = .badName n f) ∨ err = .full .bindings ∨ err = .state .alreadyBound ∨
          ∃ p, err = .parse p) ∧
      ∀ i ∈ compileInvocations depth e bs o text w, i.Exact) ∧
    (∀ depth e, w.Live e →
      Faultless (evaluate (depth + 1) e w).1 (evaluateInvocations (depth + 1) e w)) ∧
    (∀ depth table tree, parseWith bs o text = .ok (table, tree) →
      Faultless (tree.eval (evaluate depth) table w).1
        (tree.invocations (evaluate depth) (evaluateInvocations depth) table w)) ∧
    ∀ (i : Invocation σ) n f, i.Exact → i.target = .host n f → f.call i.args = f.code i.args := by
  have hsound := h.sound
  refine ⟨fun depth e => ?_, fun depth e he => ?_, fun depth table tree hparse => ?_,
    fun i n f hi hf => hi.call_eq hf⟩
  · refine ⟨fun err herr => by rw [compile_of_naming herr], fun table hb => ?_, fun err herr => ?_,
      exact_compileInvocations hsound⟩
    · rcases compile_of_table hb with ⟨hfree, hr⟩ | ⟨hfree, ⟨err, hp, hr⟩ | ⟨tree, hp, hr⟩⟩
      · rw [free_vars_iff hb, not_not] at hfree
        exact ⟨⟨fun _ => hfree, fun _ => hr⟩, fun hnot => absurd hfree hnot,
          fun hnot => absurd hfree hnot⟩
      · rw [free_vars_iff hb] at hfree
        rw [hr, hp]
        refine ⟨⟨nofun, fun htaken => absurd htaken hfree⟩, fun _ err' herr => ?_, fun _ => nofun⟩
        cases herr
        rfl
      · rw [free_vars_iff hb] at hfree
        rw [hr, hp]
        exact ⟨⟨nofun, fun htaken => absurd htaken hfree⟩, fun _ => nofun, fun _ _ _ => rfl⟩
    · rcases hb : SymbolTable.ofBindings bs with err' | table
      · rw [compile_of_naming hb] at herr
        cases herr
        exact (SymbolTable.isNaming_of_bindings hb).elim .inl fun hfull => .inr (.inl hfull)
      · rcases compile_of_table hb with ⟨-, hr⟩ | ⟨-, ⟨perr, -, hr⟩ | ⟨tree, -, hr⟩⟩
        · rw [hr] at herr
          cases herr
          exact .inr (.inr (.inl rfl))
        · rw [hr] at herr
          cases herr
          exact .inr (.inr (.inr ⟨perr, rfl⟩))
        · rw [hr] at herr
          cases herr
  · obtain ⟨p, n, hl⟩ := Store.live_iff.1 he
    exact faultless_of_layout hsound (nestedExact hsound depth) hl rfl
  · exact Expr.faultless (nestedExact hsound depth) (fits_of_parseWith hparse) rfl

/-- A text evaluates that has bound a variable, and keeps a second text from binding it. -/
theorem compiles_and_evaluates_put : ∃ (w : Store Unit) (es : List Event), Reachable w es ∧
    w.Live 0 ∧ Faultless (evaluate 1 0 w).1 (evaluateInvocations 1 0 w) ∧
    (compile 1 1 putBindings ⟨true, 4, 15⟩ putText w).1 = .error (.state .alreadyBound) := by
  let compiling : Op Unit := .compile 1 0 putBindings ⟨true, 4, 15⟩ putText
  have hnew := (Reachable.empty ()).op (.newVariable 0 5) rfl
  have hcompiled := hnew.op compiling rfl
  have hbound : (compiling.run ((Op.newVariable 0 5).run (.empty ()))).isBound 0 = true := by
    simp only [compiling, Op.run, compile, ofBindings_put]
    decide +kernel
  have hprogram : (((compiling.run ((Op.newVariable 0 5).run (.empty ()))).exprs.get? 0).any
      fun c => c.program.isSome) = true := by
    simp only [compiling, Op.run, compile, ofBindings_put]
    decide +kernel
  have hlive : (compiling.run ((Op.newVariable 0 5).run (.empty ()))).Live 0 :=
    (Option.any_eq_true _ _).1 hprogram
  obtain ⟨hcompile, hevaluate, -⟩ :=
    compiles_and_evaluates hcompiled putBindings ⟨true, 4, 15⟩ putText
  exact ⟨_, _, hcompiled, hlive, hevaluate 0 0 hlive,
    ((hcompile 1 1).2.1 putTable ofBindings_put).1.2 (.inl ⟨0, by decide, hbound⟩)⟩

end Formula
