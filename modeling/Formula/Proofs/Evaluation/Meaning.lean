import Formula.Proofs.Evaluation.Pending
import Formula.Proofs.Fits

/-!
What a tree means.

Operands are evaluated one after the other, from left to right, and each of them once. A
variable is read when its turn comes, a function is called when all its arguments are there.
The first call that fails ends the evaluation. The machine that walks the steps of a tree comes
to the same.
-/

namespace Formula

variable {σ α β : Type} {ev : Evaluator σ} {table : SymbolTable σ}

/-- A computation that is over: what it came to, the store it left, and the calls it made. -/
structure Trail (σ α : Type) where
  result : Except Error α
  store : Store σ
  calls : List (Call σ)

namespace Trail

/-- A step without a call. -/
def still (r : Except Error α) (w : Store σ) : Trail σ α := ⟨r, w, []⟩

/-- Goes on from where a computation ended, if it did not fail. -/
def bind (r : Trail σ α) (f : α → Store σ → Trail σ β) : Trail σ β :=
  match r.result with
  | .ok x => { f x r.store with calls := r.calls ++ (f x r.store).calls }
  | .error err => ⟨.error err, r.store, r.calls⟩

end Trail

def Target.trail (ev : Evaluator σ) (t : Target σ) (args : List Float) (w : Store σ) :
    Trail σ Float :=
  ⟨(t.run ev args w).1, (t.run ev args w).2, t.calls ev args w⟩

namespace Expr

mutual
def meaning (ev : Evaluator σ) (table : SymbolTable σ) : Expr → Store σ → Trail σ Float
  | const x, w => .still (.ok x) w
  | var k, w => match table.slotValue? w k with
    | some x => .still (.ok x) w
    | none => .still (.error (.internal (.noVariable k))) w
  | neg a, w => (meaning ev table a w).bind fun x w => .still (.ok (-x)) w
  | binary o a b, w => (meaning ev table a w).bind fun x w =>
    (meaning ev table b w).bind fun y w => .still (.ok (o.apply x y)) w
  | call c as, w => (meanings ev table as w).bind fun xs w => match table.target c with
    | .ok t => t.trail ev xs w
    | .error err => .still (.error err) w
def meanings (ev : Evaluator σ) (table : SymbolTable σ) :
    List Expr → Store σ → Trail σ (List Float)
  | [], w => .still (.ok []) w
  | a :: as, w => (meaning ev table a w).bind fun x w =>
    (meanings ev table as w).bind fun xs w => .still (.ok (x :: xs)) w
end

end Expr

lemma Trail.bind_eq_ok {r : Trail σ α} {f : α → Store σ → Trail σ β} {y : β} :
    (r.bind f).result = .ok y ↔
      ∃ x, r.result = .ok x ∧ (f x r.store).result = .ok y := by
  unfold bind
  rcases r.result with err | x
  · simp
  · simp

/-- There is a value for every argument. -/
lemma Expr.length_of_meanings {as : List Expr} {w : Store σ} {xs : List Float}
    (h : (meanings ev table as w).result = .ok xs) : xs.length = as.length := by
  induction as generalizing w xs with
  | nil =>
    rw [meanings] at h
    cases h
    rfl
  | cons a as ih =>
    rw [meanings, Trail.bind_eq_ok] at h
    obtain ⟨x, -, h⟩ := h
    rw [Trail.bind_eq_ok] at h
    obtain ⟨ys, hys, h⟩ := h
    cases h
    rw [List.length_cons, List.length_cons, ih hys]

/-! ### Failing calls -/

/-- Every call is of a function of the table and has as many arguments as the function takes.
All of them succeed but the last call of a computation that fails, and that call is what the
computation reports. -/
structure Trail.StopsAtFailure (table : SymbolTable σ) (r : Trail σ α) : Prop where
  bound : ∀ c ∈ r.calls, (∃ i, table.functionAt? i = some (c.name, c.function)) ∧
    c.args.length = c.function.arity
  ok : ∀ x, r.result = .ok x → ∀ c ∈ r.calls, ∃ y, c.result = .ok y
  error : ∀ err, r.result = .error err → ∃ cs c msg, r.calls = cs ++ [c] ∧
    (∀ c ∈ cs, ∃ y, c.result = .ok y) ∧ c.result = .error msg ∧
    err = .evaluation c.name.text msg

namespace Trail.StopsAtFailure

lemma still (x : α) (w : Store σ) : (Trail.still (.ok x) w).StopsAtFailure table :=
  ⟨nofun, nofun, nofun⟩

lemma bind {r : Trail σ α} {f : α → Store σ → Trail σ β} (h : r.StopsAtFailure table)
    (h' : ∀ x, r.result = .ok x → (f x r.store).StopsAtFailure table) :
    (r.bind f).StopsAtFailure table := by
  unfold Trail.bind
  rcases hr : r.result with err | x
  · refine ⟨h.bound, nofun, fun err' herr => ?_⟩
    cases herr
    exact h.error err hr
  · have hx := h' x hr
    have hok := h.ok x hr
    refine ⟨fun c hc => ?_, fun y hy c hc => ?_, fun err herr => ?_⟩
    · rcases List.mem_append.1 hc with hc | hc
      · exact h.bound c hc
      · exact hx.bound c hc
    · rcases List.mem_append.1 hc with hc | hc
      · exact hok c hc
      · exact hx.ok y hy c hc
    · obtain ⟨cs, c, msg, hcs, hall, hc, he⟩ := hx.error err herr
      refine ⟨r.calls ++ cs, c, msg, ?_, fun d hd => ?_, hc, he⟩
      · simp only [hcs, List.append_assoc]
      · rcases List.mem_append.1 hd with hd | hd
        · exact hok d hd
        · exact hall d hd

/-- A function that the table gives is the builtin or one of its own. -/
lemma target {c : Callee} {t : Target σ} (hc : table.target c = .ok t) {xs : List Float}
    (harity : t.arity = xs.length) (w : Store σ) :
    (t.trail ev xs w).StopsAtFailure table := by
  cases t with
  | builtin b => exact ⟨nofun, nofun, nofun⟩
  | host n f =>
    have hbound : ∃ i, table.functionAt? i = some (n, f) := by
      cases c with
      | builtin b => cases hc
      | bound i =>
        unfold SymbolTable.target at hc
        rcases hf : table.functionAt? i with _ | ⟨n', f'⟩
        · simp [hf] at hc
        · simp only [hf, Except.ok.injEq, Target.host.injEq] at hc
          obtain ⟨rfl, rfl⟩ := hc
          exact ⟨i, hf⟩
    have hresult : (Target.trail ev (.host n f) xs w).result =
        ((f.call xs).run ev w).1.mapError (.evaluation n.text) := rfl
    refine ⟨fun d hd => ?_, fun x hx d hd => ?_, fun err herr => ?_⟩
    · obtain rfl := List.mem_singleton.1 hd
      exact ⟨hbound, harity.symm⟩
    · obtain rfl := List.mem_singleton.1 hd
      rw [hresult] at hx
      rcases hrun : ((f.call xs).run ev w).1 with msg | y
      · rw [hrun] at hx
        cases hx
      · exact ⟨y, rfl⟩
    · rw [hresult] at herr
      rcases hrun : ((f.call xs).run ev w).1 with msg | y
      · rw [hrun] at herr
        cases herr
        exact ⟨[], _, msg, rfl, nofun, hrun, rfl⟩
      · rw [hrun] at herr
        cases herr

lemma meanings {as : List Expr}
    (h : ∀ a ∈ as, ∀ w, (a.meaning ev table w).StopsAtFailure table) (w : Store σ) :
    (Expr.meanings ev table as w).StopsAtFailure table := by
  induction as generalizing w with
  | nil =>
    rw [Expr.meanings]
    exact still _ _
  | cons a as ih =>
    have has := ih fun b hb => h b (List.mem_cons_of_mem _ hb)
    rw [Expr.meanings]
    exact (h a (by simp) w).bind fun x _ => (has _).bind fun xs _ => still _ _

/-- A tree that fits the table fails only where a call fails. -/
lemma meaning {tree : Expr} (h : tree.Fits table) (w : Store σ) :
    (tree.meaning ev table w).StopsAtFailure table := by
  induction h generalizing w with
  | const x =>
    rw [Expr.meaning]
    exact still x w
  | @var k nv hk =>
    have hvalue : table.slotValue? w k = some (w.value nv.2) := by
      simp [SymbolTable.slotValue?, hk]
    rw [Expr.meaning, hvalue]
    exact still _ w
  | neg _ ih =>
    rw [Expr.meaning]
    exact (ih w).bind fun x _ => still _ _
  | binary _ _ ih₁ ih₂ =>
    rw [Expr.meaning]
    exact (ih₁ w).bind fun x _ => (ih₂ _).bind fun y _ => still _ _
  | call hc harity _ ih =>
    rw [Expr.meaning, hc]
    refine (meanings ih w).bind fun xs hxs => target hc ?_ _
    rw [harity, Expr.length_of_meanings hxs]

end Trail.StopsAtFailure

/-! ### The machine on the steps of a tree -/

namespace Machine

variable {ss us : List Step} {m : Machine σ} {s s' : List Float} {r : Trail σ α}
  {vals : α → List Float} {vals' : β → List Float}

/-- From the machine `m` the steps make the calls of the trail and leave its store. If it did
not fail, its values end up above `s`, the last one first. -/
structure Follows (ev : Evaluator σ) (table : SymbolTable σ) (ss : List Step) (m : Machine σ)
    (s : List Float) (vals : α → List Float) (r : Trail σ α) : Prop where
  calls : gather (step ev table) (stepCalls ev table) ss m = r.calls
  ok : ∀ x, r.result = .ok x →
    runAll (step ev table) ss m = (.ok (), ⟨(vals x).reverse ++ s, r.store⟩)
  error : ∀ err, r.result = .error err →
    ∃ s', runAll (step ev table) ss m = (.error err, ⟨s', r.store⟩)

/-- Nothing is left to do. -/
lemma Follows.still {x : α} {w : Store σ} (hs : s' = (vals x).reverse ++ s) :
    Follows ev table [] ⟨s', w⟩ s vals (.still (.ok x) w) where
  calls := rfl
  ok y hy := by
    cases hy
    rw [hs]
    rfl
  error _ h := by cases h

lemma Follows.bind {g : α → Store σ → Trail σ β} (h : Follows ev table ss m s' vals r)
    (h' : ∀ x, r.result = .ok x →
      Follows ev table us ⟨(vals x).reverse ++ s', r.store⟩ s vals' (g x r.store)) :
    Follows ev table (ss ++ us) m s vals' (r.bind g) := by
  rcases hr : r.result with err | x
  · have hbind : r.bind g = ⟨.error err, r.store, r.calls⟩ := by
      unfold Trail.bind
      rw [hr]
    obtain ⟨s'', hrun⟩ := h.error err hr
    rw [hbind]
    refine ⟨?_, nofun, fun err' herr => ⟨s'', ?_⟩⟩
    · rw [gather_append, hrun, h.calls]
      exact List.append_nil _
    · cases herr
      rw [runAll_append, hrun]
  · have hbind : r.bind g =
        { g x r.store with calls := r.calls ++ (g x r.store).calls } := by
      unfold Trail.bind
      rw [hr]
    have hrun := h.ok x hr
    have hnext := h' x hr
    rw [hbind]
    refine ⟨?_, fun y hy => ?_, fun err herr => ?_⟩
    · rw [gather_append, hrun, h.calls]
      exact congrArg _ hnext.calls
    · rw [runAll_append, hrun]
      exact hnext.ok y hy
    · rw [runAll_append, hrun]
      exact hnext.error err herr

/-- A step that makes no call and leaves one value. -/
lemma Follows.one {st : Step} {w : Store σ} {x : Float}
    (hrun : step ev table st m = (.ok (), ⟨x :: s, w⟩))
    (hcalls : stepCalls ev table st m = []) :
    Follows ev table [st] m s (fun x => [x]) (.still (.ok x) w) where
  calls := by
    rw [gather, hcalls, hrun]
    rfl
  ok y hy := by
    cases hy
    rw [runAll, hrun]
    rfl
  error _ h := by cases h

/-- A call takes its arguments off the stack. -/
lemma Follows.call {c : Callee} {t : Target σ} {xs : List Float} {w : Store σ}
    (hc : table.target c = .ok t) :
    Follows ev table [.call c xs.length] ⟨xs.reverse ++ s, w⟩ s (fun x => [x])
      (t.trail ev xs w) where
  calls := by
    simp only [gather, stepCalls, hc, atCall_args]
    split <;> exact List.append_nil _
  ok x hx := by
    have hpair : t.run ev xs w = (.ok x, (t.run ev xs w).2) := Prod.ext hx rfl
    rw [runAll, step, hc, call_args, hpair]
    rfl
  error err herr := by
    have hpair : t.run ev xs w = (.error err, (t.run ev xs w).2) := Prod.ext herr rfl
    refine ⟨xs.reverse ++ s, ?_⟩
    rw [runAll, step, hc, call_args, hpair]
    rfl

lemma follows_meanings {as : List Expr}
    (h : ∀ a ∈ as, ∀ s w, Follows ev table a.steps ⟨s, w⟩ s (fun x => [x])
      (a.meaning ev table w)) (s : List Float) (w : Store σ) :
    Follows ev table (Expr.stepsList as) ⟨s, w⟩ s id (Expr.meanings ev table as w) := by
  induction as generalizing s w with
  | nil =>
    rw [Expr.meanings]
    exact .still rfl
  | cons a as ih =>
    have has := ih fun b hb => h b (List.mem_cons_of_mem _ hb)
    rw [Expr.stepsList_cons, Expr.meanings]
    refine (h a (by simp) s w).bind fun x _ => ?_
    rw [← List.append_nil (Expr.stepsList as)]
    exact (has _ _).bind fun xs _ => .still (by simp)

/-- **The machine follows the meaning** of every tree that fits the table. -/
theorem follows_meaning {tree : Expr} (h : tree.Fits table) (s : List Float) (w : Store σ) :
    Follows ev table tree.steps ⟨s, w⟩ s (fun x => [x]) (tree.meaning ev table w) := by
  induction h generalizing s w with
  | const x =>
    rw [Expr.meaning, Expr.steps_const]
    exact .one rfl rfl
  | @var k nv hk =>
    have hvalue : table.slotValue? w k = some (w.value nv.2) := by
      simp [SymbolTable.slotValue?, hk]
    have hstep : step ev table (.var k) ⟨s, w⟩ = (.ok (), ⟨w.value nv.2 :: s, w⟩) := by
      simp only [step, hvalue, push]
    rw [Expr.meaning, hvalue, Expr.steps_var]
    exact .one hstep rfl
  | neg _ ih =>
    rw [Expr.steps_neg, Expr.meaning]
    exact (ih s w).bind fun x _ => .one rfl rfl
  | binary _ _ ih₁ ih₂ =>
    rw [Expr.steps_binary, Expr.meaning, List.append_assoc]
    exact (ih₁ s w).bind fun x _ => (ih₂ _ _).bind fun y _ => .one rfl rfl
  | call hc harity _ ih =>
    rw [Expr.steps_call, Expr.meaning, hc]
    refine (follows_meanings ih s w).bind fun xs hxs => ?_
    rw [← Expr.length_of_meanings hxs]
    exact .call hc

end Machine

end Formula
