import Formula.Proofs.Evaluation.Invocations

/-!
Folding, on trees.

`Expr.fold` computes the constant parts of a tree, from left to right and from the leaves up, and
notes the calls that this takes. The compiler never sees the tree while it folds, only the
instructions at the end of what it has built so far. Main statement: what it builds is the program
of the folded tree, and it makes the calls that were noted.
-/

namespace Formula

variable {σ α β : Type} {ev : Evaluator σ} {table : SymbolTable σ}

/-! ### The program of a tree as it stands -/

/-- The instruction that does what the step does. -/
def Step.code (table : SymbolTable σ) : Step → Except Error (Instr σ)
  | .const x => .ok (.const x)
  | .var k => .ok (.var k)
  | .neg => .ok .neg
  | .binary o => .ok (.binary o)
  | .call c n => (table.target c).map fun t => .call t n

/-- The operands from left to right and then the node: one instruction for each step. -/
def Expr.code (table : SymbolTable σ) (e : Expr) : Except Error (Program σ) :=
  e.steps.mapM (Step.code table)

/-! ### Folding a tree -/

def Expr.constant? : Expr → Option Float
  | const x => some x
  | _ => none

/-- What folding comes to, the store that host functions leave, and their calls. -/
structure Folding (σ α : Type) where
  value : α
  store : Store σ
  calls : List (Call σ)

namespace Folding

def still (a : α) (w : Store σ) : Folding σ α := ⟨a, w, []⟩

/-- One after the other. -/
def bind (r : Folding σ α) (f : α → Store σ → Folding σ β) : Folding σ β :=
  { f r.value r.store with calls := r.calls ++ (f r.value r.store).calls }

end Folding

namespace Expr

def foldedNeg : Expr → Expr
  | const x => const (-x)
  | a => neg a

def foldedBinary (o : Operator) (a b : Expr) (w : Store σ) : Folding σ Expr :=
  match a, b with
  | const x, const y =>
    .still (const (o.apply x y)) (w.emit (.foldedOperator o x y (o.apply x y)))
  | a, b => .still (binary o a b) w

/-- A pure function is called if all its arguments are constants. If that fails the call stays. -/
def foldedCall (ev : Evaluator σ) (table : SymbolTable σ) (c : Callee) (as : List Expr)
    (w : Store σ) : Folding σ Expr :=
  match table.target c, as.mapM constant? with
  | .ok t, some xs =>
    if t.isPure then match t.run ev xs w with
      | (.ok x, w') => ⟨const x, w'.emit (.foldedCall t.name x), t.calls ev xs w⟩
      | (.error err, w') => ⟨call c as, w'.emit (.leftCall t.name err), t.calls ev xs w⟩
    else .still (call c as) w
  | _, _ => .still (call c as) w

mutual
def fold (ev : Evaluator σ) (table : SymbolTable σ) : Expr → Store σ → Folding σ Expr
  | const x, w => .still (const x) w
  | var k, w => .still (var k) w
  | neg a, w => (fold ev table a w).bind fun a w => .still (foldedNeg a) w
  | binary o a b, w => (fold ev table a w).bind fun a w =>
    (fold ev table b w).bind fun b w => foldedBinary o a b w
  | call c as, w => (foldList ev table as w).bind fun as w => foldedCall ev table c as w
def foldList (ev : Evaluator σ) (table : SymbolTable σ) :
    List Expr → Store σ → Folding σ (List Expr)
  | [], w => .still [] w
  | a :: as, w => (fold ev table a w).bind fun a w =>
    (foldList ev table as w).bind fun as w => .still (a :: as) w
end

/-- A call stays as it is, or is made and gives a constant, or is made and fails. -/
lemma foldedCall_cases (ev : Evaluator σ) {c : Callee} {t : Target σ}
    (hc : table.target c = .ok t) (as : List Expr) (w : Store σ) :
    ((t.isPure = false ∨ as.mapM constant? = none) ∧
      foldedCall ev table c as w = .still (call c as) w) ∨
    ∃ xs w', t.isPure ∧ as.mapM constant? = some xs ∧
      ((∃ x, t.run ev xs w = (.ok x, w') ∧ foldedCall ev table c as w =
          ⟨const x, w'.emit (.foldedCall t.name x), t.calls ev xs w⟩) ∨
        ∃ err, t.run ev xs w = (.error err, w') ∧ foldedCall ev table c as w =
          ⟨call c as, w'.emit (.leftCall t.name err), t.calls ev xs w⟩) := by
  unfold foldedCall
  rw [hc]
  rcases hxs : as.mapM constant? with _ | xs
  · exact .inl ⟨.inr rfl, rfl⟩
  · by_cases ht : t.isPure
    · simp only [if_pos ht]
      rcases hrun : t.run ev xs w with ⟨err | x, w'⟩
      · exact .inr ⟨xs, w', ht, rfl, .inr ⟨err, hrun, rfl⟩⟩
      · exact .inr ⟨xs, w', ht, rfl, .inl ⟨x, hrun, rfl⟩⟩
    · simp only [if_neg ht]
      exact .inl ⟨.inl (by simpa using ht), trivial⟩

end Expr

/-! ### Programs -/

lemma mapM_append_ok {ε : Type} {f : α → Except ε β} {as bs : List α} {ps qs : List β}
    (h : as.mapM f = .ok ps) (h' : bs.mapM f = .ok qs) : (as ++ bs).mapM f = .ok (ps ++ qs) := by
  rw [List.mapM_append, h, h']
  rfl

namespace Expr

variable {a b : Expr} {p q : Program σ} {c : Callee} {t : Target σ} {as : List Expr}
  {qs : List (Program σ)}

lemma code_neg (h : a.code table = .ok p) : (neg a).code table = .ok (p ++ [.neg]) := by
  unfold code
  rw [steps_neg]
  exact mapM_append_ok h rfl

lemma code_binary (o : Operator) (h : a.code table = .ok p) (h' : b.code table = .ok q) :
    (binary o a b).code table = .ok (p ++ q ++ [.binary o]) := by
  unfold code
  rw [steps_binary]
  exact mapM_append_ok (mapM_append_ok h h') rfl

/-- Each of the trees has its program. -/
abbrev CodeAll (table : SymbolTable σ) : List Expr → List (Program σ) → Prop :=
  List.Forall₂ fun a p => a.code table = .ok p

lemma CodeAll.flatten (h : CodeAll table as qs) :
    (stepsList as).mapM (Step.code table) = .ok qs.flatten := by
  induction h with
  | nil => rfl
  | cons ha _ ih =>
    rw [stepsList_cons, List.flatten_cons]
    exact mapM_append_ok ha ih

lemma code_call (hc : table.target c = .ok t) (h : CodeAll table as qs) :
    (call c as).code table = .ok (qs.flatten ++ [.call t as.length]) := by
  unfold code
  rw [steps_call]
  refine mapM_append_ok h.flatten ?_
  rw [List.mapM_cons, Step.code, hc]
  rfl

end Expr

lemma of_mapM_snoc {ε : Type} {f : α → Except ε β} {as : List α} {a : α} {qs : List β}
    (h : (as ++ [a]).mapM f = .ok qs) : ∃ ps y, f a = .ok y ∧ qs = ps ++ [y] := by
  rw [List.mapM_append, List.mapM_cons, List.mapM_nil] at h
  rcases has : as.mapM f with err | ps
  · rw [has] at h
    cases h
  · rcases ha : f a with err | y
    · rw [has, ha] at h
      cases h
    · rw [has, ha] at h
      cases h
      exact ⟨ps, y, rfl, rfl⟩

/-- The program of a tree ends in the instruction of its root. -/
lemma Expr.code_cases {e : Expr} {q : Program σ} (h : e.code table = .ok q) :
    (∃ x, e = const x ∧ q = [.const x]) ∨
      e.constant? = none ∧ ∃ i s, q.reverse = i :: s ∧ i.constant? = none := by
  unfold code at h
  cases e with
  | const x =>
    cases h
    exact .inl ⟨x, rfl, rfl⟩
  | var k =>
    cases h
    exact .inr ⟨rfl, .var k, [], rfl, rfl⟩
  | neg a =>
    rw [steps_neg] at h
    obtain ⟨p, i, hi, rfl⟩ := of_mapM_snoc h
    cases hi
    exact .inr ⟨rfl, .neg, p.reverse, by simp, rfl⟩
  | binary o a b =>
    rw [steps_binary] at h
    obtain ⟨p, i, hi, rfl⟩ := of_mapM_snoc h
    cases hi
    exact .inr ⟨rfl, .binary o, p.reverse, by simp, rfl⟩
  | call c as =>
    rw [steps_call] at h
    obtain ⟨p, i, hi, rfl⟩ := of_mapM_snoc h
    obtain ⟨t, rfl⟩ : ∃ t, i = .call t as.length := by
      rw [Step.code] at hi
      rcases ht : table.target c with err | t
      · rw [ht] at hi
        cases hi
      · rw [ht] at hi
        cases hi
        exact ⟨t, rfl⟩
    exact .inr ⟨rfl, .call t as.length, p.reverse, by simp, rfl⟩

namespace Lowering

open Formula.Expr

variable {ss us : List Step} {st : Step} {w w' w'' : Store σ} {r s : Program σ}
  {cs ds : List (Call σ)}

/-- From the store `w` on the steps add the code `r`, last instruction first, whatever is there.
They leave the store `w'` and make the calls `cs`. -/
structure Aligned (ev : Evaluator σ) (table : SymbolTable σ) (ss : List Step) (w : Store σ)
    (r : Program σ) (w' : Store σ) (cs : List (Call σ)) : Prop where
  steps : ∀ p, steps ev table true ss p w = (.ok (r ++ p), w')
  calls : ∀ p, gather ev (Target.calls ev) table true ss p w = cs

lemma gather_append {observe : Target σ → List Float → Store σ → List β} {fold : Bool}
    (ss us : List Step) (p : Program σ) (w : Store σ) :
    gather ev observe table fold (ss ++ us) p w = gather ev observe table fold ss p w ++
      match Lowering.steps ev table fold ss p w with
      | (.ok p, w) => gather ev observe table fold us p w
      | (.error _, _) => [] := by
  induction ss generalizing p w with
  | nil => rfl
  | cons s ss ih =>
    simp only [List.cons_append, gather, Lowering.steps]
    rcases step ev table fold s p w with ⟨_ | p', w'⟩
    · simp
    · simp only [ih, List.append_assoc]

namespace Aligned

lemma nil : Aligned ev table [] w [] w [] := ⟨fun _ => rfl, fun _ => rfl⟩

lemma append (h : Aligned ev table ss w r w' cs) (h' : Aligned ev table us w' s w'' ds) :
    Aligned ev table (ss ++ us) w (s ++ r) w'' (cs ++ ds) where
  steps p := by
    rw [steps_append, h.steps]
    simp only
    rw [h'.steps, List.append_assoc]
  calls p := by
    rw [gather_append, h.calls, h.steps]
    simp only
    rw [h'.calls]

/-- A last step that sees the code of its operands. -/
lemma snoc (h : Aligned ev table ss w r w' cs)
    (hstep : ∀ p, step ev table true st (r ++ p) w' = (.ok (s ++ p), w''))
    (hcalls : ∀ p, atStep (Target.calls ev) table true st (r ++ p) w' = ds) :
    Aligned ev table (ss ++ [st]) w s w'' (cs ++ ds) where
  steps p := by
    rw [steps_append, h.steps]
    simp only [Lowering.steps]
    rw [hstep]
  calls p := by
    rw [gather_append, h.calls, h.steps]
    simp only [gather]
    rw [hcalls, hstep]
    simp only [List.append_nil]

/-- A step without operands. -/
lemma leaf (hstep : ∀ p, step ev table true st p w = (.ok (r ++ p), w))
    (hcalls : ∀ p, atStep (Target.calls ev) table true st p w = []) :
    Aligned ev table [st] w r w [] :=
  nil.snoc hstep hcalls

end Aligned

/-! ### Calls -/

variable {t : Target σ} {ys : List Float} {n : ℕ} {p : Program σ}

lemma atCall_constants (ev : Evaluator σ) (ht : t.isPure) (harity : ys.length ≤ maxArity)
    (p : Program σ) (w : Store σ) :
    atCall (Target.calls ev) true t ys.length (ys.map .const ++ p) w =
      t.calls ev ys.reverse w := by
  have hlen : ys.length = (ys.map .const : Program σ).length := by simp
  have hle : ¬(ys.map .const ++ p : Program σ).length < ys.length := by simp
  have hroom : ¬maxArity < ys.reverse.length := by simpa using harity
  unfold atCall
  rw [if_neg hle, ht]
  simp only [Bool.and_true, ite_true]
  rw [List.take_left' hlen.symm, reverse_mapM_constants]
  simp only [if_neg hroom]

lemma atCall_of_mapM_eq_none (h : (p.take n).reverse.mapM Instr.constant? = none) :
    atCall (Target.calls ev) true t n p w = [] := by
  unfold atCall
  split
  · rfl
  · split
    · rw [h]
    · rfl

lemma atCall_kept (h : t.isPure = false) : atCall (Target.calls ev) true t n p w = [] := by
  unfold atCall
  rw [h]
  simp

/-! ### One node -/

open Formula.Expr

variable {a b : Expr} {as : List Expr} {q : Program σ} {qs : List (Program σ)} {c : Callee}

/-- On the code `r` of the operands the step comes to the code of the folded node. -/
def Completes (ev : Evaluator σ) (table : SymbolTable σ) (st : Step) (r : Program σ)
    (w : Store σ) (f : Folding σ Expr) : Prop :=
  ∃ s, f.value.code table = .ok s ∧
    (∀ p, step ev table true st (r ++ p) w = (.ok (s.reverse ++ p), f.store)) ∧
    ∀ p, atStep (Target.calls ev) table true st (r ++ p) w = f.calls

lemma completes_neg (h : a.code table = .ok q) (w : Store σ) :
    Completes ev table .neg q.reverse w (.still (foldedNeg a) w) := by
  rcases code_cases h with ⟨x, rfl, rfl⟩ | ⟨hroot, i, s, hlast, hi⟩
  · exact ⟨[.const (-x)], rfl, fun _ => rfl, fun _ => rfl⟩
  · have hkeep : foldedNeg a = neg a := by
      cases a with
      | const x => cases hroot
      | _ => rfl
    refine ⟨q ++ [.neg], ?_, fun p => ?_, fun _ => rfl⟩
    · rw [hkeep]
      exact code_neg h
    · rw [List.reverse_append, hlast]
      cases i with
      | const x => cases hi
      | _ => rfl

lemma completes_binary (o : Operator) (ha : a.code table = .ok p) (hb : b.code table = .ok q)
    (w : Store σ) :
    Completes ev table (.binary o) (q.reverse ++ p.reverse) w (foldedBinary o a b w) := by
  have hcode := code_binary o ha hb
  have hkeep (hfold : foldedBinary o a b w = .still (binary o a b) w)
      (hstep : ∀ r, step ev table true (.binary o) (q.reverse ++ p.reverse ++ r) w =
        (.ok (.binary o :: (q.reverse ++ p.reverse ++ r)), w)) :
      Completes ev table (.binary o) (q.reverse ++ p.reverse) w (foldedBinary o a b w) := by
    rw [hfold]
    refine ⟨_, hcode, fun r => ?_, fun _ => rfl⟩
    rw [hstep, List.reverse_append, List.reverse_append]
    rfl
  rcases code_cases hb with ⟨y, rfl, rfl⟩ | ⟨hroot, i, s, hlast, hi⟩
  · rcases code_cases ha with ⟨x, rfl, rfl⟩ | ⟨hroot, i, s, hlast, hi⟩
    · exact ⟨[.const (o.apply x y)], rfl, fun _ => rfl, fun _ => rfl⟩
    · refine hkeep ?_ fun r => ?_
      · cases a with
        | const x => cases hroot
        | _ => rfl
      · rw [hlast]
        cases i with
        | const x => cases hi
        | _ => rfl
  · refine hkeep ?_ fun r => ?_
    · cases b with
      | const x => cases hroot
      | _ => cases a <;> rfl
    · rw [hlast]
      cases i with
      | const x => cases hi
      | _ => rfl

lemma mapM_constants (xs : List Float) : (xs.map Expr.const).mapM constant? = some xs := by
  induction xs with
  | nil => rfl
  | cons x xs ih =>
    rw [List.map_cons, List.mapM_cons, ih]
    rfl

/-- The trees are constants if their programs are. -/
lemma eq_constants_of_codes {xs : List Float} (h : CodeAll table as qs)
    (hqs : qs = xs.map fun x => [.const x]) : as = xs.map .const := by
  induction h generalizing xs with
  | nil =>
    cases xs with
    | nil => rfl
    | cons x xs => cases hqs
  | cons ha _ ih =>
    cases xs with
    | nil => cases hqs
    | cons x xs =>
      obtain ⟨rfl, hrest⟩ := List.cons.inj hqs
      rcases code_cases ha with ⟨y, rfl, hy⟩ | ⟨-, i, s, hlast, hi⟩
      · cases hy
        rw [ih hrest, List.map_cons]
      · cases hlast
        cases hi

lemma codes_of_constants {xs : List Float} (h : CodeAll table (xs.map .const) qs) :
    qs = xs.map fun x => [.const x] := by
  induction xs generalizing qs with
  | nil =>
    cases h
    rfl
  | cons x xs ih =>
    cases h with
    | cons hx hxs =>
      rcases code_cases hx with ⟨y, hy, rfl⟩ | ⟨hroot, -⟩
      · cases hy
        rw [List.map_cons, ih hxs]
      · cases hroot

lemma whole_of_codes (h : CodeAll table as qs) : ∀ q ∈ qs, Whole q.reverse := by
  induction h with
  | nil => exact fun q hq => absurd hq List.not_mem_nil
  | cons ha _ ih =>
    intro q hq
    rcases List.mem_cons.1 hq with rfl | hq
    · rcases code_cases ha with ⟨x, -, rfl⟩ | ⟨-, i, s, hlast, hi⟩
      · exact .inr rfl
      · rw [hlast]
        exact .inl hi
    · exact ih q hq

lemma constants_of_mapM {xs : List Float} (h : as.mapM constant? = some xs) :
    as = xs.map .const := by
  induction as generalizing xs with
  | nil =>
    cases h
    rfl
  | cons a as ih =>
    rw [List.mapM_cons] at h
    cases a with
    | const x =>
      rcases has : as.mapM constant? with _ | ys
      · rw [has] at h
        cases h
      · rw [has] at h
        cases h
        rw [ih has, List.map_cons]
    | _ => cases h

/-- The arguments of a call are constants and so are their programs, or neither. -/
lemma constants_cases (h : CodeAll table as qs) :
    (∃ xs : List Float, as.mapM constant? = some xs ∧ as.length = xs.reverse.length ∧
      qs.flatten.reverse = xs.reverse.map .const) ∨
    as.mapM constant? = none ∧ ∀ p : Program σ,
      ((qs.flatten.reverse ++ p).take as.length).reverse.mapM Instr.constant? = none := by
  by_cases hconst : ∃ xs : List Float, qs = xs.map fun x => [.const x]
  · left
    obtain ⟨xs, hxs⟩ := hconst
    obtain rfl := eq_constants_of_codes h hxs
    refine ⟨xs, mapM_constants xs, by simp, ?_⟩
    rw [hxs, flatten_singletons, List.map_reverse]
  · right
    have hflatten : qs.flatten.reverse = ((qs.map List.reverse).reverse).flatten :=
      List.reverse_flatten
    have hlength : as.length = ((qs.map List.reverse).reverse).length := by
      simpa using h.length_eq
    constructor
    · rcases has : as.mapM constant? with _ | xs
      · rfl
      · obtain rfl := constants_of_mapM has
        exact absurd ⟨xs, codes_of_constants h⟩ hconst
    · intro p
      rw [hflatten, hlength]
      refine mapM_constant?_eq_none (fun r hr => ?_) ?_ p
      · obtain ⟨q, hq, rfl⟩ := List.mem_map.1 (List.mem_reverse.1 hr)
        exact whole_of_codes h q hq
      · rintro ⟨ys, hys⟩
        refine hconst ⟨ys.reverse, ?_⟩
        have hrev := congrArg (List.map List.reverse ∘ List.reverse) hys
        simpa [Function.comp_def] using hrev

lemma length_le_flatten (h : CodeAll table as qs) (p : Program σ) :
    as.length ≤ (qs.flatten.reverse ++ p).length := by
  have hne : ∀ q ∈ qs, q ≠ [] := by
    rintro q hq rfl
    exact whole_of_codes h [] hq
  have hflatten := length_le_length_flatten hne
  rw [List.length_append, List.length_reverse, h.length_eq]
  omega

/-- A call that stays, whether or not it was made. -/
lemma completes_kept (hc : table.target c = .ok t) (h : CodeAll table as qs) {f : Folding σ Expr}
    (hvalue : f.value = .call c as)
    (hcall : ∀ p, Lowering.call ev true t as.length (qs.flatten.reverse ++ p) w =
      (.ok (.call t as.length :: (qs.flatten.reverse ++ p)), f.store))
    (hat : ∀ p, atCall (Target.calls ev) true t as.length (qs.flatten.reverse ++ p) w = f.calls) :
    Completes ev table (.call c as.length) qs.flatten.reverse w f := by
  refine ⟨_, hvalue ▸ code_call hc h, fun p => ?_, fun p => ?_⟩
  · simp only [step, hc, hcall]
    simp
  · simp only [atStep, hc, hat]

lemma completes_call (hc : table.target c = .ok t) (harity : t.arity = as.length)
    (h : CodeAll table as qs) (w : Store σ) :
    Completes ev table (.call c as.length) qs.flatten.reverse w (foldedCall ev table c as w) := by
  have hle := length_le_flatten h
  rcases constants_cases h with ⟨xs, hxs, hlen, hqs⟩ | ⟨hnone, hnone'⟩
  · have hroom : xs.reverse.length ≤ maxArity := by
      rw [← hlen, ← harity]
      exact t.arity_le
    rcases foldedCall_cases ev hc as w with ⟨hkept, hfold⟩ | ⟨ys, w', ht, hys, hmade⟩
    · have ht : t.isPure = false := hkept.resolve_right (by simp [hxs])
      rw [hfold]
      exact completes_kept hc h rfl (fun p => call_kept (hle p) (by simp [ht]))
        fun p => atCall_kept ht
    · obtain rfl : ys = xs := Option.some.inj (hys.symm.trans hxs)
      have hcall (p : Program σ) : Lowering.call ev true t _ _ w = _ := call_constants ht hroom p w
      have hobserve (p : Program σ) := atCall_constants ev ht hroom p w
      rw [List.reverse_reverse] at hcall hobserve
      rw [← hlen, ← hqs] at hcall hobserve
      rcases hmade with ⟨x, hrun, hfold⟩ | ⟨err, hrun, hfold⟩
      · rw [hfold]
        refine ⟨[.const x], rfl, fun p => ?_, fun p => ?_⟩
        · simp only [step, hc, hcall, hrun]
          rfl
        · simp only [atStep, hc, hobserve]
      · rw [hfold]
        exact completes_kept hc h rfl (fun p => by rw [hcall, hrun]) hobserve
  · have hfold : foldedCall ev table c as w = .still (.call c as) w := by
      rcases foldedCall_cases ev hc as w with ⟨-, hfold⟩ | ⟨ys, w', -, hys, -⟩
      · exact hfold
      · rw [hnone] at hys
        cases hys
    rw [hfold]
    exact completes_kept hc h rfl (fun p => call_of_mapM_eq_none (hle p) (hnone' p))
      fun p => atCall_of_mapM_eq_none (hnone' p)

/-! ### A whole tree -/

/-- The steps come to the program of a folded tree. -/
def Builds (ev : Evaluator σ) (table : SymbolTable σ) (ss : List Step) (w : Store σ)
    (f : Folding σ Expr) : Prop :=
  ∃ q, f.value.code table = .ok q ∧ Aligned ev table ss w q.reverse f.store f.calls

/-- The operands first, and then the node. -/
lemma Aligned.builds {f : α → Store σ → Folding σ Expr} {g : Folding σ α}
    (h : Aligned ev table ss w r g.store g.calls)
    (hnode : Completes ev table st r g.store (f g.value g.store)) :
    Builds ev table (ss ++ [st]) w (g.bind f) := by
  obtain ⟨q, hq, hstep, hcalls⟩ := hnode
  exact ⟨q, hq, h.snoc hstep hcalls⟩

/-- The same for operands one after the other. -/
lemma buildsAll (h : ∀ a ∈ as, ∀ w, Builds ev table a.steps w (a.fold ev table w))
    (w : Store σ) : ∃ qs, CodeAll table (foldList ev table as w).value qs ∧
      Aligned ev table (stepsList as) w qs.flatten.reverse (foldList ev table as w).store
        (foldList ev table as w).calls := by
  induction as generalizing w with
  | nil =>
    rw [foldList]
    exact ⟨[], .nil, .nil⟩
  | cons a as ih =>
    obtain ⟨q, hq, ha⟩ := h a List.mem_cons_self w
    obtain ⟨qs, hqs, has⟩ :=
      ih (fun b hb => h b (List.mem_cons_of_mem _ hb)) (a.fold ev table w).store
    rw [foldList, stepsList_cons]
    refine ⟨q :: qs, .cons hq hqs, ?_⟩
    have hall := ha.append has
    rw [List.flatten_cons, List.reverse_append]
    simpa [Folding.bind, Folding.still] using hall

lemma length_foldList (ev : Evaluator σ) (table : SymbolTable σ) (as : List Expr) (w : Store σ) :
    (foldList ev table as w).value.length = as.length := by
  induction as generalizing w with
  | nil => rw [foldList]; rfl
  | cons a as ih =>
    rw [foldList]
    simp [Folding.bind, Folding.still, ih]

/-- **The compiler folds the tree**, although it sees instructions only. -/
theorem builds_of_fits (ev : Evaluator σ) {tree : Expr} (h : tree.Fits table) (w : Store σ) :
    Builds ev table tree.steps w (tree.fold ev table w) := by
  induction h generalizing w with
  | const x =>
    rw [fold]
    exact ⟨[.const x], rfl, .leaf (fun _ => rfl) fun _ => rfl⟩
  | var _ =>
    rw [fold]
    exact ⟨[.var _], rfl, .leaf (fun _ => rfl) fun _ => rfl⟩
  | neg _ ih =>
    obtain ⟨q, hq, ha⟩ := ih w
    rw [fold, steps_neg]
    exact ha.builds (completes_neg hq _)
  | @binary o a b _ _ ih₁ ih₂ =>
    obtain ⟨p, hp, ha⟩ := ih₁ w
    obtain ⟨q, hq, hb⟩ := ih₂ (a.fold ev table w).store
    obtain ⟨r, hr, hstep, hcalls⟩ := completes_binary o hp hq
      (b.fold ev table (a.fold ev table w).store).store
    have hall := (ha.append hb).snoc hstep hcalls
    rw [List.append_assoc (a.fold ev table w).calls] at hall
    rw [fold, steps_binary]
    exact ⟨r, hr, hall⟩
  | @call c as t hc harity _ ih =>
    obtain ⟨qs, hqs, has⟩ := buildsAll ih w
    have hlen := length_foldList ev table as w
    rw [fold, steps_call]
    rw [← hlen] at harity ⊢
    exact has.builds (completes_call hc harity hqs _)

/-! ### With folding and without -/

lemma code_of_codes {s : Step} {i : Instr σ} (h : Codes table s i) : s.code table = .ok i := by
  cases h with
  | call n hc =>
    rw [Step.code, hc]
    rfl
  | _ => rfl

/-- A tree that fits has a program, which has an instruction for every step. -/
lemma exists_codes {tree : Expr} (h : tree.Fits table) :
    ∃ q, tree.code table = .ok q ∧ List.Forall₂ (Codes table) tree.steps q ∧
      ∀ ev w, lower ev table false tree w = (.ok q, w) := by
  obtain ⟨q, -, hq⟩ := Plain.exists_of_fits h
  have hcode {ss : List Step} {q : Program σ} (h : List.Forall₂ (Codes table) ss q) :
      ss.mapM (Step.code table) = .ok q := by
    induction h with
    | nil => rfl
    | cons hs _ ih =>
      rw [List.mapM_cons, code_of_codes hs, ih]
      rfl
  refine ⟨q, hcode hq.codes, hq.codes, fun ev w => ?_⟩
  rw [(hq.adds ev).lower_plain w, List.reverse_reverse]

/-- With folding the compiler makes the program of the folded tree. -/
lemma exists_lower (ev : Evaluator σ) {tree : Expr} (h : tree.Fits table) (w : Store σ) :
    ∃ p, (tree.fold ev table w).value.code table = .ok p ∧
      lower ev table true tree w = (.ok p, (tree.fold ev table w).store) ∧
      gather ev (Target.calls ev) table true tree.steps [] w = (tree.fold ev table w).calls := by
  obtain ⟨p, hp, hsteps, hcalls⟩ := builds_of_fits ev h w
  refine ⟨p, hp, ?_, hcalls []⟩
  rw [lower_eq, hsteps, List.append_nil]
  simp only [Prod.map, Except.map, List.reverse_reverse, id]

/-- Without folding nothing is called. -/
lemma gather_unfolded (observe : Target σ → List Float → Store σ → List β) (ss : List Step)
    (p : Program σ) (w : Store σ) : gather ev observe table false ss p w = [] := by
  have hstep (s : Step) (p : Program σ) (w : Store σ) :
      atStep observe table false s p w = [] := by
    unfold atStep
    split
    · split
      · unfold atCall
        split <;> rfl
      · rfl
    · rfl
  induction ss generalizing p w with
  | nil => rfl
  | cons s ss ih =>
    rw [gather, hstep, List.nil_append]
    rcases step ev table false s p w with ⟨_ | p', w'⟩
    · rfl
    · exact ih p' w'

end Lowering

end Formula
