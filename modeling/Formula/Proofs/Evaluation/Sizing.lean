import Formula.Proofs.Evaluation.Heights
import Mathlib.Order.Bounds.Basic

/-!
The height of the stack at every point of a run.

How far a run has come and how high its stack is are two ways to say the same: the height is what
the instructions so far have added to the stack, and the greatest of the heights is the one that the
program is sized for. A run that stops early has been through the same points up to there.
-/

namespace Formula

variable {σ : Type} {ι : Type} {n : ℕ} {p q : Program σ} {i : Instr σ}

/-! ### Heights of a program -/

/-- What the instruction adds to the height of the stack. -/
def Instr.effect (i : Instr σ) : ℤ := 1 - i.pops

namespace Program

/-- What the program adds to the height of the stack. -/
def effect : Program σ → ℤ
  | [] => 0
  | i :: p => i.effect + effect p

@[simp] lemma effect_nil : effect ([] : Program σ) = 0 := rfl

@[simp] lemma effect_cons (i : Instr σ) (p : Program σ) :
    effect (i :: p) = i.effect + effect p := rfl

lemma effect_append (p q : Program σ) : effect (p ++ q) = effect p + effect q := by
  induction p with
  | nil => simp
  | cons i p ih => rw [List.cons_append, effect_cons, effect_cons, ih, Int.add_assoc]

@[simp] lemma heights_nil (h most : ℕ) : heights ([] : Program σ) h most = (h, most) := rfl

@[simp] lemma heights_cons (i : Instr σ) (p : Program σ) (h most : ℕ) :
    heights (i :: p) h most =
      p.heights (h - i.pops + 1) (max most (h - i.pops + 1)) := rfl

lemma heights_concat (p : Program σ) (i : Instr σ) (h most : ℕ) :
    (heights (p ++ [i]) h most).1 = (p.heights h most).1 - i.pops + 1 := by
  simp [heights]

/-- A greater maximum to start with only raises the maximum. -/
lemma heights_max (p : Program σ) (h a b : ℕ) :
    (p.heights h (max a b)).2 = max a (p.heights h b).2 := by
  induction p generalizing h b with
  | nil => rfl
  | cons i p ih => rw [heights_cons, heights_cons, max_assoc, ih]

/-- Code that leaves `n` values ends at height `n`, which is what it adds. -/
lemma Leaves.heights_eq {slots : ℕ} (h : Leaves slots p.reverse n) :
    (p.heights 0 0).1 = n ∧ p.effect = n := by
  generalize hq : p.reverse = q at h
  -- `Leaves` reads code from its last instruction, heights are counted from the first
  induction h generalizing p with
  | nil =>
    obtain rfl := List.reverse_eq_nil_iff.1 hq
    exact ⟨rfl, rfl⟩
  | @cons i is n hi hle _ ih =>
    obtain rfl : p = is.reverse ++ [i] := by rw [← List.reverse_cons, ← hq, List.reverse_reverse]
    obtain ⟨hheight, heffect⟩ := ih (List.reverse_reverse is)
    refine ⟨by rw [heights_concat, hheight], ?_⟩
    rw [effect_append, heffect, effect_cons, effect_nil, Instr.effect]
    omega

/-- The first instructions of code leave something as well. -/
lemma Leaves.take {slots : ℕ} (h : Leaves slots p.reverse n) (k : ℕ) :
    ∃ m, Leaves slots (p.take k).reverse m := by
  rw [← List.take_append_drop k p, List.reverse_append] at h
  exact h.of_append

/-- Every instruction finds the values that it takes, at the height that is counted. -/
lemma Leaves.pops_le {slots k : ℕ} (h : Leaves slots p.reverse n) (hi : p[k]? = some i) :
    i.pops ≤ (heights (p.take k) 0 0).1 := by
  obtain ⟨m, hm⟩ := Leaves.take h (k + 1)
  rw [List.take_add_one, hi, Option.toList_some, List.reverse_concat] at hm
  generalize hq : i :: (p.take k).reverse = q at hm
  cases hm with
  | nil => cases hq
  | cons _ hle hrest =>
    cases hq
    rwa [(Leaves.heights_eq hrest).1]

end Program

/-! ### Points of a run -/

namespace Machine

variable {step : ι → Machine σ → Except Error Unit × Machine σ} {m m' : Machine σ}
  {ev : Evaluator σ} {e : ExprId} {err : Error} {u : Unit}

/-- The machine at the points of a run: before each instruction that is come to, and at the end if
none fails. -/
def points (step : ι → Machine σ → Except Error Unit × Machine σ) :
    List ι → Machine σ → List (Machine σ)
  | [], m => [m]
  | i :: is, m => m :: match step i m with
    | (.ok _, m') => points step is m'
    | (.error _, _) => []

lemma points_cons_of_ok {i : ι} (is : List ι) (h : step i m = (.ok u, m')) :
    points step (i :: is) m = m :: points step is m' := by
  simp only [points, h]

lemma points_cons_of_error {i : ι} (is : List ι) (h : step i m = (.error err, m')) :
    points step (i :: is) m = [m] := by
  simp only [points, h]

/-- An instruction that does not fail has found what it takes, and leaves one value for it. -/
lemma length_of_exec_ok (h : exec ev e i m = (.ok u, m')) :
    i.pops ≤ m.stack.length ∧ m'.stack.length = m.stack.length - i.pops + 1 := by
  obtain ⟨s, w⟩ := m
  have hpush (r : Except Error Float) (h : push ⟨s, w⟩ r = (.ok u, m')) :
      0 ≤ s.length ∧ m'.stack.length = s.length - 0 + 1 := by
    cases r <;> cases h
    exact ⟨Nat.zero_le _, rfl⟩
  cases i with
  | const x => exact hpush (.ok x) h
  | var k => exact hpush _ h
  | neg =>
    rcases s with _ | ⟨a, s⟩ <;> cases h
    exact ⟨Nat.le_add_left 1 _, rfl⟩
  | binary o =>
    rcases s with _ | ⟨b, _ | ⟨a, s⟩⟩ <;> cases h
    exact ⟨Nat.le_add_left 2 _, rfl⟩
  | call t argc =>
    simp only [exec, call] at h
    split at h
    · cases h
    · rename_i hle
      split at h
      · cases h
        exact ⟨Nat.le_of_not_lt hle, by simp [Instr.pops]⟩
      · cases h

/-- An instruction that fails pushes nothing. -/
lemma length_of_exec_error (h : exec ev e i m = (.error err, m')) :
    m'.stack.length ≤ m.stack.length := by
  obtain ⟨s, w⟩ := m
  have hpush (r : Except Error Float) (h : push ⟨s, w⟩ r = (.error err, m')) :
      m'.stack.length ≤ s.length := by
    cases r <;> cases h
    exact Nat.le_refl _
  cases i with
  | const x => exact hpush (.ok x) h
  | var k => exact hpush _ h
  | neg =>
    rcases s with _ | ⟨a, s⟩ <;> cases h
    exact Nat.le_refl _
  | binary o =>
    rcases s with _ | ⟨b, _ | ⟨a, s⟩⟩ <;> cases h <;> exact Nat.zero_le _
  | call t argc =>
    simp only [exec, call] at h
    split at h
    · cases h
      exact Nat.le_refl _
    · split at h
      · cases h
      · cases h
        exact Nat.le_refl _

/-- At every point of a run the height is what the instructions so far have added. -/
lemma length_of_points {k : ℕ} (h : (points (exec ev e) p m)[k]? = some m') :
    m'.stack.length = (m.stack.length + Program.effect (p.take k) : ℤ) := by
  induction p generalizing m k with
  | nil =>
    obtain ⟨rfl, rfl⟩ : k = 0 ∧ m = m' := by
      rcases k with _ | k <;> simp_all [points]
    simp
  | cons i p ih =>
    rcases k with _ | k
    · cases h
      simp
    · rcases hs : exec ev e i m with ⟨err | _, m₁⟩
      · rw [points_cons_of_error p hs] at h
        cases h
      · rw [points_cons_of_ok p hs, List.getElem?_cons_succ] at h
        obtain ⟨hle, hlength⟩ := length_of_exec_ok hs
        have hrest := ih h
        rw [List.take_succ_cons, Program.effect_cons, Instr.effect]
        omega

/-- No point of a run is higher than the greatest height that is counted, nor is the stack that a
run leaves. -/
lemma length_le_heights (p : Program σ) (m : Machine σ) :
    (∀ m' ∈ points (exec ev e) p m,
      m'.stack.length ≤ (p.heights m.stack.length m.stack.length).2) ∧
    (runAll (exec ev e) p m).2.stack.length ≤ (p.heights m.stack.length m.stack.length).2 := by
  induction p generalizing m with
  | nil => simp [points, runAll]
  | cons i p ih =>
    rw [Program.heights_cons, Program.heights_max]
    rcases hs : exec ev e i m with ⟨err | _, m₁⟩
    · have hlength := length_of_exec_error hs
      rw [points_cons_of_error p hs, List.forall_mem_singleton]
      simp only [runAll, hs]
      omega
    · obtain ⟨hpoints, hlast⟩ := ih m₁
      rw [(length_of_exec_ok hs).2] at hpoints hlast
      rw [points_cons_of_ok p hs, List.forall_mem_cons]
      simp only [runAll, hs]
      refine ⟨⟨Nat.le_max_left _ _, fun m' hm' => ?_⟩, ?_⟩
      · exact Nat.le_trans (hpoints m' hm') (Nat.le_max_right _ _)
      · exact Nat.le_trans hlast (Nat.le_max_right _ _)

/-- A run that does not fail comes to the end, and on its way to the greatest height that is
counted. -/
lemma isGreatest_points (h : (runAll (exec ev e) p m).1 = .ok ()) :
    (points (exec ev e) p m).length = p.length + 1 ∧
    IsGreatest {n | n ∈ (points (exec ev e) p m).map (·.stack.length)}
      (p.heights m.stack.length m.stack.length).2 := by
  induction p generalizing m with
  | nil => exact ⟨rfl, by simp [points]⟩
  | cons i p ih =>
    rcases hs : exec ev e i m with ⟨err | _, m₁⟩
    · simp only [runAll, hs] at h
      cases h
    · simp only [runAll, hs] at h
      obtain ⟨hlength, hgreatest⟩ := ih h
      rw [points_cons_of_ok p hs, Program.heights_cons, Program.heights_max,
        ← (length_of_exec_ok hs).2]
      have hset : {n | n ∈ (m :: points (exec ev e) p m₁).map (·.stack.length)} =
          insert m.stack.length {n | n ∈ (points (exec ev e) p m₁).map (·.stack.length)} :=
        Set.ext fun n => List.mem_cons
      rw [hset, List.length_cons, hlength, List.length_cons]
      exact ⟨rfl, hgreatest.insert m.stack.length⟩

end Machine

namespace Program

/-- However a run ends, the stack that it leaves is no higher than the program is sized for. -/
lemma length_run_le (ev : Evaluator σ) (e : ExprId) (p : Program σ) (m : Machine σ) :
    (p.run ev e m).2.stack.length ≤ p.stackHeight := by
  rw [run, Machine.finish_snd]
  exact (Machine.length_le_heights p { m with stack := [] }).2

/-- The stack of a machine that runs the program is as high as the instructions so far say, and
never higher than the program is sized for. A run that does not fail comes to the end, and gets as
high as that. -/
structure Measured (p : Program σ) (ev : Evaluator σ) (e : ExprId) (w : Store σ) : Prop where
  height : ∀ k m, (Machine.points (Machine.exec ev e) p ⟨[], w⟩)[k]? = some m →
    (m.stack.length : ℤ) = effect (p.take k)
  bound : ∀ m ∈ Machine.points (Machine.exec ev e) p ⟨[], w⟩, m.stack.length ≤ p.stackHeight
  last : (p.run ev e ⟨[], w⟩).2.stack.length ≤ p.stackHeight
  greatest : ∀ x, (p.run ev e ⟨[], w⟩).1 = .ok x →
    (Machine.points (Machine.exec ev e) p ⟨[], w⟩).length = p.length + 1 ∧
    IsGreatest {n | n ∈ (Machine.points (Machine.exec ev e) p ⟨[], w⟩).map (·.stack.length)}
      p.stackHeight

lemma measured (p : Program σ) (ev : Evaluator σ) (e : ExprId) (w : Store σ) :
    p.Measured ev e w where
  height k m h := by simpa using Machine.length_of_points h
  bound := (Machine.length_le_heights p ⟨[], w⟩).1
  last := p.length_run_le ev e ⟨[], w⟩
  greatest x h := by
    have hok : (Machine.runAll (Machine.exec ev e) p ⟨[], w⟩).1 = .ok () := by
      unfold run at h
      rcases hr : Machine.runAll (Machine.exec ev e) p ⟨[], w⟩ with ⟨err | _, m⟩
      · simp only [hr] at h
        cases h
      · rfl
    exact Machine.isGreatest_points hok

end Program

end Formula
