import Csc457.Dine.Progress
import Mathlib.Algebra.BigOperators.Group.Finset.Piecewise

/-!
# A fork is on the table or in one hand

A philosopher holds a fork once it has waited for its semaphore and until it
posts it; which statements it has executed is told by what is left of its code.
The semaphore of a fork and the philosophers that hold it are one at every
moment, and a philosopher that is eating holds both of its forks.
-/

set_option autoImplicit false

namespace Csc457.Dine

open Function
open Csc457.Lib.LockOrder Csc457.Lib.Transition
open scoped BigOperators

variable {N : Nat}

theorem rightOf_ne (two_le : 2 ≤ N) (i : Fin N) : rightOf i ≠ i := by
  intro same
  have value : (rightOf i : Nat) = i := by rw [same]
  rcases rightOf_cases i with ⟨_, right⟩ | ⟨last, right⟩
  · omega
  · omega

theorem leftOf_cases (i : Fin N) :
    (0 < (i : Nat) ∧ (leftOf i : Nat) + 1 = i) ∨
    ((i : Nat) = 0 ∧ (leftOf i : Nat) + 1 = N) := by
  have bound := i.isLt
  change (0 < (i : Nat) ∧ (i + N - 1) % N + 1 = i) ∨ ((i : Nat) = 0 ∧ (i + N - 1) % N + 1 = N)
  rcases Nat.eq_zero_or_pos i with zero | pos
  · rw [zero, Nat.zero_add, Nat.mod_eq_of_lt (by omega)]
    omega
  · have shift : (i : Nat) + N - 1 = i - 1 + N := by omega
    rw [shift, Nat.add_mod_right, Nat.mod_eq_of_lt (by omega)]
    omega

@[simp] theorem rightOf_leftOf (i : Fin N) : rightOf (leftOf i) = i := by
  apply Fin.ext
  rcases rightOf_cases (leftOf i) with ⟨_, right⟩ | ⟨_, right⟩ <;>
    rcases leftOf_cases i with ⟨_, left⟩ | ⟨_, left⟩ <;> omega

@[simp] theorem leftOf_rightOf (i : Fin N) : leftOf (rightOf i) = i := by
  apply Fin.ext
  rcases leftOf_cases (rightOf i) with ⟨_, left⟩ | ⟨_, left⟩ <;>
    rcases rightOf_cases i with ⟨_, right⟩ | ⟨_, right⟩ <;> omega

theorem forkOn_inj (two_le : 2 ≤ N) {i : Fin N} {side side' : Side} :
    forkOn i side = forkOn i side' ↔ side = side' := by
  have apart := rightOf_ne two_le i
  cases side <;> cases side' <;> simp [forkOn, apart, apart.symm]

/-! ## Forks held -/

/-- The statements philosopher `i` has executed. -/
def executed (cycles : Int) (s : System N) (i : Fin N) : Code N :=
  (dine cycles i).take ((dine cycles i).length - (s.code i).length)

def Holding (cycles : Int) (s : System N) (i f : Fin N) : Prop :=
  taken (.fork f) false (executed cycles s i) = true

instance (cycles : Int) (s : System N) (i f : Fin N) : Decidable (Holding cycles s i f) :=
  inferInstanceAs (Decidable (_ = true))

/-- The beginning of a cycle, up to the Eat update. -/
def pickUp (i : Fin N) : Code N :=
  if (i : Nat) % 2 = 0 then
    List.flatten [
      updatePhilosopher i .change 0 0,
      [.wait (.fork (forkOn i .right))],
      updatePhilosopher i .change 0 1,
      [.wait (.fork (forkOn i .left))],
      updatePhilosopher i .change 1 1]
  else
    List.flatten [
      updatePhilosopher i .change 0 0,
      [.wait (.fork (forkOn i .left))],
      updatePhilosopher i .change 1 0,
      [.wait (.fork (forkOn i .right))],
      updatePhilosopher i .change 1 1]

/-- The end of a cycle, from the update that puts the forks down. -/
def putDown (i : Fin N) : Code N :=
  if (i : Nat) % 2 = 0 then
    List.flatten [
      updatePhilosopher i .change 1 1,
      [.post (.fork (forkOn i .right))],
      updatePhilosopher i .change 0 1,
      [.post (.fork (forkOn i .left))],
      updatePhilosopher i .change 0 0,
      updatePhilosopher i .think 0 0,
      [.act .dawdle]]
  else
    List.flatten [
      updatePhilosopher i .change 1 1,
      [.post (.fork (forkOn i .left))],
      updatePhilosopher i .change 0 1,
      [.post (.fork (forkOn i .right))],
      updatePhilosopher i .change 0 0,
      updatePhilosopher i .think 0 0,
      [.act .dawdle]]

theorem cycle_eq (i : Fin N) :
    cycle i = pickUp i ++ (updatePhilosopher i .eat 1 1 ++ .act .dawdle :: putDown i) := by
  unfold cycle pickUp putDown
  split
  · simp [evenCycle]
  · simp [oddCycle]

def rounds (i : Fin N) (count : Nat) : Code N := (List.replicate count (cycle i)).flatten

/-- The Eat update is over and the put-down update has not begun. -/
def Eating (s : System N) (i : Fin N) : Prop :=
  ∃ left, s.code i = .act .dawdle :: (putDown i ++ rounds i left) ∨
    s.code i = putDown i ++ rounds i left

theorem Eating.congr {s s' : System N} {i : Fin N} (eating : Eating s i)
    (same : s'.code i = s.code i) : Eating s' i := by
  unfold Eating
  rw [same]
  exact eating

/-- At any point of its code a philosopher holds the forks it is still to post. -/
theorem holding_iff (two_le : 2 ≤ N) {cycles : Int} {s : System N}
    (reached : Reach (· = start N cycles) (Step effect) s) (i f : Fin N) :
    Holding cycles s i f ↔ holds (.fork f) (s.code i) = true := by
  obtain ⟨done, whole⟩ := code_suffix reached i
  have own : done ++ s.code i = dine cycles i := whole
  have count : (dine cycles i).length - (s.code i).length = done.length := by
    rw [← own, List.length_append]
    omega
  have past : executed cycles s i = done := by
    rw [executed, count, ← own, List.take_left']
    rfl
  have orderly : Orderly rank (done ++ s.code i) := own ▸ (dine_orderly two_le cycles i).1
  have free : holds (.fork f) (done ++ s.code i) = false := by
    rw [own]
    exact (dine_orderly two_le cycles i).2 (.fork f)
  have same := orderly.taken_eq (.fork f)
  rw [free] at same
  rw [Holding, past, same]

theorem Eating.holds {s : System N} {i : Fin N} (eating : Eating s i) (side : Side) :
    holds (.fork (forkOn i side)) (s.code i) = true := by
  obtain ⟨left, code | code⟩ := eating
  all_goals
    rw [code]
    unfold putDown
    split <;> cases side <;> simp

section Alone
variable {sem : Lock N → Nat} {i : Fin N} {rest : Code N}

/-- Both display locks are free. -/
def Quiet (sem : Lock N → Nat) : Prop := sem .updatePhilLock = 1 ∧ sem .printStatusLock = 1

theorem alone_print (one : sem .printStatusLock = 1) :
    alone sem (printStatus N ++ rest) = alone sem rest := by
  have whole : alone sem (.wait .printStatusLock :: ((printActs N).map .act ++
      .post .printStatusLock :: rest)) = alone sem rest :=
    alone_section one fun after => alone_acts _ _ after
  simpa [printStatus] using whole

theorem alone_update (quiet : Quiet sem) (state : Status) (leftFork rightFork : Int) :
    alone sem (updatePhilosopher i state leftFork rightFork ++ rest) = alone sem rest := by
  have whole : alone sem (.wait .updatePhilLock ::
      (((updateActs i state leftFork rightFork).map .act ++ printStatus N) ++
        .post .updatePhilLock :: rest)) = alone sem rest := by
    apply alone_section quiet.1
    intro after
    rw [List.append_assoc, alone_acts, alone_print (by simpa using quiet.2)]
  simpa [updatePhilosopher] using whole

theorem Quiet.fork (quiet : Quiet sem) (f : Fin N) (value : Nat) :
    Quiet (update sem (.fork f) value) :=
  ⟨by simpa using quiet.1, by simpa using quiet.2⟩

theorem alone_pickUp (two_le : 2 ≤ N) (quiet : Quiet sem)
    (free : ∀ side, sem (.fork (forkOn i side)) = 1) :
    alone sem (pickUp i ++ updatePhilosopher i .eat 1 1) =
      some (update (update sem (.fork (forkOn i .left)) 0) (.fork (forkOn i .right)) 0) := by
  have apart : (.fork (forkOn i .right) : Lock N) ≠ .fork (forkOn i .left) := by
    intro same
    exact rightOf_ne two_le i (Lock.fork.inj same)
  have eat : ∀ sem' : Lock N → Nat, Quiet sem' →
      alone sem' (updatePhilosopher i .eat 1 1) = some sem' := by
    intro sem' quiet'
    have whole : alone sem' (updatePhilosopher i .eat 1 1 ++ []) = alone sem' [] :=
      alone_update quiet' .eat 1 1
    simpa [alone] using whole
  unfold pickUp
  split
  all_goals
    simp only [List.flatten_cons, List.flatten_nil, List.append_nil, List.append_assoc]
    rw [alone_update quiet]
    simp only [List.cons_append, List.nil_append, alone, free, zero_lt_one, if_true, Nat.sub_self]
    rw [alone_update (quiet.fork _ 0)]
  · simp only [alone, update_of_ne apart.symm, free, zero_lt_one, if_true, Nat.sub_self]
    rw [alone_update ((quiet.fork _ 0).fork _ 0), eat _ ((quiet.fork _ 0).fork _ 0),
      update_comm apart]
  · simp only [alone, update_of_ne apart, free, zero_lt_one, if_true, Nat.sub_self]
    rw [alone_update ((quiet.fork _ 0).fork _ 0), eat _ ((quiet.fork _ 0).fork _ 0)]

theorem eats_alone (two_le : 2 ≤ N) {s : System N} (quiet : Quiet s.sem)
    (free : ∀ side, s.sem (.fork (forkOn i side)) = 1)
    (code : s.code i = pickUp i ++ (updatePhilosopher i .eat 1 1 ++ rest)) :
    ∃ run s', Exec (Step effect) s run s' ∧
      s'.sem = update (update s.sem (.fork (forkOn i .left)) 0) (.fork (forkOn i .right)) 0 ∧
      s'.code = update s.code i rest ∧
      s'.memory = perform effect (acts (pickUp i ++ updatePhilosopher i .eat 1 1)) s.memory ∧
      ∀ x ∈ run, x.2 = i ∧ ∀ u, u ≠ i → x.1.code u = s.code u := by
  rw [← List.append_assoc] at code
  exact run_alone effect code (alone_pickUp two_le quiet free)

theorem start_code (cycles : Int) (some_cycles : 0 < cycles) (i : Fin N) :
    (start N cycles).code i = pickUp i ++ (updatePhilosopher i .eat 1 1 ++
      .act .dawdle :: (putDown i ++ rounds i (cycles.toNat - 1))) := by
  have count : cycles.toNat = cycles.toNat - 1 + 1 := by omega
  change dine cycles i = _
  have first : dine cycles i = cycle i ++ rounds i (cycles.toNat - 1) := by
    rw [dine, count, List.replicate_succ, List.flatten_cons]
    rfl
  rw [first, cycle_eq]
  simp

end Alone

theorem forks_conserved (two_le : 2 ≤ N) (cycles : Int) (s : System N)
    (reached : Reach (· = start N cycles) (Step effect) s) :
    (∀ f, s.sem (.fork f) + (Finset.univ.filter fun i => Holding cycles s i f).card = 1) ∧
    (∀ i, Eating s i →
      Holding cycles s i (forkOn i .left) ∧ Holding cycles s i (forkOn i .right)) ∧
    ∀ i, ¬ (Eating s i ∧ Eating s (rightOf i)) := by
  have disciplined := reached_disciplined two_le reached
  have held := holding_iff two_le reached
  refine ⟨?_, ?_, ?_⟩
  · intro f
    have count : (Finset.univ.filter fun i => Holding cycles s i f).card =
        holders (.fork f) s.code := by
      rw [Finset.card_filter, holders]
      apply Finset.sum_congr rfl
      intro i _
      rw [if_congr (held i f) rfl rfl]
      cases holds (.fork f) (s.code i) <;> rfl
    rw [count]
    exact disciplined.balanced (.fork f)
  · intro i eating
    exact ⟨(held i _).mpr (eating.holds .left), (held i _).mpr (eating.holds .right)⟩
  · rintro i ⟨own, neighbour⟩
    -- the fork between them is the right one of the first and the left one of the second
    have same : i = rightOf i :=
      disciplined.one_holder (own.holds .right) (neighbour.holds .left)
    exact rightOf_ne two_le i same.symm

theorem forks_conserved_firstMeal :
    ∃ s : System 5, Reach (· = start 5 1) (Step effect) s ∧ Holding 1 s 0 0 ∧ Holding 1 s 0 1 := by
  obtain ⟨run, s, exec, _, code, _⟩ := eats_alone (by decide) ⟨rfl, rfl⟩ (fun _ => rfl)
    (start_code (N := 5) 1 (by decide) 0)
  have reached : Reach (· = start 5 1) (Step effect) s := Reach.exec (.init rfl) exec
  refine ⟨s, reached, (forks_conserved (by decide) 1 s reached).2.1 0 ⟨0, .inl ?_⟩⟩
  rw [code, update_self]
  rfl

end Csc457.Dine
