import Csc457.Dine.Forks
import Mathlib.Algebra.Group.Action.Defs
import Mathlib.Tactic.Ring

/-!
# What a run has printed and eaten

Each of the eight updates of a cycle prints one line, and in each cycle a philosopher eats once.
So the lines and the meals of a run are known from what is left of the code, whatever the order
in which the threads took turns.
-/

set_option autoImplicit false

namespace Csc457.Dine

open Function
open Csc457.Lib.LockOrder Csc457.Lib.Transition
open scoped BigOperators

variable {N : Nat} {i j : Fin N} {state : Status} {leftFork rightFork : Int}

theorem count_acts (as : List (Act N)) (a : Act N) :
    List.count (.act a) (as.map .act : Code N) = as.count a :=
  List.count_map_of_injective as _ (fun _ _ same => Instr.act.inj same) a

theorem printActs_newline : (printActs N).count .newline = 1 := by
  unfold printActs
  rw [List.count_append, List.count_append]
  have draws : List.count .newline
      ((List.finRange N).flatMap fun i => [Act.represent .left i, .represent .right i]) = 0 :=
    List.count_eq_zero.mpr (by simp)
  have prints : List.count .newline ((List.finRange N).map Act.printf) = 0 :=
    List.count_eq_zero.mpr (by simp)
  rw [draws, prints]
  rfl

theorem printActs_setState : (printActs N).count (.setState j state) = 0 :=
  List.count_eq_zero.mpr (by simp [printActs])

theorem updateActs_newline : (updateActs i state leftFork rightFork).count .newline = 0 := by
  refine List.count_eq_zero.mpr ?_
  unfold updateActs
  split_ifs <;> simp

theorem updateActs_eat : (updateActs i state leftFork rightFork).count (.setState j .eat) =
    if i = j ∧ state = .eat then 1 else 0 := by
  unfold updateActs
  split_ifs <;> simp_all

theorem update_count (a : Act N) :
    List.count (.act a) (updatePhilosopher i state leftFork rightFork) =
      (updateActs i state leftFork rightFork).count a + (printActs N).count a := by
  unfold updatePhilosopher printStatus
  simp [List.count_append, count_acts]

theorem cycle_newline (i : Fin N) : List.count (.act .newline) (cycle i) = 8 := by
  unfold cycle evenCycle oddCycle
  split <;> simp [update_count, updateActs_newline, printActs_newline]

theorem cycle_eat (i j : Fin N) :
    List.count (.act (.setState j .eat)) (cycle i) = if i = j then 1 else 0 := by
  unfold cycle evenCycle oddCycle
  split <;> simp [update_count, updateActs_eat, printActs_setState]

theorem dine_count (cycles : Int) (i : Fin N) (instr : Instr (Lock N) (Act N)) :
    List.count instr (dine cycles i) = cycles.toNat * List.count instr (cycle i) := by
  unfold dine
  rw [List.count_flatten, List.map_replicate, List.sum_replicate, smul_eq_mul]

theorem printed_length {s s' : System N} {run : List (System N × Fin N)}
    (exec : Exec (Step effect) s run s') :
    s'.memory.printed.length = s.memory.printed.length + executions (.act .newline) run := by
  induction exec with
  | nil => rfl
  | @cons s t u i run next _ ih =>
      rw [ih, executions, executions, List.countP_cons]
      have here : t.memory.printed.length = s.memory.printed.length +
          if (s.code i).head? = some (.act .newline) then 1 else 0 := by
        obtain ⟨r, rest, code, _, rfl⟩ | ⟨r, rest, code, rfl⟩ | ⟨a, rest, code, rfl⟩ := next.cases
        · simp [code]
        · simp [code]
        · cases a <;> simp [code, effect, Memory.modify]
      rw [here]
      simp only [decide_eq_true_eq]
      omega

/-- The lines that are printed and those still to print are eight for each cycle of each
philosopher, and its meals are one for each of its cycles. -/
theorem run_accounts (two_le : 2 ≤ N) (cycles : Int) (run : List (System N × Fin N))
    (s : System N) (exec : Exec (Step effect) (start N cycles) run s) :
    s.memory.printed.length + ∑ i, List.count (.act .newline) (s.code i) = 8 * N * cycles.toNat ∧
    (∀ i, executions (.act (.setState i .eat)) run +
      ∑ j, List.count (.act (.setState i .eat)) (s.code j) = cycles.toNat) ∧
    ((∀ i s', ¬ Step effect s i s') → s.memory.printed.length = 8 * N * cycles.toNat ∧
      ∀ i, executions (.act (.setState i .eat)) run = cycles.toNat) := by
  have lines : s.memory.printed.length + ∑ i, List.count (.act .newline) (s.code i) =
      8 * N * cycles.toNat := by
    have total := run_count exec (.act .newline)
    have printed := printed_length exec
    simp only [start, dine_count, cycle_newline, Finset.sum_const, Finset.card_univ,
      Fintype.card_fin, smul_eq_mul] at total
    rw [printed]
    simp only [start, List.length_nil]
    rw [Nat.zero_add, total]
    ring
  have meals : ∀ i, executions (.act (.setState i .eat)) run +
      ∑ j, List.count (.act (.setState i .eat)) (s.code j) = cycles.toNat := by
    intro i
    rw [run_count exec (.act (.setState i .eat))]
    simp [start, dine_count, cycle_eat]
  refine ⟨lines, meals, fun stuck => ?_⟩
  have reached : Reach (· = start N cycles) (Step effect) s := Reach.exec (.init rfl) exec
  have done : ∀ j, s.code j = [] := by
    intro j
    by_contra unfinished
    obtain ⟨t, s', next⟩ := (reached_disciplined two_le reached).progress unfinished
    exact stuck t s' next
  simp only [done, List.count_nil, Finset.sum_const_zero, Nat.add_zero] at lines meals
  exact ⟨lines, meals⟩

theorem run_accounts_firstMeal : ∃ run s, Exec (Step effect) (start 5 1) run s ∧
    s.memory.printed.length + ∑ i, List.count (.act .newline) (s.code i) = 40 ∧
    ∀ i, executions (.act (.setState i .eat)) run +
      ∑ j, List.count (.act (.setState i .eat)) (s.code j) = 1 := by
  obtain ⟨run, s, exec, _⟩ := eats_alone (by decide) ⟨rfl, rfl⟩ (fun _ => rfl)
    (start_code (N := 5) 1 (by decide) 0)
  obtain ⟨lines, meals, _⟩ := run_accounts (by decide) 1 run s exec
  exact ⟨run, s, exec, lines, meals⟩

end Csc457.Dine
