import Csc457.Dine.Model

/-!
# The philosophers all finish

The order of the locks: the forks with an odd number first, then fork 0, then
the other forks, then update_phil_lock and print_status_lock.  An even
philosopher takes its right fork first and an odd one its left, so that the
first fork is odd; only the last philosopher of an odd table starts with fork 0,
which is why fork 0 ranks below the other even ones.

A philosopher's own stores end each cycle with both of its flags at 0, and all
that its neighbours ever do to them is to clear them.
-/

set_option autoImplicit false

namespace Csc457.Dine

open Function
open Csc457.Lib.LockOrder Csc457.Lib.Transition

variable {N : Nat}

def rank : Lock N → Nat
  | .fork f => if (f : Nat) % 2 = 1 then 0 else if (f : Nat) = 0 then 1 else 2
  | .updatePhilLock => 3
  | .printStatusLock => 4

theorem rank_odd {f : Fin N} (odd : (f : Nat) % 2 = 1) : rank (.fork f) = 0 := if_pos odd

theorem rank_zero {f : Fin N} (zero : (f : Nat) = 0) : rank (.fork f) = 1 := by
  unfold rank
  simp [zero]

theorem rank_even {f : Fin N} (even : (f : Nat) % 2 = 0) (pos : (f : Nat) ≠ 0) :
    rank (.fork f) = 2 := by
  unfold rank
  simp [even, pos]

theorem rank_fork_lt (f : Fin N) : rank (.fork f) < 3 := by
  rcases Nat.mod_two_eq_zero_or_one f with even | odd
  · by_cases zero : (f : Nat) = 0
    · simp [rank_zero zero]
    · simp [rank_even even zero]
  · simp [rank_odd odd]

theorem rank_le_print (q : Lock N) (other : q ≠ .printStatusLock) : rank q < 4 := by
  cases q with
  | fork f =>
      have below := rank_fork_lt f
      omega
  | updatePhilLock => exact Nat.lt_succ_self 3
  | printStatusLock => exact absurd rfl other

@[simp] theorem holds_fork_update (f i : Fin N) (state : Status) (leftFork rightFork : Int)
    (rest : Code N) :
    holds (.fork f) (updatePhilosopher i state leftFork rightFork ++ rest) =
      holds (.fork f) rest := by
  simp [updatePhilosopher, printStatus]

@[simp] theorem holds_update_update (i : Fin N) (state : Status) (leftFork rightFork : Int)
    (rest : Code N) :
    holds .updatePhilLock (updatePhilosopher i state leftFork rightFork ++ rest) = false := by
  simp [updatePhilosopher]

@[simp] theorem holds_print_update (i : Fin N) (state : Status) (leftFork rightFork : Int)
    (rest : Code N) :
    holds .printStatusLock (updatePhilosopher i state leftFork rightFork ++ rest) = false := by
  simp [updatePhilosopher, printStatus]

@[simp] theorem orderly_update (i : Fin N) (state : Status) (leftFork rightFork : Int)
    (rest : Code N) :
    Orderly rank (updatePhilosopher i state leftFork rightFork ++ rest) ↔
      holds .updatePhilLock rest = false ∧ holds .printStatusLock rest = false ∧
        Orderly rank rest := by
  have aboveForks : ∀ q : Lock N, q ≠ .updatePhilLock → q ≠ .printStatusLock → rank q < 3 := by
    intro q notUpdate notPrint
    cases q with
    | fork f => exact rank_fork_lt f
    | updatePhilLock => exact absurd rfl notUpdate
    | printStatusLock => exact absurd rfl notPrint
  simp only [updatePhilosopher, printStatus, List.cons_append, List.append_assoc,
    List.nil_append]
  constructor
  · intro orderly
    obtain ⟨_, _, printing⟩ := orderly
    rw [orderly_acts] at printing
    obtain ⟨_, _, posting⟩ := printing
    rw [orderly_acts] at posting
    obtain ⟨noPrint, noUpdate, after⟩ := posting
    exact ⟨noUpdate, by simpa using noPrint, after⟩
  · rintro ⟨noUpdate, noPrint, after⟩
    refine ⟨by simp, ?_, ?_⟩
    · intro q notUpdate held
      apply aboveForks q notUpdate
      rintro rfl
      simp at held
    · rw [orderly_acts]
      refine ⟨by simp, fun q notPrint _ => rank_le_print q notPrint, ?_⟩
      rw [orderly_acts]
      exact ⟨by simpa using noPrint, noUpdate, after⟩

theorem rightOf_cases (i : Fin N) :
    ((i : Nat) + 1 < N ∧ (rightOf i : Nat) = i + 1) ∨
    ((i : Nat) + 1 = N ∧ (rightOf i : Nat) = 0) := by
  have bound := i.isLt
  rcases Nat.lt_or_ge (i + 1) N with inside | last
  · exact .inl ⟨inside, Nat.mod_eq_of_lt inside⟩
  · have wrap : (i : Nat) + 1 = N := by omega
    refine .inr ⟨wrap, ?_⟩
    change (i + 1) % N = 0
    rw [wrap, Nat.mod_self]

theorem even_order (two_le : 2 ≤ N) {i : Fin N} (even : (i : Nat) % 2 = 0) :
    rank (.fork (forkOn i .right)) < rank (.fork (forkOn i .left)) := by
  change rank (.fork (rightOf i)) < rank (.fork i)
  rcases rightOf_cases i with ⟨_, right⟩ | ⟨last, right⟩
  · rw [rank_odd (f := rightOf i) (by omega)]
    by_cases zero : (i : Nat) = 0
    · simp [rank_zero zero]
    · simp [rank_even even zero]
  · -- the last philosopher of an odd table starts with fork 0
    rw [rank_zero right, rank_even even (by omega)]
    omega

theorem odd_order {i : Fin N} (odd : (i : Nat) % 2 = 1) :
    rank (.fork (forkOn i .left)) < rank (.fork (forkOn i .right)) := by
  change rank (.fork i) < rank (.fork (rightOf i))
  rw [rank_odd odd]
  rcases rightOf_cases i with ⟨_, right⟩ | ⟨_, right⟩
  · simp [rank_even (f := rightOf i) (by omega) (by omega)]
  · simp [rank_zero right]

theorem forall_lock {P : Lock N → Prop} :
    (∀ q, P q) ↔ (∀ f, P (.fork f)) ∧ P .updatePhilLock ∧ P .printStatusLock := by
  constructor
  · intro all
    exact ⟨fun f => all _, all _, all _⟩
  · rintro ⟨forks, update, print⟩ q
    cases q with
    | fork f => exact forks f
    | updatePhilLock => exact update
    | printStatusLock => exact print

/-- What a wait for the first fork and a wait for the second ask of the forks
held there: none is held at the first, and only the first at the second. -/
theorem forks_in_order {first second : Fin N}
    (order : rank (.fork first) < rank (.fork second)) :
    (∀ f, ¬ f = first → ¬ second = f → first = f ∨ second = f →
      rank (.fork f) < rank (.fork first)) ∧
    (∀ f, ¬ f = second → first = f ∨ second = f →
      rank (.fork f) < rank (.fork second)) := by
  refine ⟨?_, ?_⟩
  · rintro f notFirst notSecond (isFirst | isSecond)
    · exact absurd isFirst.symm notFirst
    · exact absurd isSecond notSecond
  · rintro f notSecond (isFirst | isSecond)
    · rw [← isFirst]
      exact order
    · exact absurd isSecond.symm notSecond

theorem evenCycle_orderly (two_le : 2 ≤ N) {i : Fin N} (even : (i : Nat) % 2 = 0) :
    Orderly rank (evenCycle i) := by
  have order := even_order two_le even
  have distinct : ¬ forkOn i .left = forkOn i .right := by
    intro same
    rw [same] at order
    exact lt_irrefl _ order
  simpa [evenCycle, distinct, forall_lock] using forks_in_order order

theorem oddCycle_orderly {i : Fin N} (odd : (i : Nat) % 2 = 1) :
    Orderly rank (oddCycle i) := by
  have order := odd_order odd
  have distinct : ¬ forkOn i .right = forkOn i .left := by
    intro same
    rw [same] at order
    exact lt_irrefl _ order
  simpa [oddCycle, distinct, forall_lock] using forks_in_order order

theorem evenCycle_free (i : Fin N) : FreeHanded (evenCycle i) := by
  rw [FreeHanded, forall_lock]
  refine ⟨fun f => ?_, by simp [evenCycle], by simp [evenCycle]⟩
  by_cases first : forkOn i .right = f
  · simp [evenCycle, first]
  · by_cases second : forkOn i .left = f <;> simp [evenCycle, first, second]

theorem oddCycle_free (i : Fin N) : FreeHanded (oddCycle i) := by
  rw [FreeHanded, forall_lock]
  refine ⟨fun f => ?_, by simp [oddCycle], by simp [oddCycle]⟩
  by_cases first : forkOn i .left = f
  · simp [oddCycle, first]
  · by_cases second : forkOn i .right = f <;> simp [oddCycle, first, second]

theorem dine_orderly (two_le : 2 ≤ N) (cycles : Int) (i : Fin N) :
    Orderly rank (dine cycles i) ∧ FreeHanded (dine cycles i) := by
  unfold dine cycle
  split
  · next even => exact orderly_repeat (evenCycle_orderly two_le even) (evenCycle_free i) _
  · next odd =>
      have odd' : (i : Nat) % 2 = 1 := by omega
      exact orderly_repeat (oddCycle_orderly odd') (oddCycle_free i) _

theorem start_disciplined (two_le : 2 ≤ N) (cycles : Int) :
    Disciplined rank (start N cycles) :=
  .start (fun i => (dine_orderly two_le cycles i).1) (fun i => (dine_orderly two_le cycles i).2)
    fun _ => rfl

theorem reached_disciplined (two_le : 2 ≤ N) {cycles : Int} {s : System N}
    (reached : Reach (· = start N cycles) (Step effect) s) : Disciplined rank s := by
  refine reached.invariant ?_ fun s t s' before next => before.step next
  rintro s rfl
  exact start_disciplined two_le cycles

/-! ## The displayed flags -/

/-- The flag of philosopher `i` after the act, from `value`. -/
def stored (side : Side) (i : Fin N) : Act N → Int → Int
  | .setFlag s j new, value => if s = side ∧ j = i then new else value
  | _, value => value

theorem flag_effect (side : Side) (i : Fin N) (a : Act N) (m : Memory N) :
    ((effect a m).philosophers i).flag side = stored side i a ((m.philosophers i).flag side) := by
  cases a with
  | setFlag s j new =>
      by_cases same : i = j
      · subst same
        cases s <;> cases side <;>
          simp [effect, Memory.modify, stored, Philosopher.setFlag, Philosopher.flag]
      · simp [effect, Memory.modify, stored, same, Ne.symm same]
  | setState j state | represent s j =>
      by_cases same : i = j
      · subst same
        cases side <;>
          simp [effect, Memory.modify, stored, Philosopher.flag, updateForkRepresentation]
      · simp [effect, Memory.modify, stored, same]
  | printf j | newline | dawdle => rfl

/-- The flag of philosopher `i` after its own code, from `value`. -/
def settle (side : Side) (i : Fin N) : Code N → Int → Int
  | [], value => value
  | .act a :: rest, value => settle side i rest (stored side i a value)
  | .wait _ :: rest, value => settle side i rest value
  | .post _ :: rest, value => settle side i rest value

/-- A store to a flag of another philosopher clears it. -/
def ClearsOthers (i : Fin N) (code : Code N) : Prop :=
  ∀ side j value, .act (.setFlag side j value) ∈ code → j ≠ i → value = 0

theorem settle_append (side : Side) (i : Fin N) (first second : Code N) (value : Int) :
    settle side i (first ++ second) value = settle side i second (settle side i first value) := by
  induction first generalizing value with
  | nil => rfl
  | cons instr first ih => cases instr <;> exact ih _

theorem settle_zero (side : Side) (i : Fin N) (code : Code N) (value : Int)
    (settled : settle side i code value = 0) : settle side i code 0 = 0 := by
  induction code generalizing value with
  | nil => rfl
  | cons instr code ih =>
      cases instr with
      | wait r | post r => exact ih _ settled
      | act a =>
          have either : stored side i a 0 = stored side i a value ∨ stored side i a 0 = 0 := by
            cases a with
            | setFlag s j new =>
                by_cases own : s = side ∧ j = i
                · exact .inl (by simp [stored, own])
                · exact .inr (by simp [stored, own])
            | _ => exact .inr rfl
          rcases either with same | zero
          · change settle side i code (stored side i a 0) = 0
            rw [same]
            exact settled
          · change settle side i code (stored side i a 0) = 0
            rw [zero]
            exact ih _ settled

theorem settle_acts (side : Side) (i : Fin N) (acts : List (Act N)) (rest : Code N) (value : Int) :
    settle side i (acts.map .act ++ rest) value =
      settle side i rest (acts.foldl (fun v a => stored side i a v) value) := by
  induction acts generalizing value with
  | nil => rfl
  | cons a acts ih => exact ih _

theorem printActs_quiet (side : Side) (i : Fin N) (value : Int) :
    (printActs N).foldl (fun v a => stored side i a v) value = value := by
  have quiet : ∀ a ∈ printActs N, stored side i a value = value := by
    intro a member
    simp only [printActs, List.mem_append, List.mem_flatMap, List.mem_map, List.mem_cons,
      List.not_mem_nil, or_false] at member
    obtain ⟨j, _, rfl | rfl⟩ | ⟨j, _, rfl⟩ | rfl := member <;> rfl
  generalize printActs N = acts at quiet
  induction acts with
  | nil => rfl
  | cons a acts ih =>
      rw [List.foldl_cons, quiet a (by simp)]
      exact ih fun b member => quiet b (by simp [member])

@[simp] theorem settle_update (side : Side) (i : Fin N) (state : Status)
    (leftFork rightFork : Int) (rest : Code N) (value : Int) :
    settle side i (updatePhilosopher i state leftFork rightFork ++ rest) value =
      settle side i rest (match side with | .left => leftFork | .right => rightFork) := by
  simp only [updatePhilosopher, printStatus, List.cons_append, List.append_assoc, settle,
    settle_acts, printActs_quiet, List.nil_append]
  cases side <;> simp [updateActs, stored]

theorem clears_update (i : Fin N) (state : Status) (leftFork rightFork : Int) :
    ClearsOthers i (updatePhilosopher i state leftFork rightFork) := by
  intro side j value member other
  simp only [updatePhilosopher, printStatus, printActs, updateActs] at member
  simp at member
  obtain ⟨_, _, _, zero⟩ | ⟨_, _, _, zero⟩ | ⟨_, own, _⟩ | ⟨_, own, _⟩ := member
  · exact zero
  · exact zero
  · exact absurd own other
  · exact absurd own other

theorem settle_cycle (side : Side) (i : Fin N) (value : Int) :
    settle side i (cycle i) value = 0 := by
  unfold cycle
  split
  · cases side <;> simp [evenCycle, settle, stored]
  · cases side <;> simp [oddCycle, settle, stored]

theorem clears_append (i : Fin N) (first second : Code N) :
    ClearsOthers i (first ++ second) ↔ ClearsOthers i first ∧ ClearsOthers i second := by
  constructor
  · intro clears
    exact ⟨fun side j value member => clears side j value (List.mem_append_left _ member),
      fun side j value member => clears side j value (List.mem_append_right _ member)⟩
  · rintro ⟨before, after⟩ side j value member
    rcases List.mem_append.mp member with member | member
    · exact before side j value member
    · exact after side j value member

theorem clears_cons (i : Fin N) {instr : Instr (Lock N) (Act N)} {rest : Code N}
    (noStore : ∀ side j value, instr ≠ .act (.setFlag side j value)) :
    ClearsOthers i (instr :: rest) ↔ ClearsOthers i rest := by
  constructor
  · intro clears side j value member
    exact clears side j value (List.mem_cons_of_mem _ member)
  · intro clears side j value member
    rcases List.mem_cons.mp member with same | member
    · exact absurd same.symm (noStore side j value)
    · exact clears side j value member

theorem clears_nil (i : Fin N) : ClearsOthers i ([] : Code N) := by
  intro side j value member
  cases member

theorem clears_cycle (i : Fin N) : ClearsOthers i (cycle i) := by
  unfold cycle
  split
  · simp [evenCycle, clears_append, clears_update, clears_cons, clears_nil]
  · simp [oddCycle, clears_append, clears_update, clears_cons, clears_nil]

theorem dine_settles (side : Side) (cycles : Int) (i : Fin N) :
    settle side i (dine cycles i) 0 = 0 := by
  unfold dine
  induction cycles.toNat with
  | zero => rfl
  | succ count ih =>
      rw [List.replicate_succ, List.flatten_cons, settle_append, settle_cycle]
      exact ih

theorem dine_clears (cycles : Int) (i : Fin N) : ClearsOthers i (dine cycles i) := by
  intro side j value member other
  obtain ⟨block, isCycle, member⟩ := List.mem_flatten.mp member
  rw [List.eq_of_mem_replicate isCycle] at member
  exact clears_cycle i side j value member other

/-- The thread of each philosopher leaves its own flags at 0 and those of the
others at 0 or as they were. -/
structure Settled (s : System N) : Prop where
  clears : ∀ i, ClearsOthers i (s.code i)
  settles : ∀ i side, settle side i (s.code i) ((s.memory.philosophers i).flag side) = 0

theorem start_settled (N : Nat) (cycles : Int) : Settled (start N cycles) := by
  refine ⟨dine_clears cycles, ?_⟩
  intro i side
  cases side <;> exact dine_settles _ cycles i

theorem Settled.step {s s' : System N} {t : Fin N} (settled : Settled s)
    (next : Step effect s t s') : Settled s' := by
  have clears : ∀ i, ClearsOthers i (s'.code i) := by
    intro i
    obtain ⟨instr, rest, code, changed⟩ := next.code
    rw [changed]
    by_cases own : i = t
    · subst own
      rw [update_self]
      intro side j value member
      apply settled.clears i side j value
      rw [code]
      exact List.mem_cons_of_mem _ member
    · rw [update_of_ne own]
      exact settled.clears i
  refine ⟨clears, ?_⟩
  intro i side
  have before := settled.settles i side
  obtain ⟨r, rest, code, _, rfl⟩ | ⟨r, rest, code, rfl⟩ | ⟨a, rest, code, rfl⟩ := next.cases
  · by_cases own : i = t
    · subst own
      rw [code] at before
      simpa [settle] using before
    · simpa [own] using before
  · by_cases own : i = t
    · subst own
      rw [code] at before
      simpa [settle] using before
    · simpa [own] using before
  · change settle side i (update s.code t rest i)
      (((effect a s.memory).philosophers i).flag side) = 0
    rw [flag_effect]
    by_cases own : i = t
    · subst own
      rw [code] at before
      rw [update_self]
      exact before
    · rw [update_of_ne own]
      -- a neighbour's store leaves the flag alone or clears it
      cases a with
      | setFlag s j new =>
          by_cases mine : s = side ∧ j = i
          · obtain ⟨rfl, rfl⟩ := mine
            have zero : new = 0 := by
              refine settled.clears t s j new ?_ own
              rw [code]
              exact List.mem_cons_self
            rw [show stored s j (.setFlag s j new) _ = new from if_pos ⟨rfl, rfl⟩, zero]
            exact settle_zero s j _ _ before
          · rw [show stored side i (.setFlag s j new) _ = _ from if_neg mine]
            exact before
      | _ => exact before

/-! ## Deadlock freedom and termination -/

theorem dine_ends (two_le : 2 ≤ N) (cycles : Int) :
    (∀ s, Reach (· = start N cycles) (Step effect) s → (∃ i, ¬ Finished s i) →
      ∃ i s', Step effect s i s') ∧
    (∀ run s, Exec (Step effect) (start N cycles) run s →
      run.length ≤ remaining (start N cycles)) ∧
    (¬ ∃ states : Nat → System N, states 0 = start N cycles ∧
      ∀ n, ∃ i, Step effect (states n) i (states (n + 1))) ∧
    (∀ run s, Exec (Step effect) (start N cycles) run s → (∀ i s', ¬ Step effect s i s') →
      (∀ i, Finished s i) ∧ (∀ f, s.sem (.fork f) = 1) ∧
      s.sem .updatePhilLock = 1 ∧ s.sem .printStatusLock = 1 ∧
      ∀ i, (s.memory.philosophers i).leftFork = 0 ∧ (s.memory.philosophers i).rightFork = 0) := by
  have progress : ∀ s, Reach (· = start N cycles) (Step effect) s → (∃ i, ¬ Finished s i) →
      ∃ i s', Step effect s i s' := by
    rintro s reached ⟨i, unfinished⟩
    exact (reached_disciplined two_le reached).progress unfinished
  refine ⟨progress, ?_, ?_, ?_⟩
  · intro run s exec
    have length := run_length exec
    omega
  · rintro ⟨states, _, steps⟩
    exact no_infinite_run states steps
  · intro run s exec stuck
    have reached : Reach (· = start N cycles) (Step effect) s := Reach.exec (.init rfl) exec
    have done : ∀ i, Finished s i := by
      intro i
      by_contra unfinished
      obtain ⟨j, s', next⟩ := progress s reached ⟨i, unfinished⟩
      exact stuck j s' next
    have free := (reached_disciplined two_le reached).all_free done
    have settled : Settled s := by
      refine reached.invariant ?_ fun s t s' before next => before.step next
      rintro s rfl
      exact start_settled N cycles
    have flag : ∀ i side, (s.memory.philosophers i).flag side = 0 := by
      intro i side
      have settles := settled.settles i side
      rwa [show s.code i = [] from done i] at settles
    exact ⟨done, fun f => free _, free _, free _, fun i => ⟨flag i .left, flag i .right⟩⟩

theorem dine_ends_five : ∃ i s', Step effect (start 5 10) i s' :=
  (dine_ends (by decide) 10).1 (start 5 10) (.init rfl) ⟨0, by intro done; cases done⟩

end Csc457.Dine
