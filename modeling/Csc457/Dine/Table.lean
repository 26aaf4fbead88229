import Csc457.Dine.Forks
import Csc457.Lib.AtomicSection

/-!
# Updates of the display are atomic

All that a philosopher does to the shared data it does inside update_philosopher,
under update_phil_lock.  Seen from outside, an update stores the flags, clears
those of the neighbours whose fork is being picked up, redraws all
representations and prints one line, at one stroke.
-/

set_option autoImplicit false

namespace Csc457.Dine

open Function
open Csc457.Lib.LockOrder Csc457.Lib.Transition Csc457.Lib.AtomicSection

variable {N : Nat}

/-- The statements of dine: the calls of update_philosopher and dawdle, and the
semaphore calls on the two forks. -/
inductive Task where
  | update (state : Status) (leftFork rightFork : Int)
  | wait (side : Side)
  | post (side : Side)
  | dawdle
  deriving DecidableEq

def chunk (i : Fin N) : Task → Chunk (Lock N) (Act N)
  | .update state leftFork rightFork =>
      .locked ((updateActs i state leftFork rightFork).map .act ++ printStatus N)
  | .wait side => .single (.wait (.fork (forkOn i side)))
  | .post side => .single (.post (.fork (forkOn i side)))
  | .dawdle => .single (.act .dawdle)

def evenTasks : List Task :=
  [.update .change 0 0, .wait .right, .update .change 0 1, .wait .left, .update .change 1 1,
    .update .eat 1 1, .dawdle, .update .change 1 1, .post .right, .update .change 0 1,
    .post .left, .update .change 0 0, .update .think 0 0, .dawdle]

def oddTasks : List Task :=
  [.update .change 0 0, .wait .left, .update .change 1 0, .wait .right, .update .change 1 1,
    .update .eat 1 1, .dawdle, .update .change 1 1, .post .left, .update .change 0 1,
    .post .right, .update .change 0 0, .update .think 0 0, .dawdle]

def tasks (i : Fin N) : List Task := if (i : Nat) % 2 = 0 then evenTasks else oddTasks

def again (i : Fin N) (count : Nat) : List Task := (List.replicate count (tasks i)).flatten

def program (cycles : Int) (i : Fin N) : List Task := again i cycles.toNat

abbrev Table (N : Nat) := View (Fin N) (Lock N) (Act N) (Memory N) Task

abbrev codeOf (i : Fin N) (items : List Task) : Code N := flat chunk .updatePhilLock i items

@[simp] theorem codeOf_nil (i : Fin N) : codeOf i [] = [] := rfl

@[simp] theorem codeOf_update (i : Fin N) (state : Status) (leftFork rightFork : Int)
    (items : List Task) :
    codeOf i (.update state leftFork rightFork :: items) =
      updatePhilosopher i state leftFork rightFork ++ codeOf i items := by
  simp [flat_cons, chunk, Chunk.code, updatePhilosopher]

@[simp] theorem codeOf_wait (i : Fin N) (side : Side) (items : List Task) :
    codeOf i (.wait side :: items) = .wait (.fork (forkOn i side)) :: codeOf i items := rfl

@[simp] theorem codeOf_post (i : Fin N) (side : Side) (items : List Task) :
    codeOf i (.post side :: items) = .post (.fork (forkOn i side)) :: codeOf i items := rfl

@[simp] theorem codeOf_dawdle (i : Fin N) (items : List Task) :
    codeOf i (.dawdle :: items) = .act .dawdle :: codeOf i items := rfl

theorem codeOf_append (i : Fin N) (first second : List Task) :
    codeOf i (first ++ second) = codeOf i first ++ codeOf i second :=
  List.flatMap_append

theorem cycle_codeOf (i : Fin N) : cycle i = codeOf i (tasks i) := by
  unfold cycle tasks
  split
  · simp [evenCycle, evenTasks]
  · simp [oddCycle, oddTasks]

theorem dine_codeOf (cycles : Int) (i : Fin N) : dine cycles i = codeOf i (program cycles i) := by
  unfold dine program again
  induction cycles.toNat with
  | zero => rfl
  | succ count ih =>
      rw [List.replicate_succ, List.flatten_cons, List.replicate_succ, List.flatten_cons,
        codeOf_append, ← cycle_codeOf, ih]

theorem chunk_proper (i : Fin N) (task : Task) :
    (chunk i task).Proper effect .updatePhilLock := by
  cases task with
  | update state leftFork rightFork =>
      intro instr member
      simp only [printStatus, List.mem_append, List.mem_map, List.mem_cons, List.not_mem_nil,
        or_false] at member
      obtain ⟨a, _, rfl⟩ | rfl | ⟨a, _, rfl⟩ | rfl := member <;> simp [Avoids]
  | wait side => exact ⟨by simp [Avoids], by simp⟩
  | post side => exact ⟨by simp [Avoids], by simp⟩
  | dawdle =>
      refine ⟨by simp [Avoids], ?_⟩
      rintro a same m
      obtain rfl := Instr.act.inj same
      rfl

def openTable (N : Nat) (cycles : Int) : Table N :=
  { todo := program cycles, turn := none, memory := (start N cycles).memory }

theorem start_tracks (N : Nat) (cycles : Int) :
    Tracks chunk .updatePhilLock effect (start N cycles) (openTable N cycles) :=
  .start (program cycles) (dine_codeOf cycles) rfl fun i task _ => chunk_proper i task

/-! ## The script

What the order of the statements in dine says: which flags an update passes,
which forks are to be posted after it, and that the Eat update is the one before
the forks are put down. -/

/-- The end of a cycle, from the update that puts the forks down. -/
def downTasks (i : Fin N) : List Task :=
  if (i : Nat) % 2 = 0 then
    [.update .change 1 1, .post .right, .update .change 0 1, .post .left, .update .change 0 0,
      .update .think 0 0, .dawdle]
  else
    [.update .change 1 1, .post .left, .update .change 0 1, .post .right, .update .change 0 0,
      .update .think 0 0, .dawdle]

/-- The Eat update is over and the put-down update has not begun. -/
def Feasting (i : Fin N) (todo : List Task) : Prop :=
  ∃ left, todo = .dawdle :: (downTasks i ++ again i left) ∨ todo = downTasks i ++ again i left

def keeps (side : Side) : List Task → Bool
  | [] => false
  | .wait s :: rest => if s = side then false else keeps side rest
  | .post s :: rest => if s = side then true else keeps side rest
  | _ :: rest => keeps side rest

/-- What is known of a statement of philosopher `i` with `rest` after it. -/
def Fits (i : Fin N) (rest : List Task) : Task → Prop
  | .update state leftFork rightFork =>
      (leftFork = 0 ∨ leftFork = 1) ∧ (rightFork = 0 ∨ rightFork = 1) ∧
      (leftFork = 1 → keeps .left rest = true) ∧
      -- an even philosopher has posted its right fork before this update
      (rightFork = 1 → keeps .right rest = true ∨
        state = .change ∧ leftFork = 0 ∧ ∃ after, rest = .post .left :: after) ∧
      (state = .eat → leftFork = 1 ∧ rightFork = 1) ∧ (state = .eat ↔ Feasting i rest)
  | .dawdle => Feasting i rest → Feasting i (.dawdle :: rest)
  | .wait _ => ¬ Feasting i rest
  | .post _ => ¬ Feasting i rest

def Scripted (i : Fin N) : List Task → Prop
  | [] => True
  | task :: rest => Fits i rest task ∧ Scripted i rest

section Script
variable {i : Fin N} {rest : List Task} {side : Side}

@[simp] theorem feasting_wait : ¬ Feasting i (.wait side :: rest) := by
  unfold Feasting downTasks
  split <;> simp

@[simp] theorem feasting_post : ¬ Feasting i (.post side :: rest) := by
  unfold Feasting downTasks
  split <;> simp

@[simp] theorem feasting_dawdle :
    Feasting i (.dawdle :: rest) ↔ ∃ left, rest = downTasks i ++ again i left := by
  unfold Feasting downTasks
  split <;> simp

@[simp] theorem feasting_update {state : Status} {leftFork rightFork : Int} :
    Feasting i (.update state leftFork rightFork :: rest) ↔
      ∃ left, .update state leftFork rightFork :: rest = downTasks i ++ again i left := by
  unfold Feasting
  simp

theorem again_not_down (count left : Nat) : again i count ≠ downTasks i ++ again i left := by
  unfold again downTasks tasks
  cases count with
  | zero => split <;> simp
  | succ count => split <;> simp [List.replicate_succ, evenTasks, oddTasks]

theorem again_not_feasting (count : Nat) : ¬ Feasting i (again i count) := by
  rintro ⟨left, same | same⟩
  · cases count with
    | zero => cases same
    | succ count =>
        unfold again tasks at same
        split at same <;> simp [List.replicate_succ, evenTasks, oddTasks] at same
  · exact again_not_down count left same

theorem scripted_again (count : Nat) : Scripted i (again i count) := by
  induction count with
  | zero => trivial
  | succ count ih =>
      have unroll : again i (count + 1) = tasks i ++ again i count := by
        simp [again, List.replicate_succ]
      have late := again_not_down (i := i) count
      have notYet := again_not_feasting (i := i) count
      rw [unroll]
      unfold tasks
      split
      · next even =>
          simpa [evenTasks, Scripted, Fits, keeps, downTasks, even, ih, notYet] using late
      · next odd =>
          simpa [oddTasks, Scripted, Fits, keeps, downTasks, odd, ih, notYet] using late

theorem Feasting.keeps {todo : List Task} (feasting : Feasting i todo) (side : Side) :
    keeps side todo = true := by
  obtain ⟨left, rfl | rfl⟩ := feasting
  all_goals
    unfold downTasks
    split <;> cases side <;> simp [Dine.keeps]

theorem holds_codeOf (two_le : 2 ≤ N) (i : Fin N) (side : Side) (items : List Task) :
    holds (.fork (forkOn i side)) (codeOf i items) = keeps side items := by
  induction items with
  | nil => rfl
  | cons task items ih =>
      cases task with
      | update state leftFork rightFork => simpa [keeps] using ih
      | wait s => simp [keeps, ih, forkOn_inj two_le]
      | post s => simp [keeps, ih, forkOn_inj two_le]
      | dawdle => exact ih

end Script

/-! ## One update at a stroke -/

/-- Change philosopher `j` if the condition holds. -/
def changeIf (condition : Prop) [Decidable condition] (j : Fin N)
    (change : Philosopher N → Philosopher N) (p : Fin N → Philosopher N) : Fin N → Philosopher N :=
  if condition then update p j (change (p j)) else p

/-- The stores of update_philosopher, the neighbours' first. -/
def afterUpdate (i : Fin N) (state : Status) (leftFork rightFork : Int)
    (p : Fin N → Philosopher N) : Fin N → Philosopher N :=
  changeIf True i
    (fun q => { q with state := state, leftFork := leftFork, rightFork := rightFork })
    (changeIf (rightFork = 1) (rightOf i) (fun q => { q with leftFork := 0, state := .change })
      (changeIf (leftFork = 1) (leftOf i) (fun q => { q with rightFork := 0, state := .change }) p))

theorem changeIf_apply (condition : Prop) [Decidable condition] (j k : Fin N)
    (change : Philosopher N → Philosopher N) (p : Fin N → Philosopher N) :
    changeIf condition j change p k = if condition ∧ k = j then change (p k) else p k := by
  unfold changeIf
  by_cases holds : condition
  · by_cases same : k = j
    · subst same
      simp [holds]
    · simp [holds, same]
  · simp [holds]

/-- update_fork_representation -/
def redraw (i : Fin N) (p : Philosopher N) : Philosopher N :=
  updateForkRepresentation .right i (updateForkRepresentation .left i p)

def cellOf (p : Philosopher N) : Cell N := ⟨p.forkRepresentation, p.state.text⟩

/-- The line print_status prints. -/
def lineOf (p : Fin N → Philosopher N) : List (Cell N) :=
  (List.finRange N).map fun i => cellOf (redraw i (p i))

theorem perform_updateActs (i : Fin N) (state : Status) (leftFork rightFork : Int) (m : Memory N) :
    perform effect (updateActs i state leftFork rightFork) m =
      { m with philosophers := afterUpdate i state leftFork rightFork m.philosophers } := by
  unfold updateActs afterUpdate changeIf
  split_ifs <;> simp [effect, Memory.modify, Philosopher.setFlag]

theorem perform_represent (order : List (Fin N)) (nodup : order.Nodup) (m : Memory N) :
    perform effect (order.flatMap fun i => [.represent .left i, .represent .right i]) m =
      { m with
        philosophers := fun j =>
          if j ∈ order then redraw j (m.philosophers j) else m.philosophers j } := by
  induction order generalizing m with
  | nil => simp
  | cons i order ih =>
      obtain ⟨fresh, nodup'⟩ := List.nodup_cons.mp nodup
      simp only [List.flatMap_cons, perform_append, perform_cons, perform_nil]
      rw [ih nodup']
      simp only [effect, Memory.modify, update_self, update_idem, Memory.mk.injEq, and_self,
        and_true]
      funext j
      by_cases own : j = i
      · subst own
        simp [fresh, redraw]
      · simp [own]

theorem perform_printf (order : List (Fin N)) (m : Memory N) :
    perform effect (order.map .printf) m =
      { m with line := m.line ++ order.map fun i => cellOf (m.philosophers i) } := by
  induction order generalizing m with
  | nil => simp
  | cons i order ih =>
      rw [List.map_cons, perform_cons, ih]
      simp [effect, cellOf]

def drawActs (N : Nat) : List (Act N) :=
  (List.finRange N).flatMap (fun i => [.represent .left i, .represent .right i]) ++
    (List.finRange N).map .printf

theorem printActs_eq (N : Nat) : printActs N = drawActs N ++ [.newline] := by
  simp [printActs, drawActs]

theorem perform_drawActs (m : Memory N) :
    perform effect (drawActs N) m =
      { m with
        philosophers := fun i => redraw i (m.philosophers i)
        line := m.line ++ lineOf m.philosophers } := by
  rw [drawActs, perform_append, perform_represent _ (List.nodup_finRange N), perform_printf]
  simp [lineOf]

theorem perform_printActs (m : Memory N) :
    perform effect (printActs N) m =
      { philosophers := fun i => redraw i (m.philosophers i)
        printed := (m.line ++ lineOf m.philosophers) :: m.printed
        line := [] } := by
  rw [printActs_eq, perform_append, perform_drawActs]
  rfl

theorem acts_update (i : Fin N) (state : Status) (leftFork rightFork : Int) :
    acts ((updateActs i state leftFork rightFork).map .act ++ printStatus N) =
      updateActs i state leftFork rightFork ++ printActs N := by
  simp [printStatus, acts]

@[simp] theorem acts_updatePhilosopher (i : Fin N) (state : Status) (leftFork rightFork : Int) :
    acts (updatePhilosopher i state leftFork rightFork) =
      updateActs i state leftFork rightFork ++ printActs N := by
  simp [updatePhilosopher, printStatus, acts]

theorem perform_update (i : Fin N) (state : Status) (leftFork rightFork : Int) (m : Memory N) :
    perform effect (updateActs i state leftFork rightFork ++ printActs N) m =
      { philosophers := fun j =>
          redraw j (afterUpdate i state leftFork rightFork m.philosophers j)
        printed :=
          (m.line ++ lineOf (afterUpdate i state leftFork rightFork m.philosophers)) :: m.printed
        line := [] } := by
  rw [perform_append, perform_updateActs, perform_printActs]

theorem pickUp_line (i : Fin N) (m : Memory N) :
    (perform effect (acts (pickUp i)) m).line = [] := by
  unfold pickUp
  split <;> simp [acts, perform_append, perform_printActs]

section Fields
variable (i j : Fin N) (state : Status) (leftFork rightFork : Int) (p : Fin N → Philosopher N)

theorem afterUpdate_state : (afterUpdate i state leftFork rightFork p j).state =
    if j = i then state
    else if rightFork = 1 ∧ j = rightOf i then .change
    else if leftFork = 1 ∧ j = leftOf i then .change
    else (p j).state := by
  simp only [afterUpdate, changeIf_apply, apply_ite Philosopher.state, true_and]

theorem afterUpdate_left : (afterUpdate i state leftFork rightFork p j).leftFork =
    if j = i then leftFork
    else if rightFork = 1 ∧ j = rightOf i then 0
    else (p j).leftFork := by
  simp only [afterUpdate, changeIf_apply, apply_ite Philosopher.leftFork, true_and, ite_self]

theorem afterUpdate_right : (afterUpdate i state leftFork rightFork p j).rightFork =
    if j = i then rightFork
    else if leftFork = 1 ∧ j = leftOf i then 0
    else (p j).rightFork := by
  simp only [afterUpdate, changeIf_apply, apply_ite Philosopher.rightFork, true_and, ite_self]

theorem afterUpdate_representation :
    (afterUpdate i state leftFork rightFork p j).forkRepresentation =
      (p j).forkRepresentation := by
  simp only [afterUpdate, changeIf_apply, apply_ite Philosopher.forkRepresentation, ite_self]

@[simp] theorem redraw_state (q : Philosopher N) : (redraw i q).state = q.state := rfl
@[simp] theorem redraw_left (q : Philosopher N) : (redraw i q).leftFork = q.leftFork := rfl
@[simp] theorem redraw_right (q : Philosopher N) : (redraw i q).rightFork = q.rightFork := rfl

end Fields

end Csc457.Dine
