import Csc457.Dine.Display

/-!
# When an eating philosopher is shown eating

A philosopher that puts down its forks passes the flags (0, 1) to its second
update.  The odd ones have posted their left fork there and still hold the right
one; the even ones have posted the right fork, and the update clears the display
of the neighbour that may be eating with it.  As long as no such update meets an
eating neighbour, every line shows the philosophers that eat as eating.
-/

set_option autoImplicit false

namespace Csc457.Dine

open Function
open Csc457.Lib.LockOrder Csc457.Lib.Transition Csc457.Lib.AtomicSection

variable {N : Nat}

/-- The cell of a philosopher that is eating, in the line being printed, says so. -/
def EatingShown (s : System N) : Prop :=
  ∀ (i : Fin N) (c : Cell N), Eating s i → s.memory.line[(i : Nat)]? = some c →
    c.state = Status.text .eat ∧ c.Shows (forkOn i .left) ∧ c.Shows (forkOn i .right)

/-- The thread is not at the update of an even philosopher between its two posts
while its right neighbour eats, nor at the Eat update of a philosopher one of
whose marks cannot be seen. -/
def Careful (s : System N) (t : Fin N) : Prop :=
  (∀ rest, s.code t =
      updatePhilosopher t .change 0 1 ++ .post (.fork (forkOn t .left)) :: rest →
    ¬ Eating s (rightOf t)) ∧
  ∀ rest, s.code t = updatePhilosopher t .eat 1 1 ++ rest →
    Legible (forkOn t .left) ∧ Legible (forkOn t .right)

section Script
variable {i : Fin N}

theorem update_inj {state state' : Status} {leftFork rightFork leftFork' rightFork' : Int}
    {x y : Code N} (isLeft : leftFork = 0 ∨ leftFork = 1) (isRight : rightFork = 0 ∨ rightFork = 1)
    (isLeft' : leftFork' = 0 ∨ leftFork' = 1) (isRight' : rightFork' = 0 ∨ rightFork' = 1)
    (same : updatePhilosopher i state leftFork rightFork ++ x =
      updatePhilosopher i state' leftFork' rightFork' ++ y) :
    state = state' ∧ leftFork = leftFork' ∧ rightFork = rightFork' ∧ x = y := by
  rcases isLeft with rfl | rfl <;> rcases isRight with rfl | rfl <;>
    rcases isLeft' with rfl | rfl <;> rcases isRight' with rfl | rfl <;>
    simp [updatePhilosopher, updateActs] at same <;>
    exact ⟨same.1, rfl, rfl, same.2⟩

theorem codeOf_inj (two_le : 2 ≤ N) {items items' : List Task} (scripted : Scripted i items)
    (scripted' : Scripted i items') (same : codeOf i items = codeOf i items') :
    items = items' := by
  induction items generalizing items' with
  | nil =>
      cases items' with
      | nil => rfl
      | cons task items' => cases task <;> simp [updatePhilosopher] at same
  | cons task items ih =>
      obtain ⟨fits, scripted⟩ := scripted
      cases items' with
      | nil => cases task <;> simp [updatePhilosopher] at same
      | cons task' items' =>
          obtain ⟨fits', scripted'⟩ := scripted'
          have rest : codeOf i items = codeOf i items' → items = items' := ih scripted scripted'
          cases task with
          | update state leftFork rightFork =>
              cases task' with
              | update state' leftFork' rightFork' =>
                  rw [codeOf_update, codeOf_update] at same
                  obtain ⟨rfl, rfl, rfl, after⟩ :=
                    update_inj fits.1 fits.2.1 fits'.1 fits'.2.1 same
                  rw [rest after]
              | wait s | post s | dawdle => simp [updatePhilosopher] at same
          | wait s =>
              cases task' with
              | wait s' =>
                  simp only [codeOf_wait, List.cons.injEq, Instr.wait.injEq, Lock.fork.injEq,
                    forkOn_inj two_le] at same
                  rw [same.1, rest same.2]
              | update state' leftFork' rightFork' => simp [updatePhilosopher] at same
              | post s' | dawdle => simp at same
          | post s =>
              cases task' with
              | post s' =>
                  simp only [codeOf_post, List.cons.injEq, Instr.post.injEq, Lock.fork.injEq,
                    forkOn_inj two_le] at same
                  rw [same.1, rest same.2]
              | update state' leftFork' rightFork' => simp [updatePhilosopher] at same
              | wait s' | dawdle => simp at same
          | dawdle =>
              cases task' with
              | dawdle =>
                  rw [codeOf_dawdle, codeOf_dawdle] at same
                  rw [rest (List.cons.inj same).2]
              | update state' leftFork' rightFork' => simp [updatePhilosopher] at same
              | wait s' | post s' => simp at same

theorem putDown_codeOf : putDown i = codeOf i (downTasks i) := by
  unfold putDown downTasks
  split <;> simp

theorem rounds_codeOf (count : Nat) : rounds i count = codeOf i (again i count) := by
  induction count with
  | zero => rfl
  | succ count ih =>
      have first : rounds i (count + 1) = cycle i ++ rounds i count := by
        simp [rounds, List.replicate_succ]
      have unroll : again i (count + 1) = tasks i ++ again i count := by
        simp [again, List.replicate_succ]
      rw [first, unroll, codeOf_append, cycle_codeOf, ih]

theorem Scripted.of_append {first second : List Task} (scripted : Scripted i (first ++ second)) :
    Scripted i second := by
  induction first with
  | nil => exact scripted
  | cons task first ih => exact ih scripted.2

theorem Feasting.scripted {todo : List Task} (feasting : Feasting i todo) : Scripted i todo := by
  obtain ⟨left, feasting⟩ := feasting
  have whole := scripted_again (i := i) (left + 1)
  have split : ∃ up, again i (left + 1) = up ++ (.dawdle :: (downTasks i ++ again i left)) := by
    unfold again tasks downTasks
    split
    · exact ⟨evenTasks.take 6, by simp [List.replicate_succ, evenTasks]⟩
    · exact ⟨oddTasks.take 6, by simp [List.replicate_succ, oddTasks]⟩
  obtain ⟨up, split⟩ := split
  rw [split] at whole
  rcases feasting with rfl | rfl
  · exact whole.of_append
  · exact whole.of_append.2

theorem eating_iff {s : System N} :
    Eating s i ↔ ∃ todo, Feasting i todo ∧ s.code i = codeOf i todo := by
  constructor
  · rintro ⟨left, code | code⟩
    · refine ⟨_, ⟨left, .inl rfl⟩, ?_⟩
      rw [code, codeOf_dawdle, codeOf_append, putDown_codeOf, rounds_codeOf]
    · refine ⟨_, ⟨left, .inr rfl⟩, ?_⟩
      rw [code, codeOf_append, putDown_codeOf, rounds_codeOf]
  · rintro ⟨todo, ⟨left, rfl | rfl⟩, code⟩
    · refine ⟨left, .inl ?_⟩
      rw [code, codeOf_dawdle, codeOf_append, putDown_codeOf, rounds_codeOf]
    · refine ⟨left, .inr ?_⟩
      rw [code, codeOf_append, putDown_codeOf, rounds_codeOf]

end Script

/-! ## The invariant -/

/-- A philosopher at the table is shown eating. -/
def Served (v : Table N) : Prop :=
  ∀ i, Feasting i (v.todo i) → (v.memory.philosophers i).state = .eat ∧
    Legible (forkOn i .left) ∧ Legible (forkOn i .right)

section Step
variable {s : System N} {v v' : Table N} {t : Fin N}

/-- Inside an update the next instruction is neither the wait for
update_phil_lock nor the dawdle. -/
theorem inner_head (tracks : Tracks chunk .updatePhilLock effect s v) {i : Fin N}
    {instr : Instr (Lock N) (Act N)} {rest : Code N}
    (inside : v.inner .updatePhilLock i = instr :: rest) :
    instr ≠ .wait .updatePhilLock ∧ instr ≠ .act .dawdle := by
  have member : instr ∈ v.inner .updatePhilLock i := by
    rw [inside]
    exact List.mem_cons_self
  unfold View.inner at member
  split at member
  · cases member
  · next u left turn =>
      split_ifs at member
      · obtain ⟨task, body, kind, _, suffix⟩ := tracks.within u left turn
        obtain ⟨state, leftFork, rightFork, rfl, rfl⟩ := chunk_locked kind
        rcases List.mem_append.mp member with inBody | last
        · have inUpdate := suffix.subset inBody
          simp only [printStatus, printActs, updateActs, List.mem_append, List.mem_map,
            List.mem_cons, List.not_mem_nil, or_false] at inUpdate
          obtain ⟨a, stored, rfl⟩ | rfl | ⟨a, printed, rfl⟩ | rfl := inUpdate
          · refine ⟨by simp, ?_⟩
            rintro same
            obtain rfl := Instr.act.inj same
            split_ifs at stored <;> simp at stored
          · exact ⟨by simp, by simp⟩
          · refine ⟨by simp, ?_⟩
            rintro same
            obtain rfl := Instr.act.inj same
            simp at printed
          · exact ⟨by simp, by simp⟩
        · simp at last
          simp [last]
      · cases member

theorem Eating.feasting (two_le : 2 ≤ N) (tracks : Tracks chunk .updatePhilLock effect s v)
    (displayed : Displayed v) {i : Fin N} (eating : Eating s i) : Feasting i (v.todo i) := by
  obtain ⟨todo, feasting, code⟩ := eating_iff.mp eating
  have own := tracks.code i
  rw [code] at own
  cases inside : v.inner .updatePhilLock i with
  | nil =>
      rw [inside, List.nil_append] at own
      rw [← codeOf_inj two_le feasting.scripted (displayed.scripted i) own]
      exact feasting
  | cons instr rest =>
      obtain ⟨notWait, notDawdle⟩ := inner_head tracks inside
      rw [inside, List.cons_append] at own
      obtain ⟨left, rfl | rfl⟩ := feasting
      · exact absurd (List.cons.inj own).1.symm notDawdle
      · have head : ∃ after, codeOf i (downTasks i ++ again i left) =
            .wait .updatePhilLock :: after := by
          unfold downTasks
          split <;> simp [updatePhilosopher]
        obtain ⟨after, head⟩ := head
        rw [head] at own
        exact absurd (List.cons.inj own).1.symm notWait

theorem neighbour_hungry (two_le : 2 ≤ N) (disciplined : Disciplined rank s)
    (tracks : Tracks chunk .updatePhilLock effect s v) {i : Fin N} {side side' : Side}
    (keeps_fork : keeps side (v.todo t) = true) (shared : forkOn t side = forkOn i side')
    (other : i ≠ t) : ¬ Feasting i (v.todo i) := by
  intro feasting
  have own : holds (.fork (forkOn t side)) (s.code t) = true := by
    rw [tracks.code t, holds_avoiding (inner_avoids tracks t _), holds_codeOf two_le]
    exact keeps_fork
  have theirs := feasting.holds two_le tracks side'
  rw [← shared] at theirs
  exact other (disciplined.one_holder theirs own)

theorem Served.enter (two_le : 2 ≤ N) (disciplined : Disciplined rank s)
    (tracks : Tracks chunk .updatePhilLock effect s v) (displayed : Displayed v)
    (served : Served v) (careful : Careful s t) (idle : v.turn = none) {state : Status}
    {leftFork rightFork : Int} {rest : List Task}
    (next : v.todo t = .update state leftFork rightFork :: rest)
    (todo : v'.todo = update v.todo t rest)
    (memory : v'.memory =
      perform effect (updateActs t state leftFork rightFork ++ printActs N) v.memory) :
    Served v' := by
  have fits := displayed.scripted t
  rw [next] at fits
  obtain ⟨⟨_, _, keepsLeft, keepsRight, both, feast⟩, _⟩ := fits
  have outside : ∀ i, s.code i = codeOf i (v.todo i) := by
    intro i
    rw [tracks.code i, inner_none idle, List.nil_append]
  have code := outside t
  rw [next, codeOf_update] at code
  have isKept : ∀ side, keeps side rest = true → keeps side (v.todo t) = true := by
    intro side kept
    rw [next]
    exact kept
  intro i feasting
  rw [memory, perform_update]
  simp only [redraw_state, afterUpdate_state]
  rw [todo] at feasting
  by_cases own : i = t
  · subst own
    rw [update_self] at feasting
    obtain rfl := feast.mpr feasting
    obtain ⟨rfl, rfl⟩ := both rfl
    rw [if_pos rfl]
    exact ⟨rfl, careful.2 _ code⟩
  · rw [update_of_ne own] at feasting
    rw [if_neg own]
    have notRight : ¬ (rightFork = 1 ∧ i = rightOf t) := by
      rintro ⟨picked, rfl⟩
      rcases keepsRight picked with kept | ⟨rfl, rfl, after, rfl⟩
      · have shared : forkOn t .right = forkOn (rightOf t) .left := rfl
        exact neighbour_hungry two_le disciplined tracks (isKept _ kept) shared own feasting
      · subst picked
        refine careful.1 (codeOf t after) code (eating_iff.mpr ?_)
        exact ⟨_, feasting, outside _⟩
    have notLeft : ¬ (leftFork = 1 ∧ i = leftOf t) := by
      rintro ⟨picked, rfl⟩
      have shared : forkOn t .left = forkOn (leftOf t) .right := (rightOf_leftOf t).symm
      exact neighbour_hungry two_le disciplined tracks (isKept _ (keepsLeft picked)) shared own
        feasting
    rw [if_neg notRight, if_neg notLeft]
    exact served i feasting

theorem Served.pass (displayed : Displayed v) (served : Served v) {task : Task} {rest : List Task}
    {instr : Instr (Lock N) (Act N)} (next : v.todo t = task :: rest)
    (kind : chunk t task = .single instr) (todo : v'.todo = update v.todo t rest)
    (memory : v'.memory = v.memory) : Served v' := by
  intro i feasting
  rw [memory]
  rw [todo] at feasting
  apply served i
  by_cases own : i = t
  · subst own
    rw [update_self] at feasting
    have fits := displayed.scripted i
    rw [next] at fits
    rw [next]
    cases task with
    | update state leftFork rightFork => cases kind
    | wait side | post side => exact absurd feasting fits.1
    | dawdle => exact fits.1 feasting
  · rw [update_of_ne own] at feasting
    exact feasting

theorem Served.move (two_le : 2 ≤ N) (disciplined : Disciplined rank s)
    (tracks : Tracks chunk .updatePhilLock effect s v) (displayed : Displayed v)
    (served : Served v) (careful : Careful s t)
    (move : Move chunk .updatePhilLock effect v t v') : Served v' := by
  cases move with
  | enter idle next kind =>
      obtain ⟨state, leftFork, rightFork, rfl, rfl⟩ := chunk_locked kind
      exact served.enter two_le disciplined tracks displayed careful idle next rfl
        (by rw [acts_update])
  | inside within => exact served
  | leave atEnd => exact served
  | pass outside next kind => exact served.pass displayed next kind rfl rfl

/-- The invariant of a careful run. -/
structure Attended (s : System N) : Prop where
  disciplined : Disciplined rank s
  table : ∃ v, Tracks chunk .updatePhilLock effect s v ∧ Displayed v ∧ Served v

theorem start_attended (two_le : 2 ≤ N) (cycles : Int) : Attended (start N cycles) := by
  refine ⟨start_disciplined two_le cycles, openTable N cycles, start_tracks N cycles,
    open_displayed N cycles, ?_⟩
  intro i feasting
  exact absurd feasting (again_not_feasting _)

theorem Attended.step (two_le : 2 ≤ N) {s' : System N} (attended : Attended s)
    (careful : Careful s t) (next : Step effect s t s') : Attended s' := by
  obtain ⟨v, tracks, displayed, served⟩ := attended.table
  obtain ⟨v', tracks', move⟩ := tracks.step next
  exact ⟨attended.disciplined.step next, v', tracks', displayed.move two_le move,
    served.move two_le attended.disciplined tracks displayed careful move⟩

theorem Attended.shown (two_le : 2 ≤ N) (attended : Attended s) : EatingShown s := by
  obtain ⟨v, tracks, displayed, served⟩ := attended.table
  intro i c eating entry
  obtain rfl := cell_at (line_in_progress tracks displayed) entry
  obtain ⟨eats, legible⟩ := served i (eating.feasting two_le tracks displayed)
  refine ⟨?_, (displayed.fair.eat_shows two_le eats).mpr legible⟩
  change (v.memory.philosophers i).state.text = _
  rw [eats]

end Step

theorem not_eating_yet (two_le : 2 ≤ N) {cycles : Int} {s : System N} {i : Fin N}
    (fresh : s.code i = (start N cycles).code i) : ¬ Eating s i := by
  intro eating
  obtain ⟨todo, feasting, code⟩ := eating_iff.mp eating
  have same : codeOf i todo = codeOf i (program cycles i) := by
    rw [← code, fresh]
    exact dine_codeOf cycles i
  rw [codeOf_inj two_le feasting.scripted (scripted_again _) same] at feasting
  exact again_not_feasting _ feasting

/-- In a run of careful steps every line shows the philosophers that eat as eating. -/
theorem eating_shown (two_le : 2 ≤ N) (cycles : Int) (run : List (System N × Fin N))
    (s : System N) (exec : Exec (Step effect) (start N cycles) run s)
    (careful : AllSteps Careful run) : AllStates EatingShown run s := by
  obtain ⟨before, last⟩ := exec.guarded_invariant
    (fun s t s' attended isCareful next => attended.step two_le isCareful next)
    (start_attended two_le cycles) careful
  exact ⟨fun x member => (before x member).shown two_le, last.shown two_le⟩

theorem eating_shown_firstMeal :
    ∃ run s, Exec (Step effect) (start 5 1) run s ∧ Eating s 0 ∧ AllStates EatingShown run s := by
  obtain ⟨run, s, exec, _, code, _, own⟩ := eats_alone (by decide) ⟨rfl, rfl⟩ (fun _ => rfl)
    (start_code (N := 5) 1 (by decide) 0)
  refine ⟨run, s, exec, ⟨0, .inl ?_⟩, eating_shown (by decide) 1 run s exec ?_⟩
  · rw [code, update_self]
    rfl
  · intro x member
    obtain ⟨label, others⟩ := own x member
    rw [label]
    refine ⟨fun _ _ => ?_,
      fun _ _ => ⟨legible_of_small (by decide) _, legible_of_small (by decide) _⟩⟩
    exact not_eating_yet (by decide) (others (rightOf 0) (by decide))

/-- While the right neighbour eats, the update after the right fork was posted
prints the neighbour as it looks between two states. -/
theorem late_release_hides (two_le : 2 ≤ N) {s : System N} {i : Fin N} {rest : Code N}
    (quiet : Quiet s.sem) (ended : s.memory.line = [])
    (code : s.code i = updatePhilosopher i .change 0 1 ++ rest)
    (eating : Eating s (rightOf i)) :
    ∃ run s', Exec (Step effect) s run s' ∧ ¬ EatingShown s' := by
  let drawing : Code N := .wait .updatePhilLock :: ((updateActs i .change 0 1).map .act ++
    .wait .printStatusLock :: (drawActs N).map .act)
  have split : s.code i =
      drawing ++ (.act .newline :: .post .printStatusLock :: .post .updatePhilLock :: rest) := by
    rw [code]
    simp [drawing, updatePhilosopher, printStatus, printActs_eq]
  have free : alone s.sem drawing =
      some (update (update s.sem .updatePhilLock 0) .printStatusLock 0) := by
    have noMore := alone_acts (update (update s.sem .updatePhilLock 0) .printStatusLock 0)
      (drawActs N) ([] : Code N)
    rw [List.append_nil] at noMore
    simp [drawing, alone, quiet.1, quiet.2, noMore]
  obtain ⟨run, s', exec, _, code', memory, _⟩ := run_alone effect split free
  have apart := rightOf_ne two_le i
  have stillEating : Eating s' (rightOf i) :=
    eating.congr (by rw [code', update_of_ne apart])
  let p := afterUpdate i .change 0 1 s.memory.philosophers
  have line : s'.memory.line = lineOf p := by
    have both : acts drawing = updateActs i .change 0 1 ++ drawActs N := by
      simp [drawing, acts]
    rw [memory, both, perform_append, perform_updateActs, perform_drawActs, ended, List.nil_append]
  have entry : s'.memory.line[(rightOf i : Nat)]? =
      some (cellOf (redraw (rightOf i) (p (rightOf i)))) := by
    rw [line]
    simp [lineOf]
  refine ⟨run, s', exec, fun shown => ?_⟩
  have eats := text_inj (shown (rightOf i) _ stillEating entry).1
  rw [redraw_state, afterUpdate_state, if_neg apart, if_pos ⟨rfl, rfl⟩] at eats
  cases eats

/-- Philosopher 0 posts fork 1, philosopher 1 eats with it, and then philosopher 0
makes its update. -/
theorem eating_hidden :
    ∃ run s, Exec (Step effect) (start 5 1) run s ∧ ¬ EatingShown s := by
  obtain ⟨run₁, s₁, exec₁, sem₁, code₁, _, _⟩ := eats_alone (by decide) ⟨rfl, rfl⟩ (fun _ => rfl)
    (start_code (N := 5) 1 (by decide) 0)
  let release : Code 5 :=
    .act .dawdle :: (updatePhilosopher 0 .change 1 1 ++ [.post (.fork (forkOn 0 .right))])
  have next₁ : s₁.code 0 = release ++ (updatePhilosopher 0 .change 0 1 ++
      (.post (.fork (forkOn 0 .left)) :: (updatePhilosopher 0 .change 0 0 ++
        (updatePhilosopher 0 .think 0 0 ++ [.act .dawdle])))) := by
    rw [code₁, update_self]
    simp [release, putDown, rounds]
  have quiet₁ : Quiet s₁.sem := by
    rw [sem₁]
    exact (Quiet.fork ⟨rfl, rfl⟩ _ 0).fork _ 0
  have free₁ : alone s₁.sem release = some (update s₁.sem (.fork (forkOn 0 .right)) 1) := by
    change alone s₁.sem (updatePhilosopher 0 .change 1 1 ++ [.post (.fork (forkOn 0 .right))]) = _
    rw [alone_update quiet₁, alone, alone, sem₁, update_self]
  obtain ⟨run₂, s₂, exec₂, sem₂, code₂, _, _⟩ := run_alone effect next₁ free₁
  -- fork 1 is back and fork 2 was never taken
  have forks₂ : ∀ side, s₂.sem (.fork (forkOn 1 side)) = 1 := by
    intro side
    rw [sem₂, sem₁]
    cases side <;> rfl
  have quiet₂ : Quiet s₂.sem := sem₂ ▸ quiet₁.fork _ 1
  have next₂ : s₂.code 1 = (start 5 1).code 1 := by
    rw [code₂, update_of_ne (by decide), code₁, update_of_ne (by decide)]
  obtain ⟨run₃, s₃, exec₃, sem₃, code₃, memory₃, _⟩ := eats_alone (by decide) quiet₂ forks₂
    (next₂.trans (start_code (N := 5) 1 (by decide) 1))
  have quiet₃ : Quiet s₃.sem := sem₃ ▸ (quiet₂.fork _ 0).fork _ 0
  have ended₃ : s₃.memory.line = [] := by
    rw [memory₃, acts_append, acts_updatePhilosopher, perform_append, perform_update]
  have next₃ : s₃.code 0 = s₂.code 0 := by
    rw [code₃, update_of_ne (by decide)]
  rw [code₂, update_self] at next₃
  have eating₃ : Eating s₃ (rightOf 0) := by
    refine ⟨0, .inl ?_⟩
    change s₃.code 1 = _
    rw [code₃, update_self]
    rfl
  obtain ⟨run₄, s₄, exec₄, hidden⟩ :=
    late_release_hides (by decide) quiet₃ ended₃ next₃ eating₃
  exact ⟨_, s₄, exec₁.append (exec₂.append (exec₃.append exec₄)), hidden⟩

end Csc457.Dine
