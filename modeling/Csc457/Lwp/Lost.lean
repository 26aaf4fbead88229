import Csc457.Lwp.Reaping

/-!
# No thread is lost

In the abstract machine no thread is lost, and the library follows it as long as no
lwp_wait frees by the walk a thread that was handed over.  Where one does, the memory can
become that of a new thread, and the waiting thread takes this one for the one that ended.
-/

set_option autoImplicit false

namespace Csc457.Lwp.Threads

open Function
open Csc457.Lib.Transition

variable {σ : Type}

def readyTids (pool : σ → Multiset Thread) (s : Library σ) : Multiset Tid :=
  (pool s.scheduler).map s.tid

def waitingTids (s : Library σ) : List Tid := s.waiting.map s.tid

/-- What the program may rely on between two calls. -/
structure NoneLost (pool : σ → Multiset Thread) (s : Library σ) : Prop where
  /-- Every call came back. -/
  going : s.stuck = false
  distinct : ∀ t ∈ s.allocated, ∀ u ∈ s.allocated, s.tid t = s.tid u → t = u
  inUse : ∀ t, t ∈ pool s.scheduler ∨ t ∈ s.waiting → t ∈ s.allocated
  /-- A thread that has not exited is ready or waits, and only once. -/
  once : ∀ i ∈ s.history.created, i ∉ s.history.terminated →
    (readyTids pool s).count i + (waitingTids s).count i = 1
  gone : ∀ i ∈ s.history.terminated, i ∉ readyTids pool s ∧ i ∉ waitingTids s
  known : ∀ i, i ∈ readyTids pool s ∨ i ∈ waitingTids s → i ∈ s.history.created
  awake : s.waiting ≠ [] → pool s.scheduler ≠ 0
  fifo : s.history.blocked = s.history.released ++ waitingTids s
  /-- The thread that goes on in lwp_wait was handed one that ended after it blocked. -/
  handed : s.ended = none → ∀ t, s.current = some t → s.mode t = .inWait →
    ∃ u ∈ s.allocated, (s.context t).exited = some u ∧ s.tid u ∈ s.history.terminated ∧
      s.history.blockedAt (s.tid t) < s.history.exitedAt (s.tid u)
  /-- The process ends only when every thread has. -/
  ended : s.ended ≠ none → ∀ i ∈ s.history.created, i ∈ s.history.terminated

section States
variable {pool : σ → Multiset Thread} {s : Library σ} {v : View} {L : List Thread}

theorem Follows.handed (follows : Follows pool s v) (tidy : Tidy s L) (running : s.ended = none)
    {t : Thread} (isCurrent : s.current = some t) (inWait : s.mode t = .inWait) :
    ∃ u ∈ s.allocated, (s.context t).exited = some u ∧ s.tid u ∈ s.history.terminated ∧
      s.history.blockedAt (s.tid t) < s.history.exitedAt (s.tid u) := by
  obtain ⟨inUse, _, ready⟩ := follows.ready running isCurrent
  obtain ⟨i, dead, exited, later⟩ := follows.inv.accounted.woken _ ready
    ((follows.shows.mode t inUse).trans inWait)
  rw [follows.shows.exited t inUse] at exited
  obtain ⟨u, isExited, rfl⟩ := Option.map_eq_some_iff.mp exited
  rw [follows.shows.history] at dead later
  exact ⟨u, (tidy.handed.whole t inUse u isExited).1, isExited, dead, later⟩

theorem Follows.noneLost (follows : Follows pool s v) (tidy : Tidy s L) (lost : v.lost = 0) :
    NoneLost pool s := by
  have acc := follows.inv.accounted
  have shows := follows.shows
  have ready : v.ready = readyTids pool s := shows.ready
  have waiting : v.waiting = waitingTids s := shows.waiting
  have alive : ∀ i, i ∈ v.alive ↔ i ∈ readyTids pool s ∨ i ∈ waitingTids s := by
    intro i
    rw [acc.mem_alive, lost, ready, waiting]
    simp
  have isAlive : ∀ i, i ∈ v.alive ↔ i ∈ s.history.created ∧ i ∉ s.history.terminated := by
    intro i
    rw [View.mem_alive, shows.history]
  refine ⟨tidy.stuck, shows.named.distinct, ?_, ?_, ?_, ?_, ?_, ?_, ?_, ?_⟩
  · rintro t (inPool | waits)
    · exact shows.inPool t inPool
    · exact shows.inWaiting t waits
  · intro i created running
    have count := acc.count i
    rw [if_pos ((isAlive i).mpr ⟨created, running⟩), lost, ready, waiting] at count
    simpa using count
  · intro i terminated
    have dead : i ∉ v.alive := fun alive => ((isAlive i).mp alive).2 terminated
    rw [alive] at dead
    exact not_or.mp dead
  · exact fun i member => ((isAlive i).mp ((alive i).mpr member)).1
  · intro somebody nobody
    refine acc.awake ?_ ?_
    · rw [waiting]
      simpa [waitingTids] using somebody
    · rw [ready, readyTids, nobody, Multiset.map_zero]
  · rw [← waiting, ← shows.history]
    exact acc.fifo
  · exact fun running t isCurrent inWait => follows.handed tidy running isCurrent inWait
  · intro ended i created
    by_contra running
    have nobody : v.ready = 0 := follows.inv.drained (by rwa [shows.ended])
    rcases acc.mem_alive.mp ((isAlive i).mpr ⟨created, running⟩) with isReady | waits | isLost
    · rw [nobody] at isReady
      exact Multiset.notMem_zero i isReady
    · exact acc.awake (List.ne_nil_of_mem waits) nobody
    · rw [lost] at isLost
      exact Multiset.notMem_zero i isLost

end States

/-- Only lwp_exit releases waiting threads: the oldest one, if there is one. -/
def releasedBy (s : Library σ) : Op → List Tid
  | .exit _ => (waitingTids s).take 1
  | _ => []

structure ReleasesOldest (s : Library σ) (op : Op) (s' : Library σ) : Prop where
  released : s'.history.released = s.history.released ++ releasedBy s op
  rest : ∀ status, op = .exit status → s'.waiting = s.waiting.drop 1

section Released
variable {sch : Scheduler σ} {pool : σ → Multiset Thread} {s s' : Library σ} {curr : Thread}

theorem lwpYield_released (laws : IsPool sch pool) (isCurrent : s.current = some curr) :
    (lwpYield sch s curr).history.released = s.history.released ∧
      (lwpYield sch s curr).waiting = s.waiting := by
  rcases lwpYield_cases laws isCurrent with ⟨_, _, run⟩ | ⟨_, _, run⟩ <;>
    · rw [run]
      exact ⟨rfl, rfl⟩

theorem lwpCreate_released (func : Nat) (sys : System) :
    (lwpCreate sch s func sys).2.history.released = s.history.released := by
  rcases lwpCreate_cases sch (s := s) func sys with
    same | ⟨new, contents, _, ⟨unmapped, run, _⟩ | ⟨c, _, run⟩⟩
  · rw [same]
  · rw [run]
    rfl
  · rw [run, (addThread_linksOnly _ _).history]
    rfl

theorem lwpStart_released (memory : Option Thread) :
    (lwpStart sch s memory).history.released = s.history.released := by
  cases memory with
  | none => rfl
  | some mainThread =>
      simp only [lwpStart]
      split <;> rfl

theorem lwpWait_released (laws : IsPool sch pool) (isCurrent : s.current = some curr)
    (room : Bool) : (lwpWait sch s curr room).history.released = s.history.released := by
  simp only [lwpWait]
  split
  · rfl
  · next seen terminated _ =>
      exact congrArg History.released (reap_kept (touch s seen) terminated).2.2.2
  · next seen _ =>
      split
      · rfl
      · have stillCurrent : (blockCurrent sch (touch s seen) curr room).current = some curr := by
          cases room <;> exact isCurrent
        refine (lwpYield_released laws stillCurrent).1.trans ?_
        cases room <;> rfl

/-- lwp_exit takes the oldest waiting thread from the list, and hands over itself. -/
theorem lwpExit_released (laws : IsPool sch pool) (isCurrent : s.current = some curr)
    (status : Int) :
    (lwpExit sch s curr status).history.released =
        s.history.released ++ (waitingTids s).take 1 ∧
      (lwpExit sch s curr status).waiting = s.waiting.drop 1 := by
  have tid := leaveScheduler_tid sch s curr status
  have waiting : (leaveScheduler sch s curr status).waiting = s.waiting := rfl
  have released : (leaveScheduler sch s curr status).history.released = s.history.released := rfl
  have woken : (wakeWaiting sch (leaveScheduler sch s curr status) curr).history.released =
        s.history.released ++ (waitingTids s).take 1 ∧
      (wakeWaiting sch (leaveScheduler sch s curr status) curr).waiting = s.waiting.drop 1 ∧
      (wakeWaiting sch (leaveScheduler sch s curr status) curr).current = some curr := by
    cases waits : s.waiting with
    | nil =>
        rw [waits] at waiting
        simp only [wakeWaiting, waiting, waitingTids, waits]
        exact ⟨(List.append_nil _).symm, rfl, isCurrent⟩
    | cons w rest =>
        rw [waits] at waiting
        have tidW := tid_modify (leaveScheduler sch s curr status) w
          (fun c => { c with exited := some curr }) fun _ => rfl
        rw [tid] at tidW
        simp only [wakeWaiting, waiting, waitingTids, waits, tidW]
        exact ⟨rfl, rfl, isCurrent⟩
  obtain ⟨isReleased, isWaiting, stillCurrent⟩ := woken
  obtain ⟨same, same'⟩ := lwpYield_released laws stillCurrent
  exact ⟨same.trans isReleased, same'.trans isWaiting⟩

theorem lwpWaitReturn_released :
    (lwpWaitReturn s curr).history.released = s.history.released := by
  simp only [lwpWaitReturn]
  split
  · rfl
  · exact congrArg History.released (reap_kept _ _).2.2.2

theorem step_releasesOldest (laws : IsPool sch pool) {op : Op} (next : step sch s op s') :
    ReleasesOldest s op s' := by
  obtain ⟨⟨_, _, ready, _⟩, rfl⟩ := next
  cases op with
  | create func sys =>
      exact ⟨(lwpCreate_released (s := tick s) func sys).trans (List.append_nil _).symm,
        fun _ other => by cases other⟩
  | start memory =>
      exact ⟨(lwpStart_released (s := tick s) memory).trans (List.append_nil _).symm,
        fun _ other => by cases other⟩
  | yield =>
      obtain ⟨curr, isCurrent, _⟩ := Runs.current ready
      rw [perform_yield isCurrent]
      exact ⟨(lwpYield_released (s := tick s) laws isCurrent).1.trans (List.append_nil _).symm,
        fun _ other => by cases other⟩
  | wait room =>
      obtain ⟨curr, isCurrent, _⟩ := Runs.current ready
      rw [perform_wait isCurrent]
      exact ⟨(lwpWait_released (s := tick s) laws isCurrent room).trans (List.append_nil _).symm,
        fun _ other => by cases other⟩
  | exit status =>
      obtain ⟨curr, isCurrent, _⟩ := Runs.current ready
      rw [perform_exit isCurrent]
      have both := lwpExit_released (s := tick s) laws isCurrent status
      exact ⟨both.1, fun _ _ => both.2⟩
  | resume =>
      obtain ⟨curr, isCurrent, _⟩ := Runs.current ready
      rw [perform_resume isCurrent]
      exact ⟨(lwpWaitReturn_released (s := tick s)).trans (List.append_nil _).symm,
        fun _ other => by cases other⟩

end Released

/-! ## Runs -/

section Runs
variable {sch : Scheduler σ} {pool : σ → Multiset Thread} {s last : Library σ}
  {run : List (Library σ × Op)}

/-- With a scheduler that behaves as a pool, memory for everything, and no lwp_wait that
frees a thread another one was handed, no thread is lost or stranded, and the waiting
threads are released one at a time, in the order they blocked. -/
theorem no_thread_lost_of_spares (laws : IsPool sch pool) (fresh : Fresh sch s)
    (exec : Exec (step sch) s run last) (succeeds : AllSteps (fun _ op => Succeeds op) run)
    (spares : AllSteps Spares run) :
    AllStates (fun s => NoneLost pool s ∧ ∀ op s', step sch s op s' → ReleasesOldest s op s')
      run last := by
  obtain ⟨v, follows, lost⟩ := fresh.follows laws
  have kept := exec.guarded_invariant (C := fun s op => Succeeds op ∧ Spares s op)
    (I := fun s => ∃ v L, Follows pool s v ∧ Tidy s L ∧ v.lost = 0) ?_
    ⟨v, [], follows, fresh.tidy, lost⟩ fun x member => ⟨succeeds x member, spares x member⟩
  · have holds : ∀ s : Library σ, (∃ v L, Follows pool s v ∧ Tidy s L ∧ v.lost = 0) →
        NoneLost pool s ∧ ∀ op s', step sch s op s' → ReleasesOldest s op s' := by
      rintro s ⟨v, L, follows, tidy, lost⟩
      exact ⟨follows.noneLost tidy lost, fun op s' next => step_releasesOldest laws next⟩
    exact ⟨fun x member => holds x.1 (kept.1 x member), holds last kept.2⟩
  · rintro s op s' ⟨v, L, follows, tidy, lost⟩ ⟨succeeds, spares⟩ next
    have hasMain : op ≠ .start none := by
      rintro rfl
      cases succeeds
    obtain ⟨v', L', follows', tidy', same⟩ := kept_step laws follows tidy spares hasMain next
    exact ⟨v', L', follows', tidy', (same succeeds).trans lost⟩

end Runs

theorem no_thread_lost_of_spares_waitForFirst :
    AllStates (fun s => NoneLost fifoPool s ∧
        ∀ op s', step fifo s op s' → ReleasesOldest s op s')
      (played (perform fifo) freshLibrary waitForFirst)
      (waitForFirst.foldl (perform fifo) freshLibrary) := by
  have playable : Playable Makes (perform fifo) freshLibrary waitForFirst := by decide +kernel
  have idle : ∀ x ∈ played (perform fifo) freshLibrary waitForFirst, Idle x.1 x.2 := by
    decide +kernel
  have succeeds : ∀ x ∈ played (perform fifo) freshLibrary waitForFirst, Succeeds x.2 := by
    decide +kernel
  exact no_thread_lost_of_spares fifo_isPool freshLibrary_fresh
    (playable.exec fun _ _ guard => ⟨guard, rfl⟩) succeeds fun x member => (idle x member).spares

/-- Main waits, 2 exits, 3 waits and so frees 2, and makes thread 4 in its memory. -/
def reusedMemory : List Op :=
  [.create 1 (roomy 4096), .create 1 (roomy 8192), .start (some 12288), .yield, .yield,
    .wait true, .exit 0, .wait true, .create 1 (roomy 4096), .yield]

/-- Main goes on with thread 4 in its `exited` link, and then takes it off the list and frees
it, while it is ready. -/
theorem thread_lost :
    IsPool fifo fifoPool ∧ Fresh fifo freshLibrary ∧
      Exec (step fifo) freshLibrary (played (perform fifo) freshLibrary reusedMemory)
        (reusedMemory.foldl (perform fifo) freshLibrary) ∧
      (∀ x ∈ played (perform fifo) freshLibrary reusedMemory, Succeeds x.2) ∧
      ¬ NoneLost fifoPool (reusedMemory.foldl (perform fifo) freshLibrary) ∧
      Makes (reusedMemory.foldl (perform fifo) freshLibrary) .resume ∧
      let after := perform fifo (reusedMemory.foldl (perform fifo) freshLibrary) .resume
      after.reaped.freed = [4, 2] ∧ after.history.terminated = [2] ∧ 4096 ∈ after.scheduler ∧
        4096 ∉ after.allocated := by
  have playable : Playable Makes (perform fifo) freshLibrary reusedMemory := by decide +kernel
  refine ⟨fifo_isPool, freshLibrary_fresh, playable.exec fun _ _ guard => ⟨guard, rfl⟩,
    by decide +kernel, ?_, by decide +kernel, by decide +kernel, by decide +kernel,
    by decide +kernel, by decide +kernel⟩
  intro none
  obtain ⟨u, _, exited, dead, _⟩ := none.handed (by decide +kernel) 12288 (by decide +kernel)
    (by decide +kernel)
  have isFirst : u = 4096 := by
    have link : ((reusedMemory.foldl (perform fifo) freshLibrary).context 12288).exited =
        some 4096 := by decide +kernel
    exact Option.some.inj (exited.symm.trans link)
  subst isFirst
  revert dead
  decide +kernel

end Csc457.Lwp.Threads
