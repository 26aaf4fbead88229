import Csc457.Lwp.RoundRobin
import Mathlib.Data.Finset.Basic
import Mathlib.Tactic.Ring

/-!
# The thread library

The functions of lwp.c over any scheduler.  A thread is the address of its context,
which malloc may give again once it is freed.  Until then a freed context keeps its
last contents.

The threads are not preempted, so a step is one library call of the running
thread, up to the point where some thread is back in its own code.  The one
call a switch can come back into is lwp_wait: `Mode.inWait` says that the saved
registers of a thread lead there, and `resume` is what is left of the call.
`History` and `Reaped` are what the code does not keep; they know the threads by their
tids.
-/

set_option autoImplicit false

namespace Csc457.Lwp.Threads

open Function

def lwpTerm : Nat := 1

def lwpLive : Nat := 0

/-- `a << 8 | b & 255`. -/
def mkTermStat (a b : Nat) : Nat := a * 256 + b % 256

/-- `(s >> 8) & LWP_TERM` is LWP_TERM. -/
def lwpTerminated (s : Nat) : Bool := s / 256 % 2 = lwpTerm

def lwpTermStat (s : Nat) : Nat := s % 256

abbrev Tid := Nat

structure Context where
  tid : Tid
  /-- 0 is NULL. -/
  stack : Nat
  stacksize : Nat
  status : Nat
  libOne : Option Thread
  libTwo : Option Thread
  exited : Option Thread

structure Scheduler (σ : Type) where
  admitThread : σ → Thread → σ
  remove : σ → Thread → σ
  next : σ → Option Thread × σ
  qlen : σ → Nat

inductive Mode where
  | user
  | inWait
  deriving DecidableEq, Repr

structure Unmap where
  owner : Tid
  stack : Nat
  stacksize : Nat
  deriving DecidableEq, Repr

structure History where
  /-- Steps taken. -/
  clock : Nat
  created : List Tid
  terminated : List Tid
  /-- Threads in the order in which lwp_wait put them on the waiting list. -/
  blocked : List Tid
  /-- Threads in the order in which lwp_exit released them. -/
  released : List Tid
  blockedAt : Tid → Nat
  exitedAt : Tid → Nat

structure Reaped where
  /-- Calls of remove_thread, munmap and free for a context, latest first. -/
  removed : List Tid
  unmapped : List Unmap
  freed : List Tid
  /-- What lwp_wait returned for reaped threads, latest first. -/
  returned : List Tid
  /-- lwp_wait used a context after it was freed. -/
  usedFreed : Bool

structure Library (σ : Type) where
  scheduler : σ
  head : Option Thread
  tail : Option Thread
  current : Option Thread
  /-- The list from `waiting_head`. -/
  waiting : List Thread
  tidCount : Nat
  context : Thread → Context
  /-- The contexts malloc gave that were not freed. -/
  allocated : Finset Thread
  mode : Thread → Mode
  /-- The argument of exit(), once it was called. -/
  ended : Option Nat
  /-- A call followed a NULL pointer or does not return. -/
  stuck : Bool
  history : History
  reaped : Reaped

/-- What the system answers one lwp_create. -/
structure System where
  /-- The memory malloc returns, whatever it holds. -/
  context : Option (Thread × Context)
  getrlimit : Int
  rlimCur : Nat
  pageSize : Nat
  mmap : Option Nat

variable {σ : Type}

def Library.tid (s : Library σ) (t : Thread) : Tid := (s.context t).tid

def Library.modify (s : Library σ) (t : Thread) (change : Context → Context) : Library σ :=
  { s with context := update s.context t (change (s.context t)) }

def Library.setLibOne (s : Library σ) (t : Thread) (value : Option Thread) : Library σ :=
  s.modify t fun c => { c with libOne := value }

def Library.setLibTwo (s : Library σ) (t : Thread) (value : Option Thread) : Library σ :=
  s.modify t fun c => { c with libTwo := value }

/-! ## The library list -/

def addThread (s : Library σ) (new : Thread) : Library σ :=
  match s.head with
  -- if no threads in list
  | none =>
      let s := (s.setLibOne new (some new)).setLibTwo new (some new)
      { s with head := some new, tail := some new }
  | some head =>
      match s.tail with
      | none => { s with stuck := true }
      | some tail =>
          let s := (s.setLibOne new (some tail)).setLibTwo new (some head)
          let s := (s.setLibTwo tail (some new)).setLibOne head (some new)
          { s with tail := some new }

def removeThread (s : Library σ) (victim : Thread) : Library σ :=
  -- if no threads in list
  if s.head = none then s
  -- if only one thread in list
  else if s.head = some victim ∧ s.tail = some victim then { s with head := none, tail := none }
  else
    let prev := (s.context victim).libOne
    let next := (s.context victim).libTwo
    let s₁ := match prev with
      | some prev => s.setLibTwo prev next
      | none => s
    let s₂ := match next with
      | some next => s₁.setLibOne next prev
      | none => s₁
    { s₂ with
      head := if s.head = some victim then next else s.head
      tail := if s.tail = some victim then prev else s.tail }

/-- The contexts remove_thread uses besides that of the victim. -/
def neighbours (s : Library σ) (victim : Thread) : List Thread :=
  if s.head = none ∨ (s.head = some victim ∧ s.tail = some victim) then []
  else (s.context victim).libOne.toList ++ (s.context victim).libTwo.toList

/-- Note a use of contexts by lwp_wait. -/
def touch (s : Library σ) (used : List Thread) : Library σ :=
  { s with reaped := { s.reaped with
      usedFreed := s.reaped.usedFreed || used.any fun t => decide (t ∉ s.allocated) } }

/-- `free`.  The contents stay until malloc gives the memory again. -/
def freeContext (s : Library σ) (t : Thread) : Library σ :=
  { s with
    allocated := s.allocated.erase t
    reaped := { s.reaped with freed := s.tid t :: s.reaped.freed } }

/-- remove_thread, munmap of the stack if there is one, free. -/
def reap (s : Library σ) (t : Thread) : Library σ :=
  let s := touch s (t :: neighbours s t)
  let tid := s.tid t
  let s := removeThread s t
  let c := s.context t
  let s := { s with reaped := { s.reaped with
    removed := tid :: s.reaped.removed
    unmapped := if c.stack ≠ 0 then ⟨tid, c.stack, c.stacksize⟩ :: s.reaped.unmapped
      else s.reaped.unmapped
    returned := tid :: s.reaped.returned } }
  freeContext s t

/-- The walk of lwp_wait over the library list: the contexts it read, and the
first terminated one.  `none` when it does not come back to `start`. -/
def scanTerminated (context : Thread → Context) (start : Thread) :
    Nat → Thread → List Thread → Option (List Thread × Option Thread)
  | 0, _, _ => none
  | fuel + 1, curr, seen =>
      if lwpTerminated (context curr).status then some (curr :: seen, some curr)
      else match (context curr).libTwo with
        | none => some (curr :: seen, none)
        | some next =>
            if next = start then some (curr :: seen, none)
            else scanTerminated context start fuel next (curr :: seen)

/-- The walk from `head`; it is given a turn for every context there can be. -/
def scanList (s : Library σ) : Option (List Thread × Option Thread) :=
  match s.head with
  | none => some ([], none)
  | some head => scanTerminated s.context head (s.tidCount + 1) head []

def stackSize : Nat := 8 * 1024 * 1024

def rlimInfinity : Nat := 2 ^ 64 - 1

/-- The size lwp_create maps, in `size_t`: the limit it tests is the value
getrlimit returned. -/
def mappedSize (sys : System) : Nat :=
  let limit := (sys.getrlimit % 2 ^ 64).toNat
  let size := if limit = 0 ∨ limit = rlimInfinity then stackSize else sys.rlimCur
  (size + sys.pageSize - 1) % 2 ^ 64 / sys.pageSize * sys.pageSize % 2 ^ 64

variable (sch : Scheduler σ)

def lwpCreate (s : Library σ) (func : Nat) (sys : System) : Nat × Library σ :=
  if func = 0 then (0, s)
  else match sys.context with
    | none => (0, s)
    | some (new, fresh) =>
        let tid := s.tidCount
        let s := { s with
          context := update s.context new { fresh with tid := tid }
          allocated := insert new s.allocated
          tidCount := s.tidCount + 1 }
        if sys.getrlimit = -1 then (0, freeContext s new)
        else match sys.mmap with
          | none =>
              -- the stack field is still what malloc left there
              let s := { s with reaped := { s.reaped with
                unmapped := ⟨tid, fresh.stack, mappedSize sys⟩ :: s.reaped.unmapped } }
              (0, freeContext s new)
          | some stack =>
              let s := s.modify new fun c => { c with
                stack := stack
                stacksize := mappedSize sys
                status := mkTermStat lwpLive 0
                exited := none
                libOne := none
                libTwo := none }
              let s := { s with
                scheduler := sch.admitThread s.scheduler new
                mode := update s.mode new .user
                history := { s.history with created := tid :: s.history.created } }
              (tid, addThread s new)

/-- Yielding to itself the thread just goes on. -/
def lwpYield (s : Library σ) (curr : Thread) : Library σ :=
  match sch.next s.scheduler with
  | (none, scheduler) =>
      -- if no threads left, terminate
      { s with
        scheduler := scheduler
        ended := some (lwpTermStat (s.context curr).status) }
  | (some next, scheduler) =>
      if next = curr then { s with scheduler := scheduler }
      else { s with scheduler := scheduler, current := some next }

/-- The stack of the process stays NULL here. -/
def mainContext : Context := ⟨1, 0, 0, mkTermStat lwpLive 0, none, none, none⟩

/-- The calling thread is adopted as thread 1, and is not put on the library list. -/
def adoptMain (s : Library σ) (mainThread : Thread) : Library σ :=
  { s with
    context := update s.context mainThread mainContext
    allocated := insert mainThread s.allocated
    mode := update s.mode mainThread .user
    scheduler := sch.admitThread s.scheduler mainThread
    history := { s.history with created := 1 :: s.history.created } }

/-- The answer of malloc is not looked at. -/
def lwpStart (s : Library σ) (memory : Option Thread) : Library σ :=
  match memory with
  | none => { s with stuck := true }
  | some mainThread =>
      let s := adoptMain sch s mainThread
      match sch.next s.scheduler with
      | (none, scheduler) => { s with scheduler := scheduler, stuck := true }
      | (some next, scheduler) => { s with scheduler := scheduler, current := some next }

/-- lwp_exit stores the status and takes the thread from the scheduler. -/
def leaveScheduler (s : Library σ) (curr : Thread) (status : Int) : Library σ :=
  let s := s.modify curr fun c => { c with
    status := mkTermStat lwpTerm (status % 256).toNat }
  { s with
    scheduler := sch.remove s.scheduler curr
    history := { s.history with
      terminated := s.tid curr :: s.history.terminated
      exitedAt := update s.history.exitedAt (s.tid curr) s.history.clock } }

/-- Then it hands the thread to the oldest waiting one, if any. -/
def wakeWaiting (s : Library σ) (curr : Thread) : Library σ :=
  match s.waiting with
  | [] => s
  | waiting :: rest =>
      let s := s.modify waiting fun c => { c with exited := some curr }
      { s with
        waiting := rest
        scheduler := sch.admitThread s.scheduler waiting
        history := { s.history with released := s.history.released ++ [s.tid waiting] } }

def lwpExit (s : Library σ) (curr : Thread) (status : Int) : Library σ :=
  lwpYield sch (wakeWaiting sch (leaveScheduler sch s curr status) curr) curr

/-- `room`: malloc has memory for the new node. -/
def addThreadWaiting (s : Library σ) (new : Thread) (room : Bool) : Library σ :=
  if room then
    { s with
      waiting := s.waiting ++ [new]
      history := { s.history with
        blocked := s.history.blocked ++ [s.tid new]
        blockedAt := update s.history.blockedAt (s.tid new) s.history.clock } }
  else s

/-- lwp_wait takes the thread from the scheduler and puts it on the waiting list. -/
def blockCurrent (s : Library σ) (curr : Thread) (room : Bool) : Library σ :=
  let s := { s with
    scheduler := sch.remove s.scheduler curr
    mode := update s.mode curr .inWait }
  addThreadWaiting s curr room

/-- lwp_wait up to its return or to the switch that blocks it. -/
def lwpWait (s : Library σ) (curr : Thread) (room : Bool) : Library σ :=
  match scanList s with
  | none => { s with stuck := true }
  | some (seen, some terminated) => reap (touch s seen) terminated
  | some (seen, none) =>
      let s := touch s seen
      if sch.qlen s.scheduler ≤ 1 then s
      else lwpYield sch (blockCurrent sch s curr room) curr

/-- The rest of lwp_wait, after the thread was switched to again. -/
def lwpWaitReturn (s : Library σ) (curr : Thread) : Library σ :=
  let s := { s with mode := update s.mode curr .user }
  match (s.context curr).exited with
  | none => s
  | some terminated =>
      (reap s terminated).modify curr fun c => { c with exited := none }

/-! ## Steps -/

inductive Op where
  | create (func : Nat) (sys : System)
  | start (memory : Option Thread)
  | yield
  | wait (room : Bool)
  | exit (status : Int)
  | resume

def tick (s : Library σ) : Library σ :=
  { s with history := { s.history with clock := s.history.clock + 1 } }

def perform (s : Library σ) (op : Op) : Library σ :=
  let s := tick s
  match op, s.current with
  | .create func sys, _ => (lwpCreate sch s func sys).2
  | .start memory, _ => lwpStart sch s memory
  | .yield, some curr => lwpYield sch s curr
  | .wait room, some curr => lwpWait sch s curr room
  | .exit status, some curr => lwpExit sch s curr status
  | .resume, some curr => lwpWaitReturn s curr
  | _, none => { s with stuck := true }

section Perform
variable {sch : Scheduler σ} {s : Library σ} {curr : Thread} (isCurrent : s.current = some curr)
include isCurrent

theorem perform_yield : perform sch s .yield = lwpYield sch (tick s) curr := by
  simp only [perform, show (tick s).current = some curr from isCurrent]

theorem perform_wait (room : Bool) :
    perform sch s (.wait room) = lwpWait sch (tick s) curr room := by
  simp only [perform, show (tick s).current = some curr from isCurrent]

theorem perform_exit (status : Int) :
    perform sch s (.exit status) = lwpExit sch (tick s) curr status := by
  simp only [perform, show (tick s).current = some curr from isCurrent]

theorem perform_resume : perform sch s .resume = lwpWaitReturn (tick s) curr := by
  simp only [perform, show (tick s).current = some curr from isCurrent]

end Perform

def Runs (s : Library σ) (mode : Mode) : Prop := s.current.map s.mode = some mode

theorem Runs.current {s : Library σ} {mode : Mode} (runs : Runs s mode) :
    ∃ curr, s.current = some curr ∧ s.mode curr = mode := Option.map_eq_some_iff.mp runs

instance (s : Library σ) (mode : Mode) : Decidable (Runs s mode) :=
  inferInstanceAs (Decidable (s.current.map s.mode = some mode))

/-- Before lwp_start only lwp_create is called, and lwp_start is called once. -/
def Ready (s : Library σ) : Op → Prop
  | .create _ _ => s.current = none ∨ Runs s .user
  | .start _ => s.current = none
  | .yield => Runs s .user
  | .wait _ => Runs s .user
  | .exit _ => Runs s .user
  | .resume => Runs s .inWait

instance (s : Library σ) : (op : Op) → Decidable (Ready s op)
  | .create _ _ => inferInstanceAs (Decidable (_ ∨ _))
  | .start _ => inferInstanceAs (Decidable (s.current = none))
  | .yield => inferInstanceAs (Decidable (Runs s .user))
  | .wait _ => inferInstanceAs (Decidable (Runs s .user))
  | .exit _ => inferInstanceAs (Decidable (Runs s .user))
  | .resume => inferInstanceAs (Decidable (Runs s .inWait))

def Gives (s : Library σ) : Op → Prop
  | .create _ sys => ∀ memory ∈ sys.context, memory.1 ∉ s.allocated
  | .start memory => ∀ mainThread ∈ memory, mainThread ∉ s.allocated
  | _ => True

instance (s : Library σ) : (op : Op) → Decidable (Gives s op)
  | .create _ sys => inferInstanceAs (Decidable (∀ memory ∈ sys.context, memory.1 ∉ s.allocated))
  | .start memory =>
      inferInstanceAs (Decidable (∀ mainThread ∈ memory, mainThread ∉ s.allocated))
  | .yield => inferInstanceAs (Decidable True)
  | .wait _ => inferInstanceAs (Decidable True)
  | .exit _ => inferInstanceAs (Decidable True)
  | .resume => inferInstanceAs (Decidable True)

def Succeeds : Op → Prop
  | .create _ sys => sys.context.isSome = true ∧ sys.getrlimit ≠ -1 ∧ sys.mmap.isSome = true
  | .start memory => memory.isSome = true
  | .wait room => room = true
  | _ => True

instance : (op : Op) → Decidable (Succeeds op)
  | .create _ _ => inferInstanceAs (Decidable (_ ∧ _ ∧ _))
  | .start memory => inferInstanceAs (Decidable (memory.isSome = true))
  | .wait room => inferInstanceAs (Decidable (room = true))
  | .yield => inferInstanceAs (Decidable True)
  | .exit _ => inferInstanceAs (Decidable True)
  | .resume => inferInstanceAs (Decidable True)

def Makes (s : Library σ) (op : Op) : Prop :=
  s.ended = none ∧ s.stuck = false ∧ Ready s op ∧ Gives s op

instance (s : Library σ) (op : Op) : Decidable (Makes s op) :=
  inferInstanceAs (Decidable (_ ∧ _ ∧ _ ∧ _))

def step (s : Library σ) (op : Op) (s' : Library σ) : Prop := Makes s op ∧ s' = perform sch s op

/-- The library before its first call, with an empty scheduler. -/
structure Fresh (sch : Scheduler σ) (s : Library σ) : Prop where
  scheduler : sch.qlen s.scheduler = 0
  head : s.head = none
  tail : s.tail = none
  current : s.current = none
  waiting : s.waiting = []
  tidCount : s.tidCount = 2
  allocated : s.allocated = ∅
  ended : s.ended = none
  stuck : s.stuck = false
  created : s.history.created = []
  terminated : s.history.terminated = []
  blocked : s.history.blocked = []
  released : s.history.released = []
  removed : s.reaped.removed = []
  unmapped : s.reaped.unmapped = []
  freed : s.reaped.freed = []
  returned : s.reaped.returned = []
  usedFreed : s.reaped.usedFreed = false

end Csc457.Lwp.Threads
