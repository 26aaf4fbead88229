import Csc457.Lwp.Library
import Csc457.Lwp.SetScheduler

/-!
# A failed lwp_create

lwp_create with the memory it asks the system for: the context from malloc, the stack from
mmap, and what is given back when a step fails.  What it does to the library is `lwpCreate`.
-/

set_option autoImplicit false

namespace Csc457.Lwp.Threads

variable {σ V : Type} {M : Meaning V}

structure Memory where
  /-- The addresses in some mapping. -/
  mapped : Nat → Bool
  /-- The end of the addresses a process may map. -/
  taskSize : Nat
  /-- The stack the process was started with, which main runs on. -/
  stack : Nat
  stacksize : Nat

/-- `a` is in the `size` bytes from `start`. -/
def InRange (start size a : Nat) : Prop := start ≤ a ∧ a < start + size

instance (start size a : Nat) : Decidable (InRange start size a) :=
  inferInstanceAs (Decidable (_ ∧ _))

def Memory.mmap (m : Memory) (start size : Nat) : Memory :=
  { m with mapped := fun a => m.mapped a || decide (InRange start size a) }

/-- The arguments munmap takes: others are EINVAL. -/
def Memory.Valid (m : Memory) (pageSize start size : Nat) : Prop :=
  start % pageSize = 0 ∧ 0 < size ∧ start + size ≤ m.taskSize

instance (m : Memory) (pageSize start size : Nat) : Decidable (m.Valid pageSize start size) :=
  inferInstanceAs (Decidable (_ ∧ _ ∧ _))

/-- munmap of whole pages.  `enomem`: the system has no room to split a mapping. -/
def Memory.munmap (m : Memory) (pageSize : Nat) (enomem : Bool) (start size : Nat) : Memory :=
  if m.Valid pageSize start size ∧ enomem = false then
    { m with mapped := fun a => m.mapped a && !decide (InRange start size a) }
  else m

theorem Memory.munmap_mapped {m : Memory} {pageSize start size : Nat} {enomem : Bool} {a : Nat} :
    (m.munmap pageSize enomem start size).mapped a = true ↔
      m.mapped a = true ∧
        ¬ (m.Valid pageSize start size ∧ enomem = false ∧ InRange start size a) := by
  unfold munmap
  split
  · next carried => simp [carried.1, carried.2]
  · next refused =>
      refine ⟨fun mapped => ⟨mapped, ?_⟩, And.left⟩
      rintro ⟨valid, granted, _⟩
      exact refused ⟨valid, granted⟩

structure Process (σ : Type) where
  library : Library (Scheduling σ)
  memory : Memory

/-- `if (current_scheduler == NULL) lwp_set_scheduler(RoundRobin)`.  With no scheduler before
it the call moves no thread. -/
def ensureScheduler (object : Nat → SchedulerObject σ) (roundRobin : Nat) (s : Scheduling σ) :
    Scheduling σ :=
  if s.current = none then (lwpSetScheduler object roundRobin 0 s (some roundRobin)).getD s else s

def lwpCreateIn (sch : Scheduler (Scheduling σ)) (object : Nat → SchedulerObject σ)
    (roundRobin : Nat) (p : Process σ) (func : Nat) (sys : System) (enomem : Bool) :
    Nat × Process σ :=
  if func = 0 then (0, p)
  else match sys.context with
    | none => (0, p)
    | some (_, fresh) =>
        let library := { p.library with
          scheduler := ensureScheduler object roundRobin p.library.scheduler }
        let (tid, library) := lwpCreate sch library func sys
        if sys.getrlimit = -1 then (tid, ⟨library, p.memory⟩)
        else match sys.mmap with
          | none =>
              -- the stack field is still what malloc left there
              let memory := p.memory.munmap sys.pageSize enomem fresh.stack (mappedSize sys)
              (tid, ⟨library, memory⟩)
          | some stack => (tid, ⟨library, p.memory.mmap stack (mappedSize sys)⟩)

/-! ## What a failure leaves -/

/-- The ready threads of the current scheduler; without one there are none. -/
def ReadyPool (table : Nat → QueueScheduler M) (s : Scheduling (SchedulerMemory V))
    (q : List Thread) : Prop :=
  match s.current with
  | none => q = []
  | some current => M.Holds (table current).file s.memory q

/-- `a` is in the stack of the process, which is main's, or in that of another thread. -/
def InStack (p : Process σ) (a : Nat) : Prop :=
  InRange p.memory.stack p.memory.stacksize a ∨
    ∃ t ∈ p.library.allocated, (p.library.context t).stack ≠ 0 ∧
      InRange (p.library.context t).stack (p.library.context t).stacksize a

structure Untouched (table : Nat → QueueScheduler M) (p p' : Process (SchedulerMemory V)) :
    Prop where
  ready : ∀ q, ReadyPool table p'.library.scheduler q ↔ ReadyPool table p.library.scheduler q
  head : p'.library.head = p.library.head
  tail : p'.library.tail = p.library.tail
  /-- The links of the thread list are in the contexts. -/
  context : ∀ t ∈ p.library.allocated, p'.library.context t = p.library.context t
  allocated : p'.library.allocated = p.library.allocated
  mapped : ∀ a, p'.memory.mapped a = true → p.memory.mapped a = true
  inPlace : ∀ a, InStack p a → p.memory.mapped a = true → p'.memory.mapped a = true

/-- The mapping of the stack fails, and munmap of what the new context holds as its stack
goes over the stack of a thread. -/
def UnmapsStack (p : Process σ) (func : Nat) (sys : System) (enomem : Bool) : Prop :=
  ∃ new fresh, func ≠ 0 ∧ sys.context = some (new, fresh) ∧ sys.getrlimit ≠ -1 ∧
    sys.mmap = none ∧ p.memory.Valid sys.pageSize fresh.stack (mappedSize sys) ∧
    enomem = false ∧
    ∃ a, InStack p a ∧ p.memory.mapped a = true ∧ InRange fresh.stack (mappedSize sys) a

section Failure
variable {sch : Scheduler (Scheduling (SchedulerMemory V))} {table : Nat → QueueScheduler M}
  {roundRobinAt : Nat} {p : Process (SchedulerMemory V)} {func : Nat} {sys : System}
  {enomem : Bool}

theorem ensureScheduler_pool (hasInit : (table roundRobinAt).init ≠ none)
    (s : Scheduling (SchedulerMemory V)) (q : List Thread) :
    ReadyPool table (ensureScheduler (objects table) roundRobinAt s) q ↔ ReadyPool table s q := by
  obtain ⟨current, memory⟩ := s
  cases current with
  | some current => rfl
  | none =>
      have filled := initialised_filled (table roundRobinAt) memory
        fun none => absurd none hasInit
      have empty := M.filled_holds filled
      change M.Holds (table roundRobinAt).file
        (initialised (objects table roundRobinAt) memory) q ↔ q = []
      constructor
      · intro holds
        exact QueueScheduler.holds_nil holds empty
      · rintro rfl
        exact empty

theorem lwpCreate_failed {s : Library (Scheduling (SchedulerMemory V))} (started : 0 < s.tidCount)
    (gives : Gives s (.create func sys)) (failed : (lwpCreate sch s func sys).1 = 0) :
    (lwpCreate sch s func sys).2.scheduler = s.scheduler ∧
      (lwpCreate sch s func sys).2.head = s.head ∧
      (lwpCreate sch s func sys).2.tail = s.tail ∧
      (∀ t ∈ s.allocated, (lwpCreate sch s func sys).2.context t = s.context t) ∧
      (lwpCreate sch s func sys).2.allocated = s.allocated := by
  unfold lwpCreate at failed ⊢
  split
  · exact ⟨rfl, rfl, rfl, fun _ _ => rfl, rfl⟩
  · next isFunc =>
      rw [if_neg isFunc] at failed
      split
      · exact ⟨rfl, rfl, rfl, fun _ _ => rfl, rfl⟩
      · next new fresh isContext =>
          have unused : new ∉ s.allocated := gives _ isContext
          have other : ∀ t ∈ s.allocated,
              Function.update s.context new { fresh with tid := s.tidCount } t = s.context t :=
            fun t member =>
              Function.update_of_ne (fun isNew : t = new => unused (isNew ▸ member)) _ _
          have given : (insert new s.allocated).erase new = s.allocated :=
            Finset.erase_insert unused
          simp only [isContext] at failed ⊢
          split
          · exact ⟨rfl, rfl, rfl, other, given⟩
          · next limit =>
              rw [if_neg limit] at failed
              split
              · exact ⟨rfl, rfl, rfl, other, given⟩
              · next stack isMapped =>
                  simp only [isMapped] at failed
                  exact absurd failed (Nat.ne_of_gt started)

theorem failed_memory (started : 0 < p.library.tidCount)
    (failed : (lwpCreateIn sch (objects table) roundRobinAt p func sys enomem).1 = 0) :
    ((func = 0 ∨ sys.context = none ∨ sys.getrlimit = -1) ∧
      (lwpCreateIn sch (objects table) roundRobinAt p func sys enomem).2.memory = p.memory) ∨
    ∃ new fresh, func ≠ 0 ∧ sys.context = some (new, fresh) ∧ sys.getrlimit ≠ -1 ∧
      sys.mmap = none ∧
      (lwpCreateIn sch (objects table) roundRobinAt p func sys enomem).2.memory =
        p.memory.munmap sys.pageSize enomem fresh.stack (mappedSize sys) := by
  unfold lwpCreateIn at failed ⊢
  by_cases isFunc : func = 0
  · exact Or.inl ⟨Or.inl isFunc, by rw [if_pos isFunc]⟩
  rw [if_neg isFunc] at failed ⊢
  cases isContext : sys.context with
  | none => exact Or.inl ⟨Or.inr (Or.inl rfl), rfl⟩
  | some memory =>
      obtain ⟨new, fresh⟩ := memory
      by_cases limit : sys.getrlimit = -1
      · refine Or.inl ⟨Or.inr (Or.inr limit), ?_⟩
        simp only [if_pos limit]
      cases isMapped : sys.mmap with
      | none =>
          refine Or.inr ⟨new, fresh, isFunc, rfl, limit, rfl, ?_⟩
          simp only [if_neg limit]
      | some stack =>
          simp only [isContext, if_neg limit, isMapped, lwpCreate, if_neg isFunc] at failed
          exact absurd failed (Nat.ne_of_gt started)

variable (sch table roundRobinAt p func sys enomem) in
theorem lwpCreateIn_library :
    ∃ library, (library = p.library ∨ library = { p.library with
        scheduler := ensureScheduler (objects table) roundRobinAt p.library.scheduler }) ∧
      (lwpCreateIn sch (objects table) roundRobinAt p func sys enomem).1 =
        (lwpCreate sch library func sys).1 ∧
      (lwpCreateIn sch (objects table) roundRobinAt p func sys enomem).2.library =
        (lwpCreate sch library func sys).2 := by
  by_cases isFunc : func = 0
  · exact ⟨p.library, Or.inl rfl, by simp [lwpCreateIn, lwpCreate, isFunc]⟩
  cases isContext : sys.context with
  | none => exact ⟨p.library, Or.inl rfl, by simp [lwpCreateIn, lwpCreate, isFunc, isContext]⟩
  | some memory =>
      refine ⟨_, Or.inr rfl, ?_⟩
      simp only [lwpCreateIn, if_neg isFunc, isContext]
      split
      · exact ⟨rfl, rfl⟩
      · split <;> exact ⟨rfl, rfl⟩

theorem failed_library (hasInit : (table roundRobinAt).init ≠ none)
    (started : 0 < p.library.tidCount) (gives : Gives p.library (.create func sys))
    (failed : (lwpCreateIn sch (objects table) roundRobinAt p func sys enomem).1 = 0) :
    let library := (lwpCreateIn sch (objects table) roundRobinAt p func sys enomem).2.library
    (∀ q, ReadyPool table library.scheduler q ↔ ReadyPool table p.library.scheduler q) ∧
      library.head = p.library.head ∧ library.tail = p.library.tail ∧
      (∀ t ∈ p.library.allocated, library.context t = p.library.context t) ∧
      library.allocated = p.library.allocated := by
  obtain ⟨library, before, tid, after⟩ :=
    lwpCreateIn_library sch table roundRobinAt p func sys enomem
  rw [tid] at failed
  simp only [after]
  obtain rfl | rfl := before
  · obtain ⟨scheduler, rest⟩ := lwpCreate_failed started gives failed
    exact ⟨fun q => by rw [scheduler], rest⟩
  · obtain ⟨scheduler, rest⟩ := lwpCreate_failed (by exact started) (by exact gives) failed
    exact ⟨fun q => by rw [scheduler]; exact ensureScheduler_pool hasInit _ q, rest⟩

/-- A failed lwp_create leaves the other threads alone unless it unmaps a stack. -/
theorem failed_create_untouched_iff (c : RoundRobinFile M)
    (isRoundRobin : table roundRobinAt = roundRobin c) (started : 0 < p.library.tidCount)
    (gives : Gives p.library (.create func sys))
    (failed : (lwpCreateIn sch (objects table) roundRobinAt p func sys enomem).1 = 0) :
    Untouched table p (lwpCreateIn sch (objects table) roundRobinAt p func sys enomem).2 ↔
      ¬ UnmapsStack p func sys enomem := by
  have hasInit : (table roundRobinAt).init ≠ none := by
    rw [isRoundRobin]
    exact Option.some_ne_none _
  obtain ⟨ready, head, tail, context, allocated⟩ := failed_library hasInit started gives failed
  obtain ⟨early, memory⟩ | ⟨new, fresh, isFunc, isContext, limit, unmapped, memory⟩ :=
    failed_memory started failed
  · refine iff_of_true ⟨ready, head, tail, context, allocated, by simp [memory],
      fun _ _ mapped => by rwa [memory]⟩ ?_
    rintro ⟨new, fresh, isFunc, isContext, limit, _⟩
    obtain none | none | none := early
    · exact isFunc none
    · rw [none] at isContext
      cases isContext
    · exact limit none
  · constructor
    · rintro untouched ⟨new', fresh', _, isContext', _, _, valid, granted, a, inStack, mapped,
        inRange⟩
      obtain ⟨rfl, rfl⟩ := Prod.mk.inj (Option.some.inj (isContext.symm.trans isContext'))
      have kept := untouched.inPlace a inStack mapped
      rw [memory, Memory.munmap_mapped] at kept
      exact kept.2 ⟨valid, granted, inRange⟩
    · intro clear
      refine ⟨ready, head, tail, context, allocated, ?_, ?_⟩
      · intro a mapped
        rw [memory, Memory.munmap_mapped] at mapped
        exact mapped.1
      · intro a inStack mapped
        rw [memory, Memory.munmap_mapped]
        refine ⟨mapped, ?_⟩
        rintro ⟨valid, granted, inRange⟩
        exact clear ⟨new, fresh, isFunc, isContext, limit, unmapped, valid, granted, a, inStack,
          mapped, inRange⟩

end Failure

/-- Thread 2 runs on a stack of 8 MiB from 2 ^ 30, and main on one from 2 ^ 46. -/
def twoStacks : Process (SchedulerMemory RingOrList) where
  library := {
    scheduler := oneRinged 4096
    head := some 4096
    tail := some 4096
    current := some 4096
    waiting := [8192]
    tidCount := 3
    context := Function.update
      (fun _ => ⟨2, 2 ^ 30, stackSize, 0, some 4096, some 4096, none⟩) 8192 mainContext
    allocated := {4096, 8192}
    mode := fun t => if t = 8192 then .inWait else .user
    ended := none
    stuck := false
    history := ⟨0, [1, 2], [], [1], [], fun _ => 0, fun _ => 0⟩
    reaped := ⟨[], [], [], [], false⟩ }
  memory := {
    mapped := fun a => decide (InRange (2 ^ 30) stackSize a ∨ InRange (2 ^ 46) stackSize a)
    taskSize := 2 ^ 47
    stack := 2 ^ 46
    stacksize := stackSize }

/-- mmap fails, and malloc returned a context that holds this as its stack. -/
def recycled (stack : Nat) : System :=
  ⟨some (12288, ⟨9, stack, stackSize, 0, none, none, none⟩), 0, 0, 4096, none⟩

def noCalls : Scheduler (Scheduling (SchedulerMemory RingOrList)) :=
  ⟨fun s _ => s, fun s _ => s, fun s => (none, s), fun _ => 0⟩

/-- The stack of thread 2 is unmapped, or that of main. -/
theorem failed_create_unmaps :
    Gives twoStacks.library (.create 1 (recycled (2 ^ 30))) ∧
      (lwpCreateIn noCalls (objects threeSchedulers) 0 twoStacks 1 (recycled (2 ^ 30)) false).1 = 0 ∧
      ¬ Untouched threeSchedulers twoStacks
        (lwpCreateIn noCalls (objects threeSchedulers) 0 twoStacks 1 (recycled (2 ^ 30)) false).2 ∧
      ¬ Untouched threeSchedulers twoStacks
        (lwpCreateIn noCalls (objects threeSchedulers) 0 twoStacks 1 (recycled (2 ^ 46)) false).2 := by
  refine ⟨by decide, rfl, fun untouched => ?_, fun untouched => ?_⟩
  · have kept := untouched.inPlace (2 ^ 30)
      (Or.inr ⟨4096, by decide, by decide, by decide⟩) (by decide)
    revert kept
    decide
  · have kept := untouched.inPlace (2 ^ 46) (Or.inl (by decide)) (by decide)
    revert kept
    decide

/-- The memory malloc returned held a stack that was unmapped since, between the two. -/
theorem failed_create_untouched_iff_stale :
    Untouched threeSchedulers twoStacks
      (lwpCreateIn noCalls (objects threeSchedulers) 0 twoStacks 1 (recycled (2 ^ 40)) false).2 := by
  refine (failed_create_untouched_iff schedulerFile rfl (by decide) (by decide) rfl).mpr ?_
  rintro ⟨new, fresh, _, isContext, _, _, _, _, a, _, mapped, inRange⟩
  obtain ⟨rfl, rfl⟩ := Prod.mk.inj (Option.some.inj isContext)
  have mapped := of_decide_eq_true mapped
  have low : 2 ^ 40 ≤ a := inRange.1
  have high : a < 2 ^ 40 + mappedSize (recycled (2 ^ 40)) := inRange.2
  rw [show mappedSize (recycled (2 ^ 40)) = stackSize by decide] at high
  simp only [InRange, stackSize] at mapped high
  omega

end Csc457.Lwp.Threads
