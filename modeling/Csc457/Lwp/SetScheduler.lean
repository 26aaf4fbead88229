import Csc457.Lwp.Rotation

/-!
# Changing schedulers

lwp_set_scheduler over any schedulers.  A scheduler object is known by its address, a NULL
is `none`, and the functions of the objects work on one memory: the static variables of the
files they stand in and the scheduler links of the contexts.  Objects whose functions stand
in one file share its variables.

A scheduler that behaves as a queue comes with what it means that the variables of its file
hold some threads.  RoundRobin is one of them, with its ring.
-/

set_option autoImplicit false

namespace Csc457.Lwp

open Function
open Csc457.Lib.CircularList

/-- `struct scheduler`.  `none` is a NULL function or, for the answer of `admit` and
`remove`, a NULL pointer followed. -/
structure SchedulerObject (σ : Type) where
  init : Option (σ → σ)
  shutdown : Option (σ → σ)
  admitThread : σ → Thread → Option σ
  remove : σ → Thread → Option σ
  next : σ → Option Thread × σ

/-- The static variables, by file, and the links of the contexts. -/
structure SchedulerMemory (V : Type) where
  statics : Nat → V
  /-- `sched_one` and `sched_two` -/
  links : Thread → Option Thread × Option Thread

variable {V : Type}

/-- The memories differ in the variables of the file and the links of the threads at most. -/
structure Frame (file : Nat) (q : List Thread) (m m' : SchedulerMemory V) : Prop where
  statics : ∀ i, i ≠ file → m'.statics i = m.statics i
  links : ∀ t, t ∉ q → m'.links t = m.links t

/-- When the variables of a file hold threads as a queue.  `Holds` is a queue that can be
emptied from its head, `Filled` one to which threads were only admitted since it was empty,
and `Occupied` whatever is there after an admission. -/
structure Meaning (V : Type) where
  Holds : Nat → SchedulerMemory V → List Thread → Prop
  Filled : Nat → SchedulerMemory V → List Thread → Prop
  Occupied : Nat → SchedulerMemory V → Prop
  nodup : ∀ {i m q}, Holds i m q → q.Nodup
  filled_holds : ∀ {i m q}, Filled i m q → Holds i m q
  filled_nil : ∀ {i m}, Holds i m [] → Filled i m []
  holds_frame : ∀ {i j m m' p q}, Frame j p m m' → i ≠ j → (∀ t ∈ q, t ∉ p) →
    Holds i m q → Holds i m' q
  filled_frame : ∀ {i j m m' p q}, Frame j p m m' → i ≠ j → (∀ t ∈ q, t ∉ p) →
    Filled i m q → Filled i m' q

/-- A scheduler that behaves as a queue, with the variables of its file and the links of
its threads. -/
structure QueueScheduler (M : Meaning V) extends SchedulerObject (SchedulerMemory V) where
  file : Nat
  init_filled : ∀ {f}, init = some f → ∀ m, M.Filled file (f m) [] ∧ Frame file [] m (f m)
  shutdown_holds : ∀ {f}, shutdown = some f → ∀ {m}, M.Holds file m [] →
    M.Holds file (f m) [] ∧ Frame file [] m (f m)
  admit_filled : ∀ {m q t}, M.Filled file m q → t ∉ q →
    ∃ m', admitThread m t = some m' ∧ M.Filled file m' (q ++ [t]) ∧ Frame file (t :: q) m m'
  admit_occupied : ∀ {m t m'}, admitThread m t = some m' → M.Occupied file m'
  next_occupied : ∀ {m}, M.Occupied file m → (next m).1 ≠ none
  next_nil : ∀ {m}, M.Holds file m [] →
    (next m).1 = none ∧ M.Holds file (next m).2 [] ∧ Frame file [] m (next m).2
  next_remove : ∀ {m t q}, M.Holds file m (t :: q) →
    ∃ m', (next m).1 = some t ∧ remove (next m).2 t = some m' ∧ M.Holds file m' q ∧
      Frame file (t :: q) m m'

structure Scheduling (σ : Type) where
  /-- `current_scheduler` -/
  current : Option Nat
  memory : σ

section Code
variable {σ : Type}

/-- `while (next != NULL) { old->remove(next); new->admit(next); next = old->next(); }` with
the first `next` read before it.  `none` also when the loop is not over after `fuel` turns. -/
def moveThreads (old new : SchedulerObject σ) : Nat → σ → Option σ
  | 0, _ => none
  | fuel + 1, s =>
      match old.next s with
      | (none, s) => some s
      | (some next, s) => do
          let s ← old.remove s next
          let s ← new.admitThread s next
          moveThreads old new fuel s

def newScheduler (roundRobin : Nat) (scheduler : Option Nat) : Nat := scheduler.getD roundRobin

def lwpSetScheduler (object : Nat → SchedulerObject σ) (roundRobin fuel : Nat)
    (s : Scheduling σ) (scheduler : Option Nat) : Option (Scheduling σ) :=
  -- the argument is compared before the default is applied
  if s.current = scheduler then some s
  else
    let new := newScheduler roundRobin scheduler
    let memory := match (object new).init with
      | some init => init s.memory
      | none => s.memory
    match s.current with
    | none => some ⟨some new, memory⟩
    | some old => do
        let memory ← moveThreads (object old) (object new) fuel memory
        let memory := match (object old).shutdown with
          | some shutdown => shutdown memory
          | none => memory
        return ⟨some new, memory⟩

end Code

/-! ## RoundRobin behaves as a queue -/

/-- `head` and `tail` of scheduler.c -/
structure Ends where
  head : Option Thread
  tail : Option Thread

/-- The ring from `head` is `q`, with `tail` on it. -/
def HoldsRing (r : RoundRobin) (q : List Thread) : Prop := Ready ⟨r, q, none, false⟩ q

/-- It closes at `tail`. -/
def FilledRing (r : RoundRobin) (q : List Thread) : Prop :=
  HoldsRing r q ∧ (q ≠ [] → r.tail = q.getLast?)

/-- The links of threads outside `q` are as before. -/
def SameLinks (q : List Thread) (r r' : RoundRobin) : Prop :=
  ∀ t, t ∉ q → r'.schedOne t = r.schedOne t ∧ r'.schedTwo t = r.schedTwo t

section RoundRobin
variable {r r' : RoundRobin} {q : List Thread} {t : Thread}

theorem Ready.holdsRing {w : Queue} (ready : Ready w q) : HoldsRing w.rr q :=
  ⟨rfl, ready.head, ready.ring, ready.nodup, List.Perm.refl q, ready.tail,
    fun _ none => by cases none⟩

theorem holdsRing_empty (headless : r.head = none) : HoldsRing r [] :=
  ⟨rfl, headless, trivial, List.nodup_nil, List.Perm.refl _, fun some => absurd rfl some,
    fun _ none => by cases none⟩

theorem HoldsRing.congr (holds : HoldsRing r q) (head : r'.head = r.head)
    (tail : r'.tail = r.tail)
    (links : ∀ t ∈ q, r'.schedOne t = r.schedOne t ∧ r'.schedTwo t = r.schedTwo t) :
    HoldsRing r' q := by
  refine ⟨rfl, head.trans holds.head, ?_, holds.nodup, List.Perm.refl q, ?_,
    fun _ none => by cases none⟩
  · exact holds.ring.congr (fun t member => (links t member).2) fun t member => (links t member).1
  · intro some
    obtain ⟨t, member, isTail⟩ := holds.tail some
    exact ⟨t, member, tail.trans isTail⟩

theorem FilledRing.congr (filled : FilledRing r q) (head : r'.head = r.head)
    (tail : r'.tail = r.tail)
    (links : ∀ t ∈ q, r'.schedOne t = r.schedOne t ∧ r'.schedTwo t = r.schedTwo t) :
    FilledRing r' q :=
  ⟨filled.1.congr head tail links, fun some => tail.trans (filled.2 some)⟩

theorem HoldsRing.ends (holds : HoldsRing r q) :
    (∀ h, r.head = some h → h ∈ q) ∧ ∀ h, r.head = some h → ∀ e, r.tail = some e → e ∈ q := by
  have head : r.head = q.head? := holds.head
  refine ⟨fun h isHead => List.mem_of_head? (head.symm.trans isHead), ?_⟩
  intro h isHead e isTail
  have some : q ≠ [] := by
    rintro rfl
    rw [head] at isHead
    cases isHead
  obtain ⟨e', member, isTail'⟩ := holds.tail some
  have isTail' : r.tail = Option.some e' := isTail'
  exact Option.some.inj (isTail'.symm.trans isTail) ▸ member

theorem rrAdmit_sameLinks (holds : HoldsRing r q) (run : rrAdmit r t = some r') :
    SameLinks (t :: q) r r' := by
  obtain ⟨heads, tails⟩ := holds.ends
  intro u outside
  obtain ⟨other, notIn⟩ : u ≠ t ∧ u ∉ q := by simpa using outside
  unfold rrAdmit at run
  cases isHead : r.head with
  | none =>
      simp only [isHead, Option.some.injEq] at run
      subst run
      simp [update_of_ne other]
  | some h =>
      cases isTail : r.tail with
      | none => simp [isHead, isTail] at run
      | some e =>
          have uh : u ≠ h := fun same => notIn (same ▸ heads h isHead)
          have ue : u ≠ e := fun same => notIn (same ▸ tails h isHead e isTail)
          simp only [isHead, isTail, Option.bind_eq_bind, Option.bind_some, Option.pure_def,
            Option.some.injEq] at run
          subst run
          simp [update_of_ne other, update_of_ne uh, update_of_ne ue]

theorem rrAdmit_head (run : rrAdmit r t = some r') : r'.head ≠ none := by
  unfold rrAdmit at run
  cases isHead : r.head with
  | none =>
      simp only [isHead, Option.some.injEq] at run
      subst run
      exact Option.some_ne_none t
  | some h =>
      cases isTail : r.tail with
      | none => simp [isHead, isTail] at run
      | some e =>
          simp only [isHead, isTail, Option.bind_eq_bind, Option.bind_some, Option.pure_def,
            Option.some.injEq] at run
          subst run
          exact Option.some_ne_none h

theorem rrAdmit_filled (filled : FilledRing r q) (fresh : t ∉ q) :
    ∃ r', rrAdmit r t = some r' ∧ FilledRing r' (q ++ [t]) ∧ SameLinks (t :: q) r r' := by
  have admitted : Ready (call ⟨r, q, none, false⟩ (.admitThread t)) (q ++ [t]) ∧
      (call ⟨r, q, none, false⟩ (.admitThread t)).rr.tail = some t := by
    cases q with
    | nil =>
        have head : r.head = none := filled.1.head
        refine ⟨admit_ready filled.1 fresh (.inl head), ?_⟩
        simp [call, rrAdmit, head]
    | cons h q =>
        obtain ⟨ready, isTail, _⟩ := admit_last filled.1 (filled.2 (by simp)) fresh
        exact ⟨ready, isTail⟩
  obtain ⟨ready, isTail⟩ := admitted
  have running := ready.running
  have holds := ready.holdsRing
  cases run : rrAdmit r t with
  | none => simp [call, run] at running
  | some r' =>
      simp only [call, run] at holds isTail
      exact ⟨r', rfl, ⟨holds, fun _ => by simpa using isTail⟩, rrAdmit_sameLinks filled.1 run⟩

theorem rrNext_empty (holds : HoldsRing r []) : rrNext r = (none, r) := by
  have head : r.head = none := holds.head
  simp [rrNext, head]

theorem rrRemove_sameLinks {B : List Thread} (ring : Ring r.schedTwo r.schedOne (q ++ t :: B))
    (run : rrRemove r t = some r') : SameLinks (q ++ t :: B) r r' := by
  obtain ⟨x, xIn, next, _⟩ := ring.next (v := t) (by simp)
  obtain ⟨y, yIn, prev, _⟩ := ring.prev (v := t) (by simp)
  intro u outside
  have ux : u ≠ x := fun same => outside (same ▸ xIn)
  have uy : u ≠ y := fun same => outside (same ▸ yIn)
  unfold rrRemove at run
  split at run
  · obtain rfl := Option.some.inj run
    exact ⟨rfl, rfl⟩
  · split at run
    · obtain rfl := Option.some.inj run
      exact ⟨rfl, rfl⟩
    · simp only [prev, next, Option.bind_eq_bind, Option.bind_some, Option.pure_def,
        Option.some.injEq] at run
      subst run
      simp [update_of_ne ux, update_of_ne uy]

theorem rrNext_rrRemove (holds : HoldsRing r (t :: q)) :
    ∃ r', (rrNext r).1 = some t ∧ rrRemove (rrNext r).2 t = some r' ∧ HoldsRing r' q ∧
      SameLinks (t :: q) r r' := by
  obtain ⟨turned, last⟩ := next_rotates holds
  have taken := remove_ready turned last
  rw [List.append_nil] at taken
  have running := taken.running
  have ring := taken.holdsRing
  have head : r.head = some t := holds.head
  have links : (rrNext r).2 = { r with head := r.schedTwo t } := by simp [rrNext, head]
  cases removed : rrRemove (rrNext r).2 t with
  | none => simp [call, removed] at running
  | some r' =>
      simp only [call, removed] at ring
      refine ⟨r', by simp [rrNext, head], rfl, ring, ?_⟩
      have same := rrRemove_sameLinks (r := (rrNext r).2) (q := q) (B := []) turned.ring removed
      intro u outside
      have elsewhere : u ∉ q ++ [t] := by simpa [or_comm] using outside
      have same := same u elsewhere
      rwa [links] at same

end RoundRobin

/-- Where `head` and `tail` of scheduler.c are. -/
structure RingVariables (V : Type) where
  file : Nat
  get : V → Ends
  set : V → Ends → V
  get_set : ∀ v e, get (set v e) = e

namespace RingVariables

variable (c : RingVariables V) {m : SchedulerMemory V} {r : RoundRobin} {q : List Thread}

def read (m : SchedulerMemory V) : RoundRobin where
  head := (c.get (m.statics c.file)).head
  tail := (c.get (m.statics c.file)).tail
  schedOne t := (m.links t).1
  schedTwo t := (m.links t).2

def write (m : SchedulerMemory V) (r : RoundRobin) : SchedulerMemory V where
  statics := update m.statics c.file (c.set (m.statics c.file) ⟨r.head, r.tail⟩)
  links t := (r.schedOne t, r.schedTwo t)

@[simp] theorem read_write : c.read (c.write m r) = r := by
  simp [read, write, c.get_set]

theorem write_frame (same : SameLinks q (c.read m) r) : Frame c.file q m (c.write m r) where
  statics _ other := update_of_ne other ..
  links t outside := Prod.ext (same t outside).1 (same t outside).2

theorem read_frame {file : Nat} {m' : SchedulerMemory V} (frame : Frame file q m m')
    (other : c.file ≠ file) :
    (c.read m').head = (c.read m).head ∧ (c.read m').tail = (c.read m).tail ∧
      SameLinks q (c.read m) (c.read m') := by
  have ends : c.get (m'.statics c.file) = c.get (m.statics c.file) :=
    congrArg c.get (frame.statics c.file other)
  refine ⟨congrArg Ends.head ends, congrArg Ends.tail ends, fun t outside => ?_⟩
  have links := frame.links t outside
  exact ⟨congrArg Prod.fst links, congrArg Prod.snd links⟩

end RingVariables

/-- The variables of scheduler.c are read as the ring. -/
structure RoundRobinFile (M : Meaning V) extends RingVariables V where
  holds : ∀ m q, M.Holds file m q ↔ HoldsRing (toRingVariables.read m) q
  filled : ∀ m q, M.Filled file m q ↔ FilledRing (toRingVariables.read m) q
  occupied : ∀ m, M.Occupied file m ↔ (toRingVariables.read m).head ≠ none

/-- `rr_publish` -/
def roundRobin {M : Meaning V} (c : RoundRobinFile M) : QueueScheduler M where
  init := some fun m => c.write m (rrInit (c.read m))
  shutdown := some fun m => c.write m (rrShutdown (c.read m))
  admitThread m new := (rrAdmit (c.read m) new).map (c.write m)
  remove m victim := (rrRemove (c.read m) victim).map (c.write m)
  next m := ((rrNext (c.read m)).1, c.write m (rrNext (c.read m)).2)
  file := c.file
  init_filled isInit m := by
    obtain rfl := Option.some.inj isInit
    refine ⟨?_, c.write_frame fun _ _ => ⟨rfl, rfl⟩⟩
    rw [c.filled, c.read_write]
    exact ⟨holdsRing_empty rfl, fun some => absurd rfl some⟩
  shutdown_holds isShutdown m _ := by
    obtain rfl := Option.some.inj isShutdown
    refine ⟨?_, c.write_frame fun _ _ => ⟨rfl, rfl⟩⟩
    rw [c.holds, c.read_write]
    exact holdsRing_empty rfl
  admit_filled filled fresh := by
    rw [c.filled] at filled
    obtain ⟨r', run, filled', same⟩ := rrAdmit_filled filled fresh
    refine ⟨c.write _ r', by rw [run]; rfl, ?_, c.write_frame same⟩
    rwa [c.filled, c.read_write]
  admit_occupied run := by
    obtain ⟨r', admitted, rfl⟩ := Option.map_eq_some_iff.mp run
    rw [c.occupied, c.read_write]
    exact rrAdmit_head admitted
  next_occupied {m} occupied := by
    rw [c.occupied] at occupied
    obtain ⟨h, isHead⟩ := Option.ne_none_iff_exists'.mp occupied
    simp [rrNext, isHead]
  next_nil holds := by
    rw [c.holds] at holds
    have none := rrNext_empty holds
    refine ⟨by rw [none], ?_, ?_⟩
    · rwa [c.holds, c.read_write, none]
    · rw [none]
      exact c.write_frame fun _ _ => ⟨rfl, rfl⟩
  next_remove holds := by
    rw [c.holds] at holds
    obtain ⟨r', first, removed, holds', same⟩ := rrNext_rrRemove holds
    refine ⟨c.write _ r', first, by rw [c.read_write, removed]; rfl, ?_, ?_⟩
    · rwa [c.holds, c.read_write]
    · exact ⟨fun i other => (update_of_ne other ..).trans (update_of_ne other ..),
        (c.write_frame same).links⟩

section Moves
variable {M : Meaning V} {old new : QueueScheduler M} {m : SchedulerMemory V} {p q : List Thread}

theorem nobody_in : ∀ t ∈ ([] : List Thread), t ∉ p := by
  intro _ none
  cases none

theorem QueueScheduler.holds_nil (holds : M.Holds old.file m q) (empty : M.Holds old.file m []) :
    q = [] := by
  cases q with
  | nil => rfl
  | cons t q =>
      obtain ⟨_, first, _⟩ := old.next_remove holds
      rw [(old.next_nil empty).1] at first
      cases first

/-- Between different files the loop moves every thread, in the order of the old queue. -/
theorem moveThreads_all (apart : old.file ≠ new.file) (holds : M.Holds old.file m q)
    (filled : M.Filled new.file m p) (nodup : (p ++ q).Nodup) :
    ∃ m', (∀ fuel, q.length < fuel →
        moveThreads old.toSchedulerObject new.toSchedulerObject fuel m = some m') ∧
      M.Holds old.file m' [] ∧ M.Filled new.file m' (p ++ q) ∧
      ∀ i, i ≠ old.file → i ≠ new.file → M.Holds i m [] → M.Holds i m' [] := by
  induction q generalizing m p with
  | nil =>
      obtain ⟨none, holds', frame⟩ := old.next_nil holds
      refine ⟨(old.next m).2, ?_, holds', ?_, ?_⟩
      · intro fuel enough
        obtain ⟨fuel, rfl⟩ := Nat.exists_eq_succ_of_ne_zero (Nat.ne_of_gt enough)
        rw [moveThreads]
        generalize old.next m = answer at none
        obtain ⟨_, m'⟩ := answer
        cases none
        rfl
      · rw [List.append_nil]
        exact M.filled_frame frame apart.symm (fun _ _ => List.not_mem_nil) filled
      · exact fun i other _ empty => M.holds_frame frame other nobody_in empty
  | cons t q ih =>
      obtain ⟨m₁, first, removed, holds₁, frame₁⟩ := old.next_remove holds
      obtain ⟨_, others, disjoint⟩ := List.nodup_append.mp nodup
      obtain ⟨notInQ, _⟩ := List.nodup_cons.mp others
      have notInP : t ∉ p := fun member => disjoint t member t (by simp) rfl
      have filled₁ : M.Filled new.file m₁ p := M.filled_frame frame₁ apart.symm
        (fun x member inQ => disjoint x member x inQ rfl) filled
      obtain ⟨m₂, admitted, filled₂, frame₂⟩ := new.admit_filled filled₁ notInP
      have holds₂ : M.Holds old.file m₂ q := by
        refine M.holds_frame frame₂ apart (fun x member inP => ?_) holds₁
        rcases List.mem_cons.mp inP with rfl | inP
        · exact notInQ member
        · exact disjoint x inP x (List.mem_cons_of_mem t member) rfl
      obtain ⟨m', rest, empty, filled', kept⟩ := ih holds₂ filled₂ (by simpa using nodup)
      refine ⟨m', ?_, empty, by simpa using filled', ?_⟩
      · intro fuel enough
        obtain ⟨fuel, rfl⟩ := Nat.exists_eq_succ_of_ne_zero (Nat.ne_zero_of_lt enough)
        rw [moveThreads]
        generalize old.next m = answer at first removed
        obtain ⟨next, m₀⟩ := answer
        cases first
        simp only [removed, admitted, Option.bind_eq_bind, Option.bind_some]
        exact rest fuel (by simpa using enough)
      · intro i isOld isNew none
        have none₁ := M.holds_frame frame₁ isOld nobody_in none
        exact kept i isOld isNew (M.holds_frame frame₂ isNew nobody_in none₁)

theorem moveThreads_none (empty : M.Holds old.file m []) (fuel : Nat) :
    moveThreads old.toSchedulerObject new.toSchedulerObject (fuel + 1) m =
      some (old.next m).2 := by
  have none := (old.next_nil empty).1
  rw [moveThreads]
  generalize old.next m = answer at none
  obtain ⟨_, m'⟩ := answer
  cases none
  rfl

/-- Within one file every thread that is taken out is put in again: the loop has no end. -/
theorem moveThreads_endless (shared : old.file = new.file) (fuel : Nat)
    (somebody : (old.next m).1 ≠ none) :
    moveThreads old.toSchedulerObject new.toSchedulerObject fuel m = none := by
  induction fuel generalizing m with
  | zero => rfl
  | succ fuel ih =>
      rw [moveThreads]
      generalize old.next m = answer at somebody
      obtain ⟨next, m₀⟩ := answer
      cases next with
      | none => exact absurd rfl somebody
      | some t =>
          cases removed : old.remove m₀ t with
          | none => simp [removed]
          | some m₁ =>
              cases admitted : new.admitThread m₁ t with
              | none => simp [removed, admitted]
              | some m₂ =>
                  have occupied : M.Occupied old.file m₂ := shared ▸ new.admit_occupied admitted
                  simp only [removed, admitted, Option.bind_eq_bind, Option.bind_some]
                  exact ih (old.next_occupied occupied)

end Moves

/-! ## What the call keeps -/

section Call
variable {M : Meaning V} {table : Nat → QueueScheduler M} {roundRobinAt current : Nat}
  {s : Scheduling (SchedulerMemory V)} {scheduler : Option Nat} {q : List Thread}

def objects (table : Nat → QueueScheduler M) (i : Nat) : SchedulerObject (SchedulerMemory V) :=
  (table i).toSchedulerObject

/-- The current scheduler holds the ready threads.  A scheduler of another file that has no
init is ready for use as it is. -/
structure Stocked (table : Nat → QueueScheduler M) (current : Nat)
    (s : Scheduling (SchedulerMemory V)) (q : List Thread) : Prop where
  isCurrent : s.current = some current
  holds : M.Holds (table current).file s.memory q
  idle : ∀ b, (table b).file ≠ (table current).file → (table b).init = none →
    M.Holds (table b).file s.memory []

/-- The call returns, and the scheduler that is current then holds the threads, in order. -/
def KeepsReady (table : Nat → QueueScheduler M) (roundRobinAt : Nat)
    (s : Scheduling (SchedulerMemory V)) (scheduler : Option Nat) (q : List Thread) : Prop :=
  ∃ s' current', (∀ fuel, q.length < fuel →
      lwpSetScheduler (objects table) roundRobinAt fuel s scheduler = some s') ∧
    Stocked table current' s' q

/-- The functions of the objects work on the same static variables. -/
def SharesStatics (old new : QueueScheduler M) : Prop := old.file = new.file

instance (old new : QueueScheduler M) : Decidable (SharesStatics old new) :=
  inferInstanceAs (Decidable (old.file = new.file))

/-- The memory after `init` of the new scheduler. -/
def initialised {σ : Type} (new : SchedulerObject σ) (memory : σ) : σ :=
  match new.init with
  | some init => init memory
  | none => memory

/-- The memory after `shutdown` of the old one. -/
def shutDown {σ : Type} (old : SchedulerObject σ) (memory : σ) : σ :=
  match old.shutdown with
  | some shutdown => shutdown memory
  | none => memory

theorem lwpSetScheduler_moves (isCurrent : s.current = some current)
    (other : scheduler ≠ some current) (fuel : Nat) :
    lwpSetScheduler (objects table) roundRobinAt fuel s scheduler =
      (moveThreads (objects table current) (objects table (newScheduler roundRobinAt scheduler))
        fuel (initialised (objects table (newScheduler roundRobinAt scheduler)) s.memory)).map
        fun m => ⟨some (newScheduler roundRobinAt scheduler),
          shutDown (objects table current) m⟩ := by
  rw [lwpSetScheduler, if_neg fun same => other (same.symm.trans isCurrent), isCurrent]
  exact (Option.map_eq_bind ..).symm

theorem initialised_frame (new : QueueScheduler M) (m : SchedulerMemory V) :
    Frame new.file [] m (initialised new.toSchedulerObject m) := by
  unfold initialised
  split
  · next isInit => exact (new.init_filled isInit m).2
  · exact ⟨fun _ _ => rfl, fun _ _ => rfl⟩

theorem initialised_filled (new : QueueScheduler M) (m : SchedulerMemory V)
    (idle : new.init = none → M.Holds new.file m []) :
    M.Filled new.file (initialised new.toSchedulerObject m) [] := by
  unfold initialised
  split
  · next isInit => exact (new.init_filled isInit m).1
  · next none => exact M.filled_nil (idle none)

theorem shutDown_empty {old : QueueScheduler M} {m : SchedulerMemory V}
    (empty : M.Holds old.file m []) :
    M.Holds old.file (shutDown old.toSchedulerObject m) [] ∧
      Frame old.file [] m (shutDown old.toSchedulerObject m) := by
  unfold shutDown
  split
  · next isShutdown => exact old.shutdown_holds isShutdown empty
  · exact ⟨empty, fun _ _ => rfl, fun _ _ => rfl⟩

theorem keeps_of_apart (stocked : Stocked table current s q) (other : scheduler ≠ some current)
    (apart : (table current).file ≠ (table (newScheduler roundRobinAt scheduler)).file) :
    KeepsReady table roundRobinAt s scheduler q := by
  have init := initialised_frame (table (newScheduler roundRobinAt scheduler)) s.memory
  have ready := initialised_filled _ s.memory
    (stocked.idle (newScheduler roundRobinAt scheduler) apart.symm)
  have holds := M.holds_frame init apart (fun _ _ => List.not_mem_nil) stocked.holds
  obtain ⟨m, moved, empty, all, kept⟩ :=
    moveThreads_all apart holds ready (by simpa using M.nodup holds)
  obtain ⟨emptied, shutdown⟩ := shutDown_empty empty
  refine ⟨⟨some (newScheduler roundRobinAt scheduler), shutDown (objects table current) m⟩,
    newScheduler roundRobinAt scheduler, fun fuel enough => ?_, rfl, ?_, ?_⟩
  · rw [lwpSetScheduler_moves stocked.isCurrent other, objects, objects, moved fuel enough]
    rfl
  · exact M.filled_holds (M.filled_frame shutdown apart.symm (fun _ _ => List.not_mem_nil) all)
  · intro b isOther noInit
    by_cases isOld : (table b).file = (table current).file
    · rw [isOld]
      exact emptied
    · have idle := M.holds_frame init isOther nobody_in (stocked.idle b isOld noInit)
      exact M.holds_frame shutdown isOld nobody_in (kept _ isOld isOther idle)

/-- Where the variables are shared and the init has emptied them, no thread is moved. -/
theorem keeps_emptied_iff (stocked : Stocked table current s q)
    (other : scheduler ≠ some current)
    (shared : SharesStatics (table current) (table (newScheduler roundRobinAt scheduler)))
    (empty : M.Holds (table current).file
      (initialised (objects table (newScheduler roundRobinAt scheduler)) s.memory) []) :
    KeepsReady table roundRobinAt s scheduler q ↔ q = [] := by
  have init := initialised_frame (table (newScheduler roundRobinAt scheduler)) s.memory
  rw [← shared] at init
  obtain ⟨_, still, next⟩ := (table current).next_nil empty
  obtain ⟨emptied, shutdown⟩ := shutDown_empty still
  let after := shutDown (objects table current) ((table current).next
    (initialised (objects table (newScheduler roundRobinAt scheduler)) s.memory)).2
  have result : ∀ fuel, lwpSetScheduler (objects table) roundRobinAt (fuel + 1) s scheduler =
      some ⟨some (newScheduler roundRobinAt scheduler), after⟩ := by
    intro fuel
    rw [lwpSetScheduler_moves stocked.isCurrent other]
    exact congrArg (Option.map _) (moveThreads_none empty fuel)
  constructor
  · rintro ⟨s', current', run, stocked'⟩
    obtain rfl := Option.some.inj ((result q.length).symm.trans (run (q.length + 1) (by omega)))
    obtain rfl := Option.some.inj stocked'.isCurrent
    have holds := stocked'.holds
    rw [← shared] at holds
    exact QueueScheduler.holds_nil holds emptied
  · rintro rfl
    refine ⟨⟨some (newScheduler roundRobinAt scheduler), after⟩,
      newScheduler roundRobinAt scheduler, fun fuel enough => ?_, rfl, ?_, ?_⟩
    · obtain ⟨fuel, rfl⟩ := Nat.exists_eq_succ_of_ne_zero (Nat.ne_of_gt enough)
      exact result fuel
    · rw [← shared]
      exact emptied
    · rw [← shared]
      intro b isOther noInit
      have idle := M.holds_frame init isOther nobody_in (stocked.idle b isOther noInit)
      exact M.holds_frame shutdown isOther nobody_in (M.holds_frame next isOther nobody_in idle)

/-- One that shares the variables of the current one keeps no thread: its init empties them,
and without an init the loop has no end. -/
theorem keeps_shared_iff (stocked : Stocked table current s q) (other : scheduler ≠ some current)
    (shared : SharesStatics (table current) (table (newScheduler roundRobinAt scheduler))) :
    KeepsReady table roundRobinAt s scheduler q ↔ q = [] := by
  let new := newScheduler roundRobinAt scheduler
  cases isInit : (table new).init with
  | some f =>
      refine keeps_emptied_iff stocked other shared ?_
      have ready := initialised_filled (table new) s.memory
        fun none => by rw [isInit] at none; cases none
      rw [shared]
      exact M.filled_holds ready
  | none =>
      have unchanged : initialised (objects table new) s.memory = s.memory := by
        unfold initialised objects
        rw [isInit]
      cases q with
      | nil =>
          refine keeps_emptied_iff stocked other shared ?_
          rw [unchanged]
          exact stocked.holds
      | cons t q =>
          refine iff_of_false ?_ (List.cons_ne_nil t q)
          rintro ⟨s', _, run, _⟩
          obtain ⟨_, first, _⟩ := (table current).next_remove stocked.holds
          have endless : moveThreads (objects table current) (objects table new)
              ((t :: q).length + 1) s.memory = none :=
            moveThreads_endless shared _ (by rw [first]; exact Option.some_ne_none t)
          have returned := run ((t :: q).length + 1) (Nat.lt_succ_self _)
          rw [lwpSetScheduler_moves stocked.isCurrent other, unchanged, endless] at returned
          cases returned

/-- The ready threads are kept unless the scheduler installed has the variables of the one
it replaces.  NULL installs RoundRobin anew, also where RoundRobin is current. -/
theorem set_scheduler_keeps_iff (stocked : Stocked table current s q) :
    KeepsReady table roundRobinAt s scheduler q ↔
      scheduler = some current ∨ q = [] ∨
        ¬ SharesStatics (table current) (table (newScheduler roundRobinAt scheduler)) := by
  by_cases same : scheduler = some current
  · refine iff_of_true ⟨s, current, ?_, stocked⟩ (Or.inl same)
    intro fuel _
    rw [lwpSetScheduler, if_pos (stocked.isCurrent.trans same.symm)]
  by_cases shared : SharesStatics (table current) (table (newScheduler roundRobinAt scheduler))
  · simpa [same, shared] using keeps_shared_iff stocked same shared
  · exact iff_of_true (keeps_of_apart stocked same shared) (Or.inr (Or.inr shared))

end Call

/-- The variables of a file with a ring, and those of one with a list. -/
structure RingOrList where
  ends : Ends
  list : List Thread

def ringVariables : RingVariables RingOrList where
  file := 0
  get := RingOrList.ends
  set v e := { v with ends := e }
  get_set _ _ := rfl

/-- File 0 is scheduler.c; the others have a list. -/
def ringFirst : Meaning RingOrList where
  Holds i m q := if i = 0 then HoldsRing (ringVariables.read m) q
    else (m.statics i).list = q ∧ q.Nodup
  Filled i m q := if i = 0 then FilledRing (ringVariables.read m) q
    else (m.statics i).list = q ∧ q.Nodup
  Occupied i m := if i = 0 then (ringVariables.read m).head ≠ none else (m.statics i).list ≠ []
  nodup {i _ _} holds := by
    by_cases isRing : i = 0
    · rw [if_pos isRing] at holds
      exact Ready.nodup holds
    · rw [if_neg isRing] at holds
      exact holds.2
  filled_holds {i _ _} filled := by
    by_cases isRing : i = 0
    · rw [if_pos isRing] at filled ⊢
      exact filled.1
    · rwa [if_neg isRing] at filled ⊢
  filled_nil {i _} holds := by
    by_cases isRing : i = 0
    · rw [if_pos isRing] at holds ⊢
      exact ⟨holds, fun some => absurd rfl some⟩
    · rwa [if_neg isRing] at holds ⊢
  holds_frame {i j m m' p q} frame other outside holds := by
    by_cases isRing : i = 0
    · subst isRing
      obtain ⟨head, tail, links⟩ := ringVariables.read_frame frame other
      exact HoldsRing.congr holds head tail fun t member => links t (outside t member)
    · rw [if_neg isRing] at holds ⊢
      rwa [frame.statics i other]
  filled_frame {i j m m' p q} frame other outside filled := by
    by_cases isRing : i = 0
    · subst isRing
      obtain ⟨head, tail, links⟩ := ringVariables.read_frame frame other
      exact FilledRing.congr filled head tail fun t member => links t (outside t member)
    · rw [if_neg isRing] at filled ⊢
      rwa [frame.statics i other]

def schedulerFile : RoundRobinFile ringFirst where
  toRingVariables := ringVariables
  holds _ _ := Iff.rfl
  filled _ _ := Iff.rfl
  occupied _ := Iff.rfl

def setList (m : SchedulerMemory RingOrList) (list : List Thread) : SchedulerMemory RingOrList :=
  { m with statics := update m.statics 1 { m.statics 1 with list := list } }

theorem setList_frame (m : SchedulerMemory RingOrList) (list : List Thread) {q : List Thread} :
    Frame 1 q m (setList m list) :=
  ⟨fun _ other => update_of_ne other .., fun _ _ => rfl⟩

@[simp] theorem setList_list (m : SchedulerMemory RingOrList) (list : List Thread) :
    ((setList m list).statics 1).list = list := by
  simp [setList]

def listScheduler : QueueScheduler ringFirst where
  init := some fun m => setList m []
  shutdown := none
  admitThread m new := some (setList m ((m.statics 1).list ++ [new]))
  remove m victim := some (setList m ((m.statics 1).list.erase victim))
  next m := ((m.statics 1).list.head?, m)
  file := 1
  init_filled isInit m := by
    obtain rfl := Option.some.inj isInit
    exact ⟨⟨setList_list m [], List.nodup_nil⟩, setList_frame m []⟩
  shutdown_holds isShutdown := by cases isShutdown
  admit_filled {m q t} filled fresh := by
    obtain ⟨rfl, nodup⟩ := filled
    refine ⟨_, rfl, ⟨setList_list _ _, List.nodup_append.mpr ⟨nodup, by simp, ?_⟩⟩,
      setList_frame _ _⟩
    rintro x member y isNew rfl
    exact fresh (List.mem_singleton.mp isNew ▸ member)
  admit_occupied run := by
    obtain rfl := Option.some.inj run
    simp [ringFirst]
  next_occupied {m} occupied := by
    have some : (m.statics 1).list ≠ [] := occupied
    simpa using some
  next_nil holds := by
    obtain ⟨none, _⟩ := holds
    exact ⟨by rw [none]; rfl, ⟨none, List.nodup_nil⟩, fun _ _ => rfl, fun _ _ => rfl⟩
  next_remove holds := by
    obtain ⟨isList, nodup⟩ := holds
    exact ⟨_, by rw [isList]; rfl, rfl, ⟨by simp [isList], (List.nodup_cons.mp nodup).2⟩,
      setList_frame _ _⟩

/-- `*RoundRobin` with a NULL init. -/
def withoutInit : QueueScheduler ringFirst :=
  { roundRobin schedulerFile with
    init := none
    init_filled := fun isInit => by cases isInit }

def threeSchedulers : Nat → QueueScheduler ringFirst
  | 0 => roundRobin schedulerFile
  | 1 => withoutInit
  | _ + 2 => listScheduler

def emptyMemory : SchedulerMemory RingOrList := ⟨fun _ => ⟨⟨none, none⟩, []⟩, fun _ => (none, none)⟩

theorem threeSchedulers_idle {current : Nat} (m : SchedulerMemory RingOrList)
    (ring : (threeSchedulers current).file ≠ 0 → (ringVariables.read m).head = none) (b : Nat)
    (isOther : (threeSchedulers b).file ≠ (threeSchedulers current).file)
    (noInit : (threeSchedulers b).init = none) :
    ringFirst.Holds (threeSchedulers b).file m [] := by
  rcases b with _ | _ | b
  · cases noInit
  · exact holdsRing_empty (ring isOther.symm)
  · cases noInit

def twoListed : Scheduling (SchedulerMemory RingOrList) := ⟨some 2, setList emptyMemory [2, 3]⟩

/-- NULL in place of the list scheduler: RoundRobin takes its two threads. -/
theorem set_scheduler_keeps_iff_list : KeepsReady threeSchedulers 0 twoListed none [2, 3] := by
  have stocked : Stocked threeSchedulers 2 twoListed [2, 3] :=
    ⟨rfl, ⟨setList_list _ _, by decide⟩, threeSchedulers_idle _ fun _ => rfl⟩
  exact (set_scheduler_keeps_iff stocked).mpr (Or.inr (Or.inr (by decide +kernel)))

def oneRinged (t : Thread) : Scheduling (SchedulerMemory RingOrList) :=
  ⟨some 0, ringVariables.write emptyMemory ⟨some t, some t, fun _ => some t, fun _ => some t⟩⟩

theorem oneRinged_stocked (t : Thread) : Stocked threeSchedulers 0 (oneRinged t) [t] :=
  ⟨rfl, ⟨rfl, rfl, ⟨rfl, rfl⟩, List.nodup_singleton t, List.Perm.refl _,
    fun _ => ⟨t, by simp, rfl⟩, fun _ none => by cases none⟩,
    threeSchedulers_idle _ fun notRing => absurd rfl notRing⟩

/-- NULL drops the thread, and the object without an init never returns. -/
theorem set_scheduler_drops_ready :
    Stocked threeSchedulers 0 (oneRinged 1) [1] ∧
      ¬ KeepsReady threeSchedulers 0 (oneRinged 1) none [1] ∧
      ¬ KeepsReady threeSchedulers 0 (oneRinged 1) (some 1) [1] := by
  refine ⟨oneRinged_stocked 1, fun keeps => ?_, fun keeps => ?_⟩
  · have shared : SharesStatics (threeSchedulers 0) (threeSchedulers (newScheduler 0 none)) := rfl
    have nobody := (keeps_shared_iff (oneRinged_stocked 1) (by decide) shared).mp keeps
    cases nobody
  · have shared : SharesStatics (threeSchedulers 0) (threeSchedulers (newScheduler 0 (some 1))) :=
      rfl
    have nobody := (keeps_shared_iff (oneRinged_stocked 1) (by decide) shared).mp keeps
    cases nobody

end Csc457.Lwp
