import Csc457.Lib.CircularList
import Csc457.Lib.Transition

/-!
# The RoundRobin scheduler

The functions of scheduler.c.  A thread is known by its number, a missing
thread is `none`, and the two scheduler links of the contexts are kept here as
maps.  `none` for an answer is a NULL pointer followed.

`head` moves at every rr_next and `tail` does not, so that only an rr_admit
made while the ring still closes at `tail` keeps the ring whole.  The runs in
which every admission is of that kind are exactly the ones in which the
scheduler keeps its threads.
-/

set_option autoImplicit false

namespace Csc457.Lwp

open Function
open Csc457.Lib.CircularList Csc457.Lib.Transition

abbrev Thread := Nat

structure RoundRobin where
  head : Option Thread
  tail : Option Thread
  schedOne : Thread → Option Thread
  schedTwo : Thread → Option Thread

def rrInit (s : RoundRobin) : RoundRobin := { s with head := none, tail := none }

def rrShutdown (s : RoundRobin) : RoundRobin := { s with head := none, tail := none }

def rrAdmit (s : RoundRobin) (new : Thread) : Option RoundRobin :=
  match s.head with
  -- start of list
  | none => some
      { head := some new
        tail := some new
        schedOne := update s.schedOne new (some new)
        schedTwo := update s.schedTwo new (some new) }
  -- add to end of list
  | some head => do
      let tail ← s.tail
      return {
        head := some head
        tail := some new
        schedTwo := update (update s.schedTwo new (some head)) tail (some new)
        schedOne := update (update s.schedOne new (some tail)) head (some new) }

def rrRemove (s : RoundRobin) (victim : Thread) : Option RoundRobin :=
  if s.head = none then some s
  -- head and tail are same, only one thread in the list
  else if s.head = some victim ∧ s.tail = some victim then
    some { s with head := none, tail := none }
  else do
    let prev ← s.schedOne victim
    let next ← s.schedTwo victim
    return {
      head := if s.head = some victim then some next else s.head
      tail := if s.tail = some victim then some prev else s.tail
      schedTwo := update s.schedTwo prev (some next)
      schedOne := update s.schedOne next (some prev) }

def rrNext (s : RoundRobin) : Option Thread × RoundRobin :=
  match s.head with
  | none => (none, s)
  | some head => (some head, { s with head := s.schedTwo head })

/-- `while (curr != head) { count++; curr = curr->sched_two; }` -/
def countNodes (s : RoundRobin) : Nat → Option Thread → Nat → Option Nat
  | 0, _, _ => none
  | fuel + 1, curr, count =>
      if curr = s.head then some count
      else do
        let node ← curr
        countNodes s fuel (s.schedTwo node) (count + 1)

/-- The walk need not come back to `head`: `none` also when it has not after `fuel` turns. -/
def rrQlen (fuel : Nat) (s : RoundRobin) : Option Nat :=
  match s.head with
  | none => some 0
  | some head => countNodes s fuel (s.schedTwo head) 1

inductive Call where
  | admitThread (new : Thread)
  | remove (victim : Thread)
  | next
  deriving DecidableEq, Repr

/-- The scheduler, and what its caller knows: the threads admitted and not yet
removed, and the one rr_next returned last. -/
structure Queue where
  rr : RoundRobin
  pool : List Thread
  last : Option Thread
  crashed : Bool

/-- The calls lwp.c can issue. -/
def Issued (q : Queue) : Call → Prop
  | .admitThread new => new ∉ q.pool
  | .remove victim => q.last = some victim ∧ victim ∈ q.pool
  | .next => True

def call (q : Queue) : Call → Queue
  | .admitThread new =>
      match rrAdmit q.rr new with
      | some rr => { q with rr := rr, pool := new :: q.pool }
      | none => { q with crashed := true }
  | .remove victim =>
      match rrRemove q.rr victim with
      | some rr => { q with rr := rr, pool := q.pool.erase victim }
      | none => { q with crashed := true }
  | .next => { q with rr := (rrNext q.rr).2, last := (rrNext q.rr).1 }

/-- A call is issued while the program still runs. -/
def Issues (q : Queue) (c : Call) : Prop := q.crashed = false ∧ Issued q c

instance (q : Queue) : (c : Call) → Decidable (Issued q c)
  | .admitThread new => inferInstanceAs (Decidable (new ∉ q.pool))
  | .remove victim => inferInstanceAs (Decidable (q.last = some victim ∧ victim ∈ q.pool))
  | .next => inferInstanceAs (Decidable True)

instance (q : Queue) (c : Call) : Decidable (Issues q c) :=
  inferInstanceAs (Decidable (q.crashed = false ∧ Issued q c))

def callStep (q : Queue) (c : Call) (q' : Queue) : Prop := Issues q c ∧ q' = call q c

/-- After rr_init, with whatever the links of the contexts hold. -/
def Empty (q : Queue) : Prop :=
  q.rr.head = none ∧ q.rr.tail = none ∧ q.pool = [] ∧ q.last = none ∧ q.crashed = false

/-- The scheduler holds the threads of the pool and no others: they are the
ring from `head`, rr_qlen counts them, and rr_next returns one of them. -/
structure Keeps (q : Queue) : Prop where
  running : q.crashed = false
  ring : ∃ l, q.rr.head = l.head? ∧ Ring q.rr.schedTwo q.rr.schedOne l ∧ l.Nodup ∧ l.Perm q.pool
  qlen : ∀ fuel, q.pool.length ≤ fuel → rrQlen fuel q.rr = some q.pool.length
  next : ∀ t, (rrNext q.rr).1 = some t → t ∈ q.pool
  none : (rrNext q.rr).1 = none ↔ q.pool = []

/-- The invariant: `tail` is some node of the ring, not necessarily the last. -/
structure Ready (q : Queue) (l : List Thread) : Prop where
  running : q.crashed = false
  head : q.rr.head = l.head?
  ring : Ring q.rr.schedTwo q.rr.schedOne l
  nodup : l.Nodup
  pool : l.Perm q.pool
  tail : l ≠ [] → ∃ t ∈ l, q.rr.tail = some t
  lone : ∀ v, q.last = some v → q.rr.head = some v → q.rr.tail = some v → l = [v]

/-- What an admission needs: an empty ring, or one that closes at `tail`. -/
def Closes (q : Queue) : Call → Prop
  | .admitThread _ => q.rr.head = none ∨ ∃ t, q.rr.tail = some t ∧ q.rr.schedTwo t = q.rr.head
  | _ => True

theorem countNodes_path {s : RoundRobin} {h a : Thread} {l : List Thread} (fuel count : Nat)
    (isHead : s.head = some h) (path : Path s.schedTwo s.schedOne a l h) (avoids : h ∉ l)
    (enough : l.length < fuel) :
    countNodes s fuel (s.schedTwo a) count = some (count + l.length) := by
  induction l generalizing a fuel count with
  | nil =>
      cases fuel with
      | zero => simp at enough
      | succ fuel => simp [countNodes, path.1, isHead]
  | cons x l ih =>
      cases fuel with
      | zero => simp at enough
      | succ fuel =>
          obtain ⟨⟨next, _⟩, rest⟩ := path
          have other : x ≠ h := fun same => avoids (by simp [same])
          have tail := ih fuel (count + 1) rest
            (fun member => avoids (List.mem_cons_of_mem x member)) (by simpa using enough)
          simp only [countNodes, next, isHead, Option.some.injEq, other, if_false,
            Option.bind_eq_bind, Option.bind_some, tail, List.length_cons]
          omega

theorem Ready.keeps {q : Queue} {l : List Thread} (ready : Ready q l) : Keeps q := by
  have head := ready.head
  have len : l.length = q.pool.length := ready.pool.length_eq
  refine ⟨ready.running, ⟨l, head, ready.ring, ready.nodup, ready.pool⟩, ?_, ?_, ?_⟩
  · intro fuel enough
    cases l with
    | nil => simpa [rrQlen, head] using len
    | cons h l =>
        have path : Path q.rr.schedTwo q.rr.schedOne h l h := ready.ring
        have avoids := (List.nodup_cons.mp ready.nodup).1
        have count := countNodes_path fuel 1 head path avoids
          (by simp only [List.length_cons] at len; omega)
        simp only [rrQlen, head, List.head?_cons, count, ← len, List.length_cons]
        exact congrArg some (by omega)
  · intro t isNext
    cases l with
    | nil => simp [rrNext, head] at isNext
    | cons h l =>
        simp only [rrNext, head, List.head?_cons, Option.some.injEq] at isNext
        exact ready.pool.subset (by simp [isNext])
  · cases l with
    | nil =>
        have nobody : q.pool = [] := ready.pool.symm.eq_nil
        simp [rrNext, head, nobody]
    | cons h l =>
        have somebody : q.pool ≠ [] := by
          intro nobody
          rw [nobody] at len
          simp at len
        simp [rrNext, head, somebody]

/-! ## What a call does to the ring -/

section Call
variable {q : Queue} {l : List Thread}

theorem Empty.ready (empty : Empty q) : Ready q [] := by
  obtain ⟨headless, _, nobody, none, running⟩ := empty
  exact ⟨running, headless, trivial, List.nodup_nil, by rw [nobody], fun some => absurd rfl some,
    fun v isLast => by rw [none] at isLast; cases isLast⟩

theorem admit_ready {new : Thread} (ready : Ready q l) (fresh : new ∉ q.pool)
    (closes : Closes q (.admitThread new)) : Ready (call q (.admitThread new)) (l ++ [new]) := by
  have newcomer : new ∉ l := fun member => fresh (ready.pool.subset member)
  have nodup : (l ++ [new]).Nodup := by
    refine List.nodup_append.mpr ⟨ready.nodup, List.nodup_singleton new, ?_⟩
    intro x member y single same
    rw [List.mem_singleton] at single
    exact newcomer (single ▸ same ▸ member)
  have pool : (l ++ [new]).Perm (new :: q.pool) :=
    List.perm_append_comm.trans (ready.pool.cons new)
  have head := ready.head
  cases l with
  | nil =>
      have run : call q (.admitThread new) = { q with
          rr := ⟨some new, some new, update q.rr.schedOne new (some new),
            update q.rr.schedTwo new (some new)⟩
          pool := new :: q.pool } := by
        simp [call, rrAdmit, head]
      rw [run]
      refine ⟨ready.running, rfl, ring_singleton, nodup, pool, fun _ => ⟨new, by simp, rfl⟩, ?_⟩
      intro v _ isHead _
      have same : new = v := Option.some.inj isHead
      simp [same]
  | cons h l =>
      obtain ⟨t, isTail, back⟩ : ∃ t, q.rr.tail = some t ∧ q.rr.schedTwo t = q.rr.head :=
        closes.resolve_left (by simp [head])
      have inRing : t ∈ h :: l := by
        obtain ⟨t', member, isTail'⟩ := ready.tail (by simp)
        rw [isTail] at isTail'
        exact Option.some.inj isTail' ▸ member
      rw [head] at back
      have last := ready.ring.getLast_of_two ready.nodup inRing back
      have run : call q (.admitThread new) = { q with
          rr := ⟨some h, some new, update (update q.rr.schedOne new (some t)) h (some new),
            update (update q.rr.schedTwo new (some h)) t (some new)⟩
          pool := new :: q.pool } := by
        simp [call, rrAdmit, head, isTail]
      rw [run]
      refine ⟨ready.running, rfl, ready.ring.insert last newcomer ready.nodup, nodup, pool,
        fun _ => ⟨new, by simp, rfl⟩, ?_⟩
      intro v _ isHead isTail
      have atHead : h = v := Option.some.inj isHead
      have atTail : new = v := Option.some.inj isTail
      exact absurd (show new ∈ h :: l by simp [atHead, atTail]) newcomer

theorem remove_ready {A B : List Thread} {victim : Thread}
    (ready : Ready q (A ++ victim :: B)) (isLast : q.last = some victim) :
    Ready (call q (.remove victim)) (A ++ B) := by
  have head := ready.head
  have headed : q.rr.head ≠ none := by rw [head]; cases A <;> simp
  have pool : (A ++ B).Perm (q.pool.erase victim) := by
    have removed := ready.pool.erase victim
    refine List.Perm.trans ?_ removed
    have front : (A ++ victim :: B).Perm (victim :: (A ++ B)) := List.perm_middle
    simpa using (front.erase victim).symm
  have nodup : (A ++ B).Nodup :=
    (List.nodup_cons.mp (List.perm_middle.nodup_iff.mp ready.nodup)).2
  have gone : victim ∉ A ++ B :=
    (List.nodup_cons.mp (List.perm_middle.nodup_iff.mp ready.nodup)).1
  by_cases only : q.rr.head = some victim ∧ q.rr.tail = some victim
  · -- `lone` makes this the last thread of the ring
    have single := ready.lone victim isLast only.1 only.2
    obtain ⟨rfl, rfl⟩ : A = [] ∧ B = [] := by
      have count := congrArg List.length single
      simp only [List.length_append, List.length_cons, List.length_nil] at count
      exact ⟨List.eq_nil_of_length_eq_zero (by omega), List.eq_nil_of_length_eq_zero (by omega)⟩
    have run : call q (.remove victim) = { q with
        rr := { q.rr with head := none, tail := none }
        pool := q.pool.erase victim } := by
      simp [call, rrRemove, only]
    rw [run]
    exact ⟨ready.running, rfl, trivial, nodup, pool, fun some => absurd rfl some,
      fun v _ isHead => by cases isHead⟩
  · have others : A ++ B ≠ [] := by
      intro nobody
      obtain ⟨rfl, rfl⟩ := List.append_eq_nil_iff.mp nobody
      obtain ⟨t, member, isTail⟩ := ready.tail (by simp)
      have same : t = victim := by simpa using member
      exact only ⟨by rw [head]; rfl, by rw [isTail, same]⟩
    obtain ⟨x, y, next, prev, first, last, ring⟩ := ready.ring.unlink others ready.nodup
    have run : call q (.remove victim) = { q with
        rr := ⟨if q.rr.head = some victim then some x else q.rr.head,
          if q.rr.tail = some victim then some y else q.rr.tail,
          update q.rr.schedOne x (some y), update q.rr.schedTwo y (some x)⟩
        pool := q.pool.erase victim } := by
      simp [call, rrRemove, headed, only, next, prev]
    have headAfter : (if q.rr.head = some victim then some x else q.rr.head) =
        (A ++ B).head? := by
      rw [head]
      exact head_unlink gone first
    rw [run]
    refine ⟨ready.running, headAfter, ring, nodup, pool, ?_, ?_⟩
    · intro _
      change ∃ t ∈ A ++ B, (if q.rr.tail = some victim then some y else q.rr.tail) = some t
      have yMember : y ∈ A ++ B := by
        have member := List.mem_of_getLast? last
        simpa [or_comm] using member
      obtain ⟨t, member, isTail⟩ := ready.tail (by simp)
      by_cases atTail : t = victim
      · exact ⟨y, yMember, by rw [isTail, atTail, if_pos rfl]⟩
      · refine ⟨t, ?_, ?_⟩
        · rcases List.mem_append.mp member with member | member
          · simp [member]
          · exact List.mem_append_right A ((List.mem_cons.mp member).resolve_left atTail)
        · rw [isTail, if_neg fun same => atTail (Option.some.inj same)]
    · intro v isLast' isHead _
      have same : victim = v := Option.some.inj (isLast.symm.trans isLast')
      subst same
      exact absurd (List.mem_of_head? (headAfter.symm.trans isHead)) gone

theorem next_rotates {h : Thread} (ready : Ready q (h :: l)) :
    Ready (call q .next) (l ++ [h]) ∧ (call q .next).last = some h := by
  have head := ready.head
  have run : call q .next = { q with
      rr := { q.rr with head := q.rr.schedTwo h }, last := some h } := by
    simp [call, rrNext, head]
  rw [run]
  refine ⟨⟨ready.running, ready.ring.two_head, ready.ring.rotate,
    List.nodup_append_comm.mp ready.nodup, List.perm_append_comm.trans ready.pool, ?_, ?_⟩, rfl⟩
  · intro _
    obtain ⟨t, member, isTail⟩ := ready.tail (by simp)
    exact ⟨t, by simpa [or_comm] using member, isTail⟩
  · intro v isLast isHead _
    have same : h = v := Option.some.inj isLast
    subst same
    cases l with
    | nil => rfl
    | cons x l =>
        have next : q.rr.schedTwo h = some x := ready.ring.two_head
        have same : x = h := Option.some.inj (next.symm.trans isHead)
        exact absurd ready.nodup (by simp [same])

theorem next_empty (ready : Ready q []) :
    call q .next = { q with last := none } ∧ Ready (call q .next) [] := by
  have head := ready.head
  have run : call q .next = { q with last := none } := by simp [call, rrNext, head]
  rw [run]
  exact ⟨rfl, ready.running, head, trivial, List.nodup_nil, ready.pool, ready.tail,
    fun v isLast => by cases isLast⟩

theorem next_ready (ready : Ready q l) : ∃ l', Ready (call q .next) l' := by
  cases l with
  | nil => exact ⟨[], (next_empty ready).2⟩
  | cons h l => exact ⟨l ++ [h], (next_rotates ready).1⟩

/-- An admission to a ring that does not close at `tail` drops the threads
between `tail` and `head`. -/
theorem admit_drops {new : Thread} (ready : Ready q l) (fresh : new ∉ q.pool)
    (gap : ¬ Closes q (.admitThread new)) : ¬ Keeps (call q (.admitThread new)) := by
  have head := ready.head
  have newcomer : new ∉ l := fun member => fresh (ready.pool.subset member)
  cases l with
  | nil => exact absurd (Or.inl head) gap
  | cons h l =>
      obtain ⟨t, member, isTail⟩ := ready.tail (by simp)
      have notBack : q.rr.schedTwo t ≠ q.rr.head := fun back =>
        gap (Or.inr ⟨t, isTail, back⟩)
      obtain ⟨A, B, split⟩ := List.append_of_mem member
      have ring := ready.ring
      have nodup := ready.nodup
      have len := ready.pool.length_eq
      have first : (A ++ t :: B).head? = some h := by rw [← split]; rfl
      rw [split] at ring nodup newcomer len
      have notLast : B ≠ [] := by
        rintro rfl
        apply notBack
        rw [ring.links.1, head, List.head?_cons, ← first]
        simp
      have run : call q (.admitThread new) = { q with
          rr := ⟨some h, some new, update (update q.rr.schedOne new (some t)) h (some new),
            update (update q.rr.schedTwo new (some h)) t (some new)⟩
          pool := new :: q.pool } := by
        simp [call, rrAdmit, head, isTail]
      rw [run]
      intro keeps
      obtain ⟨l', head', ring', nodup', pool'⟩ := keeps.ring
      cases l' with
      | nil => cases head'
      | cons h' l' =>
          have same : h = h' := Option.some.inj head'
          subst same
          obtain ⟨X, leads, avoids, short⟩ := ring.short_cut first newcomer nodup
          have around : Leads _ h l' h := Path.leads ring'
          have all := around.unique leads (List.nodup_cons.mp nodup').1 avoids
          have count := pool'.length_eq
          have some := List.length_pos_of_ne_nil notLast
          simp only [all, List.length_cons, List.length_append, short] at count len
          omega

end Call

/-! ## Runs -/

theorem ready_after {q q' : Queue} {c : Call} (before : ∃ l, Ready q l) (closes : Closes q c)
    (next : callStep q c q') : ∃ l, Ready q' l := by
  obtain ⟨l, ready⟩ := before
  obtain ⟨⟨_, issued⟩, rfl⟩ := next
  cases c with
  | admitThread new => exact ⟨_, admit_ready ready issued closes⟩
  | remove victim =>
      obtain ⟨isLast, member⟩ := issued
      obtain ⟨A, B, rfl⟩ := List.append_of_mem (ready.pool.symm.subset member)
      exact ⟨_, remove_ready ready isLast⟩
  | next => exact next_ready ready

/-- A run keeps exactly the ready threads if and only if each of its admissions
is made to an empty ring or to one that closes at `tail`. -/
theorem roundRobin_keeps_iff {q last : Queue} {run : List (Queue × Call)} (empty : Empty q)
    (exec : Exec callStep q run last) : AllStates Keeps run last ↔ AllSteps Closes run := by
  refine exec.allStates_iff_guarded (I := fun q => ∃ l, Ready q l) ?_ ?_ ?_ ⟨[], empty.ready⟩
  · rintro q ⟨l, ready⟩
    exact ready.keeps
  · intro q c q' before closes next
    exact ready_after before closes next
  · rintro q c q' ⟨l, ready⟩ gap ⟨⟨_, issued⟩, rfl⟩
    cases c with
    | admitThread new => exact admit_drops ready issued gap
    | remove victim => exact absurd trivial gap
    | next => exact absurd trivial gap

def emptyQueue : Queue := ⟨⟨none, none, fun _ => none, fun _ => none⟩, [], none, false⟩

theorem emptyQueue_empty : Empty emptyQueue := ⟨rfl, rfl, rfl, rfl, rfl⟩

theorem roundRobin_keeps_iff_two :
    AllStates Keeps (played call emptyQueue [.admitThread 1, .admitThread 2, .next, .remove 1])
        ([.admitThread 1, .admitThread 2, .next, .remove 1].foldl call emptyQueue) ↔
      AllSteps Closes
        (played call emptyQueue [.admitThread 1, .admitThread 2, .next, .remove 1]) := by
  have playable : Playable Issues call emptyQueue
      [.admitThread 1, .admitThread 2, .next, .remove 1] := by
    decide
  exact roundRobin_keeps_iff emptyQueue_empty (playable.exec fun _ _ guard => ⟨guard, rfl⟩)

/-- Three threads are ready, the first runs and creates a fourth. -/
def createWhileRunning : List Call :=
  [.admitThread 1, .admitThread 2, .admitThread 3, .next, .admitThread 4]

/-- Thread 1 is dropped: the ring has three threads where four are ready. -/
theorem roundRobin_drops_thread :
    Empty emptyQueue ∧
      Exec callStep emptyQueue (played call emptyQueue createWhileRunning)
        (createWhileRunning.foldl call emptyQueue) ∧
      (createWhileRunning.foldl call emptyQueue).pool = [4, 3, 2, 1] ∧
      rrQlen 10 (createWhileRunning.foldl call emptyQueue).rr = some 3 ∧
      ¬ Keeps (createWhileRunning.foldl call emptyQueue) := by
  have playable : Playable Issues call emptyQueue createWhileRunning := by decide
  have pool : (createWhileRunning.foldl call emptyQueue).pool = [4, 3, 2, 1] := by decide
  have count : rrQlen 10 (createWhileRunning.foldl call emptyQueue).rr = some 3 := by decide
  refine ⟨emptyQueue_empty, playable.exec fun _ _ guard => ⟨guard, rfl⟩, pool, count, ?_⟩
  intro keeps
  have four := keeps.qlen 10 (by rw [pool]; decide)
  rw [count, pool] at four
  exact absurd four (by decide)

end Csc457.Lwp
