import Csc457.Lwp.RoundRobin

/-!
# Turns of the RoundRobin scheduler

Threads that are all admitted before the first rr_next take turns in the order of their
admission.  The ring from `head` is at all times the list of them, turned past the thread
returned last, less those that were removed.
-/

set_option autoImplicit false

namespace Csc457.Lwp

open Csc457.Lib.CircularList Csc457.Lib.Transition

def admitAll (q : Queue) (ts : List Thread) : Queue := (ts.map Call.admitThread).foldl call q

/-- The next thread of `ts` after `prev`, once around, that is still there. -/
def nextInTurn (ts : List Thread) (prev : Option Thread) (left : List Thread) : Option Thread :=
  (turned ts prev).find? fun t => decide (t ∈ left)

/-- The answers of `k` calls of rr_next. -/
def answers : Nat → RoundRobin → List (Option Thread)
  | 0, _ => []
  | k + 1, s => (rrNext s).1 :: answers k (rrNext s).2

/-- Every rr_next gives the next thread in turn, as many of them as there are threads give
each of these once, and the queue has the length of what is left. -/
structure TakesTurns (ts : List Thread) (q : Queue) : Prop where
  running : q.crashed = false
  next : (rrNext q.rr).1 = nextInTurn ts q.last q.pool
  none : (rrNext q.rr).1 = none ↔ q.pool = []
  qlen : ∀ fuel, q.pool.length ≤ fuel → rrQlen fuel q.rr = some q.pool.length
  round : (answers q.pool.length q.rr).Perm (q.pool.map some) ∧ q.pool.Nodup

/-- The threads that are left, from `head` on. -/
def inTurn (ts : List Thread) (q : Queue) : List Thread :=
  (turned ts q.last).filter fun t => decide (t ∈ q.pool)

/-- The ring is what is left of the threads, turned past the one returned last. -/
structure Turning (ts : List Thread) (q : Queue) : Prop where
  ready : Ready q (inTurn ts q)
  known : ∀ t, q.last = some t → t ∈ ts

section Turning
variable {ts : List Thread} {q : Queue} {l : List Thread}

/-- A thread admitted to a ring that closes at `tail` comes last, and is `tail`. -/
theorem admit_last {new : Thread} (ready : Ready q l) (closed : q.rr.tail = l.getLast?)
    (fresh : new ∉ l) :
    Ready (call q (.admitThread new)) (l ++ [new]) ∧
      (call q (.admitThread new)).rr.tail = some new ∧
      (call q (.admitThread new)).pool = new :: q.pool ∧
      (call q (.admitThread new)).last = q.last := by
  have outside : new ∉ q.pool := fun member => fresh (ready.pool.symm.subset member)
  have head := ready.head
  rcases List.eq_nil_or_concat' l with rfl | ⟨l, t, rfl⟩
  · refine ⟨admit_ready ready outside (.inl head), ?_⟩
    simp [call, rrAdmit, head]
  · have isTail : q.rr.tail = some t := by simpa using closed
    have back : q.rr.schedTwo t = q.rr.head := by
      have ring : Ring q.rr.schedTwo q.rr.schedOne (l ++ t :: []) := ready.ring
      rw [ring.links.1, head]
      cases l <;> rfl
    refine ⟨admit_ready ready outside (.inr ⟨t, isTail, back⟩), ?_⟩
    obtain ⟨h, headed⟩ : ∃ h, q.rr.head = some h := by
      rw [head]
      cases l <;> exact ⟨_, rfl⟩
    simp [call, rrAdmit, headed, isTail]

theorem admitAll_ready {ts : List Thread} (ready : Ready q l) (closed : q.rr.tail = l.getLast?)
    (nodup : (l ++ ts).Nodup) :
    Ready (admitAll q ts) (l ++ ts) ∧ (admitAll q ts).last = q.last := by
  induction ts generalizing q l with
  | nil => exact ⟨by simpa [admitAll] using ready, rfl⟩
  | cons t ts ih =>
      have fresh : t ∉ l := fun member => (List.nodup_append.mp nodup).2.2 t member t (by simp) rfl
      obtain ⟨ready', isTail, _, last⟩ := admit_last ready closed fresh
      obtain ⟨all, same⟩ := ih ready' (by simpa using isTail) (by simpa using nodup)
      rw [List.append_assoc, List.singleton_append] at all
      exact ⟨all, same.trans last⟩

theorem Turning.start (empty : Empty q) (nodup : ts.Nodup) : Turning ts (admitAll q ts) := by
  obtain ⟨_, tailless, _, none, _⟩ := id empty
  obtain ⟨ready, last⟩ := admitAll_ready empty.ready (by simpa using tailless)
    (by simpa using nodup)
  rw [List.nil_append] at ready
  rw [none] at last
  refine ⟨?_, fun t isLast => by rw [last] at isLast; cases isLast⟩
  have all : inTurn ts (admitAll q ts) = ts := by
    rw [inTurn, last]
    exact List.filter_eq_self.mpr fun t member => decide_eq_true (ready.pool.subset member)
  rwa [all]

theorem Turning.next (nodup : ts.Nodup) (turning : Turning ts q) : Turning ts (call q .next) := by
  have ready := turning.ready
  cases first : inTurn ts q with
  | nil =>
      rw [first] at ready
      obtain ⟨run, ready'⟩ := next_empty ready
      have nobody : q.pool = [] := ready.pool.symm.eq_nil
      rw [run] at ready' ⊢
      refine ⟨?_, fun t isLast => by cases isLast⟩
      simpa [inTurn, nobody] using ready'
  | cons h rest =>
      rw [first] at ready
      obtain ⟨ready', last⟩ := next_rotates ready
      have again := filter_turned turning.known nodup first
      have pool : (call q .next).pool = q.pool := rfl
      refine ⟨?_, ?_⟩
      · rw [inTurn, last, pool, again]
        exact ready'
      · intro t isLast
        obtain rfl : h = t := Option.some.inj (last.symm.trans isLast)
        have found : h ∈ inTurn ts q := by simp [first]
        have member : h ∈ turned ts q.last := (List.mem_filter.mp found).1
        obtain ⟨L, R, rfl, isTurned⟩ := turned_rotation turning.known nodup
        rw [isTurned] at member
        simpa [or_comm] using member

theorem Turning.remove {victim : Thread} (nodup : ts.Nodup) (turning : Turning ts q)
    (isLast : q.last = some victim) (member : victim ∈ q.pool) :
    Turning ts (call q (.remove victim)) := by
  have ready := turning.ready
  obtain ⟨A, B, split⟩ := List.append_of_mem (turning.known victim isLast)
  have apart := nodup
  rw [split] at apart
  obtain ⟨gone, others⟩ := List.nodup_cons.mp (List.perm_middle.nodup_iff.mp apart)
  have fresh : victim ∉ A := fun inA => gone (List.mem_append_left B inA)
  have around : inTurn ts q = (B ++ A).filter (fun t => decide (t ∈ q.pool)) ++ victim :: [] := by
    rw [inTurn, isLast, split, turned_split fresh, List.filter_append]
    simp [member]
  have poolNodup : q.pool.Nodup := ready.pool.nodup_iff.mp ready.nodup
  rw [around] at ready
  have ready' := remove_ready ready isLast
  have run : (call q (.remove victim)).last = some victim ∧
      (call q (.remove victim)).pool = q.pool.erase victim := by
    have running := ready'.running
    cases removed : rrRemove q.rr victim with
    | none => simp [call, removed] at running
    | some rr => simp [call, removed, isLast]
  refine ⟨?_, fun t isLast' => turning.known t (by rw [isLast, ← isLast', run.1])⟩
  have same : inTurn ts (call q (.remove victim)) =
      (B ++ A).filter (fun t => decide (t ∈ q.pool)) ++ [] := by
    have left : ∀ t ∈ B ++ A, decide (t ∈ q.pool.erase victim) = decide (t ∈ q.pool) := by
      intro t inList
      have other : t ≠ victim := by
        rintro rfl
        exact gone (List.perm_append_comm.subset inList)
      simp only [List.mem_erase_of_ne other]
    have out : victim ∉ q.pool.erase victim := poolNodup.not_mem_erase
    rw [inTurn, run.1, run.2, split, turned_split fresh, List.filter_append,
      List.filter_congr left]
    simp [out]
  rwa [same]

theorem Turning.after {q' : Queue} {c : Call} (nodup : ts.Nodup) (turning : Turning ts q)
    (next : callStep q c q') (noAdmission : ∀ t, c ≠ .admitThread t) : Turning ts q' := by
  obtain ⟨⟨_, issued⟩, rfl⟩ := next
  cases c with
  | admitThread new => exact absurd rfl (noAdmission new)
  | remove victim => exact turning.remove nodup issued.1 issued.2
  | next => exact turning.next nodup

/-- As many calls of rr_next as there are threads answer with the ring, once around. -/
theorem answers_ring {k : Nat} (ready : Ready q l) (enough : k ≤ l.length) :
    answers k q.rr = (l.take k).map some := by
  induction k generalizing q l with
  | zero => rfl
  | succ k ih =>
      cases l with
      | nil => simp at enough
      | cons h l =>
          have within : k ≤ l.length := by simpa using enough
          have rest := ih (next_rotates ready).1 (by simp; omega)
          rw [List.take_append_of_le_length within] at rest
          have first : (rrNext q.rr).1 = some h := by simp [rrNext, ready.head]
          rw [answers, first]
          exact congrArg (some h :: ·) rest

theorem Turning.takesTurns (turning : Turning ts q) : TakesTurns ts q := by
  have ready := turning.ready
  have keeps := ready.keeps
  refine ⟨keeps.running, ?_, keeps.none, keeps.qlen, ?_, ready.pool.nodup_iff.mp ready.nodup⟩
  · have head : (rrNext q.rr).1 = (inTurn ts q).head? := by
      rw [← ready.head, rrNext]
      cases q.rr.head <;> rfl
    rw [head, inTurn, List.head?_filter]
    rfl
  · have len := ready.pool.length_eq
    have all := answers_ring ready (Nat.le_of_eq len.symm)
    rw [← len, List.take_length] at all
    rw [← len, all]
    exact ready.pool.map some

/-- Threads admitted to an empty queue before the first rr_next take turns in the order of
admission, whatever is removed after its turn. -/
theorem threads_take_turns {last : Queue} {run : List (Queue × Call)} (empty : Empty q)
    (nodup : ts.Nodup) (exec : Exec callStep (admitAll q ts) run last)
    (noAdmission : ∀ x ∈ run, ∀ t, x.2 ≠ .admitThread t) :
    AllStates (TakesTurns ts) run last := by
  have kept := exec.guarded_invariant (I := Turning ts)
    (C := fun _ c => ∀ t : Thread, c ≠ Call.admitThread t) (fun _ _ _ turning noAdmission next =>
      turning.after nodup next noAdmission)
    (Turning.start empty nodup) noAdmission
  exact ⟨fun x member => (kept.1 x member).takesTurns, kept.2.takesTurns⟩

end Turning

def exitsFirst : List Call := [.next, .remove 3, .next, .next]

theorem threads_take_turns_exitsFirst :
    AllStates (TakesTurns [3, 1, 2]) (played call (admitAll emptyQueue [3, 1, 2]) exitsFirst)
      (exitsFirst.foldl call (admitAll emptyQueue [3, 1, 2])) := by
  have playable : Playable Issues call (admitAll emptyQueue [3, 1, 2]) exitsFirst := by decide
  refine threads_take_turns emptyQueue_empty (by decide)
    (playable.exec fun _ _ guard => ⟨guard, rfl⟩) ?_
  intro x member t same
  have label : x.2 ∈ exitsFirst := List.mem_map_of_mem (f := Prod.snd) member
  rw [same] at label
  simp [exitsFirst] at label

end Csc457.Lwp
