import Csc457.Lwp.Registry
import Mathlib.Data.Multiset.Filter
import Mathlib.Data.Multiset.AddSub
import Mathlib.Algebra.Order.Group.Multiset

/-!
# Threads between the ready pool and the waiting list

The scheduler is any that behaves as a pool.  What the calls of lwp.c do to the
pool, to the waiting list and to the `exited` links is first said on a `View`,
where a thread is its tid and no tid is used again; there the invariant is kept
operation by operation.  The library `Shows` a view as long as its tids name the
contexts in use, and each of its calls is then one of these operations.
-/

set_option autoImplicit false

namespace Csc457.Lwp.Threads

open Function
open Csc457.Lib.Transition

variable {σ : Type}

/-- A scheduler that behaves as a pool of threads; what `next` picks is free. -/
structure IsPool (sch : Scheduler σ) (pool : σ → Multiset Thread) : Prop where
  admitThread : ∀ s t, t ∉ pool s → pool (sch.admitThread s t) = t ::ₘ pool s
  remove : ∀ s t, t ∈ pool s → pool (sch.remove s t) = (pool s).erase t
  next_pool : ∀ s, pool (sch.next s).2 = pool s
  next_mem : ∀ s t, (sch.next s).1 = some t → t ∈ pool s
  next_none : ∀ s, (sch.next s).1 = none ↔ pool s = 0
  qlen : ∀ s, sch.qlen s = (pool s).card

structure View extends History where
  ready : Multiset Tid
  waiting : List Tid
  /-- Threads lwp_wait had no memory to put on the waiting list. -/
  lost : Multiset Tid
  current : Option Tid
  mode : Tid → Mode
  exited : Tid → Option Tid
  tidCount : Nat
  ended : Option Nat

/-- Threads that were created and have not exited. -/
def View.alive (v : View) : List Tid := v.created.filter fun t => decide (t ∉ v.terminated)

def View.tick (v : View) : View := { v with clock := v.clock + 1 }

/-- A new thread joins the pool. -/
def View.enter (v : View) (t : Tid) : View :=
  { v with
    ready := t ::ₘ v.ready
    mode := update v.mode t .user
    exited := update v.exited t none
    created := t :: v.created }

/-- A tid that no thread gets. -/
def View.skip (v : View) : View := { v with tidCount := v.tidCount + 1 }

def View.create (v : View) : View := { v.enter v.tidCount with tidCount := v.tidCount + 1 }

/-- The running thread goes from the pool to the end of the waiting list. -/
def View.block (v : View) (curr : Tid) : View :=
  { v with
    ready := v.ready.erase curr
    waiting := v.waiting ++ [curr]
    mode := update v.mode curr .inWait
    blocked := v.blocked ++ [curr]
    blockedAt := update v.blockedAt curr v.clock }

def View.lose (v : View) (curr : Tid) : View :=
  { v with
    ready := v.ready.erase curr
    lost := curr ::ₘ v.lost
    mode := update v.mode curr .inWait }

def View.leave (v : View) (curr : Tid) : View :=
  { v with
    ready := v.ready.erase curr
    terminated := curr :: v.terminated
    exitedAt := update v.exitedAt curr v.clock }

/-- The oldest waiting thread goes back to the pool, with the thread that ended. -/
def View.release (v : View) (curr : Tid) : View :=
  match v.waiting with
  | [] => v
  | w :: rest =>
      { v with
        ready := w ::ₘ v.ready
        waiting := rest
        exited := update v.exited w (some curr)
        released := v.released ++ [w] }

def View.resume (v : View) (curr : Tid) : View :=
  { v with
    mode := update v.mode curr .user
    exited := update v.exited curr none }

/-- Some thread of the pool runs next, or the process ends with the pool empty. -/
def Switched (v v' : View) : Prop :=
  (∃ t ∈ v.ready, v' = { v with current := some t }) ∨
    (v.ready = 0 ∧ ∃ status, v' = { v with ended := some status })

/-- What holds of the pool and the waiting list, also in the middle of a call. -/
structure Accounted (v : View) : Prop where
  low : 2 ≤ v.tidCount
  fresh : ∀ t ∈ v.created, t < v.tidCount
  nodup : v.created.Nodup
  exits : ∀ t ∈ v.terminated, t ∈ v.created
  alive : v.ready + (v.waiting : Multiset Tid) + v.lost = (v.alive : Multiset Tid)
  asleep : ∀ t ∈ v.waiting, v.mode t = .inWait
  awake : v.waiting ≠ [] → v.ready ≠ 0
  fifo : v.blocked = v.released ++ v.waiting
  past : ∀ t ∈ v.waiting, v.blockedAt t ≤ v.clock
  woken : ∀ t ∈ v.ready, v.mode t = .inWait →
    ∃ u ∈ v.terminated, v.exited t = some u ∧ v.blockedAt t < v.exitedAt u

/-- The invariant between two calls. -/
structure Inv (v : View) : Prop where
  accounted : Accounted v
  running : v.ended = none → ∀ t, v.current = some t → t ∈ v.ready
  start : v.current = none → 1 ∉ v.created
  drained : v.ended ≠ none → v.ready = 0

section Accounted
variable {v v' : View} {t curr : Tid}

theorem Accounted.mem_alive (acc : Accounted v) :
    t ∈ v.alive ↔ t ∈ v.ready ∨ t ∈ v.waiting ∨ t ∈ v.lost := by
  have all : t ∈ v.ready + (v.waiting : Multiset Tid) + v.lost ↔ t ∈ v.alive := by
    rw [acc.alive, Multiset.mem_coe]
  rw [← all, Multiset.mem_add, Multiset.mem_add, Multiset.mem_coe, or_assoc]

theorem View.mem_alive : t ∈ v.alive ↔ t ∈ v.created ∧ t ∉ v.terminated := by
  simp [View.alive]

theorem Accounted.nodup_alive (acc : Accounted v) : v.alive.Nodup := acc.nodup.filter _

theorem Accounted.count (acc : Accounted v) (t : Tid) :
    v.ready.count t + v.waiting.count t + v.lost.count t = if t ∈ v.alive then 1 else 0 := by
  have total := congrArg (Multiset.count t) acc.alive
  rw [Multiset.count_add, Multiset.count_add, Multiset.coe_count, Multiset.coe_count] at total
  rw [total]
  exact acc.nodup_alive.count

theorem Accounted.not_waiting (acc : Accounted v) (member : t ∈ v.ready) : t ∉ v.waiting := by
  have count := acc.count t
  have inPool : 0 < v.ready.count t := Multiset.count_pos.mpr member
  intro waits
  have inList : 0 < v.waiting.count t := List.count_pos_iff.mpr waits
  split at count <;> omega

theorem Accounted.not_ready_erase (acc : Accounted v) : t ∉ v.ready.erase t := by
  have count := acc.count t
  intro again
  have twice : 0 < (v.ready.erase t).count t := Multiset.count_pos.mpr again
  rw [Multiset.count_erase_self] at twice
  split at count <;> omega

theorem Accounted.tick (acc : Accounted v) :
    Accounted v.tick ∧ ∀ t ∈ v.tick.waiting, v.tick.blockedAt t < v.tick.clock := by
  refine ⟨⟨acc.low, acc.fresh, acc.nodup, acc.exits, acc.alive, acc.asleep, acc.awake, acc.fifo,
    fun t waits => (acc.past t waits).trans (Nat.le_succ _), acc.woken⟩, ?_⟩
  exact fun t waits => Nat.lt_succ_of_le (acc.past t waits)

theorem Accounted.enter (acc : Accounted v) (new : t ∉ v.created) (low : t < v.tidCount) :
    Accounted (v.enter t) := by
  have notReady : t ∉ v.ready := fun member =>
    new (View.mem_alive.mp (acc.mem_alive.mpr (Or.inl member))).1
  have notWaiting : t ∉ v.waiting := fun member =>
    new (View.mem_alive.mp (acc.mem_alive.mpr (Or.inr (Or.inl member)))).1
  have alive : (v.enter t).alive = t :: v.alive := by
    have running : t ∉ v.terminated := fun ended => new (acc.exits t ended)
    exact List.filter_cons_of_pos (decide_eq_true running)
  refine ⟨acc.low, ?_, List.nodup_cons.mpr ⟨new, acc.nodup⟩,
    fun u ended => List.mem_cons_of_mem t (acc.exits u ended), ?_, ?_, ?_, acc.fifo, acc.past, ?_⟩
  · intro u member
    rcases List.mem_cons.mp member with rfl | member
    · exact low
    · exact acc.fresh u member
  · rw [alive, ← Multiset.cons_coe, ← acc.alive]
    change t ::ₘ v.ready + (v.waiting : Multiset Tid) + v.lost = _
    rw [Multiset.cons_add, Multiset.cons_add]
  · intro u waits
    have other : u ≠ t := fun same => notWaiting (same ▸ waits)
    exact (update_of_ne other ..).trans (acc.asleep u waits)
  · exact fun _ => Multiset.cons_ne_zero
  · intro u member inWait
    by_cases same : u = t
    · subst same
      have user : (v.enter u).mode u = .user := update_self ..
      rw [user] at inWait
      cases inWait
    · have member : u ∈ v.ready := (Multiset.mem_cons.mp member).resolve_left same
      have mode : (v.enter t).mode u = v.mode u := update_of_ne same ..
      have exited : (v.enter t).exited u = v.exited u := update_of_ne same ..
      rw [mode] at inWait
      rw [exited]
      exact acc.woken u member inWait

theorem Accounted.skip (acc : Accounted v) : Accounted v.skip :=
  ⟨acc.low.trans (Nat.le_succ _), fun t member => (acc.fresh t member).trans (Nat.lt_succ_self _),
    acc.nodup, acc.exits, acc.alive, acc.asleep, acc.awake, acc.fifo, acc.past, acc.woken⟩

theorem Accounted.unused (acc : Accounted v) : v.tidCount ∉ v.created :=
  fun member => lt_irrefl _ (acc.fresh _ member)

theorem Accounted.create (acc : Accounted v) : Accounted v.create :=
  acc.skip.enter (t := v.tidCount) acc.unused (Nat.lt_succ_self _)

theorem erase_ne_zero {ready : Multiset Tid} (member : curr ∈ ready) (second : 2 ≤ ready.card) :
    ready.erase curr ≠ 0 := by
  intro nobody
  have card := Multiset.card_erase_of_mem member
  rw [nobody, Multiset.card_zero] at card
  have pred : ready.card.pred = ready.card - 1 := rfl
  omega

theorem Accounted.woken_erase (acc : Accounted v) (stays : t ∈ v.ready.erase curr)
    (inWait : update v.mode curr .inWait t = .inWait) :
    t ≠ curr ∧ ∃ u ∈ v.terminated, v.exited t = some u ∧ v.blockedAt t < v.exitedAt u := by
  have other : t ≠ curr := by
    rintro rfl
    exact acc.not_ready_erase stays
  rw [update_of_ne other] at inWait
  exact ⟨other, acc.woken t (Multiset.mem_of_mem_erase stays) inWait⟩

theorem Accounted.block (acc : Accounted v) (member : curr ∈ v.ready)
    (second : 2 ≤ v.ready.card) : Accounted (v.block curr) := by
  have waitsNow : ∀ t ∈ (v.block curr).waiting, t = curr ∨ t ≠ curr ∧ t ∈ v.waiting := by
    intro t waits
    have waits : t ∈ v.waiting ++ [curr] := waits
    by_cases same : t = curr
    · exact Or.inl same
    · exact Or.inr ⟨same, by simpa [same] using waits⟩
  refine ⟨acc.low, acc.fresh, acc.nodup, acc.exits, ?_, ?_,
    fun _ => erase_ne_zero member second, ?_, ?_, ?_⟩
  · have moved : v.ready.erase curr + ((v.waiting ++ [curr] : List Tid) : Multiset Tid) =
        v.ready + (v.waiting : Multiset Tid) := by
      rw [← Multiset.coe_add, add_comm (v.waiting : Multiset Tid), ← add_assoc,
        Multiset.coe_singleton, add_comm (v.ready.erase curr), Multiset.singleton_add,
        Multiset.cons_erase member]
    exact (congrArg (· + v.lost) moved).trans acc.alive
  · intro t waits
    rcases waitsNow t waits with rfl | ⟨other, waits⟩
    · exact update_self ..
    · exact (update_of_ne other ..).trans (acc.asleep t waits)
  · change v.blocked ++ [curr] = v.released ++ (v.waiting ++ [curr])
    rw [acc.fifo, List.append_assoc]
  · intro t waits
    change update v.blockedAt curr v.clock t ≤ v.clock
    rcases waitsNow t waits with rfl | ⟨other, waits⟩
    · rw [update_self]
    · rw [update_of_ne other]
      exact acc.past t waits
  · intro t stays inWait
    obtain ⟨other, woken⟩ := acc.woken_erase stays inWait
    have since : (v.block curr).blockedAt t = v.blockedAt t := update_of_ne other ..
    rwa [since]

theorem Accounted.lose (acc : Accounted v) (member : curr ∈ v.ready)
    (second : 2 ≤ v.ready.card) : Accounted (v.lose curr) := by
  refine ⟨acc.low, acc.fresh, acc.nodup, acc.exits, ?_, ?_,
    fun _ => erase_ne_zero member second, acc.fifo, acc.past, ?_⟩
  · change v.ready.erase curr + (v.waiting : Multiset Tid) + (curr ::ₘ v.lost) = _
    rw [Multiset.add_cons, ← Multiset.cons_add, ← Multiset.cons_add, Multiset.cons_erase member]
    exact acc.alive
  · intro t waits
    have other : t ≠ curr := fun same => acc.not_waiting member (same ▸ waits)
    exact (update_of_ne other ..).trans (acc.asleep t waits)
  · exact fun t stays inWait => (acc.woken_erase stays inWait).2

theorem Accounted.alive_leave (acc : Accounted v) (member : curr ∈ v.ready) :
    v.ready.erase curr + (v.waiting : Multiset Tid) + v.lost =
      ((v.leave curr).alive : Multiset Tid) := by
  have without : (v.leave curr).alive = v.alive.erase curr := by
    rw [acc.nodup_alive.erase_eq_filter, View.alive, View.alive, List.filter_filter]
    apply List.filter_congr
    intro t _
    by_cases same : t = curr <;> simp [View.leave, same]
  rw [without, ← Multiset.coe_erase, ← acc.alive, Multiset.erase_add_left_pos _
    (Multiset.mem_add.mpr (Or.inl member)), Multiset.erase_add_left_pos _ member]

theorem Accounted.finish (acc : Accounted v) (member : curr ∈ v.ready)
    (earlier : ∀ t ∈ v.waiting, v.blockedAt t < v.clock) :
    Accounted ((v.leave curr).release curr) := by
  have notWaiting := acc.not_waiting member
  have inAlive := View.mem_alive.mp (acc.mem_alive.mpr (Or.inl member))
  have alive := acc.alive_leave member
  have exits : ∀ t ∈ curr :: v.terminated, t ∈ v.created := by
    intro t ended
    rcases List.mem_cons.mp ended with rfl | ended
    · exact inAlive.1
    · exact acc.exits t ended
  have stillWoken : ∀ t ∈ v.ready.erase curr, v.mode t = .inWait →
      ∃ u ∈ curr :: v.terminated, v.exited t = some u ∧
        v.blockedAt t < update v.exitedAt curr v.clock u := by
    intro t stays inWait
    obtain ⟨u, ended, exited, later⟩ := acc.woken t (Multiset.mem_of_mem_erase stays) inWait
    have other : u ≠ curr := fun same => inAlive.2 (same ▸ ended)
    exact ⟨u, List.mem_cons_of_mem curr ended, exited, by rwa [update_of_ne other]⟩
  cases waits : v.waiting with
  | nil =>
      have same : (v.leave curr).release curr = v.leave curr := by
        simp [View.release, View.leave, waits]
      rw [same]
      refine ⟨acc.low, acc.fresh, acc.nodup, exits, alive, acc.asleep, ?_, acc.fifo, acc.past,
        stillWoken⟩
      intro some
      exact absurd waits some
  | cons w rest =>
      have run : (v.leave curr).release curr = { v.leave curr with
          ready := w ::ₘ v.ready.erase curr
          waiting := rest
          exited := update v.exited w (some curr)
          released := v.released ++ [w] } := by
        simp [View.release, View.leave, waits]
      have wWaits : w ∈ v.waiting := by simp [waits]
      have wNotReady : w ∉ v.ready := fun ready => acc.not_waiting ready wWaits
      have wNotRest : w ∉ rest := by
        have count := acc.count w
        have none : v.ready.count w = 0 := Multiset.count_eq_zero.mpr wNotReady
        rw [waits, none, List.count_cons_self] at count
        intro again
        have twice : 0 < rest.count w := List.count_pos_iff.mpr again
        split at count <;> omega
      rw [run]
      refine ⟨acc.low, acc.fresh, acc.nodup, exits, ?_, ?_, fun _ => Multiset.cons_ne_zero, ?_, ?_,
        ?_⟩
      · rw [waits, ← Multiset.cons_coe] at alive
        rw [Multiset.cons_add]
        refine Eq.trans ?_ alive
        exact congrArg (· + v.lost) (Multiset.add_cons w _ _).symm
      · exact fun t inRest => acc.asleep t (by simp [waits, inRest])
      · change v.blocked = v.released ++ [w] ++ rest
        rw [acc.fifo, waits, List.append_assoc]
        rfl
      · exact fun t inRest => acc.past t (by simp [waits, inRest])
      · intro t ready inWait
        change ∃ u ∈ curr :: v.terminated, update v.exited w (some curr) t = some u ∧
          v.blockedAt t < update v.exitedAt curr v.clock u
        by_cases same : t = w
        · subst same
          exact ⟨curr, by simp, update_self .., by rw [update_self]; exact earlier t wWaits⟩
        · rw [update_of_ne same]
          exact stillWoken t ((Multiset.mem_cons.mp ready).resolve_left same) inWait

theorem Accounted.resume (acc : Accounted v) (member : curr ∈ v.ready) :
    Accounted (v.resume curr) := by
  refine ⟨acc.low, acc.fresh, acc.nodup, acc.exits, acc.alive, ?_, acc.awake, acc.fifo, acc.past,
    ?_⟩
  · intro t waits
    have other : t ≠ curr := fun same => acc.not_waiting member (same ▸ waits)
    exact (update_of_ne other ..).trans (acc.asleep t waits)
  · intro t ready inWait
    have other : t ≠ curr := by
      rintro rfl
      have user : (v.resume t).mode t = .user := update_self ..
      rw [user] at inWait
      cases inWait
    have mode : (v.resume curr).mode t = v.mode t := update_of_ne other ..
    have exited : (v.resume curr).exited t = v.exited t := update_of_ne other ..
    rw [mode] at inWait
    rw [exited]
    exact acc.woken t ready inWait

/-- Whoever runs next is in the pool, and the process ends only with nobody left. -/
theorem Accounted.switched (acc : Accounted v) (running : v.ended = none)
    (started : v.current ≠ none) (next : Switched v v') : Inv v' := by
  rcases next with ⟨t, ready, rfl⟩ | ⟨nobody, status, rfl⟩
  · refine ⟨⟨acc.low, acc.fresh, acc.nodup, acc.exits, acc.alive, acc.asleep, acc.awake, acc.fifo,
      acc.past, acc.woken⟩, ?_, ?_, ?_⟩
    · intro _ u isCurrent
      exact Option.some.inj isCurrent ▸ ready
    · intro none
      cases none
    · exact fun ended => absurd running ended
  · refine ⟨⟨acc.low, acc.fresh, acc.nodup, acc.exits, acc.alive, acc.asleep, acc.awake, acc.fifo,
      acc.past, acc.woken⟩, ?_, fun none => absurd none started, fun _ => nobody⟩
    intro none
    cases none

end Accounted

/-! ## The library shows the abstract machine -/

/-- The tids name the contexts in use. -/
structure Named (s : Library σ) : Prop where
  distinct : ∀ t ∈ s.allocated, ∀ u ∈ s.allocated, s.tid t = s.tid u → t = u
  created : ∀ t ∈ s.allocated, s.tid t ∈ s.history.created

/-- The library has the threads of the view, under their tids. -/
structure Shows (pool : σ → Multiset Thread) (s : Library σ) (v : View) : Prop where
  named : Named s
  ready : v.ready = (pool s.scheduler).map s.tid
  waiting : v.waiting = s.waiting.map s.tid
  current : v.current = s.current.map s.tid
  inPool : ∀ t ∈ pool s.scheduler, t ∈ s.allocated
  inWaiting : ∀ t ∈ s.waiting, t ∈ s.allocated
  inUse : s.ended = none → ∀ t, s.current = some t → t ∈ s.allocated
  mode : ∀ t ∈ s.allocated, v.mode (s.tid t) = s.mode t
  exited : ∀ t ∈ s.allocated, v.exited (s.tid t) = (s.context t).exited.map s.tid
  tidCount : v.tidCount = s.tidCount
  ended : v.ended = s.ended
  history : v.toHistory = s.history

/-- A context in an `exited` link is in use. -/
def Closed (s : Library σ) : Prop :=
  ∀ t ∈ s.allocated, ∀ u, (s.context t).exited = some u → u ∈ s.allocated

section Shows
variable {pool : σ → Multiset Thread} {s s' : Library σ} {v : View} {t curr : Thread}

theorem Named.update {α : Type} (named : Named s) (inUse : curr ∈ s.allocated) {f : Tid → α}
    {g : Thread → α} (same : ∀ t ∈ s.allocated, f (s.tid t) = g t) (x : α) :
    ∀ t ∈ s.allocated, update f (s.tid curr) x (s.tid t) = update g curr x t := by
  intro t member
  by_cases isCurr : t = curr
  · rw [isCurr, update_self, update_self]
  · have other : s.tid t ≠ s.tid curr := fun again =>
      isCurr (named.distinct t member curr inUse again)
    rw [update_of_ne other, update_of_ne isCurr, same t member]

theorem Shows.mem_ready (shows : Shows pool s v) (inPool : t ∈ pool s.scheduler) :
    s.tid t ∈ v.ready := by
  rw [shows.ready]
  exact Multiset.mem_map_of_mem s.tid inPool

theorem Shows.mem_waiting (shows : Shows pool s v) (inWaiting : t ∈ s.waiting) :
    s.tid t ∈ v.waiting := by
  rw [shows.waiting]
  exact List.mem_map_of_mem inWaiting

theorem Shows.running (shows : Shows pool s v) (inv : Inv v) (running : s.ended = none)
    (isCurrent : s.current = some curr) : curr ∈ s.allocated ∧ curr ∈ pool s.scheduler := by
  have inUse := shows.inUse running curr isCurrent
  have current : v.current = some (s.tid curr) := by rw [shows.current, isCurrent]; rfl
  have ready := inv.running (shows.ended.trans running) _ current
  rw [shows.ready] at ready
  obtain ⟨u, inPool, same⟩ := Multiset.mem_map.mp ready
  obtain rfl := shows.named.distinct u (shows.inPool u inPool) curr inUse same
  exact ⟨inUse, inPool⟩

theorem Shows.gone (shows : Shows pool s v) (inv : Inv v) (dead : s.tid t ∈ s.history.terminated) :
    t ∉ pool s.scheduler ∧ t ∉ s.waiting ∧ (s.ended = none → s.current ≠ some t) := by
  have acc := inv.accounted
  have notAlive : s.tid t ∉ v.alive := by
    intro alive
    have notDead := (View.mem_alive.mp alive).2
    rw [shows.history] at notDead
    exact notDead dead
  have notReady : t ∉ pool s.scheduler := fun inPool =>
    notAlive (acc.mem_alive.mpr (Or.inl (shows.mem_ready inPool)))
  refine ⟨notReady, ?_, fun running isCurrent => notReady (shows.running inv running isCurrent).2⟩
  exact fun inWaiting => notAlive (acc.mem_alive.mpr (Or.inr (Or.inl (shows.mem_waiting inWaiting))))

theorem Shows.not_waiting (shows : Shows pool s v) (acc : Accounted v)
    (inWaiting : t ∈ s.waiting) : t ∉ pool s.scheduler := fun inPool =>
  acc.not_waiting (shows.mem_ready inPool) (shows.mem_waiting inWaiting)

theorem Shows.links (shows : Shows pool s v) (links : LinksOnly s s') : Shows pool s' v := by
  obtain ⟨⟨distinct, created⟩, ready, waiting, current, inPool, inWaiting, inUse, mode, exited,
    tidCount, ended, history⟩ := shows
  refine ⟨⟨?_, ?_⟩, ?_, ?_, ?_, ?_, ?_, ?_, ?_, ?_, tidCount.trans links.tidCount.symm,
    ended.trans links.ended.symm, history.trans links.history.symm⟩
  · rwa [links.tid, links.allocated]
  · rwa [links.tid, links.allocated, links.history]
  · rwa [links.tid, links.scheduler]
  · rwa [links.tid, links.waiting]
  · rwa [links.tid, links.current]
  · rwa [links.scheduler, links.allocated]
  · rwa [links.waiting, links.allocated]
  · rwa [links.ended, links.current, links.allocated]
  · rwa [links.tid, links.mode, links.allocated]
  · rw [links.tid, links.allocated]
    intro t member
    rw [links.exited]
    exact exited t member

theorem Shows.log (shows : Shows pool s v) (reaped : Reaped) :
    Shows pool { s with reaped := reaped } v :=
  ⟨⟨shows.named.distinct, shows.named.created⟩, shows.ready, shows.waiting, shows.current,
    shows.inPool, shows.inWaiting, shows.inUse, shows.mode, shows.exited, shows.tidCount,
    shows.ended, shows.history⟩

theorem Shows.touched (shows : Shows pool s v) (used : List Thread) : Shows pool (touch s used) v :=
  shows.log _

theorem Shows.free (shows : Shows pool s v) (notReady : t ∉ pool s.scheduler)
    (notWaiting : t ∉ s.waiting) (notRunning : s.ended = none → s.current ≠ some t) :
    Shows pool (freeContext s t) v := by
  have kept : ∀ u ∈ s.allocated.erase t, u ∈ s.allocated := fun u => Finset.mem_of_mem_erase
  refine ⟨⟨?_, ?_⟩, shows.ready, shows.waiting, shows.current, ?_, ?_, ?_, ?_, ?_, shows.tidCount,
    shows.ended, shows.history⟩
  · exact fun u member w member' => shows.named.distinct u (kept u member) w (kept w member')
  · exact fun u member => shows.named.created u (kept u member)
  · intro u inPool
    have other : u ≠ t := fun same => notReady (same ▸ inPool)
    exact Finset.mem_erase.mpr ⟨other, shows.inPool u inPool⟩
  · intro u inWaiting
    have other : u ≠ t := fun same => notWaiting (same ▸ inWaiting)
    exact Finset.mem_erase.mpr ⟨other, shows.inWaiting u inWaiting⟩
  · intro running u isCurrent
    have other : u ≠ t := fun same => notRunning running (same ▸ isCurrent)
    exact Finset.mem_erase.mpr ⟨other, shows.inUse running u isCurrent⟩
  · exact fun u member => shows.mode u (kept u member)
  · exact fun u member => shows.exited u (kept u member)

theorem reap_kept (s : Library σ) (t : Thread) :
    (reap s t).allocated = s.allocated.erase t ∧ (reap s t).tid = s.tid ∧
      (∀ u, ((reap s t).context u).exited = (s.context u).exited) ∧
      (reap s t).history = s.history := by
  have links := removeThread_linksOnly (touch s (t :: neighbours s t)) t
  exact ⟨congrArg (·.erase t) links.allocated, links.tid, links.exited, links.history⟩

theorem Shows.reaped (shows : Shows pool s v) (notReady : t ∉ pool s.scheduler)
    (notWaiting : t ∉ s.waiting) (notRunning : s.ended = none → s.current ≠ some t) :
    Shows pool (reap s t) v := by
  have links : LinksOnly (touch s (t :: neighbours s t))
      (removeThread (touch s (t :: neighbours s t)) t) := removeThread_linksOnly _ t
  refine (((shows.touched _).links links).log _).free ?_ ?_ ?_
  · change t ∉ pool (removeThread _ t).scheduler
    rwa [links.scheduler]
  · change t ∉ (removeThread _ t).waiting
    rwa [links.waiting]
  · change (removeThread _ t).ended = none → (removeThread _ t).current ≠ some t
    rwa [links.ended, links.current]

theorem Shows.setMode (shows : Shows pool s v) (inUse : curr ∈ s.allocated) (mode : Mode) :
    Shows pool { s with mode := Function.update s.mode curr mode }
      { v with mode := Function.update v.mode (s.tid curr) mode } :=
  ⟨⟨shows.named.distinct, shows.named.created⟩, shows.ready, shows.waiting, shows.current,
    shows.inPool, shows.inWaiting, shows.inUse, shows.named.update inUse shows.mode mode,
    shows.exited, shows.tidCount, shows.ended, shows.history⟩

theorem tid_modify (s : Library σ) (t : Thread) (change : Context → Context)
    (same : ∀ c, (change c).tid = c.tid) : (s.modify t change).tid = s.tid := by
  funext u
  by_cases isT : u = t
  · subst isT
    simp [Library.tid, Library.modify, same]
  · simp [Library.tid, Library.modify, update_of_ne isT]

theorem exited_setExited (s : Library σ) (t u : Thread) (value : Option Thread) :
    ((s.modify t fun c => { c with exited := value }).context u).exited =
      if u = t then value else (s.context u).exited := by
  by_cases isT : u = t
  · subst isT
    simp [Library.modify]
  · simp [Library.modify, isT]

theorem Shows.setExited (shows : Shows pool s v) (inUse : curr ∈ s.allocated)
    (value : Option Thread) :
    Shows pool (s.modify curr fun c => { c with exited := value })
      { v with exited := Function.update v.exited (s.tid curr) (value.map s.tid) } := by
  have tid := tid_modify s curr (fun c => { c with exited := value }) fun _ => rfl
  obtain ⟨⟨distinct, created⟩, ready, waiting, current, inPool, inWaiting, inUse', mode, exited,
    tidCount, ended, history⟩ := shows
  refine ⟨⟨?_, ?_⟩, ?_, ?_, ?_, inPool, inWaiting, inUse', ?_, ?_, tidCount, ended, history⟩
  · rwa [tid]
  · rwa [tid]
  · rwa [tid]
  · rwa [tid]
  · rwa [tid]
  · rwa [tid]
  · rw [tid]
    intro u member
    rw [exited_setExited]
    have same := Named.update ⟨distinct, created⟩ inUse exited (value.map s.tid) u member
    refine same.trans ?_
    by_cases isCurr : u = curr
    · rw [if_pos isCurr, isCurr, update_self]
    · rw [if_neg isCurr, update_of_ne isCurr]

end Shows

section Refines
variable {sch : Scheduler σ} {pool : σ → Multiset Thread} {s : Library σ} {v : View}
  {new curr : Thread}

theorem lwpYield_cases (laws : IsPool sch pool) (isCurrent : s.current = some curr) :
    (∃ t ∈ pool s.scheduler, lwpYield sch s curr =
      { s with scheduler := (sch.next s.scheduler).2, current := some t }) ∨
    (pool s.scheduler = 0 ∧ ∃ status, lwpYield sch s curr =
      { s with scheduler := (sch.next s.scheduler).2, ended := some status }) := by
  rcases picked : sch.next s.scheduler with ⟨next, scheduler⟩
  cases next with
  | none =>
      have nobody : pool s.scheduler = 0 := (laws.next_none s.scheduler).mp (by rw [picked])
      exact Or.inr ⟨nobody, lwpTermStat (s.context curr).status, by simp only [lwpYield, picked]⟩
  | some next =>
      have ready := laws.next_mem s.scheduler next (by rw [picked])
      refine Or.inl ⟨next, ready, ?_⟩
      simp only [lwpYield, picked]
      split
      · rename_i itself
        rw [itself, ← isCurrent]
      · rfl

theorem Shows.yield (laws : IsPool sch pool) (shows : Shows pool s v)
    (isCurrent : s.current = some curr) :
    ∃ v', Switched v v' ∧ Shows pool (lwpYield sch s curr) v' := by
  have same := laws.next_pool s.scheduler
  have ready := shows.ready
  have inPool := shows.inPool
  rw [← same] at ready inPool
  rcases lwpYield_cases laws isCurrent with ⟨t, member, run⟩ | ⟨nobody, status, run⟩
  · refine ⟨{ v with current := some (s.tid t) },
      Or.inl ⟨s.tid t, shows.mem_ready member, rfl⟩, ?_⟩
    rw [run]
    refine ⟨⟨shows.named.distinct, shows.named.created⟩, ready, shows.waiting, rfl, inPool,
      shows.inWaiting, ?_, shows.mode, shows.exited, shows.tidCount, shows.ended, shows.history⟩
    intro _ u isNext
    exact Option.some.inj isNext ▸ shows.inPool t member
  · refine ⟨{ v with ended := some status }, Or.inr ⟨?_, status, rfl⟩, ?_⟩
    · rw [shows.ready, nobody, Multiset.map_zero]
    · rw [run]
      exact ⟨⟨shows.named.distinct, shows.named.created⟩, ready, shows.waiting, shows.current,
        inPool, shows.inWaiting, fun running => absurd running (Option.some_ne_none _),
        shows.mode, shows.exited, shows.tidCount, rfl, shows.history⟩

variable (sch) in
theorem leaveScheduler_tid (s : Library σ) (curr : Thread) (status : Int) :
    (leaveScheduler sch s curr status).tid = s.tid :=
  tid_modify s curr
    (fun c => { c with status := mkTermStat lwpTerm (status % 256).toNat }) fun _ => rfl

theorem Shows.leave (laws : IsPool sch pool) (shows : Shows pool s v)
    (ready : curr ∈ pool s.scheduler) (status : Int) :
    Shows pool (leaveScheduler sch s curr status) (v.leave (s.tid curr)) := by
  let marked := s.modify curr fun c => { c with
    status := mkTermStat lwpTerm (status % 256).toNat }
  have sameTid : marked.tid = s.tid := leaveScheduler_tid sch s curr status
  have tid : (leaveScheduler sch s curr status).tid = s.tid := sameTid
  have exited : ∀ t, ((leaveScheduler sch s curr status).context t).exited =
      (s.context t).exited := by
    intro t
    change (update s.context curr _ t).exited = _
    by_cases isCurr : t = curr
    · rw [isCurr, update_self]
    · rw [update_of_ne isCurr]
  have removed : pool (leaveScheduler sch s curr status).scheduler =
      (pool s.scheduler).erase curr := laws.remove s.scheduler curr ready
  refine ⟨⟨?_, ?_⟩, ?_, ?_, ?_, ?_, shows.inWaiting, shows.inUse, ?_, ?_, shows.tidCount,
    shows.ended, ?_⟩
  · rw [tid]
    exact shows.named.distinct
  · rw [tid]
    exact shows.named.created
  · rw [tid, removed, Multiset.map_erase_of_mem _ _ ready, ← shows.ready]
    rfl
  · rw [tid]
    exact shows.waiting
  · rw [tid]
    exact shows.current
  · rw [removed]
    exact fun t stays => shows.inPool t (Multiset.mem_of_mem_erase stays)
  · rw [tid]
    exact shows.mode
  · intro t member
    rw [tid, exited]
    exact shows.exited t member
  · change ({ v.toHistory with
      terminated := s.tid curr :: v.terminated
      exitedAt := update v.exitedAt (s.tid curr) v.clock } : History) =
      { s.history with
        terminated := marked.tid curr :: s.history.terminated
        exitedAt := update s.history.exitedAt (marked.tid curr) s.history.clock }
    rw [shows.history, sameTid]

theorem Shows.release (laws : IsPool sch pool) (shows : Shows pool s v) (curr : Thread)
    (new : ∀ w ∈ s.waiting, w ∉ pool s.scheduler) :
    Shows pool (wakeWaiting sch s curr) (v.release (s.tid curr)) := by
  have isWaiting := shows.waiting
  cases waits : s.waiting with
  | nil =>
      have nobody : v.waiting = [] := by rw [isWaiting, waits]; rfl
      simpa only [wakeWaiting, waits, View.release, nobody] using shows
  | cons w rest =>
      have first : v.waiting = s.tid w :: rest.map s.tid := by rw [isWaiting, waits]; rfl
      have wUsed : w ∈ s.allocated := shows.inWaiting w (by simp [waits])
      have handed := shows.setExited wUsed (some curr)
      have admitted := laws.admitThread s.scheduler w (new w (by simp [waits]))
      have tid := tid_modify s w (fun c => { c with exited := some curr }) fun _ => rfl
      simp only [wakeWaiting, waits, View.release, first]
      refine ⟨⟨handed.named.distinct, handed.named.created⟩, ?_, ?_, handed.current, ?_, ?_,
        handed.inUse, handed.mode, handed.exited, handed.tidCount, handed.ended, ?_⟩
      · change s.tid w ::ₘ v.ready = (pool (sch.admitThread s.scheduler w)).map
          (s.modify w fun c => { c with exited := some curr }).tid
        rw [tid, admitted, Multiset.map_cons, ← shows.ready]
      · exact congrArg (rest.map ·) tid.symm
      · change ∀ t ∈ pool (sch.admitThread s.scheduler w), t ∈ s.allocated
        rw [admitted]
        intro t member
        rcases Multiset.mem_cons.mp member with rfl | member
        · exact wUsed
        · exact shows.inPool t member
      · exact fun t inRest => shows.inWaiting t (by simp [waits, inRest])
      · change ({ v.toHistory with released := v.released ++ [s.tid w] } : History) =
          { s.history with released := s.history.released ++
            [(s.modify w fun c => { c with exited := some curr }).tid w] }
        rw [shows.history, tid]

/-- What the view does when lwp_wait blocks: `room` as in add_thread_waiting. -/
def View.sleep (v : View) (curr : Tid) (room : Bool) : View :=
  if room then v.block curr else v.lose curr

theorem Shows.sleep (laws : IsPool sch pool) (shows : Shows pool s v)
    (ready : curr ∈ pool s.scheduler) (room : Bool) :
    Shows pool (blockCurrent sch s curr room) (v.sleep (s.tid curr) room) := by
  have inUse := shows.inPool curr ready
  have removed := laws.remove s.scheduler curr ready
  have asleep := shows.setMode inUse .inWait
  have poolErased : v.ready.erase (s.tid curr) =
      (pool (sch.remove s.scheduler curr)).map s.tid := by
    rw [removed, Multiset.map_erase_of_mem _ _ ready, ← shows.ready]
  have inPool : ∀ t ∈ pool (sch.remove s.scheduler curr), t ∈ s.allocated := by
    rw [removed]
    exact fun t stays => shows.inPool t (Multiset.mem_of_mem_erase stays)
  cases room with
  | false =>
      exact ⟨⟨shows.named.distinct, shows.named.created⟩, poolErased, shows.waiting,
        shows.current, inPool, shows.inWaiting, shows.inUse, asleep.mode, shows.exited,
        shows.tidCount, shows.ended, shows.history⟩
  | true =>
      refine ⟨⟨shows.named.distinct, shows.named.created⟩, poolErased, ?_, shows.current, inPool,
        ?_, shows.inUse, asleep.mode, shows.exited, shows.tidCount, shows.ended, ?_⟩
      · change v.waiting ++ [s.tid curr] = (s.waiting ++ [curr]).map s.tid
        rw [shows.waiting, List.map_append]
        rfl
      · intro t member
        have member : t ∈ s.waiting ++ [curr] := member
        rcases List.mem_append.mp member with member | member
        · exact shows.inWaiting t member
        · exact List.mem_singleton.mp member ▸ inUse
      · change ({ v.toHistory with
          blocked := v.blocked ++ [s.tid curr]
          blockedAt := update v.blockedAt (s.tid curr) v.clock } : History) = _
        rw [shows.history]
        rfl

theorem Shows.resume (shows : Shows pool s v) (inv : Inv v) (inUse : curr ∈ s.allocated)
    (running : s.ended = none) (isCurrent : s.current = some curr)
    (dead : ∀ u, (s.context curr).exited = some u → s.tid u ∈ s.history.terminated) :
    Shows pool (lwpWaitReturn s curr) (v.resume (s.tid curr)) := by
  have user := shows.setMode inUse .user
  cases handed : (s.context curr).exited with
  | none =>
      have nothing : v.exited (s.tid curr) = none := by rw [shows.exited curr inUse, handed]; rfl
      have exited : update v.exited (s.tid curr) none = v.exited := by
        rw [← nothing]
        exact update_eq_self _ _
      simpa only [lwpWaitReturn, handed, View.resume, exited] using user
  | some u =>
      obtain ⟨notReady, notWaiting, notRunning⟩ := shows.gone inv (dead u handed)
      have other : curr ≠ u := fun same => notRunning running (same ▸ isCurrent)
      obtain ⟨allocated, tid, _, _⟩ := reap_kept { s with mode := update s.mode curr .user } u
      have stays : curr ∈ (reap { s with mode := update s.mode curr .user } u).allocated := by
        rw [allocated]
        exact Finset.mem_erase.mpr ⟨other, inUse⟩
      have reset := (user.reaped notReady notWaiting notRunning).setExited stays none
      rw [tid] at reset
      simp only [lwpWaitReturn, handed, View.resume]
      exact reset

theorem Shows.overwrite (shows : Shows pool s v) (running : s.ended = none) (closed : Closed s)
    (fresh : new ∉ s.allocated) (c : Context) :
    Shows pool { s with context := update s.context new c } v := by
  have same : ∀ t ∈ s.allocated, update s.context new c t = s.context t := fun t member =>
    update_of_ne (fun isNew : t = new => fresh (isNew ▸ member)) ..
  have tid : ∀ t ∈ s.allocated,
      Library.tid { s with context := update s.context new c } t = s.tid t := fun t member =>
    congrArg Context.tid (same t member)
  refine ⟨⟨?_, ?_⟩, ?_, ?_, ?_, shows.inPool, shows.inWaiting, shows.inUse, ?_, ?_,
    shows.tidCount, shows.ended, shows.history⟩
  · intro t member u member' again
    rw [tid t member, tid u member'] at again
    exact shows.named.distinct t member u member' again
  · intro t member
    rw [tid t member]
    exact shows.named.created t member
  · refine shows.ready.trans ?_
    exact Multiset.map_congr rfl fun t member => (tid t (shows.inPool t member)).symm
  · refine shows.waiting.trans ?_
    exact List.map_congr_left fun t member => (tid t (shows.inWaiting t member)).symm
  · refine shows.current.trans ?_
    change s.current.map s.tid = s.current.map _
    cases isCurrent : s.current with
    | none => rfl
    | some t => exact congrArg some (tid t (shows.inUse running t isCurrent)).symm
  · intro t member
    rw [tid t member]
    exact shows.mode t member
  · intro t member
    rw [tid t member, shows.exited t member]
    change _ = (update s.context new c t).exited.map _
    rw [same t member]
    cases handed : (s.context t).exited with
    | none => rfl
    | some u => exact congrArg some (tid u (closed t member u handed)).symm

/-- A context that holds a new tid joins the pool. -/
def joinPool (sch : Scheduler σ) (s : Library σ) (new : Thread) : Library σ :=
  { s with
    allocated := insert new s.allocated
    scheduler := sch.admitThread s.scheduler new
    mode := update s.mode new .user
    history := { s.history with created := s.tid new :: s.history.created } }

theorem Shows.join (laws : IsPool sch pool) (shows : Shows pool s v) (fresh : new ∉ s.allocated)
    (unused : s.tid new ∉ s.history.created) (noLink : (s.context new).exited = none) :
    Shows pool (joinPool sch s new) (v.enter (s.tid new)) := by
  have other : ∀ t ∈ s.allocated, t ≠ new ∧ s.tid t ≠ s.tid new := fun t member =>
    ⟨fun same => fresh (same ▸ member), fun same =>
      unused (same ▸ shows.named.created t member)⟩
  have admitted := laws.admitThread s.scheduler new fun inPool => fresh (shows.inPool new inPool)
  have members : ∀ t ∈ insert new s.allocated, t = new ∨ t ∈ s.allocated := fun t =>
    Finset.mem_insert.mp
  refine ⟨⟨?_, ?_⟩, ?_, shows.waiting, shows.current, ?_, ?_, ?_, ?_, ?_, shows.tidCount,
    shows.ended, ?_⟩
  · intro t isIn u isIn' same
    rcases members t isIn with rfl | member <;> rcases members u isIn' with isNew | member'
    · exact isNew.symm
    · exact absurd same.symm (other u member').2
    · exact absurd (isNew ▸ same) (other t member).2
    · exact shows.named.distinct t member u member' same
  · intro t isIn
    rcases members t isIn with rfl | member
    · exact List.mem_cons_self
    · exact List.mem_cons_of_mem _ (shows.named.created t member)
  · change s.tid new ::ₘ v.ready = (pool (sch.admitThread s.scheduler new)).map s.tid
    rw [admitted, Multiset.map_cons, shows.ready]
  · change ∀ t ∈ pool (sch.admitThread s.scheduler new), t ∈ insert new s.allocated
    rw [admitted]
    intro t member
    rcases Multiset.mem_cons.mp member with rfl | member
    · exact Finset.mem_insert_self ..
    · exact Finset.mem_insert_of_mem (shows.inPool t member)
  · exact fun t member => Finset.mem_insert_of_mem (shows.inWaiting t member)
  · exact fun ended t isCurrent => Finset.mem_insert_of_mem (shows.inUse ended t isCurrent)
  · intro t isIn
    change update v.mode (s.tid new) .user (s.tid t) = update s.mode new .user t
    rcases members t isIn with rfl | member
    · rw [update_self, update_self]
    · rw [update_of_ne (other t member).2, update_of_ne (other t member).1, shows.mode t member]
  · intro t isIn
    change update v.exited (s.tid new) none (s.tid t) = (s.context t).exited.map s.tid
    rcases members t isIn with rfl | member
    · rw [update_self, noLink]
      rfl
    · rw [update_of_ne (other t member).2, shows.exited t member]
  · change ({ v.toHistory with created := s.tid new :: v.created } : History) = _
    rw [shows.history]
    rfl

/-- The context is given back, and its tid is lost. -/
def giveBack (s : Library σ) (new : Thread) (fresh : Context) (unmapped : List Unmap) :
    Library σ :=
  freeContext { s with
    context := update s.context new { fresh with tid := s.tidCount }
    allocated := insert new s.allocated
    tidCount := s.tidCount + 1
    reaped := { s.reaped with unmapped := unmapped } } new

/-- What lwp_create writes into a context whose memory is all there. -/
structure Made (s : Library σ) (c : Context) : Prop where
  tid : c.tid = s.tidCount
  status : c.status = mkTermStat lwpLive 0
  exited : c.exited = none

variable (sch) in
theorem lwpCreate_cases (func : Nat) (sys : System) :
    (lwpCreate sch s func sys).2 = s ∨
    ∃ new fresh, sys.context = some (new, fresh) ∧
      ((∃ unmapped, (lwpCreate sch s func sys).2 = giveBack s new fresh unmapped ∧
          (unmapped = s.reaped.unmapped ∨
            ∃ stack size, unmapped = ⟨s.tidCount, stack, size⟩ :: s.reaped.unmapped)) ∨
        ∃ c, Made s c ∧ (lwpCreate sch s func sys).2 =
          addThread { joinPool sch { s with context := update s.context new c } new with
            tidCount := s.tidCount + 1 } new) := by
  by_cases null : func = 0
  · exact Or.inl (by rw [lwpCreate, if_pos null])
  cases isContext : sys.context with
  | none => exact Or.inl (by simp only [lwpCreate, if_neg null, isContext])
  | some memory =>
      obtain ⟨new, fresh⟩ := memory
      refine Or.inr ⟨new, fresh, rfl, ?_⟩
      by_cases limit : sys.getrlimit = -1
      · refine Or.inl ⟨s.reaped.unmapped, ?_, Or.inl rfl⟩
        simp only [lwpCreate, if_neg null, isContext, if_pos limit]
        rfl
      cases mapped : sys.mmap with
      | none =>
          refine Or.inl ⟨_, ?_, Or.inr ⟨fresh.stack, mappedSize sys, rfl⟩⟩
          simp only [lwpCreate, if_neg null, isContext, if_neg limit, mapped]
          rfl
      | some stack =>
          refine Or.inr ⟨{ fresh with
            tid := s.tidCount
            stack := stack
            stacksize := mappedSize sys
            status := mkTermStat lwpLive 0
            exited := none
            libOne := none
            libTwo := none }, ⟨rfl, rfl, rfl⟩, ?_⟩
          simp only [lwpCreate, if_neg null, isContext, if_neg limit, mapped, Library.modify,
            update_idem, update_self, joinPool, Library.tid]

end Refines

/-! ## Every call keeps the abstract invariant -/

theorem Inv.tick {v : View} (inv : Inv v) : Inv v.tick :=
  ⟨inv.accounted.tick.1, inv.running, inv.start, inv.drained⟩

theorem Inv.create {v : View} (inv : Inv v) (running : v.ended = none) : Inv v.create := by
  refine ⟨inv.accounted.create, ?_, ?_, fun ended => absurd running ended⟩
  · intro _ t isCurrent
    exact Multiset.mem_cons_of_mem (inv.running running t isCurrent)
  · intro notStarted member
    have low : 2 ≤ v.tidCount := inv.accounted.low
    rcases List.mem_cons.mp member with same | member
    · have same : 1 = v.tidCount := same
      omega
    · exact inv.start notStarted member

theorem Inv.resume {v : View} {curr : Tid} (inv : Inv v) (ready : curr ∈ v.ready) :
    Inv (v.resume curr) :=
  ⟨inv.accounted.resume ready, inv.running, inv.start, inv.drained⟩

theorem Switched.lost {v v' : View} (next : Switched v v') : v'.lost = v.lost := by
  rcases next with ⟨_, _, rfl⟩ | ⟨_, _, rfl⟩ <;> rfl

/-- The library shows a view that is in order. -/
structure Follows (pool : σ → Multiset Thread) (s : Library σ) (v : View) : Prop where
  shows : Shows pool s v
  inv : Inv v

section Calls
variable {sch : Scheduler σ} {pool : σ → Multiset Thread} {s : Library σ} {v : View}
  {new curr : Thread}

theorem Follows.tick (follows : Follows pool s v) : Follows pool (tick s) v.tick := by
  obtain ⟨shows, inv⟩ := follows
  refine ⟨⟨⟨shows.named.distinct, shows.named.created⟩, shows.ready, shows.waiting,
    shows.current, shows.inPool, shows.inWaiting, shows.inUse, shows.mode, shows.exited,
    shows.tidCount, shows.ended, ?_⟩, inv.tick⟩
  change ({ v.toHistory with clock := v.clock + 1 } : History) = _
  rw [shows.history]
  rfl

theorem Follows.created (follows : Follows pool s v) : v.created = s.history.created :=
  congrArg History.created follows.shows.history

theorem Follows.giveBack (follows : Follows pool s v) (running : s.ended = none)
    (closed : Closed s) (fresh : new ∉ s.allocated) (contents : Context) (unmapped : List Unmap) :
    Follows pool (giveBack s new contents unmapped) v.skip := by
  obtain ⟨shows, inv⟩ := follows
  obtain ⟨⟨distinct, created⟩, ready, waiting, current, inPool, inWaiting, inUse, mode, exited,
    tidCount, ended, history⟩ :=
    shows.overwrite running closed fresh { contents with tid := s.tidCount }
  have allocated : (Threads.giveBack s new contents unmapped).allocated = s.allocated :=
    Finset.erase_insert fresh
  refine ⟨⟨⟨?_, ?_⟩, ready, waiting, current, ?_, ?_, ?_, ?_, ?_, congrArg (· + 1) tidCount,
    ended, history⟩, inv.accounted.skip, inv.running, inv.start, inv.drained⟩ <;> rw [allocated]
  · exact distinct
  · exact created
  · exact inPool
  · exact inWaiting
  · exact inUse
  · exact mode
  · exact exited

theorem Follows.create (laws : IsPool sch pool) (follows : Follows pool s v) (func : Nat)
    (running : s.ended = none) (closed : Closed s) {sys : System}
    (fresh : ∀ memory ∈ sys.context, memory.1 ∉ s.allocated) :
    ∃ v', Follows pool (lwpCreate sch s func sys).2 v' ∧ v'.lost = v.lost := by
  rcases lwpCreate_cases sch (s := s) func sys with
    same | ⟨new, contents, isContext, ⟨unmapped, run, _⟩ | ⟨c, made, run⟩⟩
  · exact ⟨v, by rwa [same], rfl⟩
  · rw [run]
    exact ⟨v.skip, follows.giveBack running closed (fresh _ isContext) contents unmapped, rfl⟩
  · have fresh : new ∉ s.allocated := fresh _ isContext
    have written := follows.shows.overwrite running closed fresh c
    have holds : (update s.context new c new) = c := update_self ..
    have isTid : Library.tid { s with context := update s.context new c } new = v.tidCount := by
      rw [follows.shows.tidCount, ← made.tid]
      exact congrArg Context.tid holds
    have joined := written.join laws fresh (by
      rw [isTid]
      change v.tidCount ∉ s.history.created
      rw [← follows.created]
      exact follows.inv.accounted.unused) ((congrArg Context.exited holds).trans made.exited)
    rw [isTid] at joined
    have counted : Shows pool { joinPool sch { s with context := update s.context new c } new with
        tidCount := s.tidCount + 1 } v.create :=
      ⟨⟨joined.named.distinct, joined.named.created⟩, joined.ready, joined.waiting,
        joined.current, joined.inPool, joined.inWaiting, joined.inUse, joined.mode,
        joined.exited, congrArg (· + 1) follows.shows.tidCount, joined.ended, joined.history⟩
    rw [run]
    exact ⟨v.create, ⟨counted.links (addThread_linksOnly _ _),
      follows.inv.create (follows.shows.ended.trans running)⟩, rfl⟩

theorem Follows.adopt (laws : IsPool sch pool) (follows : Follows pool s v)
    (running : s.ended = none) (closed : Closed s) (notStarted : s.current = none)
    (fresh : new ∉ s.allocated) : Shows pool (adoptMain sch s new) (v.enter 1) := by
  have notCreated : v.current = none := by rw [follows.shows.current, notStarted]; rfl
  have written := follows.shows.overwrite running closed fresh mainContext
  have holds : update s.context new mainContext new = mainContext := update_self ..
  have isTid : Library.tid { s with context := update s.context new mainContext } new = 1 :=
    congrArg Context.tid holds
  have joined := written.join laws fresh (by
    rw [isTid]
    change 1 ∉ s.history.created
    rw [← follows.created]
    exact follows.inv.start notCreated) (congrArg Context.exited holds)
  simp only [joinPool, isTid] at joined
  exact joined

theorem lwpStart_cases (laws : IsPool sch pool) (fresh : new ∉ pool s.scheduler) :
    ∃ t ∈ pool (adoptMain sch s new).scheduler, lwpStart sch s (some new) =
      { adoptMain sch s new with
        scheduler := (sch.next (adoptMain sch s new).scheduler).2, current := some t } := by
  have somebody : pool (adoptMain sch s new).scheduler ≠ 0 := by
    change pool (sch.admitThread s.scheduler new) ≠ 0
    rw [laws.admitThread s.scheduler new fresh]
    exact Multiset.cons_ne_zero
  rcases picked : sch.next (adoptMain sch s new).scheduler with ⟨next, scheduler⟩
  cases next with
  | none => exact absurd ((laws.next_none _).mp (by rw [picked])) somebody
  | some next =>
      refine ⟨next, laws.next_mem _ next (by rw [picked]), ?_⟩
      simp only [lwpStart, picked]

theorem Follows.start (laws : IsPool sch pool) (follows : Follows pool s v)
    (running : s.ended = none) (closed : Closed s) (notStarted : s.current = none)
    (fresh : new ∉ s.allocated) :
    ∃ v', Follows pool (lwpStart sch s (some new)) v' ∧ v'.lost = v.lost := by
  have adopted := follows.adopt laws running closed notStarted fresh
  have acc := follows.inv.accounted
  have notCreated : v.current = none := by rw [follows.shows.current, notStarted]; rfl
  have entered : Accounted (v.enter 1) := acc.enter (follows.inv.start notCreated) acc.low
  obtain ⟨t, ready, run⟩ := lwpStart_cases (s := s) laws fun inPool =>
    fresh (follows.shows.inPool new inPool)
  have same := laws.next_pool (adoptMain sch s new).scheduler
  have isReady := adopted.ready
  have inPool := adopted.inPool
  rw [← same] at isReady inPool
  rw [run]
  refine ⟨{ v.enter 1 with current := some ((adoptMain sch s new).tid t) }, ⟨⟨⟨adopted.named.distinct,
    adopted.named.created⟩, isReady, adopted.waiting, rfl, inPool, adopted.inWaiting, ?_,
    adopted.mode, adopted.exited, adopted.tidCount, adopted.ended, adopted.history⟩,
    ⟨entered.low, entered.fresh, entered.nodup, entered.exits, entered.alive, entered.asleep,
      entered.awake, entered.fifo, entered.past, entered.woken⟩, ?_, ?_, ?_⟩, rfl⟩
  · intro _ u isNext
    exact Option.some.inj isNext ▸ adopted.inPool t ready
  · intro _ u isCurrent
    exact Option.some.inj isCurrent ▸ adopted.mem_ready ready
  · intro none
    cases none
  · exact fun ended => absurd (follows.shows.ended.trans running) ended

section Running
variable (laws : IsPool sch pool) (follows : Follows pool s v) (running : s.ended = none)
  (isCurrent : s.current = some curr)
include follows running isCurrent

theorem Follows.ready : curr ∈ s.allocated ∧ curr ∈ pool s.scheduler ∧ s.tid curr ∈ v.ready := by
  obtain ⟨inUse, inPool⟩ := follows.shows.running follows.inv running isCurrent
  exact ⟨inUse, inPool, follows.shows.mem_ready inPool⟩

theorem Follows.current : v.ended = none ∧ v.current = some (s.tid curr) := by
  refine ⟨follows.shows.ended.trans running, ?_⟩
  rw [follows.shows.current, isCurrent]
  rfl

include laws

theorem Follows.yield : ∃ v', Follows pool (lwpYield sch s curr) v' ∧ v'.lost = v.lost := by
  obtain ⟨ended, current⟩ := follows.current running isCurrent
  obtain ⟨v', next, shows⟩ := follows.shows.yield laws isCurrent
  exact ⟨v', ⟨shows, follows.inv.accounted.switched ended (by simp [current]) next⟩, next.lost⟩

theorem Follows.exit (earlier : ∀ t ∈ v.waiting, v.blockedAt t < v.clock) (status : Int) :
    ∃ v', Follows pool (lwpExit sch s curr status) v' ∧ v'.lost = v.lost := by
  obtain ⟨_, inPool, ready⟩ := follows.ready running isCurrent
  obtain ⟨ended, current⟩ := follows.current running isCurrent
  have acc := follows.inv.accounted
  have left := follows.shows.leave laws inPool status
  have tid := leaveScheduler_tid sch s curr status
  have woken := left.release laws curr (by
    intro w waits again
    have waits : w ∈ s.waiting := waits
    have poolLeft : pool (leaveScheduler sch s curr status).scheduler =
        (pool s.scheduler).erase curr := laws.remove s.scheduler curr inPool
    rw [poolLeft] at again
    exact follows.shows.not_waiting acc waits (Multiset.mem_of_mem_erase again))
  rw [tid] at woken
  have stillCurrent : (wakeWaiting sch (leaveScheduler sch s curr status) curr).current =
      some curr := by
    simp only [wakeWaiting]
    split <;> exact isCurrent
  obtain ⟨v', next, shows⟩ := woken.yield laws stillCurrent
  refine ⟨v', ⟨shows, (acc.finish ready earlier).switched ?_ ?_ next⟩, next.lost.trans ?_⟩
  · simp only [View.release, View.leave]
    split <;> exact ended
  · simp only [View.release, View.leave]
    split <;> simp [current]
  · simp only [View.release, View.leave]
    split <;> rfl

theorem Follows.sleep (several : 2 ≤ sch.qlen s.scheduler) (room : Bool) :
    ∃ v', Follows pool (lwpYield sch (blockCurrent sch s curr room) curr) v' ∧
      (room = true → v'.lost = v.lost) := by
  obtain ⟨_, inPool, ready⟩ := follows.ready running isCurrent
  obtain ⟨ended, current⟩ := follows.current running isCurrent
  have acc := follows.inv.accounted
  have two : 2 ≤ v.ready.card := by
    rw [follows.shows.ready, Multiset.card_map, ← laws.qlen]
    exact several
  have blocked := follows.shows.sleep laws inPool room
  have stillCurrent : (blockCurrent sch s curr room).current = some curr := by
    cases room <;> exact isCurrent
  obtain ⟨v', next, shows⟩ := blocked.yield laws stillCurrent
  cases room with
  | false =>
      refine ⟨v', ⟨shows, (acc.lose ready two).switched ended ?_ next⟩, fun room => by cases room⟩
      simp [View.lose, current]
  | true =>
      refine ⟨v', ⟨shows, (acc.block ready two).switched ended ?_ next⟩, fun _ => next.lost⟩
      simp [View.block, current]

end Running

theorem Follows.reap {u : Thread} (follows : Follows pool s v)
    (dead : s.tid u ∈ s.history.terminated) : Follows pool (reap s u) v := by
  obtain ⟨notReady, notWaiting, notRunning⟩ := follows.shows.gone follows.inv dead
  exact ⟨follows.shows.reaped notReady notWaiting notRunning, follows.inv⟩

theorem Follows.resume (follows : Follows pool s v) (running : s.ended = none)
    (isCurrent : s.current = some curr)
    (dead : ∀ u, (s.context curr).exited = some u → s.tid u ∈ s.history.terminated) :
    Follows pool (lwpWaitReturn s curr) (v.resume (s.tid curr)) := by
  obtain ⟨inUse, _, ready⟩ := follows.ready running isCurrent
  exact ⟨follows.shows.resume follows.inv inUse running isCurrent dead, follows.inv.resume ready⟩

end Calls

theorem Fresh.follows {sch : Scheduler σ} {pool : σ → Multiset Thread} {s : Library σ}
    (laws : IsPool sch pool) (fresh : Fresh sch s) : ∃ v, Follows pool s v ∧ v.lost = 0 := by
  have nobody : pool s.scheduler = 0 := by
    have none := fresh.scheduler
    rw [laws.qlen] at none
    exact Multiset.card_eq_zero.mp none
  refine ⟨{ s.history with
    ready := 0
    waiting := []
    lost := 0
    current := none
    mode := fun _ => .user
    exited := fun _ => none
    tidCount := s.tidCount
    ended := s.ended }, ⟨?_, ?_⟩, rfl⟩
  · refine ⟨⟨?_, ?_⟩, ?_, ?_, ?_, ?_, ?_, ?_, ?_, ?_, rfl, rfl, rfl⟩ <;>
      simp [nobody, fresh.waiting, fresh.current, fresh.allocated]
  · refine ⟨⟨?_, ?_, ?_, ?_, ?_, ?_, ?_, ?_, ?_, ?_⟩, ?_, ?_, ?_⟩ <;>
      simp [View.alive, fresh.created, fresh.terminated, fresh.tidCount, fresh.blocked,
        fresh.released]

/-- A scheduler with one list, from whose front the next thread is taken to its end. -/
def fifo : Scheduler (List Thread) where
  admitThread := fun queue t => queue ++ [t]
  remove := fun queue t => queue.erase t
  next := fun queue => (queue.head?, queue.tail ++ queue.head?.toList)
  qlen := List.length

def fifoPool (queue : List Thread) : Multiset Thread := queue

theorem fifo_isPool : IsPool fifo fifoPool where
  admitThread := fun queue t _ => by
    have front : (queue ++ [t]).Perm (t :: queue) := List.perm_append_comm
    exact Multiset.coe_eq_coe.mpr front
  remove := fun queue t _ => (Multiset.coe_erase queue t).symm
  next_pool := fun queue => by
    cases queue with
    | nil => rfl
    | cons t queue =>
        have back : (queue ++ [t]).Perm (t :: queue) := List.perm_append_singleton t queue
        exact Multiset.coe_eq_coe.mpr back
  next_mem := fun queue t isHead => Multiset.mem_coe.mpr (List.mem_of_head? isHead)
  next_none := fun queue => by cases queue <;> simp [fifo, fifoPool]
  qlen := fun _ => rfl

def freshLibrary : Library (List Thread) where
  scheduler := []
  head := none
  tail := none
  current := none
  waiting := []
  tidCount := 2
  context := fun _ => ⟨0, 0, 0, 0, none, none, none⟩
  allocated := ∅
  mode := fun _ => .user
  ended := none
  stuck := false
  history := ⟨0, [], [], [], [], fun _ => 0, fun _ => 0⟩
  reaped := ⟨[], [], [], [], false⟩

theorem freshLibrary_fresh : Fresh fifo freshLibrary := by
  constructor <;> rfl

/-- A system with memory for everything: malloc gives this address. -/
def roomy (new : Thread) : System :=
  ⟨some (new, ⟨0, 0, 0, 0, none, none, none⟩), 0, 2 ^ 64 - 1, 4096, some (2 ^ 20 + new)⟩

/-- A thread waits for the first of its three companions, makes a new one in the memory of
that one, and waits again. -/
def waitForFirst : List Op :=
  [.create 1 (roomy 4096), .create 1 (roomy 8192), .start (some 12288), .exit 0, .wait true,
    .create 1 (roomy 4096), .wait true, .yield, .exit 3, .yield, .resume]

end Csc457.Lwp.Threads
