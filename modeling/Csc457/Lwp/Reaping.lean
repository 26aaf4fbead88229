import Csc457.Lwp.Pool

/-!
# Terminated threads are reaped

A terminated thread can be reached in two ways: by the walk over the library
list, and through the `exited` link handed to a waiting thread.  A run in which
no lwp_wait takes by the walk a thread that another thread holds in its `exited`
link reaps every thread at most once, and follows the abstract machine.
-/

set_option autoImplicit false

namespace Csc457.Lwp.Threads

open Function
open Csc457.Lib.CircularList Csc457.Lib.Transition

variable {σ : Type}

/-- No context was removed, unmapped or freed twice or used after it was freed,
and no tid was returned twice. -/
structure ReapedOnce (s : Library σ) : Prop where
  removed : s.reaped.removed.Nodup
  unmapped : (s.reaped.unmapped.map Unmap.owner).Nodup
  freed : s.reaped.freed.Nodup
  returned : s.reaped.returned.Nodup
  unused : s.reaped.usedFreed = false

/-- What was freed was freed once, and nothing else was taken apart. -/
structure Reaped.InOrder (r : Reaped) : Prop where
  removed : r.removed.Sublist r.freed
  unmapped : (r.unmapped.map Unmap.owner).Sublist r.freed
  returned : r.returned.Sublist r.freed
  nodup : r.freed.Nodup
  unused : r.usedFreed = false

/-- The library list has every context in use but that of main, and the tids of
the others are spent. -/
structure Listed (s : Library σ) (L : List Thread) : Prop where
  registry : Registry s L
  listed : ∀ t, t ∈ L ↔ t ∈ s.allocated ∧ s.tid t ≠ 1
  status : ∀ t ∈ s.allocated, isTerminated s t = true ↔ s.tid t ∈ s.history.terminated
  main : ∀ t ∈ s.allocated, s.tid t = 1 → s.one t = none ∧ s.two t = none
  unfreed : ∀ t ∈ s.allocated, s.tid t ∉ s.reaped.freed
  spent : ∀ i ∈ s.reaped.freed, i < s.tidCount ∧ (i = 1 → 1 ∈ s.history.created)
  inOrder : s.reaped.InOrder

/-- A thread in an `exited` link is in use and has terminated, and is in no other link. -/
structure Handed (s : Library σ) : Prop where
  whole : ∀ t ∈ s.allocated, ∀ u, (s.context t).exited = some u →
    u ∈ s.allocated ∧ isTerminated s u = true
  once : ∀ t ∈ s.allocated, ∀ t' ∈ s.allocated, ∀ u,
    (s.context t).exited = some u → (s.context t').exited = some u → t = t'

/-- The invariant of the runs that meet the condition. -/
structure Tidy (s : Library σ) (L : List Thread) : Prop where
  stuck : s.stuck = false
  listed : Listed s L
  handed : Handed s

/-- At an lwp_wait the first terminated thread of the library list is in no
`exited` link. -/
def Spares (s : Library σ) : Op → Prop
  | .wait _ => ∀ L, Registry s L → ∀ u, L.find? (isTerminated s) = some u →
      ∀ t ∈ s.allocated, (s.context t).exited ≠ some u
  | _ => True

theorem Listed.reapedOnce {s : Library σ} {L : List Thread} (listed : Listed s L) :
    ReapedOnce s :=
  have nodup := listed.inOrder.nodup
  ⟨nodup.sublist listed.inOrder.removed, nodup.sublist listed.inOrder.unmapped, nodup,
    nodup.sublist listed.inOrder.returned, listed.inOrder.unused⟩

theorem Handed.closed {s : Library σ} (handed : Handed s) : Closed s :=
  fun t member u isExited => (handed.whole t member u isExited).1

section Frame
variable {s s' : Library σ} {L : List Thread}

theorem LinksOnly.terminated (links : LinksOnly s s') : isTerminated s' = isTerminated s := by
  funext t
  obtain ⟨one, two, same⟩ := links.context t
  simp only [isTerminated, same]

theorem Listed.congr (listed : Listed s L) (head : s'.head = s.head) (tail : s'.tail = s.tail)
    (two : s'.two = s.two) (one : s'.one = s.one) (status : isTerminated s' = isTerminated s)
    (tid : s'.tid = s.tid) (allocated : s'.allocated = s.allocated)
    (tidCount : s'.tidCount = s.tidCount) (created : s'.history.created = s.history.created)
    (terminated : s'.history.terminated = s.history.terminated)
    (reaped : s'.reaped = s.reaped) : Listed s' L := by
  refine ⟨⟨head.trans listed.registry.head, tail.trans listed.registry.tail, ?_,
    listed.registry.nodup⟩, ?_, ?_, ?_, ?_, ?_, reaped ▸ listed.inOrder⟩
  · rw [two, one]
    exact listed.registry.ring
  · rw [allocated, tid]
    exact listed.listed
  · rw [allocated, tid, status, terminated]
    exact listed.status
  · rw [allocated, tid, two, one]
    exact listed.main
  · rw [allocated, tid, reaped]
    exact listed.unfreed
  · rw [reaped, tidCount, created]
    exact listed.spent

theorem Handed.congr (handed : Handed s)
    (exited : ∀ t, (s'.context t).exited = (s.context t).exited)
    (allocated : s'.allocated = s.allocated) (status : isTerminated s' = isTerminated s) :
    Handed s' := by
  refine ⟨?_, ?_⟩
  · rw [allocated, status]
    intro t member u isExited
    exact handed.whole t member u ((exited t).symm.trans isExited)
  · rw [allocated]
    intro t member t' member' u isExited isExited'
    exact handed.once t member t' member' u ((exited t).symm.trans isExited)
      ((exited t').symm.trans isExited')

theorem Tidy.same (tidy : Tidy s L) (stuck : s'.stuck = s.stuck) (head : s'.head = s.head)
    (tail : s'.tail = s.tail) (context : s'.context = s.context)
    (allocated : s'.allocated = s.allocated) (tidCount : s'.tidCount = s.tidCount)
    (created : s'.history.created = s.history.created)
    (terminated : s'.history.terminated = s.history.terminated)
    (reaped : s'.reaped = s.reaped) : Tidy s' L := by
  have status : isTerminated s' = isTerminated s := by
    funext t
    simp only [isTerminated, context]
  refine ⟨stuck.trans tidy.stuck, tidy.listed.congr head tail ?_ ?_ status ?_ allocated tidCount
    created terminated reaped, tidy.handed.congr (fun t => by rw [context]) allocated status⟩
  · funext t; simp only [Library.two, context]
  · funext t; simp only [Library.one, context]
  · funext t; simp only [Library.tid, context]

theorem Listed.setExited (listed : Listed s L) (t : Thread) (value : Option Thread) :
    Listed (s.modify t fun c => { c with exited := value }) L ∧
      isTerminated (s.modify t fun c => { c with exited := value }) = isTerminated s := by
  have same : ∀ u, ∃ e, (s.modify t fun c => { c with exited := value }).context u =
      { s.context u with exited := e } := by
    intro u
    by_cases isT : u = t
    · subst isT
      exact ⟨value, by simp only [Library.modify, update_self]⟩
    · exact ⟨(s.context u).exited, by simp only [Library.modify, update_of_ne isT]⟩
  have status : isTerminated (s.modify t fun c => { c with exited := value }) =
      isTerminated s := by
    funext u
    obtain ⟨_, isU⟩ := same u
    simp only [isTerminated, isU]
  refine ⟨listed.congr rfl rfl ?_ ?_ status (tid_modify s t _ fun _ => rfl) rfl rfl rfl rfl rfl,
    status⟩
  · funext u
    obtain ⟨_, isU⟩ := same u
    simp only [Library.two, isU]
  · funext u
    obtain ⟨_, isU⟩ := same u
    simp only [Library.one, isU]

theorem touch_inUse {used : List Thread} (inUse : ∀ t ∈ used, t ∈ s.allocated) :
    touch s used = s := by
  have nothing : (used.any fun t => decide (t ∉ s.allocated)) = false := by
    rw [List.any_eq_false]
    intro t member
    simpa using inUse t member
  simp only [touch, nothing, Bool.or_false]

end Frame

section Reap
variable {s : Library σ} {L : List Thread} {u : Thread}

/-- remove_thread takes one thread off the list, or finds the main thread, which is
on no list and has no links.  It uses no freed context. -/
theorem removeThread_listed (listed : Listed s L) (inUse : u ∈ s.allocated) :
    ∃ L', Registry (removeThread s u) L' ∧ (removeThread s u).stuck = s.stuck ∧
      (∀ t ∈ neighbours s u, t ∈ s.allocated) ∧ (∀ t, t ∈ L' ↔ t ∈ L ∧ t ≠ u) ∧
      ∀ t, t ∉ L' → (removeThread s u).context t = s.context t := by
  by_cases member : u ∈ L
  · obtain ⟨A, B, rfl⟩ := List.append_of_mem member
    have gone : u ∉ A ++ B :=
      (List.nodup_cons.mp (List.perm_middle.nodup_iff.mp listed.registry.nodup)).1
    obtain ⟨registry, stuck, near, outside⟩ := removeThread_registry listed.registry
    refine ⟨A ++ B, registry, stuck, ?_, ?_, outside⟩
    · intro t isNear
      have inList : t ∈ A ++ u :: B := by
        rcases List.mem_append.mp (near t isNear) with member | member <;> simp [member]
      exact ((listed.listed t).mp inList).1
    · intro t
      constructor
      · intro inRest
        refine ⟨?_, fun same => gone (same ▸ inRest)⟩
        rcases List.mem_append.mp inRest with member | member <;> simp [member]
      · rintro ⟨inList, other⟩
        have cases : t ∈ A ∨ t = u ∨ t ∈ B := by simpa using inList
        simpa [other] using cases
  · have isMain : s.tid u = 1 := by
      by_contra other
      exact member ((listed.listed u).mpr ⟨inUse, other⟩)
    obtain ⟨noOne, noTwo⟩ := listed.main u inUse isMain
    obtain ⟨same, none⟩ := removeThread_unlisted listed.registry member noOne noTwo
    rw [same, none]
    refine ⟨L, listed.registry, rfl, fun t isNear => absurd isNear List.not_mem_nil, ?_,
      fun _ _ => rfl⟩
    exact fun t => ⟨fun inList => ⟨inList, fun isU => member (isU ▸ inList)⟩, fun both => both.1⟩

/-- What is left of reap when no freed context is used: the removal, its log and free. -/
theorem reap_eq (inUse : ∀ t ∈ u :: neighbours s u, t ∈ s.allocated) :
    reap s u = { removeThread s u with
      allocated := s.allocated.erase u
      reaped := { s.reaped with
        removed := s.tid u :: s.reaped.removed
        unmapped := if (s.context u).stack ≠ 0
          then ⟨s.tid u, (s.context u).stack, (s.context u).stacksize⟩ :: s.reaped.unmapped
          else s.reaped.unmapped
        freed := s.tid u :: s.reaped.freed
        returned := s.tid u :: s.reaped.returned } } := by
  have links := removeThread_linksOnly s u
  obtain ⟨one, two, same⟩ := links.context u
  simp only [reap, freeContext, touch_inUse inUse, Library.tid, same, links.allocated,
    links.reaped]

theorem reap_listed (listed : Listed s L) (named : Named s) (inUse : u ∈ s.allocated)
    (below : s.tid u < s.tidCount) :
    (∃ L', Listed (reap s u) L') ∧ (reap s u).stuck = s.stuck ∧
      isTerminated (reap s u) = isTerminated s := by
  have links := removeThread_linksOnly s u
  obtain ⟨L', registry, stuck, near, members, outside⟩ := removeThread_listed listed inUse
  have run := reap_eq (s := s) (u := u) (by
    intro t isUsed
    rcases List.mem_cons.mp isUsed with rfl | isNear
    · exact inUse
    · exact near t isNear)
  rw [run]
  have inOrder := listed.inOrder
  have stays : ∀ t ∈ s.allocated.erase u, t ≠ u ∧ t ∈ s.allocated := fun t =>
    Finset.mem_erase.mp
  refine ⟨⟨L', ⟨⟨registry.head, registry.tail, registry.ring, registry.nodup⟩, ?_, ?_, ?_, ?_, ?_,
    ⟨inOrder.removed.cons_cons _, ?_, inOrder.returned.cons_cons _,
      List.nodup_cons.mpr ⟨listed.unfreed u inUse, inOrder.nodup⟩, inOrder.unused⟩⟩⟩, stuck,
    links.terminated⟩
  · intro t
    change t ∈ L' ↔ t ∈ s.allocated.erase u ∧ (removeThread s u).tid t ≠ 1
    rw [members, listed.listed, Finset.mem_erase, links.tid]
    constructor
    · rintro ⟨⟨here, notMain⟩, different⟩
      exact ⟨⟨different, here⟩, notMain⟩
    · rintro ⟨⟨different, here⟩, notMain⟩
      exact ⟨⟨here, notMain⟩, different⟩
  · intro t member
    change isTerminated (removeThread s u) t = true ↔
      (removeThread s u).tid t ∈ (removeThread s u).history.terminated
    rw [links.terminated, links.tid, links.history]
    exact listed.status t (stays t member).2
  · intro t member isMain
    have isMain : s.tid t = 1 := by rw [← links.tid]; exact isMain
    have unlisted : t ∉ L' := fun inList =>
      ((listed.listed t).mp ((members t).mp inList).1).2 isMain
    have same := outside t unlisted
    change ((removeThread s u).context t).libOne = none ∧
      ((removeThread s u).context t).libTwo = none
    rw [same]
    exact listed.main t (stays t member).2 isMain
  · intro t member
    change (removeThread s u).tid t ∉ s.tid u :: s.reaped.freed
    rw [links.tid, List.mem_cons, not_or]
    obtain ⟨other, here⟩ := stays t member
    exact ⟨fun same => other (named.distinct t here u inUse same), listed.unfreed t here⟩
  · intro i spent
    change i < (removeThread s u).tidCount ∧ (i = 1 → 1 ∈ (removeThread s u).history.created)
    rw [links.tidCount, links.history]
    rcases List.mem_cons.mp spent with rfl | spent
    · exact ⟨below, fun isMain => isMain ▸ named.created u inUse⟩
    · exact listed.spent i spent
  · change List.Sublist (List.map Unmap.owner (if (s.context u).stack ≠ 0 then _ else _)) _
    split
    · exact inOrder.unmapped.cons_cons _
    · exact inOrder.unmapped.cons _

theorem reap_tidy (tidy : Tidy s L) (named : Named s) (inUse : u ∈ s.allocated)
    (below : s.tid u < s.tidCount) (spared : ∀ t ∈ s.allocated, (s.context t).exited ≠ some u) :
    ∃ L', Tidy (reap s u) L' := by
  obtain ⟨⟨L', listed⟩, stuck, status⟩ := reap_listed tidy.listed named inUse below
  obtain ⟨allocated, _, exited, _⟩ := reap_kept s u
  refine ⟨L', stuck.trans tidy.stuck, listed, ⟨?_, ?_⟩⟩
  · rw [allocated, status]
    intro t member w isExited
    rw [exited] at isExited
    obtain ⟨here, ended⟩ := tidy.handed.whole t (Finset.mem_of_mem_erase member) w isExited
    refine ⟨Finset.mem_erase.mpr ⟨?_, here⟩, ended⟩
    rintro rfl
    exact spared t (Finset.mem_of_mem_erase member) isExited
  · rw [allocated]
    intro t member t' member' w isExited isExited'
    rw [exited] at isExited isExited'
    exact tidy.handed.once t (Finset.mem_of_mem_erase member) t'
      (Finset.mem_of_mem_erase member') w isExited isExited'

end Reap

/-- The context at `new` is used, live and with no `exited` link. -/
structure Enters (s s' : Library σ) (new : Thread) : Prop where
  fresh : new ∉ s.allocated
  allocated : s'.allocated = insert new s.allocated
  live : isTerminated s' new = false
  exited : (s'.context new).exited = none
  others : ∀ t ∈ s.allocated, isTerminated s' t = isTerminated s t ∧ s'.tid t = s.tid t ∧
    (s'.context t).exited = (s.context t).exited
  history : s'.history = { s.history with created := s'.tid new :: s.history.created }
  reaped : s'.reaped = s.reaped
  tidCount : s.tidCount ≤ s'.tidCount

section Enters
variable {s s' : Library σ} {L L' : List Thread} {new : Thread}

/-- The threads that were there are described as before, and the new one is live. -/
theorem Enters.listed (enters : Enters s s' new) (listed : Listed s L)
    (notDead : s'.tid new ∉ s.history.terminated) (unfreed : s'.tid new ∉ s.reaped.freed)
    (registry : Registry s' L') (members : ∀ t, t ∈ L' ↔ t ∈ s'.allocated ∧ s'.tid t ≠ 1)
    (main : ∀ t ∈ s'.allocated, s'.tid t = 1 → s'.one t = none ∧ s'.two t = none) :
    Listed s' L' := by
  have cases : ∀ t ∈ s'.allocated, t = new ∨ t ∈ s.allocated := by
    rw [enters.allocated]
    exact fun t => Finset.mem_insert.mp
  refine ⟨registry, members, ?_, main, ?_, ?_, enters.reaped ▸ listed.inOrder⟩
  · intro t member
    rw [enters.history]
    change isTerminated s' t = true ↔ s'.tid t ∈ s.history.terminated
    rcases cases t member with rfl | member
    · simp only [enters.live, notDead, Bool.false_eq_true]
    · rw [(enters.others t member).1, (enters.others t member).2.1]
      exact listed.status t member
  · intro t member
    rw [enters.reaped]
    rcases cases t member with rfl | member
    · exact unfreed
    · rw [(enters.others t member).2.1]
      exact listed.unfreed t member
  · rw [enters.reaped, enters.history]
    intro i spent
    obtain ⟨less, isMain⟩ := listed.spent i spent
    exact ⟨Nat.lt_of_lt_of_le less enters.tidCount, fun same =>
      List.mem_cons_of_mem _ (isMain same)⟩

theorem Enters.handed (enters : Enters s s' new) (handed : Handed s) : Handed s' := by
  have old : ∀ t ∈ s'.allocated, ∀ u, (s'.context t).exited = some u →
      t ∈ s.allocated ∧ (s.context t).exited = some u := by
    rw [enters.allocated]
    intro t isIn u isExited
    rcases Finset.mem_insert.mp isIn with rfl | member
    · rw [enters.exited] at isExited
      cases isExited
    · rw [(enters.others t member).2.2] at isExited
      exact ⟨member, isExited⟩
  refine ⟨?_, ?_⟩
  · intro t isIn u isExited
    obtain ⟨member, isExited⟩ := old t isIn u isExited
    obtain ⟨here, ended⟩ := handed.whole t member u isExited
    rw [enters.allocated]
    exact ⟨Finset.mem_insert_of_mem here, (enters.others u here).1.trans ended⟩
  · intro t isIn t' isIn' u isExited isExited'
    obtain ⟨member, isExited⟩ := old t isIn u isExited
    obtain ⟨member', isExited'⟩ := old t' isIn' u isExited'
    exact handed.once t member t' member' u isExited isExited'

theorem Registry.overwrite {c : Context} (registry : Registry s L) (unlisted : new ∉ L)
    (head : s'.head = s.head) (tail : s'.tail = s.tail)
    (context : s'.context = update s.context new c) : Registry s' L := by
  refine registry.congr head tail fun t member => ?_
  have other : t ≠ new := fun same => unlisted (same ▸ member)
  simp only [Library.two, Library.one, context, update_of_ne other, and_self]

end Enters

/-! ## The calls -/

section Call
variable {sch : Scheduler σ} {pool : σ → Multiset Thread} {s s' : Library σ} {v : View}
  {L : List Thread} {new curr : Thread}

theorem Follows.below (follows : Follows pool s v) : ∀ t ∈ s.allocated, s.tid t < s.tidCount := by
  intro t member
  have created := follows.shows.named.created t member
  rw [← follows.created] at created
  rw [← follows.shows.tidCount]
  exact follows.inv.accounted.fresh _ created

theorem Follows.unused (follows : Follows pool s v) (listed : Listed s L) :
    2 ≤ s.tidCount ∧ s.tidCount ∉ s.history.created ∧ s.tidCount ∉ s.history.terminated ∧
      s.tidCount ∉ s.reaped.freed := by
  have acc := follows.inv.accounted
  have unused := acc.unused
  have low := acc.low
  have exits := acc.exits v.tidCount
  rw [follows.shows.tidCount] at low
  rw [follows.created, follows.shows.tidCount] at unused
  rw [follows.shows.history, follows.shows.tidCount] at exits
  exact ⟨low, unused, fun dead => unused (exits dead), fun spent =>
    lt_irrefl _ (listed.spent _ spent).1⟩

theorem lwpYield_tidy (laws : IsPool sch pool) (tidy : Tidy s L)
    (isCurrent : s.current = some curr) : Tidy (lwpYield sch s curr) L := by
  rcases lwpYield_cases laws isCurrent with ⟨t, _, run⟩ | ⟨_, status, run⟩ <;>
    · rw [run]
      exact tidy.same rfl rfl rfl rfl rfl rfl rfl rfl rfl

theorem giveBack_tidy (follows : Follows pool s v) (tidy : Tidy s L) (fresh : new ∉ s.allocated)
    {contents : Context} {unmapped : List Unmap}
    (atMost : unmapped = s.reaped.unmapped ∨
      ∃ stack size, unmapped = ⟨s.tidCount, stack, size⟩ :: s.reaped.unmapped) :
    Tidy (giveBack s new contents unmapped) L := by
  have listed := tidy.listed
  have inOrder := listed.inOrder
  obtain ⟨low, _, _, unspent⟩ := follows.unused listed
  have allocated : (giveBack s new contents unmapped).allocated = s.allocated :=
    Finset.erase_insert fresh
  have context : ∀ t ∈ s.allocated,
      (giveBack s new contents unmapped).context t = s.context t := fun t member =>
    update_of_ne (fun isNew : t = new => fresh (isNew ▸ member)) ..
  have freed : (giveBack s new contents unmapped).reaped.freed =
      s.tidCount :: s.reaped.freed := by
    simp [giveBack, freeContext, Library.tid]
  have unlisted : new ∉ L := fun member => fresh ((listed.listed new).mp member).1
  refine ⟨tidy.stuck, ⟨listed.registry.overwrite unlisted rfl rfl rfl, ?_, ?_, ?_, ?_, ?_, ?_⟩,
    ⟨?_, ?_⟩⟩
  · rw [allocated]
    intro t
    rw [listed.listed]
    refine and_congr_right fun member => ?_
    simp only [Library.tid, context t member]
  · rw [allocated]
    intro t member
    rw [isTerminated, Library.tid, context t member]
    exact listed.status t member
  · rw [allocated]
    intro t member
    simpa only [Library.one, Library.two, Library.tid, context t member] using listed.main t member
  · rw [allocated, freed]
    intro t member
    have less := follows.below t member
    have unfreed := listed.unfreed t member
    simp only [Library.tid, context t member, List.mem_cons, not_or] at less unfreed ⊢
    exact ⟨Nat.ne_of_lt less, unfreed⟩
  · rw [freed]
    intro i spent
    rcases List.mem_cons.mp spent with rfl | spent
    · exact ⟨Nat.lt_succ_self _, fun isMain => absurd isMain (Nat.ne_of_gt low)⟩
    · exact ⟨Nat.lt_succ_of_lt (listed.spent i spent).1, (listed.spent i spent).2⟩
  · refine ⟨?_, ?_, ?_, ?_, inOrder.unused⟩ <;> rw [freed]
    · exact inOrder.removed.cons _
    · rcases atMost with rfl | ⟨stack, size, rfl⟩
      · exact inOrder.unmapped.cons _
      · exact inOrder.unmapped.cons_cons _
    · exact inOrder.returned.cons _
    · exact List.nodup_cons.mpr ⟨unspent, inOrder.nodup⟩
  · rw [allocated]
    intro t member u isExited
    rw [context t member] at isExited
    obtain ⟨here, ended⟩ := tidy.handed.whole t member u isExited
    refine ⟨here, ?_⟩
    rw [isTerminated, context u here]
    exact ended
  · rw [allocated]
    intro t member t' member' u isExited isExited'
    rw [context t member] at isExited
    rw [context t' member'] at isExited'
    exact tidy.handed.once t member t' member' u isExited isExited'

theorem lwpTerminated_mkTermStat (b : Nat) :
    lwpTerminated (mkTermStat lwpTerm b) = true ∧ lwpTerminated (mkTermStat lwpLive b) = false := by
  simp only [lwpTerminated, mkTermStat, lwpTerm, lwpLive]
  refine ⟨?_, ?_⟩
  · exact decide_eq_true (by omega)
  · exact decide_eq_false (by omega)

/-- A context written in malloc's memory and put into use, whatever its links become. -/
theorem enters_of_written {c : Context} (fresh : new ∉ s.allocated)
    (live : c.status = mkTermStat lwpLive 0) (noLink : c.exited = none) (more : Nat)
    (tidCount : s.tidCount ≤ more)
    (links : LinksOnly { joinPool sch { s with context := update s.context new c } new with
      tidCount := more } s') : Enters s s' new ∧ s'.tid new = c.tid := by
  have self : update s.context new c new = c := update_self ..
  have other : ∀ t ∈ s.allocated, update s.context new c t = s.context t := fun t member =>
    update_of_ne (fun isNew : t = new => fresh (isNew ▸ member)) ..
  have isTid : s'.tid new = c.tid := by
    rw [links.tid]
    exact congrArg Context.tid self
  refine ⟨⟨fresh, links.allocated, ?_, ?_, ?_, ?_, links.reaped, ?_⟩, isTid⟩
  · rw [links.terminated]
    change lwpTerminated (update s.context new c new).status = false
    rw [self, live, (lwpTerminated_mkTermStat _).2]
  · rw [links.exited]
    exact (congrArg Context.exited self).trans noLink
  · intro t member
    rw [links.terminated, links.tid, links.exited]
    have same := other t member
    exact ⟨congrArg (fun d : Context => lwpTerminated d.status) same, congrArg Context.tid same,
      congrArg Context.exited same⟩
  · rw [links.history, isTid]
    change ({ s.history with created := (update s.context new c new).tid :: _ } : History) = _
    rw [self]
  · rw [links.tidCount]
    exact tidCount

variable (sch) in
theorem lwpCreate_tidy (follows : Follows pool s v) (tidy : Tidy s L) (func : Nat) {sys : System}
    (fresh : ∀ memory ∈ sys.context, memory.1 ∉ s.allocated) :
    ∃ L', Tidy (lwpCreate sch s func sys).2 L' := by
  have listed := tidy.listed
  rcases lwpCreate_cases sch (s := s) func sys with
    same | ⟨new, contents, isContext, ⟨unmapped, run, atMost⟩ | ⟨c, made, run⟩⟩
  · exact ⟨L, by rwa [same]⟩
  · rw [run]
    exact ⟨L, giveBack_tidy follows tidy (fresh _ isContext) atMost⟩
  have fresh : new ∉ s.allocated := fresh _ isContext
  obtain ⟨low, _, notDead, unfreed⟩ := follows.unused listed
  have unlisted : new ∉ L := fun member => fresh ((listed.listed new).mp member).1
  rw [run]
  generalize joined : ({ joinPool sch { s with context := update s.context new c } new with
    tidCount := s.tidCount + 1 } : Library σ) = s₁
  have before : Registry s₁ L := by
    rw [← joined]
    exact listed.registry.overwrite unlisted rfl rfl rfl
  obtain ⟨registry, stuck, outside⟩ := addThread_registry before unlisted
  have links := addThread_linksOnly s₁ new
  rw [← joined] at links
  obtain ⟨enters, isTid⟩ := enters_of_written fresh made.status made.exited
    (s.tidCount + 1) (Nat.le_succ _) links
  rw [joined] at links enters isTid
  rw [made.tid] at isTid
  refine ⟨L ++ [new], ?_, ?_, enters.handed tidy.handed⟩
  · rw [stuck, ← joined]
    exact tidy.stuck
  · apply enters.listed listed (isTid ▸ notDead) (isTid ▸ unfreed) registry
    · intro t
      rw [enters.allocated, List.mem_append, List.mem_singleton, Finset.mem_insert, listed.listed]
      constructor
      · rintro (⟨here, notMain⟩ | rfl)
        · exact ⟨Or.inr here, by rwa [(enters.others t here).2.1]⟩
        · exact ⟨Or.inl rfl, by rw [isTid]; exact Nat.ne_of_gt low⟩
      · rintro ⟨rfl | here, notMain⟩
        · exact Or.inr rfl
        · exact Or.inl ⟨here, by rwa [← (enters.others t here).2.1]⟩
    · rw [enters.allocated]
      intro t isIn isMain
      rcases Finset.mem_insert.mp isIn with rfl | here
      · exact absurd (isTid.symm.trans isMain) (Nat.ne_of_gt low)
      · rw [(enters.others t here).2.1] at isMain
        have other : t ≠ new := fun isNew => fresh (isNew ▸ here)
        have notListed : t ∉ L ++ [new] := by
          intro again
          rcases List.mem_append.mp again with again | again
          · exact ((listed.listed t).mp again).2 isMain
          · exact other (List.mem_singleton.mp again)
        have old : s₁.context t = s.context t := by
          rw [← joined]
          exact update_of_ne other ..
        simp only [Library.one, Library.two, outside t notListed, old]
        exact listed.main t here isMain

theorem lwpStart_tidy (laws : IsPool sch pool) (follows : Follows pool s v) (tidy : Tidy s L)
    (notStarted : s.current = none) (fresh : new ∉ s.allocated) :
    Tidy (lwpStart sch s (some new)) L := by
  have listed := tidy.listed
  have notCreated : v.current = none := by rw [follows.shows.current, notStarted]; rfl
  have unused : 1 ∉ s.history.created := by
    rw [← follows.created]
    exact follows.inv.start notCreated
  have notDead : 1 ∉ s.history.terminated := fun dead => by
    have exits := follows.inv.accounted.exits 1
    rw [follows.shows.history] at exits
    exact unused (exits dead)
  have unfreed : 1 ∉ s.reaped.freed := fun spent => unused ((listed.spent 1 spent).2 rfl)
  have unlisted : new ∉ L := fun member => fresh ((listed.listed new).mp member).1
  have registry : Registry (adoptMain sch s new) L :=
    listed.registry.overwrite unlisted rfl rfl rfl
  have adopted : adoptMain sch s new =
      { joinPool sch { s with context := update s.context new mainContext } new with
        tidCount := s.tidCount } := by
    simp [adoptMain, joinPool, Library.tid, mainContext]
  have links : LinksOnly { joinPool sch { s with context := update s.context new mainContext } new
      with tidCount := s.tidCount } (adoptMain sch s new) := by
    rw [adopted]
    exact LinksOnly.refl _
  have live : mainContext.status = mkTermStat lwpLive 0 := rfl
  obtain ⟨enters, isTid⟩ := enters_of_written fresh live rfl s.tidCount (Nat.le_refl _) links
  have isTid : (adoptMain sch s new).tid new = 1 := isTid
  have listed' : Listed (adoptMain sch s new) L := by
    apply enters.listed listed (isTid ▸ notDead) (isTid ▸ unfreed) registry
    · intro t
      rw [enters.allocated, Finset.mem_insert, listed.listed]
      constructor
      · rintro ⟨here, notMain⟩
        exact ⟨Or.inr here, by rwa [(enters.others t here).2.1]⟩
      · rintro ⟨rfl | here, notMain⟩
        · exact absurd isTid notMain
        · exact ⟨here, by rwa [← (enters.others t here).2.1]⟩
    · rw [enters.allocated]
      intro t isIn isMain
      rcases Finset.mem_insert.mp isIn with rfl | here
      · simp [Library.one, Library.two, adoptMain, mainContext]
      · rw [(enters.others t here).2.1] at isMain
        have other : t ≠ new := fun isNew => fresh (isNew ▸ here)
        have old : (adoptMain sch s new).context t = s.context t := update_of_ne other ..
        simp only [Library.one, Library.two, old]
        exact listed.main t here isMain
  have tidy' : Tidy (adoptMain sch s new) L := ⟨tidy.stuck, listed', enters.handed tidy.handed⟩
  obtain ⟨_, _, run⟩ := lwpStart_cases (s := s) laws fun inPool =>
    fresh (follows.shows.inPool new inPool)
  rw [run]
  exact tidy'.same rfl rfl rfl rfl rfl rfl rfl rfl rfl

theorem lwpWait_kept (laws : IsPool sch pool) (follows : Follows pool s v) (tidy : Tidy s L)
    (running : s.ended = none) (isCurrent : s.current = some curr) {room : Bool}
    (spares : Spares s (.wait room)) :
    ∃ v' L', Follows pool (lwpWait sch s curr room) v' ∧ Tidy (lwpWait sch s curr room) L' ∧
      (room = true → v'.lost = v.lost) := by
  have listed := tidy.listed
  have named := follows.shows.named
  have inUse : ∀ t ∈ L, t ∈ s.allocated := fun t member => ((listed.listed t).mp member).1
  have few : L.length ≤ s.tidCount := by
    have distinct : (L.map s.tid).Nodup := List.Nodup.map_on
      (fun t member u member' => named.distinct t (inUse t member) u (inUse u member'))
      listed.registry.nodup
    have below : L.map s.tid ⊆ List.range s.tidCount := by
      intro i member
      obtain ⟨t, inList, rfl⟩ := List.mem_map.mp member
      exact List.mem_range.mpr (follows.below t (inUse t inList))
    simpa using (List.subperm_of_subset distinct below).length_le
  obtain ⟨read, run, within⟩ := scanList_registry listed.registry few
  have unused : touch s read = s := touch_inUse fun t member => inUse t (within t member)
  cases found : L.find? (isTerminated s) with
  | some u =>
      have used := inUse u (List.mem_of_find?_eq_some found)
      have dead := (listed.status u used).mp (List.find?_some found)
      have reaped : lwpWait sch s curr room = reap s u := by
        simp only [lwpWait, run, found, unused]
      rw [reaped]
      obtain ⟨L', tidy'⟩ := reap_tidy tidy named used (follows.below u used)
        (spares L listed.registry u found)
      exact ⟨v, L', follows.reap dead, tidy', fun _ => rfl⟩
  | none =>
      have waits : lwpWait sch s curr room = if sch.qlen s.scheduler ≤ 1 then s
          else lwpYield sch (blockCurrent sch s curr room) curr := by
        simp only [lwpWait, run, found, unused]
      rw [waits]
      split
      · exact ⟨v, L, follows, tidy, fun _ => rfl⟩
      · rename_i several
        obtain ⟨v', follows', lost⟩ :=
          follows.sleep laws running isCurrent (Nat.lt_of_not_le several) room
        refine ⟨v', L, follows', lwpYield_tidy laws ?_ ?_, lost⟩
        · cases room <;> exact tidy.same rfl rfl rfl rfl rfl rfl rfl rfl rfl
        · cases room <;> exact isCurrent

variable (sch) in
theorem leaveScheduler_tidy (tidy : Tidy s L) (named : Named s) (inUse : curr ∈ s.allocated)
    (status : Int) :
    Tidy (leaveScheduler sch s curr status) L ∧
      isTerminated (leaveScheduler sch s curr status) curr = true ∧
      ∀ t, ((leaveScheduler sch s curr status).context t).exited = (s.context t).exited := by
  have other : ∀ u, u ≠ curr → (leaveScheduler sch s curr status).context u = s.context u :=
    fun u different => update_of_ne different ..
  have self : (leaveScheduler sch s curr status).context curr =
      { s.context curr with status := mkTermStat lwpTerm (status % 256).toNat } := update_self ..
  have tid := leaveScheduler_tid sch s curr status
  have two : (leaveScheduler sch s curr status).two = s.two := by
    funext u
    by_cases isCurr : u = curr
    · simp only [Library.two, isCurr, self]
    · simp only [Library.two, other u isCurr]
  have one : (leaveScheduler sch s curr status).one = s.one := by
    funext u
    by_cases isCurr : u = curr
    · simp only [Library.one, isCurr, self]
    · simp only [Library.one, other u isCurr]
  have exited : ∀ t, ((leaveScheduler sch s curr status).context t).exited =
      (s.context t).exited := by
    intro t
    by_cases isCurr : t = curr
    · rw [isCurr, self]
    · rw [other t isCurr]
  have ended : isTerminated (leaveScheduler sch s curr status) curr = true := by
    simp only [isTerminated, self, (lwpTerminated_mkTermStat _).1]
  have terminated : (leaveScheduler sch s curr status).history.terminated =
      s.tid curr :: s.history.terminated := by
    rw [← tid]
    rfl
  have listed := tidy.listed
  refine ⟨⟨tidy.stuck, ⟨⟨listed.registry.head, listed.registry.tail, ?_, listed.registry.nodup⟩,
    ?_, ?_, ?_, ?_, listed.spent, listed.inOrder⟩, ⟨?_, ?_⟩⟩, ended, exited⟩
  · rw [two, one]
    exact listed.registry.ring
  · rw [tid]
    exact listed.listed
  · intro t member
    rw [terminated, tid, List.mem_cons]
    by_cases isCurr : t = curr
    · rw [isCurr]
      exact iff_of_true ended (Or.inl rfl)
    · have different : s.tid t ≠ s.tid curr := fun same =>
        isCurr (named.distinct t member curr inUse same)
      rw [or_iff_right different, ← listed.status t member, isTerminated, isTerminated,
        other t isCurr]
  · rw [tid, two, one]
    exact listed.main
  · rw [tid]
    exact listed.unfreed
  · intro t member u isExited
    rw [exited] at isExited
    obtain ⟨here, dead⟩ := tidy.handed.whole t member u isExited
    refine ⟨here, ?_⟩
    by_cases isCurr : u = curr
    · rw [isCurr]
      exact ended
    · rw [isTerminated, other u isCurr]
      exact dead
  · intro t member t' member' u isExited isExited'
    rw [exited] at isExited isExited'
    exact tidy.handed.once t member t' member' u isExited isExited'

theorem wakeWaiting_tidy (tidy : Tidy s L) (inUse : curr ∈ s.allocated)
    (ended : isTerminated s curr = true)
    (unlinked : ∀ t ∈ s.allocated, (s.context t).exited ≠ some curr) :
    Tidy (wakeWaiting sch s curr) L := by
  cases waits : s.waiting with
  | nil =>
      have same : wakeWaiting sch s curr = s := by simp only [wakeWaiting, waits]
      rwa [same]
  | cons w rest =>
      obtain ⟨listed, status⟩ := tidy.listed.setExited w (some curr)
      have exited := fun t => exited_setExited s w t (some curr)
      have linked : Tidy (s.modify w fun c => { c with exited := some curr }) L := by
        refine ⟨tidy.stuck, listed, ⟨?_, ?_⟩⟩
        · rw [status]
          intro t member u isExited
          rw [exited] at isExited
          split at isExited
          · obtain rfl := Option.some.inj isExited
            exact ⟨inUse, ended⟩
          · exact tidy.handed.whole t member u isExited
        · intro t member t' member' u isExited isExited'
          rw [exited] at isExited isExited'
          by_cases isW : t = w <;> by_cases isW' : t' = w
          · exact isW.trans isW'.symm
          · rw [if_pos isW] at isExited
            rw [if_neg isW', ← isExited] at isExited'
            exact absurd isExited' (unlinked t' member')
          · rw [if_neg isW] at isExited
            rw [if_pos isW'] at isExited'
            rw [← isExited'] at isExited
            exact absurd isExited (unlinked t member)
          · rw [if_neg isW] at isExited
            rw [if_neg isW'] at isExited'
            exact tidy.handed.once t member t' member' u isExited isExited'
      simp only [wakeWaiting, waits]
      exact linked.same rfl rfl rfl rfl rfl rfl rfl rfl rfl

theorem lwpExit_tidy (laws : IsPool sch pool) (follows : Follows pool s v) (tidy : Tidy s L)
    (running : s.ended = none) (isCurrent : s.current = some curr) (status : Int) :
    Tidy (lwpExit sch s curr status) L := by
  obtain ⟨inUse, _, ready⟩ := follows.ready running isCurrent
  have notDead : isTerminated s curr ≠ true := by
    rw [Ne, tidy.listed.status curr inUse, ← follows.shows.history]
    exact (View.mem_alive.mp (follows.inv.accounted.mem_alive.mpr (Or.inl ready))).2
  obtain ⟨left, ended, exited⟩ :=
    leaveScheduler_tidy sch tidy follows.shows.named inUse status
  have woken : Tidy (wakeWaiting sch (leaveScheduler sch s curr status) curr) L := by
    refine wakeWaiting_tidy left inUse ended fun t member isExited => ?_
    rw [exited] at isExited
    exact notDead (tidy.handed.whole t member curr isExited).2
  refine lwpYield_tidy laws woken ?_
  simp only [wakeWaiting]
  split <;> exact isCurrent

theorem lwpWaitReturn_kept (follows : Follows pool s v) (tidy : Tidy s L)
    (running : s.ended = none) (isCurrent : s.current = some curr) :
    Follows pool (lwpWaitReturn s curr) (v.resume (s.tid curr)) ∧
      ∃ L', Tidy (lwpWaitReturn s curr) L' := by
  obtain ⟨inUse, _, _⟩ := follows.ready running isCurrent
  have named := follows.shows.named
  have dead : ∀ u, (s.context curr).exited = some u → s.tid u ∈ s.history.terminated := by
    intro u isExited
    obtain ⟨used, ended⟩ := tidy.handed.whole curr inUse u isExited
    exact (tidy.listed.status u used).mp ended
  refine ⟨follows.resume running isCurrent dead, ?_⟩
  have user : Tidy { s with mode := update s.mode curr .user } L :=
    tidy.same rfl rfl rfl rfl rfl rfl rfl rfl rfl
  cases handed : (s.context curr).exited with
  | none => exact ⟨L, by simpa only [lwpWaitReturn, handed] using user⟩
  | some u =>
      simp only [lwpWaitReturn, handed]
      obtain ⟨used, _⟩ := tidy.handed.whole curr inUse u handed
      obtain ⟨⟨L', listed⟩, stuck, status⟩ := reap_listed user.listed
        ⟨named.distinct, named.created⟩ used (follows.below u used)
      obtain ⟨allocated, _, exited, _⟩ := reap_kept { s with mode := update s.mode curr .user } u
      obtain ⟨listed', status'⟩ := listed.setExited curr none
      have old : ∀ t, t ∈ (reap { s with mode := update s.mode curr .user } u).allocated →
          t ∈ s.allocated := by
        rw [allocated]
        exact fun t => Finset.mem_of_mem_erase
      refine ⟨L', stuck.trans tidy.stuck, listed', ⟨?_, ?_⟩⟩
      · rw [status', status]
        intro t member w isOther
        rw [exited_setExited] at isOther
        split at isOther
        · cases isOther
        · rename_i other
          rw [exited] at isOther
          obtain ⟨here, ended⟩ := tidy.handed.whole t (old t member) w isOther
          refine ⟨?_, ended⟩
          have different : w ≠ u := by
            intro isU
            rw [isU] at isOther
            exact other (tidy.handed.once t (old t member) curr inUse u isOther handed)
          change w ∈ (reap { s with mode := update s.mode curr .user } u).allocated
          rw [allocated]
          exact Finset.mem_erase.mpr ⟨different, here⟩
      · intro t member t' member' w isOther isOther'
        rw [exited_setExited] at isOther isOther'
        split at isOther
        · cases isOther
        · split at isOther'
          · cases isOther'
          · rw [exited] at isOther isOther'
            exact tidy.handed.once t (old t member) t' (old t' member') w isOther isOther'

/-- A call that meets the condition keeps the list and the `exited` links in order, and
follows the abstract machine. -/
theorem kept_step (laws : IsPool sch pool) (follows : Follows pool s v) (tidy : Tidy s L) {op : Op}
    (spares : Spares s op) (hasMain : op ≠ .start none) (next : step sch s op s') :
    ∃ v' L', Follows pool s' v' ∧ Tidy s' L' ∧ (Succeeds op → v'.lost = v.lost) := by
  obtain ⟨⟨running, _, ready, gives⟩, rfl⟩ := next
  have earlier := follows.inv.accounted.tick.2
  have closed : Closed (tick s) := tidy.handed.closed
  have follows := follows.tick
  have tidy : Tidy (tick s) L := tidy.same rfl rfl rfl rfl rfl rfl rfl rfl rfl
  cases op with
  | create func sys =>
      obtain ⟨v', follows', lost⟩ :=
        follows.create laws func running closed gives
      obtain ⟨L', tidy'⟩ := lwpCreate_tidy sch follows tidy func gives
      exact ⟨v', L', follows', tidy', fun _ => lost⟩
  | start memory =>
      cases memory with
      | none => exact absurd rfl hasMain
      | some mainThread =>
          have fresh := gives mainThread rfl
          obtain ⟨v', follows', lost⟩ := follows.start laws running closed ready fresh
          exact ⟨v', L, follows', lwpStart_tidy laws follows tidy ready fresh, fun _ => lost⟩
  | yield =>
      obtain ⟨curr, isCurrent, _⟩ := Runs.current ready
      rw [perform_yield isCurrent]
      obtain ⟨v', follows', lost⟩ := follows.yield laws running isCurrent
      exact ⟨v', L, follows', lwpYield_tidy laws tidy isCurrent, fun _ => lost⟩
  | wait room =>
      obtain ⟨curr, isCurrent, _⟩ := Runs.current ready
      rw [perform_wait isCurrent]
      exact lwpWait_kept laws follows tidy running isCurrent
        fun L registry => spares L ⟨registry.head, registry.tail, registry.ring, registry.nodup⟩
  | exit status =>
      obtain ⟨curr, isCurrent, _⟩ := Runs.current ready
      rw [perform_exit isCurrent]
      obtain ⟨v', follows', lost⟩ := follows.exit laws running isCurrent earlier status
      exact ⟨v', L, follows', lwpExit_tidy laws follows tidy running isCurrent status,
        fun _ => lost⟩
  | resume =>
      obtain ⟨curr, isCurrent, _⟩ := Runs.current ready
      rw [perform_resume isCurrent]
      obtain ⟨follows', L', tidy'⟩ := lwpWaitReturn_kept follows tidy running isCurrent
      exact ⟨_, L', follows', tidy', fun _ => rfl⟩

theorem Fresh.tidy (fresh : Fresh sch s) : Tidy s [] := by
  refine ⟨fresh.stuck, ⟨⟨fresh.head, fresh.tail, trivial, List.nodup_nil⟩, ?_, ?_, ?_, ?_, ?_,
    ⟨?_, ?_, ?_, ?_, fresh.usedFreed⟩⟩, ⟨?_, ?_⟩⟩ <;>
    simp [fresh.allocated, fresh.freed, fresh.removed, fresh.unmapped, fresh.returned]

end Call

/-! ## Runs -/

section Runs
variable {sch : Scheduler σ} {pool : σ → Multiset Thread} {s last : Library σ}
  {run : List (Library σ × Op)}

/-- Where every lwp_wait spares the threads that were handed over, each thread
is reaped at most once. -/
theorem reaped_once_of_spares (laws : IsPool sch pool) (fresh : Fresh sch s)
    (exec : Exec (step sch) s run last) (spares : AllSteps Spares run) :
    AllStates ReapedOnce run last := by
  obtain ⟨v, follows, _⟩ := fresh.follows laws
  -- a start without memory for main is the end of the run
  have kept := exec.guarded_invariant (C := Spares)
    (I := fun s => (∃ v L, Follows pool s v ∧ Tidy s L) ∨ s.stuck = true ∧ ReapedOnce s) ?_
    (Or.inl ⟨v, [], follows, fresh.tidy⟩) spares
  · have once : ∀ s : Library σ, ((∃ v L, Follows pool s v ∧ Tidy s L) ∨
        s.stuck = true ∧ ReapedOnce s) → ReapedOnce s := by
      rintro s (⟨_, _, _, tidy⟩ | ⟨_, once⟩)
      · exact tidy.listed.reapedOnce
      · exact once
    exact ⟨fun x member => once x.1 (kept.1 x member), once last kept.2⟩
  · rintro s op s' (⟨v, L, follows, tidy⟩ | ⟨stuck, _⟩) spares next
    · by_cases crash : op = .start none
      · subst crash
        obtain ⟨_, rfl⟩ := next
        have once := tidy.listed.reapedOnce
        exact Or.inr ⟨rfl, once.removed, once.unmapped, once.freed, once.returned, once.unused⟩
      · obtain ⟨v', L', follows', tidy', _⟩ := kept_step laws follows tidy spares crash next
        exact Or.inl ⟨v', L', follows', tidy'⟩
    · obtain ⟨⟨_, going, _⟩, _⟩ := next
      rw [stuck] at going
      cases going

/-- No thread holds another in its `exited` link when lwp_wait is called. -/
def Idle (s : Library σ) : Op → Prop
  | .wait _ => ∀ t ∈ s.allocated, (s.context t).exited = none
  | _ => True

instance (s : Library σ) : (op : Op) → Decidable (Idle s op)
  | .wait _ => inferInstanceAs (Decidable (∀ t ∈ s.allocated, _))
  | .create _ _ => inferInstanceAs (Decidable True)
  | .start _ => inferInstanceAs (Decidable True)
  | .yield => inferInstanceAs (Decidable True)
  | .exit _ => inferInstanceAs (Decidable True)
  | .resume => inferInstanceAs (Decidable True)

theorem Idle.spares {op : Op} (idle : Idle s op) : Spares s op := by
  cases op with
  | wait room =>
      intro L _ u _ t member isExited
      rw [idle t member] at isExited
      cases isExited
  | _ => trivial

end Runs

def afterFailure : List Op := .create 1 { roomy 8192 with mmap := none } :: waitForFirst

theorem reaped_once_of_spares_afterFailure :
    AllStates ReapedOnce (played (perform fifo) freshLibrary afterFailure)
      (afterFailure.foldl (perform fifo) freshLibrary) := by
  have playable : Playable Makes (perform fifo) freshLibrary afterFailure := by decide +kernel
  have idle : ∀ x ∈ played (perform fifo) freshLibrary afterFailure, Idle x.1 x.2 := by
    decide +kernel
  exact reaped_once_of_spares fifo_isPool freshLibrary_fresh
    (playable.exec fun _ _ guard => ⟨guard, rfl⟩) fun x member => (idle x member).spares

/-- Main waits, thread 2 exits, and before main runs again thread 3 waits too. -/
def waitTwice : List Op :=
  [.create 1 (roomy 4096), .create 1 (roomy 8192), .start (some 12288), .yield, .yield,
    .wait true, .exit 0, .wait true, .yield, .resume]

/-- Both calls of lwp_wait reap thread 2. -/
theorem reaped_twice :
    IsPool fifo fifoPool ∧ Fresh fifo freshLibrary ∧
      Exec (step fifo) freshLibrary (played (perform fifo) freshLibrary waitTwice)
        (waitTwice.foldl (perform fifo) freshLibrary) ∧
      (waitTwice.foldl (perform fifo) freshLibrary).reaped.freed = [2, 2] ∧
      (waitTwice.foldl (perform fifo) freshLibrary).reaped.returned = [2, 2] ∧
      (waitTwice.foldl (perform fifo) freshLibrary).reaped.usedFreed = true ∧
      ¬ ReapedOnce (waitTwice.foldl (perform fifo) freshLibrary) := by
  have playable : Playable Makes (perform fifo) freshLibrary waitTwice := by decide +kernel
  have freed : (waitTwice.foldl (perform fifo) freshLibrary).reaped.freed = [2, 2] := by
    decide +kernel
  refine ⟨fifo_isPool, freshLibrary_fresh, playable.exec fun _ _ guard => ⟨guard, rfl⟩, freed,
    by decide +kernel, by decide +kernel, ?_⟩
  intro once
  have nodup := once.freed
  rw [freed] at nodup
  exact absurd nodup (by decide)

end Csc457.Lwp.Threads
