import Csc457.Lwp.Library

/-!
# The library list

`Registry s L` says that the list from `head` is the ring of the threads of
`L`, in their order.  add_thread puts a thread at its end, remove_thread takes
one out wherever it stands, and the walk of lwp_wait finds the first terminated
thread.  None of them touches anything but the two links.
-/

set_option autoImplicit false

namespace Csc457.Lwp.Threads

open Function
open Csc457.Lib.CircularList

variable {σ : Type}

def Library.two (s : Library σ) (t : Thread) : Option Thread := (s.context t).libTwo

def Library.one (s : Library σ) (t : Thread) : Option Thread := (s.context t).libOne

structure Registry (s : Library σ) (L : List Thread) : Prop where
  head : s.head = L.head?
  tail : s.tail = L.getLast?
  ring : Ring s.two s.one L
  nodup : L.Nodup

theorem Registry.congr {s s' : Library σ} {L : List Thread} (registry : Registry s L)
    (head : s'.head = s.head) (tail : s'.tail = s.tail)
    (links : ∀ t ∈ L, s'.two t = s.two t ∧ s'.one t = s.one t) : Registry s' L :=
  ⟨head.trans registry.head, tail.trans registry.tail,
    registry.ring.congr (fun t member => (links t member).1) fun t member => (links t member).2,
    registry.nodup⟩

/-- The states differ in links at most. -/
structure LinksOnly (s s' : Library σ) : Prop where
  scheduler : s'.scheduler = s.scheduler
  current : s'.current = s.current
  waiting : s'.waiting = s.waiting
  tidCount : s'.tidCount = s.tidCount
  allocated : s'.allocated = s.allocated
  mode : s'.mode = s.mode
  ended : s'.ended = s.ended
  history : s'.history = s.history
  reaped : s'.reaped = s.reaped
  context : ∀ t, ∃ one two, s'.context t = { s.context t with libOne := one, libTwo := two }

section Links
variable {s s' s'' : Library σ} {t : Thread} {value : Option Thread}

@[simp] theorem two_setLibTwo : (s.setLibTwo t value).two = update s.two t value := by
  funext u
  by_cases same : u = t
  · subst same
    simp [Library.two, Library.setLibTwo, Library.modify]
  · simp [Library.two, Library.setLibTwo, Library.modify, update_of_ne same]

@[simp] theorem two_setLibOne : (s.setLibOne t value).two = s.two := by
  funext u
  by_cases same : u = t
  · subst same
    simp [Library.two, Library.setLibOne, Library.modify]
  · simp [Library.two, Library.setLibOne, Library.modify, update_of_ne same]

@[simp] theorem one_setLibOne : (s.setLibOne t value).one = update s.one t value := by
  funext u
  by_cases same : u = t
  · subst same
    simp [Library.one, Library.setLibOne, Library.modify]
  · simp [Library.one, Library.setLibOne, Library.modify, update_of_ne same]

@[simp] theorem one_setLibTwo : (s.setLibTwo t value).one = s.one := by
  funext u
  by_cases same : u = t
  · subst same
    simp [Library.one, Library.setLibTwo, Library.modify]
  · simp [Library.one, Library.setLibTwo, Library.modify, update_of_ne same]

theorem context_setLib {u : Thread} (other : u ≠ t) :
    (s.setLibOne t value).context u = s.context u ∧
      (s.setLibTwo t value).context u = s.context u :=
  ⟨update_of_ne other .., update_of_ne other ..⟩

theorem LinksOnly.refl (s : Library σ) : LinksOnly s s :=
  ⟨rfl, rfl, rfl, rfl, rfl, rfl, rfl, rfl, rfl, fun t => ⟨(s.context t).libOne, (s.context t).libTwo, rfl⟩⟩

theorem LinksOnly.trans (first : LinksOnly s s') (second : LinksOnly s' s'') : LinksOnly s s'' := by
  refine ⟨second.scheduler.trans first.scheduler, second.current.trans first.current,
    second.waiting.trans first.waiting, second.tidCount.trans first.tidCount,
    second.allocated.trans first.allocated, second.mode.trans first.mode,
    second.ended.trans first.ended, second.history.trans first.history,
    second.reaped.trans first.reaped, fun t => ?_⟩
  obtain ⟨_, _, same⟩ := first.context t
  obtain ⟨one, two, same'⟩ := second.context t
  exact ⟨one, two, by rw [same', same]⟩

theorem linksOnly_modify (s : Library σ) (t : Thread) {change : Context → Context}
    (links : ∀ c, ∃ one two, change c = { c with libOne := one, libTwo := two }) :
    LinksOnly s (s.modify t change) := by
  refine ⟨rfl, rfl, rfl, rfl, rfl, rfl, rfl, rfl, rfl, fun u => ?_⟩
  by_cases same : u = t
  · subst same
    obtain ⟨one, two, changed⟩ := links (s.context u)
    exact ⟨one, two, by simp only [Library.modify, update_self, changed]⟩
  · exact ⟨(s.context u).libOne, (s.context u).libTwo, by
      simp only [Library.modify, update_of_ne same]⟩

theorem linksOnly_setLibOne (s : Library σ) (t : Thread) (value : Option Thread) :
    LinksOnly s (s.setLibOne t value) :=
  linksOnly_modify s t fun c => ⟨value, c.libTwo, rfl⟩

theorem linksOnly_setLibTwo (s : Library σ) (t : Thread) (value : Option Thread) :
    LinksOnly s (s.setLibTwo t value) :=
  linksOnly_modify s t fun c => ⟨c.libOne, value, rfl⟩

theorem LinksOnly.ends (links : LinksOnly s s') (head tail : Option Thread) :
    LinksOnly s { s' with head := head, tail := tail } :=
  ⟨links.scheduler, links.current, links.waiting, links.tidCount, links.allocated, links.mode,
    links.ended, links.history, links.reaped, links.context⟩

theorem LinksOnly.tid (links : LinksOnly s s') : s'.tid = s.tid := by
  funext t
  obtain ⟨_, _, same⟩ := links.context t
  simp only [Library.tid, same]

theorem LinksOnly.exited (links : LinksOnly s s') (t : Thread) :
    (s'.context t).exited = (s.context t).exited := by
  obtain ⟨_, _, same⟩ := links.context t
  rw [same]

theorem LinksOnly.stuck (links : LinksOnly s s') (stuck : Bool) :
    LinksOnly s { s' with stuck := stuck } :=
  ⟨links.scheduler, links.current, links.waiting, links.tidCount, links.allocated, links.mode,
    links.ended, links.history, links.reaped, links.context⟩

end Links

theorem addThread_linksOnly (s : Library σ) (new : Thread) : LinksOnly s (addThread s new) := by
  have joined : ∀ one two, LinksOnly s ((s.setLibOne new one).setLibTwo new two) := fun one two =>
    (linksOnly_setLibOne s new one).trans (linksOnly_setLibTwo _ new two)
  simp only [addThread]
  split
  · exact (joined _ _).ends _ _
  · split
    · exact (LinksOnly.refl s).stuck true
    · refine LinksOnly.ends (LinksOnly.trans ?_ (linksOnly_setLibOne _ _ _)) _ _
      exact (joined _ _).trans (linksOnly_setLibTwo _ _ _)

theorem addThread_registry {s : Library σ} {L : List Thread} {new : Thread}
    (registry : Registry s L) (fresh : new ∉ L) :
    Registry (addThread s new) (L ++ [new]) ∧ (addThread s new).stuck = s.stuck ∧
      ∀ t, t ∉ L ++ [new] → (addThread s new).context t = s.context t := by
  have nodup : (L ++ [new]).Nodup :=
    List.nodup_append_comm.mp (List.nodup_cons.mpr ⟨fresh, registry.nodup⟩)
  have head := registry.head
  cases L with
  | nil =>
      have run : addThread s new =
          { (s.setLibOne new (some new)).setLibTwo new (some new) with
            head := some new, tail := some new } := by
        simp [addThread, head]
      rw [run]
      refine ⟨⟨rfl, rfl, ?_, nodup⟩, rfl, ?_⟩
      rotate_left
      · intro t outside
        have other : t ≠ new := fun same => outside (by simp [same])
        exact (context_setLib other).2.trans (context_setLib other).1
      change Ring ((s.setLibOne new (some new)).setLibTwo new (some new)).two
        ((s.setLibOne new (some new)).setLibTwo new (some new)).one [new]
      simp only [two_setLibTwo, two_setLibOne, one_setLibTwo, one_setLibOne]
      exact ring_singleton
  | cons h L =>
      obtain ⟨t, last⟩ : ∃ t, (h :: L).getLast? = some t :=
        ⟨_, List.getLast?_eq_some_getLast (by simp)⟩
      have tail := registry.tail
      rw [last] at tail
      have run : addThread s new =
          { (((s.setLibOne new (some t)).setLibTwo new (some h)).setLibTwo t
            (some new)).setLibOne h (some new) with tail := some new } := by
        simp [addThread, head, tail]
      rw [run]
      refine ⟨⟨head, by simp [List.getLast?_cons], ?_, nodup⟩, rfl, ?_⟩
      rotate_left
      · intro u outside
        have un : u ≠ new := fun same => outside (by simp [same])
        have uh : u ≠ h := fun same => outside (by simp [same])
        have ut : u ≠ t := fun same =>
          outside (List.mem_append_left [new] (same ▸ List.mem_of_getLast? last))
        exact ((context_setLib uh).1.trans (context_setLib ut).2).trans
          ((context_setLib un).2.trans (context_setLib un).1)
      change Ring ((((s.setLibOne new (some t)).setLibTwo new (some h)).setLibTwo t
          (some new)).setLibOne h (some new)).two
        ((((s.setLibOne new (some t)).setLibTwo new (some h)).setLibTwo t
          (some new)).setLibOne h (some new)).one (h :: L ++ [new])
      simp only [two_setLibTwo, two_setLibOne, one_setLibTwo, one_setLibOne]
      exact registry.ring.insert last fresh registry.nodup

theorem removeThread_linksOnly (s : Library σ) (victim : Thread) :
    LinksOnly s (removeThread s victim) := by
  simp only [removeThread]
  split
  · exact LinksOnly.refl s
  · split
    · exact (LinksOnly.refl s).ends _ _
    · refine LinksOnly.ends ?_ _ _
      cases (s.context victim).libOne with
      | none =>
          cases (s.context victim).libTwo with
          | none => exact LinksOnly.refl s
          | some next => exact linksOnly_setLibOne s next none
      | some prev =>
          cases (s.context victim).libTwo with
          | none => exact linksOnly_setLibTwo s prev none
          | some next =>
              exact (linksOnly_setLibTwo s prev _).trans (linksOnly_setLibOne _ next _)

/-- A listed thread is taken out, and only contexts of listed threads are used. -/
theorem removeThread_registry {s : Library σ} {A B : List Thread} {victim : Thread}
    (registry : Registry s (A ++ victim :: B)) :
    Registry (removeThread s victim) (A ++ B) ∧ (removeThread s victim).stuck = s.stuck ∧
      (∀ t ∈ neighbours s victim, t ∈ A ++ B) ∧
      ∀ t, t ∉ A ++ B → (removeThread s victim).context t = s.context t := by
  have head := registry.head
  have tail := registry.tail
  have headed : s.head ≠ none := by rw [head]; cases A <;> simp
  obtain ⟨gone, nodup⟩ := List.nodup_cons.mp (List.perm_middle.nodup_iff.mp registry.nodup)
  by_cases none : A ++ B = []
  · obtain ⟨rfl, rfl⟩ := List.append_eq_nil_iff.mp none
    have only : s.head = some victim ∧ s.tail = some victim := ⟨head, tail⟩
    have run : removeThread s victim = { s with head := .none, tail := .none } := by
      simp [removeThread, only]
    rw [run]
    refine ⟨⟨rfl, rfl, trivial, List.nodup_nil⟩, rfl, fun t member => ?_, fun _ _ => rfl⟩
    rw [neighbours, if_pos (Or.inr only)] at member
    cases member
  · obtain ⟨x, y, next, prev, first, last, ring⟩ := registry.ring.unlink none registry.nodup
    have several : ¬ (s.head = some victim ∧ s.tail = some victim) := by
      rintro ⟨atHead, atTail⟩
      exact none (alone_of_ends gone (head.symm.trans atHead) (tail.symm.trans atTail))
    have isNext : (s.context victim).libTwo = some x := next
    have isPrev : (s.context victim).libOne = some y := prev
    have run : removeThread s victim =
        { (s.setLibTwo y (some x)).setLibOne x (some y) with
          head := if s.head = some victim then some x else s.head
          tail := if s.tail = some victim then some y else s.tail } := by
      simp [removeThread, headed, several, isNext, isPrev]
    rw [run]
    have yMember : y ∈ A ++ B := by simpa [or_comm] using List.mem_of_getLast? last
    have xMember : x ∈ A ++ B := by simpa [or_comm] using List.mem_of_head? first
    refine ⟨⟨?_, ?_, ?_, nodup⟩, rfl, ?_, ?_⟩
    · change (if s.head = some victim then some x else s.head) = (A ++ B).head?
      rw [head]
      exact head_unlink gone first
    · change (if s.tail = some victim then some y else s.tail) = (A ++ B).getLast?
      rw [tail]
      exact getLast_unlink gone last
    · change Ring ((s.setLibTwo y (some x)).setLibOne x (some y)).two
        ((s.setLibTwo y (some x)).setLibOne x (some y)).one (A ++ B)
      simp only [two_setLibTwo, two_setLibOne, one_setLibTwo, one_setLibOne]
      exact ring
    · intro t member
      rw [neighbours, if_neg (not_or.mpr ⟨headed, several⟩), isNext, isPrev] at member
      have cases : t = y ∨ t = x := by simpa using member
      rcases cases with rfl | rfl
      · exact yMember
      · exact xMember
    · intro t outside
      have tx : t ≠ x := fun same => outside (same ▸ xMember)
      have ty : t ≠ y := fun same => outside (same ▸ yMember)
      exact (context_setLib tx).1.trans (context_setLib ty).2

/-- A thread that was never listed and has no links leaves everything as it is. -/
theorem removeThread_unlisted {s : Library σ} {L : List Thread} {victim : Thread}
    (registry : Registry s L) (unlisted : victim ∉ L) (noOne : s.one victim = none)
    (noTwo : s.two victim = none) : removeThread s victim = s ∧ neighbours s victim = [] := by
  have notHead : s.head ≠ some victim := by
    rw [registry.head]
    exact fun same => unlisted (List.mem_of_head? same)
  have notTail : s.tail ≠ some victim := by
    rw [registry.tail]
    exact fun same => unlisted (List.mem_of_getLast? same)
  have noOne : (s.context victim).libOne = none := noOne
  have noTwo : (s.context victim).libTwo = none := noTwo
  constructor
  · simp [removeThread, notHead, notTail, noOne, noTwo]
  · simp [neighbours, notHead, noOne, noTwo]

def isTerminated (s : Library σ) (t : Thread) : Bool := lwpTerminated (s.context t).status

/-- A list up to its first element that satisfies `p`, which is the last one. -/
def upToFirst (p : Thread → Bool) : List Thread → List Thread
  | [] => []
  | t :: l => if p t then [t] else t :: upToFirst p l

theorem upToFirst_initial (p : Thread → Bool) (l : List Thread) : upToFirst p l <+: l := by
  induction l with
  | nil => exact List.prefix_rfl
  | cons t l ih =>
      rw [upToFirst]
      split
      · exact ⟨l, rfl⟩
      · exact List.cons_prefix_cons.mpr ⟨rfl, ih⟩

theorem upToFirst_none {p : Thread → Bool} {l : List Thread} (none : ∀ t ∈ l, p t = false) :
    upToFirst p l = l := by
  induction l with
  | nil => rfl
  | cons t l ih =>
      have here : p t = false := none t (by simp)
      rw [upToFirst, here, ih fun u member => none u (List.mem_cons_of_mem t member)]
      simp

theorem scanTerminated_path {s : Library σ} {start curr : Thread} {l : List Thread}
    {fuel : Nat} (seen : List Thread) (path : Path s.two s.one curr l start) (avoids : start ∉ l)
    (enough : l.length < fuel) :
    scanTerminated s.context start fuel curr seen =
      some ((upToFirst (isTerminated s) (curr :: l)).reverse ++ seen,
        (curr :: l).find? (isTerminated s)) := by
  induction l generalizing curr seen fuel with
  | nil =>
      cases fuel with
      | zero => simp at enough
      | succ fuel =>
          have next : (s.context curr).libTwo = some start := path.1
          cases ended : lwpTerminated (s.context curr).status <;>
            simp [scanTerminated, upToFirst, isTerminated, ended, next]
  | cons x l ih =>
      cases fuel with
      | zero => simp at enough
      | succ fuel =>
          obtain ⟨⟨next, _⟩, rest⟩ := path
          have next : (s.context curr).libTwo = some x := next
          have other : x ≠ start := fun same => avoids (by simp [same])
          cases ended : lwpTerminated (s.context curr).status with
          | true => simp [scanTerminated, upToFirst, isTerminated, ended]
          | false =>
              have run := ih (curr :: seen) rest
                (fun member => avoids (List.mem_cons_of_mem x member)) (by simpa using enough)
              have unended : isTerminated s curr = false := ended
              rw [scanTerminated, ended, next, upToFirst,
                List.find?_cons_of_neg (by simp [unended]), unended]
              simp [other, run]

theorem scanList_reads {s : Library σ} {L : List Thread} (registry : Registry s L)
    (few : L.length ≤ s.tidCount) :
    scanList s = some ((upToFirst (isTerminated s) L).reverse, L.find? (isTerminated s)) := by
  have head := registry.head
  cases L with
  | nil => simp [scanList, head, upToFirst]
  | cons h L =>
      have path : Path s.two s.one h L h := registry.ring
      have avoids := (List.nodup_cons.mp registry.nodup).1
      have enough : L.length < s.tidCount + 1 := by
        simp only [List.length_cons] at few
        omega
      have run := scanTerminated_path [] path avoids enough
      simp [scanList, head, run]

theorem scanList_registry {s : Library σ} {L : List Thread} (registry : Registry s L)
    (few : L.length ≤ s.tidCount) :
    ∃ read, scanList s = some (read, L.find? (isTerminated s)) ∧ ∀ t ∈ read, t ∈ L := by
  refine ⟨_, scanList_reads registry few, fun t member => ?_⟩
  exact (upToFirst_initial _ L).subset (List.mem_reverse.mp member)

end Csc457.Lwp.Threads
