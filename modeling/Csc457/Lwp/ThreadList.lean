import Csc457.Lwp.Pool

/-!
# The library list over runs

The calls of add_thread and remove_thread that lwp_create and lwp_wait make, with anything
the rest of the library does to the contexts in between.
-/

set_option autoImplicit false

namespace Csc457.Lwp.Threads

open Function
open Csc457.Lib.CircularList Csc457.Lib.Transition

variable {σ : Type}

/-- `while (curr != NULL && curr != initial_head)`.  `none` is a loop that is not over after
`fuel` turns. -/
def tid2threadFrom (context : Thread → Context) (initialHead : Thread) (tid : Nat) :
    Nat → Option Thread → Option (Option Thread)
  | _, none => some none
  | 0, some _ => none
  | fuel + 1, some curr =>
      if curr = initialHead then some none
      else if (context curr).tid = tid then some (some curr)
      else tid2threadFrom context initialHead tid fuel (context curr).libTwo

def tid2thread (s : Library σ) (tid fuel : Nat) : Option (Option Thread) :=
  match s.head with
  | none => some none
  | some head =>
      if (s.context head).tid = tid then some (some head)
      else tid2threadFrom s.context head tid fuel (s.context head).libTwo

inductive ListOp where
  /-- lwp_create of the context at `new`, with what malloc left there. -/
  | add (new : Thread) (fresh : Context)
  /-- lwp_create that takes a tid and then fails. -/
  | fail
  | remove (victim : Thread)
  /-- The context at `t` is written. -/
  | write (t : Thread) (contents : Context)

/-- The library, and the threads that were added and not removed, in the order of creation. -/
structure Listing (σ : Type) where
  library : Library σ
  listed : List Thread

/-- `tid_t` has 64 bits.  `tidCount` does not wrap. -/
def tidOf (count : Nat) : Nat := count % 2 ^ 64

/-- The next tid for the context at `new`. -/
def takeTid (s : Library σ) (new : Thread) (fresh : Context) : Library σ :=
  { s with
    context := update s.context new { fresh with tid := tidOf s.tidCount }
    tidCount := s.tidCount + 1 }

def Listing.after (w : Listing σ) : ListOp → Listing σ
  | .add new fresh => ⟨addThread (takeTid w.library new fresh) new, w.listed ++ [new]⟩
  | .fail => { w with library := { w.library with tidCount := w.library.tidCount + 1 } }
  | .remove victim => ⟨removeThread w.library victim, w.listed.erase victim⟩
  | .write t contents =>
      { w with library := { w.library with context := update w.library.context t contents } }

/-- A context that is added is not on the list.  One that is removed is, or it is the main
context, with no links.  The tid and the links of a listed context are left alone. -/
def Listing.Allows (w : Listing σ) : ListOp → Prop
  | .add new _ => new ∉ w.listed
  | .fail => True
  | .remove victim =>
      victim ∈ w.listed ∨ w.library.one victim = none ∧ w.library.two victim = none
  | .write t contents => t ∈ w.listed →
      contents.tid = (w.library.context t).tid ∧ contents.libOne = w.library.one t ∧
        contents.libTwo = w.library.two t

instance (w : Listing σ) : (op : ListOp) → Decidable (w.Allows op)
  | .add _ _ => inferInstanceAs (Decidable (_ ∉ _))
  | .fail => inferInstanceAs (Decidable True)
  | .remove _ => inferInstanceAs (Decidable (_ ∨ _ ∧ _))
  | .write _ _ => inferInstanceAs (Decidable (_ → _ ∧ _ ∧ _))

def listStep (w : Listing σ) (op : ListOp) (w' : Listing σ) : Prop :=
  w.Allows op ∧ w' = w.after op

structure Listing.Starts (w : Listing σ) : Prop where
  head : w.library.head = none
  tail : w.library.tail = none
  tidCount : w.library.tidCount = 2
  listed : w.listed = []

def Listing.created (w : Listing σ) : Nat := w.library.tidCount - 2

/-! ## What the list is -/

/-- The list from `head` has the threads of `listed`, in their order, and no others. -/
structure Listing.Exact (w : Listing σ) : Prop where
  nodup : w.listed.Nodup
  empty : w.library.head = none ↔ w.listed = []
  around : ∀ h, w.library.head = some h →
    ∃ rest, w.listed = h :: rest ∧ Leads w.library.two h rest h
  next : ∀ t ∈ w.listed, ∃ x ∈ w.listed, w.library.two t = some x ∧ w.library.one x = some t
  prev : ∀ t ∈ w.listed, ∃ y ∈ w.listed, w.library.one t = some y ∧ w.library.two y = some t
  tail : ∀ h, w.library.head = some h → w.library.tail = w.library.one h

/-- tid2thread returns, and it returns the listed thread with the tid. -/
def Listing.Finds (w : Listing σ) : Prop :=
  ∀ tid fuel, w.listed.length ≤ fuel → ∃ found, tid2thread w.library tid fuel = some found ∧
    ∀ t, found = some t ↔ t ∈ w.listed ∧ (w.library.context t).tid = tid

/-- The listed threads have the tids of these numbers, which increase down the list. -/
structure Numbering (w : Listing σ) (number : Thread → Nat) : Prop where
  tid : ∀ t ∈ w.listed, (w.library.context t).tid = tidOf (number t)
  taken : ∀ t ∈ w.listed, 2 ≤ number t ∧ number t < w.library.tidCount
  increasing : w.listed.Pairwise fun t u => number t < number u

structure Listing.Kept (w : Listing σ) : Prop where
  registry : Registry w.library w.listed
  few : w.listed.length ≤ w.library.tidCount
  numbered : ∃ number, Numbering w number

section Kept
variable {w w' : Listing σ} {number : Thread → Nat}

theorem Listing.Starts.kept (start : w.Starts) : w.Kept := by
  obtain ⟨head, tail, _, listed⟩ := start
  refine ⟨?_, by simp [listed], fun _ => 0, ?_⟩
  · rw [listed]
    exact ⟨head, tail, trivial, List.nodup_nil⟩
  · constructor <;> simp [listed]

theorem Numbering.congr (numbered : Numbering w number) (sub : w'.listed.Sublist w.listed)
    (tid : ∀ t ∈ w'.listed, (w'.library.context t).tid = (w.library.context t).tid)
    (more : w.library.tidCount ≤ w'.library.tidCount) : Numbering w' number where
  tid t member := (tid t member).trans (numbered.tid t (sub.subset member))
  taken t member :=
    (numbered.taken t (sub.subset member)).imp_right fun less => Nat.lt_of_lt_of_le less more
  increasing := numbered.increasing.sublist sub

theorem takeTid_other {s : Library σ} {new t : Thread} {fresh : Context} (other : t ≠ new) :
    (takeTid s new fresh).context t = s.context t := update_of_ne other ..

theorem add_kept {new : Thread} {fresh : Context} (kept : w.Kept) (unlisted : new ∉ w.listed)
    (started : 2 ≤ w.library.tidCount) : (w.after (.add new fresh)).Kept := by
  obtain ⟨registry, few, number, numbered⟩ := kept
  have other : ∀ t ∈ w.listed, t ≠ new := fun t member same => unlisted (same ▸ member)
  have before : Registry (takeTid w.library new fresh) w.listed := by
    refine registry.congr rfl rfl fun t member => ?_
    simp [Library.two, Library.one, takeTid_other (other t member)]
  have links := addThread_linksOnly (takeTid w.library new fresh) new
  have count : (w.after (.add new fresh)).library.tidCount = w.library.tidCount + 1 :=
    links.tidCount
  refine ⟨(addThread_registry before unlisted).1, ?_, update number new w.library.tidCount, ?_⟩
  · rw [count]
    simpa [Listing.after] using few
  have old : ∀ t ∈ w.listed, update number new w.library.tidCount t = number t :=
    fun t member => update_of_ne (other t member) ..
  refine ⟨fun t member => ?_, fun t member => ?_, ?_⟩
  · refine (congrFun links.tid t).trans ?_
    rcases List.mem_append.mp member with member | member
    · rw [old t member, Library.tid, takeTid_other (other t member), numbered.tid t member]
    · obtain rfl := List.mem_singleton.mp member
      simp [takeTid, Library.tid]
  · rw [count]
    rcases List.mem_append.mp member with member | member
    · have taken := numbered.taken t member
      rw [old t member]
      omega
    · obtain rfl := List.mem_singleton.mp member
      rw [update_self]
      omega
  · refine List.pairwise_append.mpr ⟨?_, List.pairwise_singleton _ _, ?_⟩
    · refine numbered.increasing.imp_of_mem fun {t u} tMember uMember less => ?_
      rwa [old t tMember, old u uMember]
    · intro t tMember u uMember
      obtain rfl := List.mem_singleton.mp uMember
      rw [old t tMember, update_self]
      exact (numbered.taken t tMember).2

theorem remove_kept {victim : Thread} (kept : w.Kept) (allowed : w.Allows (.remove victim)) :
    (w.after (.remove victim)).Kept := by
  obtain ⟨registry, few, number, numbered⟩ := kept
  have links := removeThread_linksOnly w.library victim
  refine ⟨?_, ?_, number, ?_⟩
  · change Registry (removeThread w.library victim) (w.listed.erase victim)
    by_cases member : victim ∈ w.listed
    · obtain ⟨A, B, split⟩ := List.append_of_mem member
      rw [split] at registry ⊢
      have fresh : victim ∉ A := fun inA =>
        (List.nodup_append.mp registry.nodup).2.2 victim inA victim (by simp) rfl
      rw [List.erase_append_right _ fresh, List.erase_cons_head]
      exact (removeThread_registry registry).1
    · obtain ⟨noOne, noTwo⟩ := allowed.resolve_left member
      rw [List.erase_of_not_mem member, (removeThread_unlisted registry member noOne noTwo).1]
      exact registry
  · refine (List.erase_sublist.length_le).trans (few.trans (Nat.le_of_eq ?_))
    exact links.tidCount.symm
  · exact numbered.congr List.erase_sublist (fun t _ => congrFun links.tid t)
      (Nat.le_of_eq links.tidCount.symm)

theorem write_kept {t : Thread} {contents : Context} (kept : w.Kept)
    (allowed : w.Allows (.write t contents)) : (w.after (.write t contents)).Kept := by
  obtain ⟨registry, few, number, numbered⟩ := kept
  have same : ∀ u ∈ w.listed,
      (update w.library.context t contents u).tid = (w.library.context u).tid ∧
        (update w.library.context t contents u).libOne = w.library.one u ∧
        (update w.library.context t contents u).libTwo = w.library.two u := by
    intro u member
    by_cases isT : u = t
    · subst isT
      rw [update_self]
      exact allowed member
    · rw [update_of_ne isT]
      exact ⟨rfl, rfl, rfl⟩
  refine ⟨?_, few, number, ?_⟩
  · exact registry.congr rfl rfl fun u member => ⟨(same u member).2.2, (same u member).2.1⟩
  · exact numbered.congr (List.Sublist.refl _) (fun u member => (same u member).1) (Nat.le_refl _)

theorem listStep_kept {op : ListOp} (kept : w.Kept) (started : 2 ≤ w.library.tidCount)
    (next : listStep w op w') : w'.Kept ∧ 2 ≤ w'.library.tidCount := by
  obtain ⟨allowed, rfl⟩ := next
  cases op with
  | add new fresh =>
      have count : (w.after (.add new fresh)).library.tidCount = w.library.tidCount + 1 :=
        (addThread_linksOnly (takeTid w.library new fresh) new).tidCount
      exact ⟨add_kept kept allowed started, by omega⟩
  | fail =>
      obtain ⟨registry, few, number, numbered⟩ := kept
      refine ⟨⟨registry.congr rfl rfl fun _ _ => ⟨rfl, rfl⟩, Nat.le_succ_of_le few, number, ?_⟩,
        Nat.le_succ_of_le started⟩
      exact numbered.congr (List.Sublist.refl _) (fun _ _ => rfl) (Nat.le_succ _)
  | remove victim =>
      refine ⟨remove_kept kept allowed, started.trans (Nat.le_of_eq ?_)⟩
      exact (removeThread_linksOnly w.library victim).tidCount.symm
  | write t contents => exact ⟨write_kept kept allowed, started⟩

theorem run_kept {last : Listing σ} {run : List (Listing σ × ListOp)} (start : w.Starts)
    (exec : Exec listStep w run last) : last.Kept ∧ 2 ≤ last.library.tidCount :=
  (exec.invariant (fun _ _ _ before next => listStep_kept before.1 before.2 next)
    ⟨start.kept, Nat.le_of_eq start.tidCount.symm⟩).2

end Kept

section Traversals
variable {s : Library σ} {L : List Thread} {w : Listing σ} {number : Thread → Nat}

theorem tid2threadFrom_path {head curr : Thread} {l : List Thread} {tid fuel : Nat}
    (path : Path s.two s.one curr l head) (avoids : head ∉ l) (enough : l.length < fuel) :
    tid2threadFrom s.context head tid fuel (s.context curr).libTwo =
      some (l.find? fun t => decide ((s.context t).tid = tid)) := by
  induction l generalizing curr fuel with
  | nil =>
      obtain ⟨fuel, rfl⟩ := Nat.exists_eq_succ_of_ne_zero (Nat.ne_of_gt enough)
      have next : (s.context curr).libTwo = some head := path.1
      rw [next, tid2threadFrom, if_pos rfl]
      rfl
  | cons x l ih =>
      obtain ⟨fuel, rfl⟩ := Nat.exists_eq_succ_of_ne_zero (Nat.ne_zero_of_lt enough)
      obtain ⟨⟨next, _⟩, rest⟩ := path
      have next : (s.context curr).libTwo = some x := next
      have other : x ≠ head := fun same => avoids (by simp [same])
      rw [next, tid2threadFrom, if_neg other]
      by_cases isTid : (s.context x).tid = tid
      · simp [isTid]
      · rw [if_neg isTid, List.find?_cons_of_neg (by simpa using isTid)]
        exact ih rest (fun member => avoids (List.mem_cons_of_mem x member))
          (by simpa using enough)

theorem tid2thread_registry (registry : Registry s L) {tid fuel : Nat} (enough : L.length ≤ fuel) :
    tid2thread s tid fuel = some (L.find? fun t => decide ((s.context t).tid = tid)) := by
  have head := registry.head
  cases L with
  | nil =>
      rw [tid2thread, head]
      rfl
  | cons h L =>
      have path : Path s.two s.one h L h := registry.ring
      have avoids := (List.nodup_cons.mp registry.nodup).1
      rw [tid2thread, head]
      simp only [List.head?_cons]
      by_cases isTid : (s.context h).tid = tid
      · simp [isTid]
      · rw [if_neg isTid, List.find?_cons_of_neg (by simpa using isTid)]
        exact tid2threadFrom_path path avoids enough

theorem Numbering.distinct (numbered : Numbering w number) (few : w.created < 2 ^ 64)
    {t u : Thread} (tMember : t ∈ w.listed) (uMember : u ∈ w.listed)
    (same : (w.library.context t).tid = (w.library.context u).tid) : t = u := by
  rw [numbered.tid t tMember, numbered.tid u uMember] at same
  have tTaken := numbered.taken t tMember
  have uTaken := numbered.taken u uMember
  have equal : number t = number u := by
    have same : number t % 2 ^ 64 = number u % 2 ^ 64 := same
    unfold Listing.created at few
    omega
  have differ : (w.listed.map number).Nodup :=
    List.pairwise_map.mpr (numbered.increasing.imp Nat.ne_of_lt)
  exact List.inj_on_of_nodup_map differ tMember uMember equal

theorem Listing.Kept.exact (kept : w.Kept) : w.Exact := by
  obtain ⟨registry, _, _⟩ := kept
  have head := registry.head
  refine ⟨registry.nodup, by simp [head], fun h isHead => ?_, fun t => registry.ring.next,
    fun t => registry.ring.prev, fun h isHead => ?_⟩
  · obtain ⟨rest, split⟩ := List.head?_eq_some_iff.mp (head.symm.trans isHead)
    have ring := registry.ring
    rw [split] at ring
    exact ⟨rest, split, Path.leads ring⟩
  · obtain ⟨rest, split⟩ := List.head?_eq_some_iff.mp (head.symm.trans isHead)
    have ring := registry.ring
    rw [split] at ring
    rw [registry.tail, split, ring.one_head]

theorem Listing.Kept.finds (kept : w.Kept) (few : w.created < 2 ^ 64) : w.Finds := by
  obtain ⟨registry, _, number, numbered⟩ := kept
  intro tid fuel enough
  refine ⟨_, tid2thread_registry registry enough, fun t => ⟨fun found => ?_, fun listed => ?_⟩⟩
  · exact ⟨List.mem_of_find?_eq_some found, by simpa using List.find?_some found⟩
  · obtain ⟨member, isTid⟩ := listed
    cases found : w.listed.find? fun t => decide ((w.library.context t).tid = tid) with
    | none => exact absurd isTid (by simpa using List.find?_eq_none.mp found t member)
    | some u =>
        have uTid : (w.library.context u).tid = tid := by simpa using List.find?_some found
        rw [numbered.distinct few (List.mem_of_find?_eq_some found) member (uTid.trans isTid.symm)]

/-- The library list is the registry of the threads added and not removed.  tid2thread finds
them by their tids, and lwp_wait reads them in their order up to the first terminated one. -/
theorem thread_list_exact {w last : Listing σ} {run : List (Listing σ × ListOp)}
    (start : w.Starts) (exec : Exec listStep w run last) :
    last.Exact ∧ (last.created < 2 ^ 64 → last.Finds) ∧
      scanList last.library =
        some ((upToFirst (isTerminated last.library) last.listed).reverse,
          last.listed.find? (isTerminated last.library)) ∧
      ((∀ t ∈ last.listed, isTerminated last.library t = false) →
        scanList last.library = some (last.listed.reverse, none)) := by
  have kept := (run_kept start exec).1
  have reads := scanList_reads kept.registry kept.few
  refine ⟨kept.exact, kept.finds, reads, fun none => ?_⟩
  rw [reads, upToFirst_none none]
  have absent : last.listed.find? (isTerminated last.library) = .none :=
    List.find?_eq_none.mpr fun t member => by simp [none t member]
  rw [absent]

end Traversals

def freshListing : Listing (List Thread) := ⟨freshLibrary, []⟩

/-- Three threads; the second ends and is removed, and its memory is used for a fourth. -/
def reusedContext : List ListOp :=
  let contents : Context := ⟨7, 0, 0, 0, some 9, none, none⟩
  [.add 4096 contents, .fail, .add 8192 contents, .add 12288 contents, .remove 8192,
    .write 8192 contents, .add 8192 contents]

theorem thread_list_exact_reusedContext :
    (reusedContext.foldl Listing.after freshListing).Exact ∧
      (reusedContext.foldl Listing.after freshListing).Finds := by
  have playable : Playable Listing.Allows Listing.after freshListing reusedContext := by
    decide +kernel
  have exact := thread_list_exact (w := freshListing) ⟨rfl, rfl, rfl, rfl⟩
    (playable.exec fun _ _ allowed => ⟨allowed, rfl⟩)
  exact ⟨exact.1, exact.2.1 (by decide +kernel)⟩

def firstEnds : List ListOp :=
  let contents : Context := ⟨0, 0, 0, 0, none, none, none⟩
  [.add 4096 contents, .add 8192 contents,
    .write 4096 ⟨2, 0, 0, mkTermStat lwpTerm 0, some 8192, some 8192, none⟩]

/-- The scan of lwp_wait stops there. -/
theorem scan_stops_early :
    Listing.Starts freshListing ∧
      Exec listStep freshListing (played Listing.after freshListing firstEnds)
        (firstEnds.foldl Listing.after freshListing) ∧
      8192 ∈ (firstEnds.foldl Listing.after freshListing).listed ∧
      scanList (firstEnds.foldl Listing.after freshListing).library = some ([4096], some 4096) := by
  have playable : Playable Listing.Allows Listing.after freshListing firstEnds := by
    decide +kernel
  exact ⟨⟨rfl, rfl, rfl, rfl⟩, playable.exec fun _ _ allowed => ⟨allowed, rfl⟩,
    by decide +kernel, by decide +kernel⟩

end Csc457.Lwp.Threads
