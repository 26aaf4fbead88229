import Csc457.Kernel.RunQueues

/-!
# The check of the ready queues

debug.c: runqueues_ok walks over all the queues, marks whom it finds, and looks then for a
process that is ready and was not found.  The pointers of the queues are slots of the table and
the slots are intact, so that its tests of an address and of p_magic pass.
-/

set_option autoImplicit false

namespace Csc457.Kernel

open Function
open Csc457.Lib.LinkedQueue

variable {n k : Nat} {α : Type} (cfg : Config n k α)

/-- The walk over one queue.  `left` is MAX_LOOP + 1 less the processes that were visited, in
this queue and in those before it, and `found` are those with p_found. -/
def checkReady (K : State n k α) (q : Nat) :
    Nat → Option (Fin n) → Finset (Fin n) → Option (Nat × Finset (Fin n))
  | left, none, found => some (left, found)
  -- loop in schedule queue
  | 0, some _, _ => none
  | left + 1, some xp, found =>
      if .slotFree ∈ (K.proc xp).rts then none
      else if ¬ (K.proc xp).Runnable then none
      else if (K.proc xp).priority ≠ q then none
      else if xp ∈ found then none
      else if (K.proc xp).nextready = none ∧ K.rdyTail q ≠ some xp then none
      else checkReady K q left (K.proc xp).nextready (insert xp found)

def checkQueue (K : State n k α) (seen : Nat × Finset (Fin n)) (q : Nat) :
    Option (Nat × Finset (Fin n)) :=
  if K.rdyHead q ≠ none ∧ K.rdyTail q = none then none
  else if K.rdyHead q = none ∧ K.rdyTail q ≠ none then none
  else if ∃ tail, K.rdyTail q = some tail ∧ (K.proc tail).nextready ≠ none then none
  else checkReady K q seen.1 (K.rdyHead q) seen.2

def runqueuesOk (K : State n k α) : Bool :=
  match (List.range cfg.queues).foldlM (checkQueue K) (n + 1, ∅) with
  | none => false
  | some (_, found) =>
      (List.finRange n).all fun xp => (K.proc xp).Empty ∨ ¬ ((K.proc xp).Runnable ∧ xp ∉ found)

/-! ## What it finds -/

structure QueueOk (K : State n k α) (q : Nat) (l : List (Fin n)) : Prop where
  chain : Chain K.nextready (K.rdyHead q) l
  tail : K.rdyTail q = l.getLast?
  ready : ∀ p ∈ l, (K.proc p).Runnable ∧ (K.proc p).priority = q

variable {cfg} {K : State n k α} {q : Nat}

theorem QueueOk.unique {l l' : List (Fin n)} (ok : QueueOk K q l) (ok' : QueueOk K q l') :
    l = l' := ok.chain.unique ok'.chain

section
variable {left : Nat} {found : Finset (Fin n)} {seen : Nat × Finset (Fin n)}

theorem checkReady_none : checkReady K q left none found = some (left, found) := by
  cases left <;> rfl

theorem checkReady_some {xp : Fin n} :
    checkReady K q (left + 1) (some xp) found = some seen ↔
      ((K.proc xp).Runnable ∧ (K.proc xp).priority = q ∧ xp ∉ found ∧
        (K.nextready xp = none → K.rdyTail q = some xp)) ∧
      checkReady K q left (K.nextready xp) (insert xp found) = some seen := by
  rw [checkReady]
  by_cases runnable : (K.proc xp).Runnable
  · have used : .slotFree ∉ (K.proc xp).rts := by
      rw [runnable]
      exact Finset.notMem_empty _
    rw [if_neg used, if_neg (not_not_intro runnable)]
    by_cases level : (K.proc xp).priority = q
    · rw [if_neg (not_not_intro level)]
      by_cases isFound : xp ∈ found
      · simp [isFound]
      · rw [if_neg isFound]
        by_cases last : (K.proc xp).nextready = none ∧ K.rdyTail q ≠ some xp
        · rw [if_pos last]
          exact iff_of_false nofun fun holds => last.2 (holds.1.2.2.2 last.1)
        · rw [if_neg last]
          refine (and_iff_right ⟨runnable, level, isFound, fun null => ?_⟩).symm
          exact by_contra fun other => last ⟨null, other⟩
    · simp [level]
  · split
    · exact iff_of_false nofun fun holds => runnable holds.1.1
    · exact iff_of_false nofun fun holds => runnable holds.1.1

/-- The walk comes through exactly when it is over a chain of ready processes that were not
found before, and ends with the tail. -/
theorem checkReady_iff {head : Option (Fin n)} :
    checkReady K q left head found = some seen ↔
      ∃ l, Chain K.nextready head l ∧
        (∀ p ∈ l, ((K.proc p).Runnable ∧ (K.proc p).priority = q) ∧ p ∉ found) ∧
        (l ≠ [] → K.rdyTail q = l.getLast?) ∧ l.length ≤ left ∧
        seen = (left - l.length, found ∪ l.toFinset) := by
  induction left generalizing head found with
  | zero =>
      cases head with
      | none =>
          rw [checkReady_none]
          constructor
          · rintro ⟨⟩
            exact ⟨[], .nil, nofun, absurd rfl, le_rfl, by simp⟩
          · rintro ⟨l, chain, _, _, _, rfl⟩
            cases chain
            simp
      | some xp =>
          refine iff_of_false nofun ?_
          rintro ⟨l, chain, _, _, few, _⟩
          cases chain
          exact Nat.not_succ_le_zero _ few
  | succ left ih =>
      cases head with
      | none =>
          rw [checkReady_none]
          constructor
          · rintro ⟨⟩
            exact ⟨[], .nil, nofun, absurd rfl, Nat.zero_le _, by simp⟩
          · rintro ⟨l, chain, _, _, _, rfl⟩
            cases chain
            simp
      | some xp =>
          rw [checkReady_some, ih]
          constructor
          · rintro ⟨⟨runnable, level, isNew, last⟩, l, chain, ready, tail, few, rfl⟩
            refine ⟨xp :: l, .cons chain, fun p member => ?_, fun _ => ?_, Nat.succ_le_succ few, ?_⟩
            · obtain rfl | member := List.mem_cons.mp member
              · exact ⟨⟨runnable, level⟩, isNew⟩
              · exact ⟨(ready p member).1, fun old => (ready p member).2 (Finset.mem_insert_of_mem old)⟩
            · cases l with
              | nil => exact last chain.head_eq
              | cons y rest => exact tail (List.cons_ne_nil _ _)
            · rw [List.length_cons, Nat.add_sub_add_right, List.toFinset_cons, Finset.insert_union,
                Finset.union_insert]
          · rintro ⟨l, chain, ready, tail, few, rfl⟩
            have nodup := chain.nodup
            cases chain with
            | @cons _ l chain =>
                obtain ⟨⟨runnable, level⟩, isNew⟩ := ready xp List.mem_cons_self
                refine ⟨⟨runnable, level, isNew, fun null => ?_⟩, l, chain, fun p member => ?_,
                  fun some => ?_, Nat.le_of_succ_le_succ few, ?_⟩
                · rw [null] at chain
                  cases chain
                  exact tail (List.cons_ne_nil _ _)
                · obtain ⟨isReady, old⟩ := ready p (List.mem_cons_of_mem _ member)
                  refine ⟨isReady, fun again => ?_⟩
                  obtain rfl | again := Finset.mem_insert.mp again
                  · exact (List.nodup_cons.mp nodup).1 member
                  · exact old again
                · rw [tail (List.cons_ne_nil _ _)]
                  cases l with
                  | nil => exact absurd rfl some
                  | cons y rest => rw [List.getLast?_cons_cons]
                · rw [List.length_cons, Nat.add_sub_add_right, List.toFinset_cons,
                    Finset.insert_union, Finset.union_insert]

theorem QueueOk.ends {l : List (Fin n)} (ok : QueueOk K q l) :
    (K.rdyHead q = none ↔ K.rdyTail q = none) ∧
      ∀ tail, K.rdyTail q = some tail → K.nextready tail = none := by
  have chain := ok.chain
  obtain rfl | ⟨A, t, rfl⟩ := List.eq_nil_or_concat l
  · have head := chain.head_eq
    have tail := ok.tail
    exact ⟨by rw [head, tail]; rfl, fun t isTail => by rw [tail] at isTail; cases isTail⟩
  · rw [List.concat_eq_append] at chain
    have isTail : K.rdyTail q = some t := by rw [ok.tail]; simp
    refine ⟨iff_of_false ?_ (by rw [isTail]; nofun), fun tail here => ?_⟩
    · rw [chain.head_eq]
      simp
    · rw [isTail] at here
      cases here
      exact chain.last_next

theorem checkQueue_iff {start : Nat × Finset (Fin n)} :
    checkQueue K start q = some seen ↔
      ∃ l, QueueOk K q l ∧ (∀ p ∈ l, p ∉ start.2) ∧ l.length ≤ start.1 ∧
        seen = (start.1 - l.length, start.2 ∪ l.toFinset) := by
  unfold checkQueue
  constructor
  · intro passes
    split at passes
    · cases passes
    split at passes
    · cases passes
    next noHead =>
    split at passes
    · cases passes
    obtain ⟨l, chain, ready, tail, few, isSeen⟩ := checkReady_iff.mp passes
    refine ⟨l, ⟨chain, ?_, fun p member => (ready p member).1⟩, fun p member => (ready p member).2,
      few, isSeen⟩
    by_cases empty : l = []
    · subst empty
      exact by_contra fun some => noHead ⟨chain.head_eq, some⟩
    · exact tail empty
  · rintro ⟨l, ok, isNew, few, isSeen⟩
    obtain ⟨same, last⟩ := ok.ends
    rw [if_neg fun differ => differ.1 (same.mpr differ.2),
      if_neg fun differ => differ.2 (same.mp differ.1), if_neg fun ⟨t, isTail, next⟩ => next (last t isTail)]
    exact checkReady_iff.mpr ⟨l, ok.chain, fun p member => ⟨ok.ready p member, isNew p member⟩,
      fun _ => ok.tail, few, isSeen⟩

theorem checkQueues_some {qs : List Nat} {start : Nat × Finset (Fin n)}
    (passes : qs.foldlM (checkQueue K) start = some seen) :
    (∀ q ∈ qs, ∃ l, QueueOk K q l) ∧
      ∀ p, p ∈ seen.2 ↔ p ∈ start.2 ∨ ∃ q ∈ qs, ∃ l, QueueOk K q l ∧ p ∈ l := by
  induction qs generalizing start with
  | nil =>
      cases passes
      exact ⟨nofun, fun p => by simp⟩
  | cons q qs ih =>
      rw [List.foldlM_cons] at passes
      obtain ⟨next, here, passes⟩ := Option.bind_eq_some_iff.mp passes
      obtain ⟨l, ok, _, _, rfl⟩ := checkQueue_iff.mp here
      obtain ⟨others, found⟩ := ih passes
      refine ⟨List.forall_mem_cons.mpr ⟨⟨l, ok⟩, others⟩, fun p => ?_⟩
      rw [found, Finset.mem_union, List.mem_toFinset, or_assoc]
      refine or_congr_right ?_
      simp only [List.mem_cons, exists_eq_or_imp]
      refine or_congr_left ⟨fun member => ⟨l, ok, member⟩, ?_⟩
      rintro ⟨l', ok', member⟩
      rwa [ok.unique ok']

theorem checkQueues_ok {ready : Nat → List (Fin n)} {qs : List Nat} {start : Nat × Finset (Fin n)}
    (ok : ∀ q ∈ qs, QueueOk K q (ready q)) (distinct : qs.Nodup)
    (isNew : ∀ q ∈ qs, ∀ p ∈ ready q, p ∉ start.2) (count : start.1 + start.2.card = n + 1) :
    ∃ seen, qs.foldlM (checkQueue K) start = some seen := by
  induction qs generalizing start with
  | nil => exact ⟨start, rfl⟩
  | cons q qs ih =>
      have here := ok q List.mem_cons_self
      have new := isNew q List.mem_cons_self
      rw [List.nodup_cons] at distinct
      have apart : Disjoint start.2 (ready q).toFinset :=
        Finset.disjoint_right.mpr fun p member => new p (List.mem_toFinset.mp member)
      have card := Finset.card_union_of_disjoint apart
      rw [List.toFinset_card_of_nodup here.chain.nodup] at card
      have all := (start.2 ∪ (ready q).toFinset).card_le_univ
      rw [Fintype.card_fin] at all
      have passes := checkQueue_iff.mpr ⟨ready q, here, new, by omega, rfl⟩
      have rest : ∀ q' ∈ qs, ∀ p ∈ ready q', p ∉ start.2 ∪ (ready q).toFinset := by
        intro q' member p queued old
        obtain old | old := Finset.mem_union.mp old
        · exact isNew q' (List.mem_cons_of_mem _ member) p queued old
        · have level := (here.ready p (List.mem_toFinset.mp old)).2
          have level' := ((ok q' (List.mem_cons_of_mem _ member)).ready p queued).2
          exact distinct.1 (by rwa [← level, level'])
      have others : ∃ seen, qs.foldlM (checkQueue K)
          (start.1 - (ready q).length, start.2 ∪ (ready q).toFinset) = some seen := by
        refine ih (fun q' member => ok q' (List.mem_cons_of_mem _ member)) distinct.2 rest ?_
        dsimp only
        omega
      obtain ⟨seen, others⟩ := others
      exact ⟨seen, by rw [List.foldlM_cons]; exact Option.bind_eq_some_iff.mpr ⟨_, passes, others⟩⟩

end

theorem queues_of_runqueuesOk (passes : runqueuesOk cfg K = true) :
    ∃ ready : Nat → List (Fin n), (∀ q < cfg.queues, QueueOk K q (ready q)) ∧
      ∀ p, (K.proc p).Runnable → ∃ q < cfg.queues, p ∈ ready q := by
  unfold runqueuesOk at passes
  split at passes
  · cases passes
  next left found isFound =>
  obtain ⟨all, members⟩ := checkQueues_some isFound
  simp only [List.mem_range] at all members
  choose ready isOk using fun q : {q // q < cfg.queues} => all q q.2
  refine ⟨fun q => if below : q < cfg.queues then ready ⟨q, below⟩ else [], fun q below => ?_,
    fun p runnable => ?_⟩
  · dsimp only
    rw [dif_pos below]
    exact isOk ⟨q, below⟩
  · have here := List.all_eq_true.mp passes p (List.mem_finRange p)
    simp only [decide_eq_true_eq] at here
    have notEmpty : ¬ (K.proc p).Empty := fun empty => by
      rw [Proc.Empty, runnable] at empty
      exact Finset.singleton_ne_empty _ empty.symm
    have isFound : p ∈ found := by_contra fun other => here.resolve_left notEmpty ⟨runnable, other⟩
    obtain ⟨q, below, l, ok, member⟩ := ((members p).mp isFound).resolve_left (Finset.notMem_empty p)
    refine ⟨q, below, ?_⟩
    dsimp only
    rwa [dif_pos below, (isOk ⟨q, below⟩).unique ok]

theorem runqueuesOk_of_queues {ready : Nat → List (Fin n)}
    (ok : ∀ q < cfg.queues, QueueOk K q (ready q))
    (all : ∀ p, (K.proc p).Runnable → ∃ q < cfg.queues, p ∈ ready q) :
    runqueuesOk cfg K = true := by
  obtain ⟨seen, isSeen⟩ : ∃ seen,
      (List.range cfg.queues).foldlM (checkQueue K) (n + 1, ∅) = some seen :=
    checkQueues_ok (fun q member => ok q (List.mem_range.mp member)) List.nodup_range
      (fun _ _ _ _ => Finset.notMem_empty _) rfl
  obtain ⟨_, members⟩ := checkQueues_some isSeen
  unfold runqueuesOk
  simp only [isSeen, List.all_eq_true, decide_eq_true_eq]
  refine fun p _ => .inr fun ⟨runnable, other⟩ => other ((members p).mpr (.inr ?_))
  obtain ⟨q, below, member⟩ := all p runnable
  exact ⟨q, List.mem_range.mpr below, ready q, ok q below, member⟩

theorem RunOk.checked {ready : Nat → List (Fin n)} (ok : RunOk cfg K ready) :
    runqueuesOk cfg K = true := by
  have here : ∀ q < cfg.queues, QueueOk K q (ready q) := fun q _ =>
    ⟨ok.chain q, ok.tail q, fun p member =>
      ⟨(ok.mem p).mp ((ok.level q p member).symm ▸ member), ok.level q p member⟩⟩
  exact runqueuesOk_of_queues here fun p runnable =>
    ⟨_, ok.bound p runnable, (ok.mem p).mpr runnable⟩

/-- runqueues_ok answers 1 exactly when the queues are chains of processes that are ready, each
in the queue of its priority, and every process that is ready is in one of them. -/
theorem runqueues_ok_iff (cfg : Config n k α) (K : State n k α) :
    runqueuesOk cfg K = true ↔ ∃ ready : Nat → List (Fin n),
      (∀ q < cfg.queues, QueueOk K q (ready q)) ∧
      ∀ p, (K.proc p).Runnable → ∃ q < cfg.queues, p ∈ ready q :=
  ⟨queues_of_runqueuesOk, fun ⟨_, ok, all⟩ => runqueuesOk_of_queues ok all⟩

end Csc457.Kernel
