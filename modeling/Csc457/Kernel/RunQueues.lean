import Csc457.Kernel.Proc

/-!
# The ready queues

proc.c: enqueue, enqueue_head, dequeue and pick_proc, and proc.h: the macros that change a
process' flags and call them.  A ready queue is linked through p_nextready, with its ends in
rdy_head and rdy_tail.  Each runnable process is in the queue of its priority, once, and
nothing else is in any of them.
-/

set_option autoImplicit false

namespace Csc457.Kernel

open Function
open Csc457.Lib.LinkedQueue

variable {n k : Nat} {α : Type} (cfg : Config n k α)

/-! ## The functions -/

def State.setNext (K : State n k α) (p : Fin n) (next : Option (Fin n)) : State n k α :=
  K.modify p fun p => { p with nextready := next }

def State.setHead (K : State n k α) (q : Nat) (p : Option (Fin n)) : State n k α :=
  { K with rdyHead := update K.rdyHead q p }

def State.setTail (K : State n k α) (q : Nat) (p : Option (Fin n)) : State n k α :=
  { K with rdyTail := update K.rdyTail q p }

/-- `*xpp = next`, where xpp points to the link after `prev`, or to the head. -/
def storeReady (K : State n k α) (q : Nat) (prev next : Option (Fin n)) : State n k α :=
  match prev with
  | none => K.setHead q next
  | some x => K.setNext x next

/-- What dequeue does when it has come to `rp`, with `prev` before it. -/
def unlinkReady (K : State n k α) (q : Nat) (rp : Fin n) (prev : Option (Fin n)) : State n k α :=
  let K' := storeReady K q prev (K.proc rp).nextready
  K'.setTail q (if K'.rdyTail q = some rp then prev else K'.rdyTail q)

def dequeue (K : State n k α) (rp : Fin n) : Run (State n k α) := do
  ensure .assertion (¬ (K.proc rp).Runnable)
  let q := (K.proc rp).priority
  ensure .outside (q < cfg.queues)
  match search K.nextready (fun x => x = rp) n none (K.rdyHead q) with
  | none => .error .loops
  | some none => .ok K
  | some (some (prev, _)) => .ok (unlinkReady K q rp prev)

def rtsSet (K : State n k α) (rp : Fin n) (f : Finset Rts) : Run (State n k α) :=
  if (K.proc rp).Runnable ∧ ¬ ((K.setFlags rp f).proc rp).Runnable then
    dequeue cfg (K.setFlags rp f) rp
  else .ok (K.setFlags rp f)

/-- `rp` behind the others of its queue. -/
def linkTail (K : State n k α) (rp : Fin n) : Run (State n k α) :=
  let q := (K.proc rp).priority
  match K.rdyHead q with
  | none => .ok (((K.setHead q (some rp)).setTail q (some rp)).setNext rp none)
  | some _ =>
      match K.rdyTail q with
      | none => .error .outside
      | some tail => .ok (((K.setNext tail (some rp)).setTail q (some rp)).setNext rp none)

/-- A process of a better priority takes the place of the current one, if that may be. -/
def preempt (K : State n k α) (rp : Fin n) : Run (State n k α) :=
  if (K.proc rp).priority < (K.proc K.procPtr).priority ∧
      (K.priv (K.proc K.procPtr).priv).preemptible = true then
    rtsSet cfg K K.procPtr {Rts.preempted}
  else .ok K

def enqueue (K : State n k α) (rp : Fin n) : Run (State n k α) := do
  ensure .assertion (K.proc rp).Runnable
  ensure .outside ((K.proc rp).priority < cfg.queues)
  let K ← linkTail K rp
  preempt cfg K rp

def rtsUnset (K : State n k α) (rp : Fin n) (f : Finset Rts) : Run (State n k α) :=
  if ¬ (K.proc rp).Runnable ∧ ((K.clearFlags rp f).proc rp).Runnable then
    enqueue cfg (K.clearFlags rp f) rp
  else .ok (K.clearFlags rp f)

/-- `rp` before the others of its queue. -/
def enqueueHead (K : State n k α) (rp : Fin n) : Run (State n k α) := do
  ensure .assertion (K.proc rp).Runnable
  ensure .assertion ((K.proc rp).cpuTimeLeft ≠ 0)
  let q := (K.proc rp).priority
  ensure .outside (q < cfg.queues)
  let K' := match K.rdyHead q with
    | none => ((K.setHead q (some rp)).setTail q (some rp)).setNext rp none
    | some head => K.setNext rp (some head)
  return K'.setHead q (some rp)

def pickProc (K : State n k α) : Run (Option (Fin n)) :=
  match (List.range cfg.queues).findSome? K.rdyHead with
  | none => .ok none
  | some rp => do
      ensure .assertion (K.proc rp).Runnable
      return some rp

/-! ## What they keep -/

/-- `K'` is `K` but for the links of the ready queues. -/
structure Requeued (K K' : State n k α) : Prop where
  proc : ∀ p, ∃ next, K'.proc p = { K.proc p with nextready := next }
  priv : K'.priv = K.priv
  procPtr : K'.procPtr = K.procPtr

/-- The queues, with whom they link. -/
structure Linked (K : State n k α) (ready : Nat → List (Fin n)) : Prop where
  chain : ∀ q, Chain K.nextready (K.rdyHead q) (ready q)
  tail : ∀ q, K.rdyTail q = (ready q).getLast?
  level : ∀ q, ∀ p ∈ ready q, (K.proc p).priority = q

/-- What runqueues_ok is about: the queues hold the processes that are runnable. -/
structure RunOk (K : State n k α) (ready : Nat → List (Fin n)) : Prop extends Linked K ready where
  mem : ∀ p, p ∈ ready (K.proc p).priority ↔ (K.proc p).Runnable
  bound : ∀ p, (K.proc p).Runnable → (K.proc p).priority < cfg.queues

variable {cfg} {K K' K'' : State n k α} {ready ready' : Nat → List (Fin n)} {rp : Fin n}
  {f : Finset Rts}

theorem Requeued.refl (K : State n k α) : Requeued K K := ⟨fun _ => ⟨_, rfl⟩, rfl, rfl⟩

theorem Requeued.trans (first : Requeued K K') (second : Requeued K' K'') : Requeued K K'' := by
  refine ⟨fun p => ?_, second.priv.trans first.priv, second.procPtr.trans first.procPtr⟩
  obtain ⟨next, here⟩ := first.proc p
  obtain ⟨next', here'⟩ := second.proc p
  exact ⟨next', by rw [here', here]⟩

theorem Requeued.setNext (same : Requeued K K') (x : Fin n) (next : Option (Fin n)) :
    Requeued K (K'.setNext x next) := by
  refine ⟨fun p => ?_, same.priv, same.procPtr⟩
  obtain ⟨next', here⟩ := same.proc p
  rw [State.setNext, modify_apply]
  split
  · next isX => exact ⟨next, by rw [← isX, here]⟩
  · exact ⟨next', here⟩

theorem Requeued.setHead (same : Requeued K K') (q : Nat) (p : Option (Fin n)) :
    Requeued K (K'.setHead q p) := ⟨same.proc, same.priv, same.procPtr⟩

theorem Requeued.setTail (same : Requeued K K') (q : Nat) (p : Option (Fin n)) :
    Requeued K (K'.setTail q p) := ⟨same.proc, same.priv, same.procPtr⟩

theorem Requeued.field {β : Type} (same : Requeued K K') (p : Fin n) (field : Proc n k α → β)
    (other : ∀ (p : Proc n k α) next, field { p with nextready := next } = field p) :
    field (K'.proc p) = field (K.proc p) := by
  obtain ⟨next, here⟩ := same.proc p
  rw [here, other]

theorem Requeued.rts (same : Requeued K K') (p : Fin n) : (K'.proc p).rts = (K.proc p).rts :=
  same.field p Proc.rts fun _ _ => rfl

theorem Requeued.priority (same : Requeued K K') (p : Fin n) :
    (K'.proc p).priority = (K.proc p).priority := same.field p Proc.priority fun _ _ => rfl

@[simp] theorem setNext_nextready (x : Fin n) (next : Option (Fin n)) :
    (K.setNext x next).nextready = update K.nextready x next := by
  funext p
  simp only [State.setNext, State.nextready, modify_apply, update_apply]
  split <;> rfl

@[simp] theorem setNext_rdyHead (x : Fin n) (next : Option (Fin n)) :
    (K.setNext x next).rdyHead = K.rdyHead := rfl

@[simp] theorem setNext_rdyTail (x : Fin n) (next : Option (Fin n)) :
    (K.setNext x next).rdyTail = K.rdyTail := rfl

@[simp] theorem setHead_nextready (q : Nat) (p : Option (Fin n)) :
    (K.setHead q p).nextready = K.nextready := rfl

@[simp] theorem setHead_rdyHead (q : Nat) (p : Option (Fin n)) :
    (K.setHead q p).rdyHead = update K.rdyHead q p := rfl

@[simp] theorem setHead_rdyTail (q : Nat) (p : Option (Fin n)) :
    (K.setHead q p).rdyTail = K.rdyTail := rfl

@[simp] theorem setTail_nextready (q : Nat) (p : Option (Fin n)) :
    (K.setTail q p).nextready = K.nextready := rfl

@[simp] theorem setTail_rdyHead (q : Nat) (p : Option (Fin n)) :
    (K.setTail q p).rdyHead = K.rdyHead := rfl

@[simp] theorem setTail_rdyTail (q : Nat) (p : Option (Fin n)) :
    (K.setTail q p).rdyTail = update K.rdyTail q p := rfl

theorem Linked.modify (linked : Linked K ready) (x : Fin n) (g : Proc n k α → Proc n k α)
    (same : ∀ p, (g p).nextready = p.nextready ∧ (g p).priority = p.priority) :
    Linked (K.modify x g) ready := by
  have nextready : (K.modify x g).nextready = K.nextready := by
    funext p
    simp only [State.nextready, modify_apply]
    split
    · next here => rw [here, (same _).1]
    · rfl
  refine ⟨fun q => by rw [nextready]; exact linked.chain q, linked.tail, fun q p member => ?_⟩
  rw [← linked.level q p member, modify_apply]
  split
  · next here => rw [here, (same _).2]
  · rfl

theorem Linked.apart (linked : Linked K ready) {q q' : Nat} {p : Fin n} (here : p ∈ ready q)
    (other : q' ≠ q) : p ∉ ready q' := by
  intro there
  exact other ((linked.level q' p there).symm.trans (linked.level q p here))

theorem Linked.length_le (linked : Linked K ready) (q : Nat) : (ready q).length ≤ n := by
  simpa using (linked.chain q).length_le

theorem unlinkReady_requeued (q : Nat) (rp : Fin n) (prev : Option (Fin n)) :
    Requeued K (unlinkReady K q rp prev) := by
  unfold unlinkReady storeReady
  cases prev with
  | none => exact ((Requeued.refl K).setHead ..).setTail ..
  | some x => exact ((Requeued.refl K).setNext ..).setTail ..

theorem storeReady_nextready (q : Nat) (prev next : Option (Fin n)) :
    (storeReady K q prev next).nextready = (store K.nextready (K.rdyHead q) prev next).1 := by
  cases prev with
  | none => rfl
  | some x => exact setNext_nextready x next

theorem storeReady_rdyHead (q : Nat) (prev next : Option (Fin n)) :
    (storeReady K q prev next).rdyHead =
      update K.rdyHead q (store K.nextready (K.rdyHead q) prev next).2 := by
  cases prev with
  | none => rfl
  | some x => exact (update_eq_self q K.rdyHead).symm

theorem storeReady_rdyTail (q : Nat) (prev next : Option (Fin n)) :
    (storeReady K q prev next).rdyTail = K.rdyTail := by
  cases prev <;> rfl

theorem Linked.change (linked : Linked K ready) (same : Requeued K K') {q : Nat}
    {l : List (Fin n)} (chain : Chain K'.nextready (K'.rdyHead q) l)
    (tail : K'.rdyTail q = l.getLast?) (level : ∀ p ∈ l, (K.proc p).priority = q)
    (others : ∀ q' ≠ q, K'.rdyHead q' = K.rdyHead q' ∧ K'.rdyTail q' = K.rdyTail q')
    (links : ∀ p, K'.nextready p ≠ K.nextready p → ∀ q' ≠ q, p ∉ ready q') :
    Linked K' (update ready q l) := by
  refine ⟨fun q' => ?_, fun q' => ?_, fun q' p member => ?_⟩
  · by_cases here : q' = q
    · rw [here, update_self]
      exact chain
    · rw [update_of_ne here, (others q' here).1]
      refine (linked.chain q').congr fun p member => ?_
      by_contra changed
      exact links p changed q' here member
  · by_cases here : q' = q
    · rw [here, update_self]
      exact tail
    · rw [update_of_ne here, (others q' here).2]
      exact linked.tail q'
  · rw [same.priority]
    by_cases here : q' = q
    · rw [here, update_self] at member
      exact here ▸ level p member
    · rw [update_of_ne here] at member
      exact linked.level q' p member

theorem Linked.unlinkReady (linked : Linked K ready) {q : Nat} {A B : List (Fin n)}
    (split : ready q = A ++ rp :: B) :
    Linked (unlinkReady K q rp A.getLast?) (update ready q (A ++ B)) := by
  have chain := linked.chain q
  have tail := linked.tail q
  rw [split] at chain tail
  have isTail := getLast?_remove chain.nodup
  rw [← tail] at isTail
  refine linked.change (unlinkReady_requeued q rp A.getLast?) ?_ ?_ ?_ ?_ ?_
  · rw [Kernel.unlinkReady, setTail_nextready, setTail_rdyHead, storeReady_nextready,
      storeReady_rdyHead, update_self]
    exact chain.remove
  · rw [Kernel.unlinkReady, setTail_rdyTail, storeReady_rdyTail, isTail, update_self]
  · intro p member
    refine linked.level q p ?_
    rw [split]
    rcases List.mem_append.mp member with member | member <;> simp [member]
  · intro q' other
    rw [Kernel.unlinkReady, setTail_rdyHead, setTail_rdyTail, storeReady_rdyHead,
      storeReady_rdyTail, update_of_ne other, update_of_ne other]
    exact ⟨rfl, rfl⟩
  · intro p changed q' other member
    rw [Kernel.unlinkReady, setTail_nextready, storeReady_nextready] at changed
    refine changed (store_next_of_ne fun isPrev => linked.apart ?_ other member)
    rw [split]
    simp [List.mem_of_getLast? isPrev]

theorem dequeue_spec (cfg : Config n k α) (linked : Linked K ready) (stopped : ¬ (K.proc rp).Runnable)
    (bound : (K.proc rp).priority < cfg.queues) :
    ∃ K', dequeue cfg K rp = .ok K' ∧ Requeued K K' ∧
      Linked K' (update ready (K.proc rp).priority ((ready (K.proc rp).priority).erase rp)) := by
  have chain := linked.chain (K.proc rp).priority
  unfold dequeue
  rw [ensure_bind stopped, ensure_bind bound]
  obtain ⟨result, absent⟩ | ⟨A, a, B, split, before, isFound, result⟩ :=
    search_chain (fun x => decide (x = rp)) none chain (linked.length_le _)
  · simp only [result]
    refine ⟨K, rfl, .refl K, ?_⟩
    have notIn : rp ∉ ready (K.proc rp).priority := fun member => by simpa using absent rp member
    rwa [List.erase_of_not_mem notIn, update_eq_self]
  · obtain rfl : a = rp := by simpa using isFound
    simp only [result, Option.or_none]
    refine ⟨_, rfl, unlinkReady_requeued _ a _, ?_⟩
    have others : a ∉ A := fun member => by simpa using before a member
    have erased : (ready (K.proc a).priority).erase a = A ++ B := by
      rw [split, List.erase_append_right _ others, List.erase_cons_head]
    rw [erased]
    exact linked.unlinkReady split

theorem mem_update_erase {q q' : Nat} {p : Fin n} (other : p ≠ rp) :
    p ∈ update ready q ((ready q).erase rp) q' ↔ p ∈ ready q' := by
  by_cases same : q' = q
  · rw [same, update_self, List.mem_erase_of_ne other]
  · rw [update_of_ne same]

theorem rtsSet_spec (ok : RunOk cfg K ready) (rp : Fin n) (f : Finset Rts) :
    ∃ K' ready', rtsSet cfg K rp f = .ok K' ∧ RunOk cfg K' ready' ∧
      Requeued (K.setFlags rp f) K' := by
  have linked : Linked (K.setFlags rp f) ready := ok.toLinked.modify rp _ fun _ => ⟨rfl, rfl⟩
  have others : ∀ p ≠ rp, (K.setFlags rp f).proc p = K.proc p :=
    fun p other => modify_of_ne K _ other
  have here : (K.setFlags rp f).proc rp = { K.proc rp with rts := (K.proc rp).rts ∪ f } :=
    modify_self ..
  have level : ((K.setFlags rp f).proc rp).priority = (K.proc rp).priority := by rw [here]
  have weaker : ((K.setFlags rp f).proc rp).Runnable → (K.proc rp).Runnable := by
    rw [here]
    exact fun runnable => (Finset.union_eq_empty.mp runnable).1
  unfold rtsSet
  split
  · next stops =>
      obtain ⟨runnable, stopped⟩ := stops
      obtain ⟨K', isOk, same, linked'⟩ :=
        dequeue_spec cfg linked stopped (level ▸ ok.bound rp runnable)
      refine ⟨K', _, isOk, { linked' with mem := fun p => ?_, bound := fun p => ?_ }, same⟩
      · rw [Proc.Runnable, same.rts, same.priority]
        by_cases isRp : p = rp
        · subst isRp
          rw [update_self]
          exact ⟨fun member => absurd member (linked.chain _).nodup.not_mem_erase,
            fun runnable => absurd runnable stopped⟩
        · rw [mem_update_erase isRp, others p isRp]
          exact ok.mem p
      · rw [Proc.Runnable, same.rts, same.priority]
        by_cases isRp : p = rp
        · exact fun runnable => absurd (isRp ▸ runnable) stopped
        · rw [others p isRp]
          exact ok.bound p
  · next keeps =>
      have keeps : ((K.setFlags rp f).proc rp).Runnable ↔ (K.proc rp).Runnable :=
        ⟨weaker, fun runnable => by_contra fun stopped => keeps ⟨runnable, stopped⟩⟩
      refine ⟨_, ready, rfl, { linked with mem := fun p => ?_, bound := fun p => ?_ }, .refl _⟩
      · by_cases isRp : p = rp
        · rw [isRp, level, keeps]
          exact ok.mem rp
        · rw [others p isRp]
          exact ok.mem p
      · by_cases isRp : p = rp
        · rw [isRp, level, keeps]
          exact ok.bound rp
        · rw [others p isRp]
          exact ok.bound p

theorem linkTail_spec (linked : Linked K ready) (out : ∀ q, rp ∉ ready q) :
    ∃ K', linkTail K rp = .ok K' ∧ Requeued K K' ∧
      Linked K' (update ready (K.proc rp).priority (ready (K.proc rp).priority ++ [rp])) := by
  have chain := linked.chain (K.proc rp).priority
  have tail := linked.tail (K.proc rp).priority
  unfold linkTail
  rcases List.eq_nil_or_concat (ready (K.proc rp).priority) with empty | ⟨A, t, split⟩
  · rw [empty] at chain ⊢
    simp only [show K.rdyHead (K.proc rp).priority = none from chain.head_eq]
    have same := (((Requeued.refl K).setHead (K.proc rp).priority (some rp)).setTail
      (K.proc rp).priority (some rp)).setNext rp none
    refine ⟨_, rfl, same, linked.change same ?_ ?_ ?_ ?_ ?_⟩
    · simp only [setNext_nextready, setTail_nextready, setHead_nextready, setNext_rdyHead,
        setTail_rdyHead, setHead_rdyHead, update_self, List.nil_append]
      refine .cons ?_
      rw [update_self]
      exact .nil
    · simp
    · simp
    · intro q' other
      simp [other]
    · intro p changed q' _ member
      simp only [setNext_nextready, setTail_nextready, setHead_nextready, ne_eq] at changed
      by_cases isRp : p = rp
      · exact out q' (isRp ▸ member)
      · exact changed (update_of_ne isRp ..)
  · rw [split, List.concat_eq_append] at chain tail
    obtain ⟨head, isHead⟩ : ∃ head, K.rdyHead (K.proc rp).priority = some head := by
      rw [chain.head_eq]
      cases A <;> exact ⟨_, rfl⟩
    have isTail : K.rdyTail (K.proc rp).priority = some t := by rw [tail]; simp
    simp only [isHead, isTail]
    have same := (((Requeued.refl K).setNext t (some rp)).setTail
      (K.proc rp).priority (some rp)).setNext rp none
    refine ⟨_, rfl, same, linked.change same ?_ ?_ ?_ ?_ ?_⟩
    · simp only [setNext_nextready, setTail_nextready, setNext_rdyHead, setTail_rdyHead]
      have differ : rp ≠ t := by
        rintro rfl
        exact out (K.proc rp).priority (by rw [split]; simp)
      have notIn : rp ∉ A ++ [t] := by
        rw [← List.concat_eq_append, ← split]
        exact out _
      rw [update_comm differ.symm, split, List.concat_eq_append, List.append_assoc]
      exact (chain.update_other notIn).append differ (update_self ..)
    · simp
    · intro p member
      rcases List.mem_append.mp member with member | member
      · exact linked.level _ p member
      · rw [List.mem_singleton.mp member]
    · intro q' other
      simp [other]
    · intro p changed q' other member
      simp only [setNext_nextready, setTail_nextready, ne_eq] at changed
      by_cases isRp : p = rp
      · exact out q' (isRp ▸ member)
      · by_cases isT : p = t
        · exact linked.apart (q := (K.proc rp).priority) (by rw [split]; simp) other (isT ▸ member)
        · exact changed (by rw [update_of_ne isRp, update_of_ne isT])

theorem enqueueHead_linked (linked : Linked K ready) (out : ∀ q, rp ∉ ready q)
    (runnable : (K.proc rp).Runnable) (time : (K.proc rp).cpuTimeLeft ≠ 0)
    (bound : (K.proc rp).priority < cfg.queues) :
    ∃ K', enqueueHead cfg K rp = .ok K' ∧ Requeued K K' ∧
      Linked K' (update ready (K.proc rp).priority (rp :: ready (K.proc rp).priority)) := by
  have chain := linked.chain (K.proc rp).priority
  have tail := linked.tail (K.proc rp).priority
  unfold enqueueHead
  rw [ensure_bind runnable, ensure_bind time, ensure_bind bound]
  have level : ∀ p ∈ rp :: ready (K.proc rp).priority, (K.proc p).priority = (K.proc rp).priority := by
    intro p member
    rcases List.mem_cons.mp member with rfl | member
    · rfl
    · exact linked.level _ p member
  cases isHead : K.rdyHead (K.proc rp).priority with
  | none =>
      have empty : ready (K.proc rp).priority = [] :=
        List.head?_eq_none_iff.mp (chain.head_eq.symm.trans isHead)
      have same := ((((Requeued.refl K).setHead (K.proc rp).priority (some rp)).setTail
        (K.proc rp).priority (some rp)).setNext rp none).setHead (K.proc rp).priority (some rp)
      refine ⟨_, rfl, same, linked.change same ?_ ?_ level ?_ ?_⟩
      · simp only [setHead_nextready, setNext_nextready, setTail_nextready, setHead_rdyHead,
          update_self, empty]
        refine .cons ?_
        rw [update_self]
        exact .nil
      · simp [empty]
      · intro q' other
        simp [other]
      · intro p changed q' _ member
        simp only [setHead_nextready, setNext_nextready, setTail_nextready, ne_eq] at changed
        by_cases isRp : p = rp
        · exact out q' (isRp ▸ member)
        · exact changed (update_of_ne isRp ..)
  | some head =>
      have same := ((Requeued.refl K).setNext rp (some head)).setHead
        (K.proc rp).priority (some rp)
      refine ⟨_, rfl, same, linked.change same ?_ ?_ level ?_ ?_⟩
      · simp only [setHead_nextready, setNext_nextready, setHead_rdyHead, update_self]
        rw [← isHead]
        exact chain.push (out _)
      · simp only [setHead_rdyTail, setNext_rdyTail, tail]
        cases some : ready (K.proc rp).priority with
        | nil =>
            rw [some] at chain
            rw [chain.head_eq] at isHead
            cases isHead
        | cons x rest => rw [List.getLast?_cons_cons]
      · intro q' other
        simp [other]
      · intro p changed q' _ member
        simp only [setHead_nextready, setNext_nextready, ne_eq] at changed
        by_cases isRp : p = rp
        · exact out q' (isRp ▸ member)
        · exact changed (update_of_ne isRp ..)

/-- The flags of the current process once `rp` is ready to run. -/
def State.marked (K : State n k α) (rp : Fin n) : State n k α :=
  if (K.proc rp).priority < (K.proc K.procPtr).priority ∧
      (K.priv (K.proc K.procPtr).priv).preemptible = true then
    K.setFlags K.procPtr {Rts.preempted}
  else K

theorem Requeued.setFlags (same : Requeued K K') (p : Fin n) (f : Finset Rts) :
    Requeued (K.setFlags p f) (K'.setFlags p f) := by
  refine ⟨fun x => ?_, same.priv, same.procPtr⟩
  obtain ⟨next, here⟩ := same.proc x
  rw [State.setFlags, State.setFlags, modify_apply, modify_apply]
  split
  · next isP => exact ⟨next, by rw [← isP, here]⟩
  · exact ⟨next, here⟩

theorem Requeued.marked (same : Requeued K K') (rp : Fin n) :
    Requeued (K.marked rp) (K'.marked rp) := by
  have priv : (K'.proc K'.procPtr).priv = (K.proc K.procPtr).priv := by
    rw [same.procPtr]
    exact same.field K.procPtr Proc.priv fun _ _ => rfl
  unfold State.marked
  rw [same.priority, priv, same.priv, same.procPtr, same.priority]
  split
  · exact same.setFlags _ _
  · exact same

theorem preempt_spec (ok : RunOk cfg K ready) (rp : Fin n) :
    ∃ K' ready', preempt cfg K rp = .ok K' ∧ RunOk cfg K' ready' ∧ Requeued (K.marked rp) K' := by
  unfold preempt State.marked
  split
  · exact rtsSet_spec ok K.procPtr {Rts.preempted}
  · exact ⟨K, ready, rfl, ok, .refl K⟩

/-- All but `rp` are where they belong. -/
structure RunOkBut (cfg : Config n k α) (K : State n k α) (ready : Nat → List (Fin n)) (rp : Fin n) :
    Prop extends Linked K ready where
  mem : ∀ p ≠ rp, p ∈ ready (K.proc p).priority ↔ (K.proc p).Runnable
  bound : ∀ p, (K.proc p).Runnable → (K.proc p).priority < cfg.queues
  out : ∀ q, rp ∉ ready q

theorem RunOkBut.put (but : RunOkBut cfg K ready rp) (same : Requeued K K')
    (runnable : (K.proc rp).Runnable) {l : List (Fin n)}
    (linked : Linked K' (update ready (K.proc rp).priority l))
    (mem : ∀ p, p ∈ l ↔ p = rp ∨ p ∈ ready (K.proc rp).priority) :
    RunOk cfg K' (update ready (K.proc rp).priority l) := by
  refine { linked with mem := fun p => ?_, bound := fun p => ?_ }
  · rw [Proc.Runnable, same.rts, same.priority]
    by_cases isRp : p = rp
    · rw [isRp, update_self, mem]
      exact ⟨fun _ => runnable, fun _ => .inl rfl⟩
    · rw [← Proc.Runnable, ← but.mem p isRp]
      by_cases level : (K.proc p).priority = (K.proc rp).priority
      · rw [level, update_self, mem]
        exact ⟨fun member => member.resolve_left isRp, .inr⟩
      · rw [update_of_ne level]
  · rw [Proc.Runnable, same.rts, same.priority]
    exact but.bound p

theorem enqueue_spec (but : RunOkBut cfg K ready rp) (runnable : (K.proc rp).Runnable) :
    ∃ K' ready', enqueue cfg K rp = .ok K' ∧ RunOk cfg K' ready' ∧ Requeued (K.marked rp) K' := by
  obtain ⟨K₁, isOk, same, linked⟩ := linkTail_spec but.toLinked but.out
  have ok := but.put same runnable linked (by simp [or_comm])
  obtain ⟨K₂, ready', isOk', ok', same'⟩ := preempt_spec ok rp
  refine ⟨K₂, ready', ?_, ok', (same.marked rp).trans same'⟩
  unfold enqueue
  rw [ensure_bind runnable, ensure_bind (but.bound rp runnable)]
  exact bind_ok.mpr ⟨K₁, isOk, isOk'⟩

theorem enqueueHead_spec (but : RunOkBut cfg K ready rp) (runnable : (K.proc rp).Runnable)
    (time : (K.proc rp).cpuTimeLeft ≠ 0) :
    ∃ K' ready', enqueueHead cfg K rp = .ok K' ∧ RunOk cfg K' ready' ∧ Requeued K K' := by
  obtain ⟨K', isOk, same, linked⟩ :=
    enqueueHead_linked but.toLinked but.out runnable time (but.bound rp runnable)
  exact ⟨K', _, isOk, but.put same runnable linked (by simp), same⟩

theorem RunOk.clearFlags (ok : RunOk cfg K ready) (stopped : ¬ (K.proc rp).Runnable)
    (bound : ((K.clearFlags rp f).proc rp).Runnable → (K.proc rp).priority < cfg.queues) :
    RunOkBut cfg (K.clearFlags rp f) ready rp := by
  have linked : Linked (K.clearFlags rp f) ready := ok.toLinked.modify rp _ fun _ => ⟨rfl, rfl⟩
  have others : ∀ p ≠ rp, (K.clearFlags rp f).proc p = K.proc p :=
    fun p other => modify_of_ne K _ other
  have level : ((K.clearFlags rp f).proc rp).priority = (K.proc rp).priority := by
    rw [State.clearFlags, modify_self]
  refine { linked with mem := fun p other => ?_, bound := fun p => ?_, out := fun q member => ?_ }
  · rw [others p other]
    exact ok.mem p
  · by_cases isRp : p = rp
    · rw [isRp, level]
      exact bound
    · rw [others p isRp]
      exact ok.bound p
  · have here := ok.level q rp member
    exact stopped ((ok.mem rp).mp (here ▸ member))

/-- RTS_UNSET: the process becomes ready when the last of its flags is cleared. -/
theorem rtsUnset_spec (ok : RunOk cfg K ready) (rp : Fin n) (f : Finset Rts)
    (bound : ¬ (K.proc rp).Runnable → ((K.clearFlags rp f).proc rp).Runnable →
      (K.proc rp).priority < cfg.queues) :
    ∃ K' ready', rtsUnset cfg K rp f = .ok K' ∧ RunOk cfg K' ready' ∧
      Requeued (if ¬ (K.proc rp).Runnable ∧ ((K.clearFlags rp f).proc rp).Runnable then
        (K.clearFlags rp f).marked rp else K.clearFlags rp f) K' := by
  unfold rtsUnset
  split
  · next starts => exact enqueue_spec (ok.clearFlags starts.1 (bound starts.1)) starts.2
  · next keeps =>
      have linked : Linked (K.clearFlags rp f) ready := ok.toLinked.modify rp _ fun _ => ⟨rfl, rfl⟩
      have others : ∀ p ≠ rp, (K.clearFlags rp f).proc p = K.proc p :=
        fun p other => modify_of_ne K _ other
      have here : (K.clearFlags rp f).proc rp = { K.proc rp with rts := (K.proc rp).rts \ f } :=
        modify_self ..
      have level : ((K.clearFlags rp f).proc rp).priority = (K.proc rp).priority := by rw [here]
      have same : ((K.clearFlags rp f).proc rp).Runnable ↔ (K.proc rp).Runnable := by
        refine ⟨fun runnable => by_contra fun stopped => keeps ⟨stopped, runnable⟩, fun runnable => ?_⟩
        rw [here, Proc.Runnable, runnable]
        exact Finset.empty_sdiff f
      refine ⟨_, ready, rfl, { linked with mem := fun p => ?_, bound := fun p => ?_ }, .refl _⟩
      · by_cases isRp : p = rp
        · rw [isRp, level, same]
          exact ok.mem rp
        · rw [others p isRp]
          exact ok.mem p
      · by_cases isRp : p = rp
        · rw [isRp, level, same]
          exact ok.bound rp
        · rw [others p isRp]
          exact ok.bound p

theorem pickProc_spec (ok : RunOk cfg K ready) :
    (pickProc cfg K = .ok none ∧ ∀ p, ¬ (K.proc p).Runnable) ∨
      ∃ rp rest, pickProc cfg K = .ok (some rp) ∧ (K.proc rp).Runnable ∧
        ready (K.proc rp).priority = rp :: rest ∧
        ∀ p, (K.proc p).Runnable → (K.proc rp).priority ≤ (K.proc p).priority := by
  unfold pickProc
  cases found : (List.range cfg.queues).findSome? K.rdyHead with
  | none =>
      refine .inl ⟨rfl, fun p runnable => ?_⟩
      have member := (ok.mem p).mpr runnable
      have head := List.findSome?_eq_none_iff.mp found _ (List.mem_range.mpr (ok.bound p runnable))
      rw [(ok.chain _).head_eq, List.head?_eq_none_iff] at head
      rw [head] at member
      cases member
  | some rp =>
      obtain ⟨below, q, above, split, isHead, empty⟩ := List.findSome?_eq_some_iff.mp found
      have here := isHead
      rw [(ok.chain q).head_eq] at here
      obtain ⟨rest, isReady⟩ : ∃ rest, ready q = rp :: rest := List.head?_eq_some_iff.mp here
      have level : (K.proc rp).priority = q := ok.level q rp (by rw [isReady]; simp)
      have runnable : (K.proc rp).Runnable := (ok.mem rp).mp (by rw [level, isReady]; simp)
      refine .inr ⟨rp, rest, ensure_bind runnable, runnable, level ▸ isReady, fun p isRunnable => ?_⟩
      by_contra better
      have length : below.length = q := by
        have item : (List.range cfg.queues)[below.length]? = some q := by simp [split]
        obtain ⟨inside, same⟩ := List.getElem?_eq_some_iff.mp item
        rwa [List.getElem_range] at same
      have isBelow : (K.proc p).priority ∈ below := by
        have take := congrArg (List.take below.length) split
        rw [List.take_range, List.take_left] at take
        rw [← take, List.mem_range, length]
        have bound := ok.bound p isRunnable
        omega
      have head := empty _ isBelow
      rw [(ok.chain _).head_eq, List.head?_eq_none_iff] at head
      have member := (ok.mem p).mpr isRunnable
      rw [head] at member
      cases member

end Csc457.Kernel
