import Csc457.Kernel.Privileges
import Csc457.Kernel.Waiting

/-!
# A kernel in order

What is true of the process table between two calls, and what of it a change leaves alone:
the queues are right, those who wait do so in the right queue and for somebody who is there,
and nobody waits for one who waits for him.
-/

set_option autoImplicit false

namespace Csc457.Kernel

open Function
open Csc457.Lib.LinkedQueue

variable {n k : Nat} {α : Type} {cfg : Config n k α} {K K' K'' : State n k α}
  {callers callers' : Fin n → List (Fin n)}

def ipcFlags : Finset Rts := {.sending, .receiving, .preempted}

/-- What is true of the table whatever the processes send. -/
structure Table (cfg : Config n k α) (K : State n k α) : Prop where
  free : ∀ p, .slotFree ∈ (K.proc p).rts → (K.proc p).rts = {Rts.slotFree}
  task : ∀ p, cfg.kernelTask p = true → .procStop ∈ (K.proc p).rts ∨ .slotFree ∈ (K.proc p).rts
  level : ∀ p, cfg.kernelTask p = false → (K.proc p).priority < cfg.queues
  quantum : ∀ p, cfg.kernelTask p = false → .slotFree ∉ (K.proc p).rts →
    .noQuantum ∉ (K.proc p).rts → (K.proc p).quantumSize ≠ 0
  scheduler : ∀ p s, (K.proc p).scheduler = some s → .slotFree ∉ (K.proc s).rts
  idle : .slotFree ∉ (K.proc cfg.idle).rts
  pending : ∀ i id, (K.priv i).notifyPending id = true → (K.priv id).procNr ≠ none
  notifiers : ∀ i, (K.priv i).trapMask .notify = true → (K.priv i).procNr ≠ none
  masks : Masks K.priv

/-- The process is blocked in a send to `d`. -/
def State.SendsTo (K : State n k α) (p d : Fin n) : Prop :=
  .sending ∈ (K.proc p).rts ∧ (K.proc p).sendto = (K.proc d).endpoint

/-- It sends to nobody, but its p_q_link was left in a queue. -/
def State.Stale (K : State n k α) (p : Fin n) : Prop :=
  .sending ∉ (K.proc p).rts ∧ K.qLink p ≠ none

/-- What message passing leaves alone. -/
structure Keeps (K K' : State n k α) : Prop where
  rts : ∀ p, ∀ f ∉ ipcFlags, (f ∈ (K'.proc p).rts ↔ f ∈ (K.proc p).rts)
  free : ∀ p, .slotFree ∈ (K.proc p).rts → (K'.proc p).rts = (K.proc p).rts
  priority : ∀ p, (K'.proc p).priority = (K.proc p).priority
  quantumSize : ∀ p, (K'.proc p).quantumSize = (K.proc p).quantumSize
  scheduler : ∀ p, (K'.proc p).scheduler = (K.proc p).scheduler
  endpoint : ∀ p, (K'.proc p).endpoint = (K.proc p).endpoint
  privOf : ∀ p, (K'.proc p).priv = (K.proc p).priv
  procNr : ∀ i, (K'.priv i).procNr = (K.priv i).procNr
  trapMask : ∀ i, (K'.priv i).trapMask = (K.priv i).trapMask
  preemptible : ∀ i, (K'.priv i).preemptible = (K.priv i).preemptible
  pending : ∀ i id, (K'.priv i).notifyPending id = true →
    (K.priv i).notifyPending id = true ∨ (K.priv id).procNr ≠ none
  procPtr : K'.procPtr = K.procPtr
  stale : ∀ p, K.Stale p → K'.Stale p
  masks : Masks K.priv → Masks K'.priv

theorem Keeps.refl (K : State n k α) : Keeps K K :=
  ⟨fun _ _ _ => Iff.rfl, fun _ _ => rfl, fun _ => rfl, fun _ => rfl, fun _ => rfl, fun _ => rfl, fun _ => rfl,
    fun _ => rfl, fun _ => rfl, fun _ => rfl, fun _ _ => .inl, rfl, fun _ => id, id⟩

theorem Keeps.slotFree (keeps : Keeps K K') (p : Fin n) :
    .slotFree ∈ (K'.proc p).rts ↔ .slotFree ∈ (K.proc p).rts := keeps.rts p _ (by decide)

theorem Keeps.trans (first : Keeps K K') (second : Keeps K' K'') : Keeps K K'' where
  rts p f other := (second.rts p f other).trans (first.rts p f other)
  free p free := (second.free p ((first.slotFree p).mpr free)).trans (first.free p free)
  priority p := (second.priority p).trans (first.priority p)
  quantumSize p := (second.quantumSize p).trans (first.quantumSize p)
  scheduler p := (second.scheduler p).trans (first.scheduler p)
  endpoint p := (second.endpoint p).trans (first.endpoint p)
  privOf p := (second.privOf p).trans (first.privOf p)
  procNr i := (second.procNr i).trans (first.procNr i)
  trapMask i := (second.trapMask i).trans (first.trapMask i)
  preemptible i := (second.preemptible i).trans (first.preemptible i)
  pending i id set := by
    obtain set | isProc := second.pending i id set
    · exact first.pending i id set
    · exact .inr (by rwa [first.procNr] at isProc)
  procPtr := second.procPtr.trans first.procPtr
  stale p stale := second.stale p (first.stale p stale)
  masks masks := second.masks (first.masks masks)

theorem Table.keep (table : Table cfg K) (keeps : Keeps K K') : Table cfg K' where
  free p free := by
    have free := (keeps.slotFree p).mp free
    rw [keeps.free p free, table.free p free]
  task p task := by
    rw [keeps.slotFree p, keeps.rts p _ (by decide : .procStop ∉ ipcFlags)]
    exact table.task p task
  level p user := by
    rw [keeps.priority]
    exact table.level p user
  quantum p user := by
    rw [keeps.slotFree p, keeps.rts p _ (by decide : .noQuantum ∉ ipcFlags), keeps.quantumSize]
    exact table.quantum p user
  scheduler p s := by
    rw [keeps.scheduler, keeps.slotFree]
    exact table.scheduler p s
  idle := (keeps.slotFree cfg.idle).not.mpr table.idle
  pending i id set := by
    rw [keeps.procNr]
    exact (keeps.pending i id set).elim (table.pending i id) fun isProc => isProc
  notifiers i := by
    rw [keeps.trapMask, keeps.procNr]
    exact table.notifiers i
  masks := keeps.masks table.masks

theorem Alike.keeps (alike : Alike K K') (current : .slotFree ∉ (K.proc K.procPtr).rts) :
    Keeps K K' where
  rts p f other := alike.flag p (by rintro rfl; exact other (by decide))
  free p free := by
    obtain ⟨next, rts, here, rfl | ⟨rfl, _⟩⟩ := alike.proc p
    · rw [here]
    · exact absurd free current
  priority p := alike.field p Proc.priority fun _ _ _ => rfl
  quantumSize p := alike.field p Proc.quantumSize fun _ _ _ => rfl
  scheduler p := alike.field p Proc.scheduler fun _ _ _ => rfl
  endpoint p := alike.field p Proc.endpoint fun _ _ _ => rfl
  privOf p := alike.field p Proc.priv fun _ _ _ => rfl
  procNr i := by rw [alike.priv]
  trapMask i := by rw [alike.priv]
  preemptible i := by rw [alike.priv]
  pending i id set := .inl (by rwa [alike.priv] at set)
  procPtr := alike.procPtr
  stale p stale := by
    rw [State.Stale, alike.flag p (by decide), State.qLink, alike.field p Proc.qLink fun _ _ _ => rfl]
    exact stale
  masks masks := by rwa [alike.priv]

theorem Keeps.modify {p : Fin n} {g : Proc n k α → Proc n k α} (used : .slotFree ∉ (K.proc p).rts)
    (rts : ∀ f ∉ ipcFlags, (f ∈ (g (K.proc p)).rts ↔ f ∈ (K.proc p).rts))
    (fields : (g (K.proc p)).priority = (K.proc p).priority ∧
      (g (K.proc p)).quantumSize = (K.proc p).quantumSize ∧
      (g (K.proc p)).scheduler = (K.proc p).scheduler ∧
      (g (K.proc p)).endpoint = (K.proc p).endpoint ∧ (g (K.proc p)).priv = (K.proc p).priv ∧
      (g (K.proc p)).qLink = (K.proc p).qLink)
    (sends : .sending ∈ (g (K.proc p)).rts → .sending ∈ (K.proc p).rts ∨ K.qLink p = none) :
    Keeps K (K.modify p g) := by
  have here : ∀ {β : Type} (field : Proc n k α → β),
      field (g (K.proc p)) = field (K.proc p) →
      ∀ x, field ((K.modify p g).proc x) = field (K.proc x) := by
    intro β field same x
    by_cases isP : x = p
    · rw [isP, modify_self, same]
    · rw [modify_of_ne K g isP]
  obtain ⟨priority, quantumSize, scheduler, endpoint, privOf, qLink⟩ := fields
  refine ⟨fun x f other => ?_, fun x free => ?_, here _ priority, here _ quantumSize,
    here _ scheduler, here _ endpoint, here _ privOf, fun _ => rfl, fun _ => rfl, fun _ => rfl,
    fun _ _ => .inl, rfl, fun x stale => ⟨fun isSet => ?_, ?_⟩, id⟩
  · by_cases isP : x = p
    · rw [isP, modify_self]
      exact rts f other
    · rw [modify_of_ne K g isP]
  · have isP : x ≠ p := by
      rintro rfl
      exact used free
    rw [modify_of_ne K g isP]
  · by_cases isP : x = p
    · subst isP
      rw [modify_self] at isSet
      exact (sends isSet).elim stale.1 stale.2
    · rw [modify_of_ne K g isP] at isSet
      exact stale.1 isSet
  · rw [State.qLink, here _ qLink]
    exact stale.2

theorem Keeps.live (keeps : Keeps K K') (p : Fin n) : K'.Live p ↔ K.Live p := by
  simp only [State.Live, keeps.slotFree p, keeps.rts p _ (by decide : Rts.noEndpoint ∉ ipcFlags)]

/-! ## Mail -/

/-- What the processes see of it: the messages that wait to be taken, those for whom a process
waits, those that it will be given when it goes on and those that it was given. -/
@[ext] structure Mail (n : Nat) (α : Type) where
  pend : Fin n → Option (Endpoint × Content n α)
  await : Fin n → Option Endpoint
  inbox : Fin n → Option (Message n α)
  got : Fin n → List (Message n α)

def Proc.pend (p : Proc n k α) : Option (Endpoint × Content n α) :=
  if .sending ∈ p.rts then some (p.sendto, p.sendmsg) else none

def Proc.await (p : Proc n k α) : Option Endpoint :=
  if .receiving ∈ p.rts then some p.getfrom else none

def Proc.inbox (p : Proc n k α) : Option (Message n α) :=
  if .delivermsg ∈ p.misc then some p.delivermsg else none

def State.mail (K : State n k α) : Mail n α where
  pend p := (K.proc p).pend
  await p := (K.proc p).await
  inbox p := (K.proc p).inbox
  got p := (K.proc p).got

section
variable (m : Mail n α)

/-- `dst` has what it waited for. -/
def Mail.hand (dst : Fin n) (msg : Message n α) : Mail n α :=
  { m with await := update m.await dst none, inbox := update m.inbox dst (some msg) }

def Mail.queue (caller : Fin n) (dst : Endpoint) (content : Content n α) : Mail n α :=
  { m with pend := update m.pend caller (some (dst, content)) }

def Mail.take (caller sender : Fin n) (msg : Message n α) : Mail n α :=
  { m with pend := update m.pend sender none, inbox := update m.inbox caller (some msg) }

def Mail.block (caller : Fin n) (src : Endpoint) : Mail n α :=
  { m with await := update m.await caller (some src) }

def Mail.read (p : Fin n) : Mail n α :=
  { m with
    inbox := update m.inbox p none
    got := update m.got p (m.got p ++ (m.inbox p).toList) }

def Mail.drop (p : Fin n) : Mail n α :=
  { m with pend := update m.pend p none, await := update m.await p none }

end

theorem pend_eq_none {p : Proc n k α} : p.pend = none ↔ .sending ∉ p.rts := by simp [Proc.pend]

theorem await_eq_none {p : Proc n k α} : p.await = none ↔ .receiving ∉ p.rts := by
  simp [Proc.await]

theorem await_eq_some {p : Proc n k α} {e : Endpoint} :
    p.await = some e ↔ .receiving ∈ p.rts ∧ p.getfrom = e := by
  simp [Proc.await]

theorem inbox_eq_none {p : Proc n k α} : p.inbox = none ↔ .delivermsg ∉ p.misc := by
  simp [Proc.inbox]

theorem Alike.mail (alike : Alike K K') : K'.mail = K.mail := by
  refine Mail.ext (funext fun p => ?_) (funext fun p => ?_) (funext fun p => ?_)
    (funext fun p => alike.field p Proc.got fun _ _ _ => rfl)
  · simp only [State.mail, Proc.pend, alike.flag p (by decide : Rts.sending ≠ .preempted),
      alike.field p Proc.sendto fun _ _ _ => rfl, alike.field p Proc.sendmsg fun _ _ _ => rfl]
  · simp only [State.mail, Proc.await, alike.flag p (by decide : Rts.receiving ≠ .preempted),
      alike.field p Proc.getfrom fun _ _ _ => rfl]
  · simp only [State.mail, Proc.inbox, alike.field p Proc.misc fun _ _ _ => rfl,
      alike.field p Proc.delivermsg fun _ _ _ => rfl]

theorem mail_of_others {d : Fin n} (others : ∀ p ≠ d, K'.proc p = K.proc p) :
    K'.mail = { pend := update K.mail.pend d (K'.proc d).pend
                await := update K.mail.await d (K'.proc d).await
                inbox := update K.mail.inbox d (K'.proc d).inbox
                got := update K.mail.got d (K'.proc d).got } := by
  have pointwise : ∀ {β : Type} (field : Proc n k α → β),
      (fun p => field (K'.proc p)) = update (fun p => field (K.proc p)) d (field (K'.proc d)) := by
    intro β field
    funext p
    by_cases same : p = d
    · rw [same, update_self]
    · rw [update_of_ne same, others p same]
  exact Mail.ext (pointwise Proc.pend) (pointwise Proc.await) (pointwise Proc.inbox)
    (pointwise Proc.got)

/-! ## A kernel in order -/

theorem RunOk.congr {ready : Nat → List (Fin n)} (ok : RunOk cfg K ready)
    (same : ∀ p, (K'.proc p).rts = (K.proc p).rts ∧ (K'.proc p).priority = (K.proc p).priority ∧
      (K'.proc p).nextready = (K.proc p).nextready)
    (heads : K'.rdyHead = K.rdyHead) (tails : K'.rdyTail = K.rdyTail) : RunOk cfg K' ready := by
  have nextready : K'.nextready = K.nextready := funext fun p => (same p).2.2
  refine ⟨⟨?_, ?_, fun q p member => ?_⟩, fun p => ?_, fun p => ?_⟩
  · rw [nextready, heads]
    exact ok.chain
  · rw [tails]
    exact ok.tail
  · rw [(same p).2.1]
    exact ok.level q p member
  · rw [(same p).2.1, Proc.Runnable, (same p).1]
    exact ok.mem p
  · rw [(same p).2.1, Proc.Runnable, (same p).1]
    exact ok.bound p

/-- The running process is the best of those that could run, unless it may not be preempted or
already is. -/
def State.Best (K : State n k α) : Prop :=
  (K.priv (K.proc K.procPtr).priv).preemptible = true →
    .preempted ∈ (K.proc K.procPtr).rts ∨
      ∀ p, (K.proc p).Runnable → (K.proc K.procPtr).priority ≤ (K.proc p).priority

/-- The queues; `Fair` if no process was given another priority while it ran. -/
structure Queues (cfg : Config n k α) (Fair : Prop) (K : State n k α) : Prop where
  ready : ∃ ready, RunOk cfg K ready
  best : Fair → K.Best

variable {Fair : Prop}

theorem State.Best.mono (best : K.Best) (rts : ∀ p, (K.proc p).rts ⊆ (K'.proc p).rts)
    (same : ∀ p, (K'.proc p).priority = (K.proc p).priority ∧ (K'.proc p).priv = (K.proc p).priv)
    (preemptible : ∀ i, (K'.priv i).preemptible = (K.priv i).preemptible)
    (current : K'.procPtr = K.procPtr) : K'.Best := by
  intro isPreemptible
  rw [current, (same _).2, preemptible] at isPreemptible
  rw [current, (same _).1]
  refine (best isPreemptible).imp (rts _ ·) fun least p runnable => ?_
  rw [(same p).1]
  exact least p (Finset.subset_empty.mp (runnable ▸ rts p))

theorem Queues.congr (queues : Queues cfg Fair K)
    (same : ∀ p, (K'.proc p).rts = (K.proc p).rts ∧ (K'.proc p).priority = (K.proc p).priority ∧
      (K'.proc p).nextready = (K.proc p).nextready ∧ (K'.proc p).priv = (K.proc p).priv)
    (heads : K'.rdyHead = K.rdyHead) (tails : K'.rdyTail = K.rdyTail)
    (preemptible : ∀ i, (K'.priv i).preemptible = (K.priv i).preemptible)
    (current : K'.procPtr = K.procPtr) : Queues cfg Fair K' := by
  obtain ⟨ready, ok⟩ := queues.ready
  refine ⟨⟨ready, ok.congr (fun p => ?_) heads tails⟩, fun fair => ?_⟩
  · exact ⟨(same p).1, (same p).2.1, (same p).2.2.1⟩
  · exact (queues.best fair).mono (fun p => (same p).1.ge)
      (fun p => ⟨(same p).2.1, (same p).2.2.2⟩) preemptible current

theorem Queues.modify (queues : Queues cfg Fair K) (x : Fin n) {g : Proc n k α → Proc n k α}
    (same : ∀ p, (g p).rts = p.rts ∧ (g p).priority = p.priority ∧
      (g p).nextready = p.nextready ∧ (g p).priv = p.priv) : Queues cfg Fair (K.modify x g) := by
  refine queues.congr (fun p => ?_) rfl rfl (fun _ => rfl) rfl
  rw [modify_apply]
  split
  · next isX => exact isX ▸ same _
  · exact ⟨rfl, rfl, rfl, rfl⟩

theorem Requeued.best (same : Requeued K K') (best : K.Best) : K'.Best :=
  best.mono (fun p => (same.rts p).ge)
    (fun p => ⟨same.priority p, same.field p Proc.priv fun _ _ => rfl⟩)
    (fun i => by rw [same.priv]) same.procPtr

theorem Queues.rtsSet (queues : Queues cfg Fair K) (rp : Fin n) (f : Finset Rts) :
    ∃ K', rtsSet cfg K rp f = .ok K' ∧ Queues cfg Fair K' ∧ Alike (K.setFlags rp f) K' := by
  obtain ⟨ready, ok⟩ := queues.ready
  obtain ⟨K', ready', isOk, ok', same⟩ := rtsSet_spec ok rp f
  refine ⟨K', isOk, ⟨⟨ready', ok'⟩, fun fair => same.best ?_⟩, same.alike⟩
  refine (queues.best fair).mono (fun p => ?_) (fun p => ?_) (fun _ => rfl) rfl
  all_goals
    rw [State.setFlags, modify_apply]
    split
  · next isRp => exact isRp ▸ Finset.subset_union_left
  · exact subset_rfl
  · next isRp => exact isRp ▸ ⟨rfl, rfl⟩
  · exact ⟨rfl, rfl⟩

theorem Queues.rtsUnset (queues : Queues cfg Fair K) (rp : Fin n) {f : Finset Rts}
    (other : .preempted ∉ f)
    (bound : ((K.clearFlags rp f).proc rp).Runnable → (K.proc rp).priority < cfg.queues) :
    ∃ K', rtsUnset cfg K rp f = .ok K' ∧ Queues cfg Fair K' ∧ Alike (K.clearFlags rp f) K' := by
  obtain ⟨ready, ok⟩ := queues.ready
  obtain ⟨K', ready', isOk, ok', same⟩ := rtsUnset_spec ok rp f fun _ => bound
  have priority : ∀ p, ((K.clearFlags rp f).proc p).priority = (K.proc p).priority := fun p => by
    rw [State.clearFlags, modify_apply]
    split
    · next isRp => rw [isRp]
    · rfl
  have privOf : ((K.clearFlags rp f).proc K.procPtr).priv = (K.proc K.procPtr).priv := by
    rw [State.clearFlags, modify_apply]
    split
    · next isRp => rw [isRp]
    · rfl
  have keepsMark : .preempted ∈ (K.proc K.procPtr).rts →
      .preempted ∈ ((K.clearFlags rp f).proc K.procPtr).rts := fun mark => by
    rw [State.clearFlags, modify_apply]
    split
    · next isRp => exact Finset.mem_sdiff.mpr ⟨isRp ▸ mark, other⟩
    · exact mark
  -- it is enough to look at `rp`, since the others were ready before
  have best : ∀ fair : Fair, ((K.priv (K.proc K.procPtr).priv).preemptible = true →
      ((K.clearFlags rp f).proc rp).Runnable → (K.proc K.procPtr).priority ≤ (K.proc rp).priority ∨
        .preempted ∈ (K.proc K.procPtr).rts) → (K.clearFlags rp f).Best := by
    intro fair here preemptible
    change (K.priv ((K.clearFlags rp f).proc K.procPtr).priv).preemptible = true at preemptible
    change .preempted ∈ ((K.clearFlags rp f).proc K.procPtr).rts ∨ ∀ p, _ →
      ((K.clearFlags rp f).proc K.procPtr).priority ≤ _
    rw [privOf] at preemptible
    rw [priority]
    by_cases mark : .preempted ∈ (K.proc K.procPtr).rts
    · exact .inl (keepsMark mark)
    · refine .inr fun p runnable => ?_
      rw [priority]
      by_cases isRp : p = rp
      · subst isRp
        exact (here preemptible runnable).resolve_right mark
      · rw [State.clearFlags, modify_of_ne K _ isRp] at runnable
        exact (queues.best fair preemptible).resolve_left mark p runnable
  refine ⟨K', isOk, ⟨⟨ready', ok'⟩, fun fair => same.best ?_⟩, ?_⟩
  · split
    · unfold State.marked
      split
      · refine fun _ => .inl ?_
        change .preempted ∈ (((K.clearFlags rp f).modify K.procPtr _).proc K.procPtr).rts
        rw [modify_self]
        exact Finset.mem_union_right _ (Finset.mem_singleton_self _)
      · next worse =>
          refine best fair fun preemptible _ => .inl ?_
          rw [priority] at worse
          change ¬ ((K.clearFlags rp f |>.proc K.procPtr).priority > _ ∧
            (K.priv ((K.clearFlags rp f).proc K.procPtr).priv).preemptible = true) at worse
          rw [priority, privOf] at worse
          exact Nat.le_of_not_lt fun better => worse ⟨better, preemptible⟩
    · next keeps =>
        refine best fair fun preemptible runnable => ?_
        have before : (K.proc rp).Runnable := by_contra fun stopped => keeps ⟨stopped, runnable⟩
        exact (queues.best fair preemptible).symm.imp (fun least => least rp before) id
  · split at same
    · exact (marked_alike _ rp).trans same.alike
    · exact same.alike

/-- Nobody waits to send to a process that waits to receive from it. -/
def Met (K : State n k α) (callers : Fin n → List (Fin n)) : Prop :=
  ∀ d, ∀ p ∈ callers d, ¬ (K.proc d).WillReceive (K.proc p).endpoint

/-- The table and the calls; `Clean` if no process was ended that several were sending to. -/
structure Calm (cfg : Config n k α) (Clean : Prop) (K : State n k α)
    (callers : Fin n → List (Fin n)) : Prop where
  table : Table cfg K
  ipc : IpcOk K.Live K callers
  met : Met K callers
  clean : Clean → ∀ p, K.qLink p ≠ none → .sending ∈ (K.proc p).rts ∨ .noEndpoint ∈ (K.proc p).rts
  current : .slotFree ∉ (K.proc K.procPtr).rts

structure Ok (cfg : Config n k α) (Fair Clean : Prop) (K : State n k α)
    (callers : Fin n → List (Fin n)) : Prop extends Queues cfg Fair K, Calm cfg Clean K callers

variable {Clean : Prop}

theorem IpcOk.mono {There There' : Fin n → Prop} (ok : IpcOk There K callers)
    (more : ∀ p, There p → There' p) : IpcOk There' K callers where
  slot := ok.slot
  chain := ok.chain
  queued := ok.queued
  target p sends := by
    obtain ⟨there, d, isTarget, thereD⟩ := ok.target p sends
    exact ⟨more p there, d, isTarget, more d thereD⟩
  source p receives := by
    obtain ⟨there, noMessage, source⟩ := ok.source p receives
    refine ⟨more p there, noMessage, source.imp_right ?_⟩
    rintro ⟨d, isSource, thereD⟩
    exact ⟨d, isSource, more d thereD⟩
  both := ok.both
  ends := ok.ends

theorem SameIpc.willReceive {p p' : Proc n k α} (same : SameIpc p p') (source : Endpoint) :
    p'.WillReceive source ↔ p.WillReceive source := by
  simp only [Proc.WillReceive, same.sending, same.receiving, same.getfrom]

theorem Calm.keep (calm : Calm cfg Clean K callers) (keeps : Keeps K K')
    (ipc : IpcOk K.Live K' callers') (met : Met K' callers')
    (clean : Clean → ∀ p, K'.qLink p ≠ none →
      .sending ∈ (K'.proc p).rts ∨ .noEndpoint ∈ (K.proc p).rts) :
    Calm cfg Clean K' callers' where
  table := calm.table.keep keeps
  ipc := ipc.mono fun p => (keeps.live p).mpr
  met := met
  clean isClean p linked := by
    rw [keeps.rts p _ (by decide : Rts.noEndpoint ∉ ipcFlags)]
    exact clean isClean p linked
  current := by
    rw [keeps.slotFree, keeps.procPtr]
    exact calm.current

theorem Calm.same (calm : Calm cfg Clean K callers) (keeps : Keeps K K')
    (same : ∀ p, SameIpc (K.proc p) (K'.proc p)) : Calm cfg Clean K' callers := by
  refine calm.keep keeps (calm.ipc.congr same) (fun d p queued => ?_) fun clean p linked => ?_
  · rw [(same d).willReceive, (same p).endpoint]
    exact calm.met d p queued
  · rw [(same p).sending]
    refine calm.clean clean p ?_
    rwa [State.qLink, (same p).qLink] at linked

theorem Calm.alike (calm : Calm cfg Clean K callers) (alike : Alike K K') :
    Calm cfg Clean K' callers :=
  calm.same (alike.keeps calm.current) alike.sameIpc

theorem Table.user (table : Table cfg K) {p : Fin n} (clear : .procStop ∉ (K.proc p).rts)
    (used : .slotFree ∉ (K.proc p).rts) : cfg.kernelTask p = false := by
  cases isTask : cfg.kernelTask p with
  | false => rfl
  | true => exact (table.task p isTask).elim (absurd · clear) (absurd · used)

theorem Table.bound (table : Table cfg K) {p : Fin n} {f : Finset Rts} (stop : .procStop ∉ f)
    (free : .slotFree ∉ f) (runnable : ((K.clearFlags p f).proc p).Runnable) :
    (K.proc p).priority < cfg.queues := by
  rw [State.clearFlags, modify_self] at runnable
  have runnable : (K.proc p).rts \ f = ∅ := runnable
  have absent : ∀ x ∉ f, x ∉ (K.proc p).rts := fun x other member => by
    have left := Finset.mem_sdiff.mpr ⟨member, other⟩
    rw [runnable] at left
    exact absurd left (Finset.notMem_empty x)
  exact table.level p (table.user (absent _ stop) (absent _ free))

end Csc457.Kernel
