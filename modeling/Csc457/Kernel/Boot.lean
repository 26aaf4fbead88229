import Csc457.Kernel.Debug
import Csc457.Kernel.Dispatch

/-!
# The start

main.c: every slot of the table is free at first.  The processes of the boot image are given
their flags one after the other, and only the root system process is ready when the kernel is
left for the first time.  The privileges that are set by kernel calls are there from the start,
but for the masks of those that may be sent to.
-/

set_option autoImplicit false

namespace Csc457.Kernel

open Function
open Csc457.Lib.LinkedQueue

variable {n k : Nat} {α : Type} {cfg : Config n k α}

structure BootImage (n : Nat) where
  procNr : Fin n
  /-- PROC_FULLVM -/
  fullVm : Bool

structure Image (cfg : Config n k α) where
  entries : List (BootImage n)
  distinct : (entries.map BootImage.procNr).Nodup
  idle : cfg.idle ∈ entries.map BootImage.procNr
  rootsys : Fin n
  rootsys_user : cfg.kernelTask rootsys = false
  /-- SRV_Q and SRV_QT -/
  srvQ : Nat
  srvQ_lt : srvQ < cfg.queues
  srvQt : Nat
  srvQt_ne : srvQt ≠ 0
  queues_pos : 0 < cfg.queues
  privOf : Fin n → Fin k
  privs : Fin k → Priv n k
  nothing : ∀ i id, (privs i).notifyPending id = false
  /-- TSK_M and SRV_M -/
  tskM : Nat
  srvM : Nat
  silent : ∀ i id, (privs i).ipcTo id = false
  associated : ∀ p, cfg.kernelTask p = true ∨ p = rootsys → (privs (privOf p)).procNr ≠ none
  notifiers : ∀ i, (privs i).trapMask .notify = true → (privs i).procNr ≠ none

variable (image : Image cfg)

/-- A slot that main has cleared, but for its privileges: main gives them to the kernel tasks and
to the root system process only, and the others have no p_priv until they are given one. -/
def freeSlot (p : Fin n) : Proc n k α where
  priv := image.privOf p
  rts := {Rts.slotFree}
  misc := ∅
  priority := 0
  cpuTimeLeft := 0
  quantumSize := 0
  scheduler := none
  nextready := none
  callerQ := none
  qLink := none
  getfrom := .none
  sendto := .none
  endpoint := .of p 0
  sendmsg := .schedulingNoQuantum
  delivermsg := ⟨.none, .schedulingNoQuantum⟩
  got := []
  retreg := .ok

/-- Scheduling depends on a current process, which is the first of the image. -/
def blank : State n k α where
  proc p := freeSlot image p
  priv := image.privs
  rdyHead _ := none
  rdyTail _ := none
  procPtr := (image.entries.head?.map BootImage.procNr).getD cfg.idle

def bootMask (K : State n k α) (rp : Fin n) : State n k α :=
  if cfg.kernelTask rp = true then K.fillMask rp image.tskM
  else if rp = image.rootsys then K.fillMask rp image.srvM
  else K

/-- Who may run at once: the kernel tasks, which are stopped below, and the root system process. -/
def bootSchedulable (K : State n k α) (rp : Fin n) : Run (State n k α) :=
  if cfg.kernelTask rp = true then .ok K
  else if rp = image.rootsys then
    .ok (K.modify rp fun p => { p with priority := image.srvQ, quantumSize := image.srvQt })
  else rtsSet cfg K rp {Rts.noPriv, Rts.noQuantum}

def rtsSetIf (cfg : Config n k α) (c : Bool) (K : State n k α) (rp : Fin n) (f : Finset Rts) :
    Run (State n k α) :=
  if c = true then rtsSet cfg K rp f else .ok K

def bootProc (K : State n k α) (ip : BootImage n) : Run (State n k α) := do
  let rp := ip.procNr
  let K := bootMask image K rp
  let K ← bootSchedulable image K rp
  let K ← rtsSetIf cfg ip.fullVm K rp {Rts.vminhibit}
  -- none of the kernel tasks run
  let K ← rtsSetIf cfg (cfg.kernelTask rp) K rp {Rts.procStop}
  rtsUnset cfg K rp {Rts.slotFree}

def boot : Run (State n k α) := do
  let K ← image.entries.foldlM (bootProc image) (blank image)
  ensure .assertion (runqueuesOk cfg K = true)
  switchToUser cfg (n + 1) K

/-! ## What it leaves -/

variable {image} {K K' : State n k α} {ip : BootImage n}

theorem rtsSet_stopped {rp : Fin n} {f : Finset Rts} (stopped : ¬ (K.proc rp).Runnable) :
    rtsSet cfg K rp f = .ok (K.setFlags rp f) := by
  rw [rtsSet, if_neg fun starts => stopped starts.1]

theorem not_runnable_of_mem {p : Proc n k α} {f : Rts} (member : f ∈ p.rts) : ¬ p.Runnable := by
  intro runnable
  rw [runnable] at member
  cases member

theorem rtsSetIf_free {rp : Fin n} (free : .slotFree ∈ (K.proc rp).rts) (c : Bool)
    (f : Finset Rts) :
    rtsSetIf cfg c K rp f = .ok (K.setFlags rp (if c = true then f else ∅)) := by
  unfold rtsSetIf
  split
  · exact rtsSet_stopped (not_runnable_of_mem free)
  · rw [State.setFlags, State.modify]
    simp

def bootFlags (cfg : Config n k α) (image : Image cfg) (ip : BootImage n) : Finset Rts :=
  (if cfg.kernelTask ip.procNr = true ∨ ip.procNr = image.rootsys then ∅
    else {Rts.noPriv, Rts.noQuantum}) ∪
  (if ip.fullVm = true then {Rts.vminhibit} else ∅) ∪
  if cfg.kernelTask ip.procNr = true then {Rts.procStop} else ∅

def bootMark (cfg : Config n k α) (image : Image cfg) (ip : BootImage n) (p : Proc n k α) :
    Proc n k α :=
  { p with
    rts := p.rts ∪ bootFlags cfg image ip
    priority := if ip.procNr = image.rootsys then image.srvQ else p.priority
    quantumSize := if ip.procNr = image.rootsys then image.srvQt else p.quantumSize }

theorem bootMask_same (image : Image cfg) (K : State n k α) (rp : Fin n) :
    ∃ priv, bootMask image K rp = { K with priv := priv } := by
  unfold bootMask State.fillMask
  split
  · exact ⟨_, rfl⟩
  · split <;> exact ⟨_, rfl⟩

theorem bootSchedulable_free (free : .slotFree ∈ (K.proc ip.procNr).rts) :
    bootSchedulable image K ip.procNr = .ok (K.modify ip.procNr fun p => { p with
      rts := p.rts ∪ if cfg.kernelTask ip.procNr = true ∨ ip.procNr = image.rootsys then ∅
        else {Rts.noPriv, Rts.noQuantum}
      priority := if ip.procNr = image.rootsys then image.srvQ else p.priority
      quantumSize := if ip.procNr = image.rootsys then image.srvQt else p.quantumSize }) := by
  unfold bootSchedulable
  by_cases isTask : cfg.kernelTask ip.procNr = true
  · have notRoot : ip.procNr ≠ image.rootsys := fun same => by
      rw [same, image.rootsys_user] at isTask
      cases isTask
    simp [isTask, notRoot, State.modify]
  · by_cases isRoot : ip.procNr = image.rootsys
    · simp [isRoot, image.rootsys_user]
    · simp only [isTask, isRoot, if_false]
      exact rtsSet_stopped (not_runnable_of_mem free)

theorem bootProc_eq (free : .slotFree ∈ (K.proc ip.procNr).rts) :
    bootProc image K ip = rtsUnset cfg ((bootMask image K ip.procNr).modify ip.procNr
      (bootMark cfg image ip)) ip.procNr {Rts.slotFree} := by
  obtain ⟨priv, same⟩ := bootMask_same image K ip.procNr
  have free : .slotFree ∈ ((bootMask image K ip.procNr).proc ip.procNr).rts := same ▸ free
  unfold bootProc
  dsimp only
  generalize bootMask image K ip.procNr = K at *
  rw [bootSchedulable_free free]
  change (rtsSetIf cfg ip.fullVm _ _ _ >>= _) = _
  rw [rtsSetIf_free (by rw [modify_self]; exact Finset.mem_union_left _ free)]
  change (rtsSetIf cfg _ _ _ _ >>= _) = _
  rw [rtsSetIf_free (by
    rw [State.setFlags, modify_self, modify_self]
    exact Finset.mem_union_left _ (Finset.mem_union_left _ free))]
  change rtsUnset cfg _ _ _ = _
  rw [State.setFlags, State.setFlags, modify_modify, modify_modify]
  congr 2
  funext p
  simp only [bootMark, bootFlags, Finset.union_assoc]

/-- After the turns for the processes in `done`. -/
structure Booting (image : Image cfg) (done : List (Fin n)) (K : State n k α) : Prop where
  ready : ∃ ready, RunOk cfg K ready
  slot : ∀ p, ∃ next rts level quantum, K.proc p = { freeSlot image p with
    nextready := next, rts := rts, priority := level, quantumSize := quantum }
  level : ∀ p, (K.proc p).priority < cfg.queues
  least : ∀ p ≠ image.rootsys, (K.proc p).priority = 0
  free : ∀ p ∉ done, (K.proc p).rts = {Rts.slotFree}
  used : ∀ p ∈ done, ∀ f ∈ callFlags, f ∉ (K.proc p).rts
  task : ∀ p ∈ done, cfg.kernelTask p = true → .procStop ∈ (K.proc p).rts
  quantum : ∀ p ∈ done, cfg.kernelTask p = false → .noQuantum ∉ (K.proc p).rts →
    p = image.rootsys ∧ (K.proc p).quantumSize ≠ 0
  priv : Remasked image.privs K.priv
  masks : Masks K.priv
  procPtr : K.procPtr = (blank (α := α) image).procPtr

theorem blank_booting : Booting image [] (blank image : State n k α) where
  ready := by
    refine ⟨fun _ => [], ⟨fun _ => .nil, fun _ => rfl, nofun⟩, fun p => ?_, fun p runnable => ?_⟩
    · exact iff_of_false List.not_mem_nil (not_runnable_of_mem (Finset.mem_singleton_self _))
    · exact absurd runnable (not_runnable_of_mem (Finset.mem_singleton_self _))
  slot p := ⟨_, _, _, _, rfl⟩
  level _ := image.queues_pos
  least _ _ := rfl
  free _ _ := rfl
  used := nofun
  task := nofun
  quantum := nofun
  priv := .refl _
  masks := by
    have nobody : ∀ i j, (image.privs i).ipcTo j = true → False := fun i j sends => by
      rw [image.silent] at sends
      cases sends
    exact ⟨fun i => image.silent i i, fun i j sends => (nobody i j sends).elim,
      fun i j sends => (nobody i j sends).elim⟩
  procPtr := rfl

theorem Booting.runs {done : List (Fin n)} (booting : Booting image done K) {p : Fin n}
    (runnable : (K.proc p).Runnable) : p = image.rootsys := by
  have none : ∀ f, f ∉ (K.proc p).rts := fun f member => not_runnable_of_mem member runnable
  have isDone : p ∈ done := by_contra fun other =>
    none .slotFree (by rw [booting.free p other]; exact Finset.mem_singleton_self _)
  have user : cfg.kernelTask p = false := Bool.eq_false_iff.mpr fun isTask =>
    none _ (booting.task p isDone isTask)
  exact (booting.quantum p isDone user (none _)).1

def bootDone (cfg : Config n k α) (image : Image cfg) (ip : BootImage n) (p : Proc n k α) :
    Proc n k α :=
  { bootMark cfg image ip p with rts := bootFlags cfg image ip }

theorem bootFlags_call {f : Rts} (call : f ∈ callFlags) : f ∉ bootFlags cfg image ip := by
  have sub : bootFlags cfg image ip ⊆
      {Rts.noPriv, Rts.noQuantum, Rts.vminhibit, Rts.procStop} := by
    refine Finset.union_subset (Finset.union_subset ?_ ?_) ?_
    all_goals split <;> decide
  have absent : Disjoint callFlags {Rts.noPriv, Rts.noQuantum, Rts.vminhibit, Rts.procStop} := by
    decide
  exact fun member => Finset.disjoint_left.mp absent call (sub member)

theorem bootDone_runs {p : Proc n k α} (runnable : (bootDone cfg image ip p).Runnable) :
    ip.procNr = image.rootsys := by
  by_contra notRoot
  have empty : bootFlags cfg image ip = ∅ := runnable
  by_cases isTask : cfg.kernelTask ip.procNr = true
  · simp [bootFlags, isTask] at empty
  · simp [bootFlags, isTask, notRoot] at empty

theorem Booting.privs {done : List (Fin n)} (booting : Booting image done K)
    {priv : Fin k → Priv n k} (same : Remasked image.privs priv) (masks : Masks priv) :
    Booting image done { K with priv := priv } := by
  obtain ⟨ready, run⟩ := booting.ready
  exact { booting with
    ready := ⟨ready, run.congr (fun _ => ⟨rfl, rfl, rfl⟩) rfl rfl⟩
    priv := same
    masks := masks }

theorem Booting.mask {done : List (Fin n)} (booting : Booting image done K) (rp : Fin n) :
    Booting image done (bootMask image K rp) := by
  have fills : ∀ mask, cfg.kernelTask rp = true ∨ rp = image.rootsys →
      Booting image done (K.fillMask rp mask) := fun mask isBoot => by
    have there : (K.priv (K.proc rp).priv).procNr ≠ none := by
      obtain ⟨next, rts, level, quantum, slot⟩ := booting.slot rp
      rw [booting.priv.procNr, slot]
      exact image.associated rp isBoot
    exact booting.privs (booting.priv.trans (fillSendtoMask_remasked _ _ _))
      (booting.masks.fill there mask)
  unfold bootMask
  split
  · next isTask => exact fills _ (.inl isTask)
  · split
    · next isRoot => exact fills _ (.inr isRoot)
    · exact booting

theorem bootProc_spec {done : List (Fin n)} (booting : Booting image done K)
    (other : ip.procNr ∉ done) :
    ∃ K', bootProc image K ip = .ok K' ∧ Booting image (ip.procNr :: done) K' := by
  have isFree : .slotFree ∈ (K.proc ip.procNr).rts :=
    booting.free _ other ▸ Finset.mem_singleton_self _
  have isBoot : bootProc image K ip = _ := bootProc_eq isFree
  have booting := booting.mask ip.procNr
  generalize bootMask image K ip.procNr = K at booting isBoot
  have free := booting.free _ other
  have isFree : .slotFree ∈ (K.proc ip.procNr).rts := free ▸ Finset.mem_singleton_self _
  obtain ⟨ready, run⟩ := booting.ready
  have run₁ : RunOk cfg (K.modify ip.procNr (bootMark cfg image ip)) ready :=
    run.modify_stopped (not_runnable_of_mem isFree) (fun _ => rfl)
      (not_runnable_of_mem (Finset.mem_union_left _ isFree))
  have level : (bootMark cfg image ip (K.proc ip.procNr)).priority < cfg.queues := by
    change (if _ then _ else _) < _
    split
    · exact image.srvQ_lt
    · exact booting.level _
  obtain ⟨K', ready', isOk, run', same⟩ := rtsUnset_spec run₁ ip.procNr {Rts.slotFree}
    fun _ _ => by rwa [modify_self]
  have cleared : (K.modify ip.procNr (bootMark cfg image ip)).clearFlags ip.procNr {Rts.slotFree} =
      K.modify ip.procNr (bootDone cfg image ip) := by
    rw [State.clearFlags, modify_modify, State.modify, State.modify]
    have rts : ((K.proc ip.procNr).rts ∪ bootFlags cfg image ip) \ {Rts.slotFree} =
        bootFlags cfg image ip := by
      rw [free, Finset.union_sdiff_left]
      refine Finset.sdiff_eq_self_of_disjoint (Finset.disjoint_singleton_right.mpr ?_)
      exact bootFlags_call (by decide)
    simp only [bootDone, bootMark, rts]
  rw [cleared] at same
  -- nobody runs yet who could be preempted
  have unmarked : ((K.modify ip.procNr (bootDone cfg image ip)).proc ip.procNr).Runnable →
      (K.modify ip.procNr (bootDone cfg image ip)).marked ip.procNr =
        K.modify ip.procNr (bootDone cfg image ip) := by
    intro runnable
    have isRoot := bootDone_runs (by rwa [modify_self] at runnable)
    refine if_neg fun better => ?_
    by_cases isCurrent : K.procPtr = ip.procNr
    · rw [modify_procPtr, isCurrent] at better
      exact lt_irrefl _ better.1
    · rw [modify_procPtr, modify_of_ne K _ isCurrent, booting.least _ (isRoot ▸ isCurrent)] at better
      exact Nat.not_lt_zero _ better.1
  have same : Requeued (K.modify ip.procNr (bootDone cfg image ip)) K' := by
    split at same
    · next starts => rwa [unmarked starts.2] at same
    · exact same
  have others : ∀ p ≠ ip.procNr, ∃ next, K'.proc p = { K.proc p with nextready := next } := by
    intro p notIp
    obtain ⟨next, here⟩ := same.proc p
    exact ⟨next, by rw [here, modify_of_ne K _ notIp]⟩
  obtain ⟨next, here⟩ := same.proc ip.procNr
  rw [modify_self] at here
  have was : ∀ p ∈ ip.procNr :: done, p ≠ ip.procNr → p ∈ done := fun p isDone notIp =>
    (List.mem_cons.mp isDone).resolve_left notIp
  refine ⟨K', isBoot.trans isOk, ⟨ready', run'⟩, fun p => ?_, fun p => ?_,
    fun p notRoot => ?_, fun p notDone => ?_, fun p isDone f call => ?_, fun p isDone isTask => ?_,
    fun p isDone user flag => ?_, same.priv ▸ booting.priv,
    same.priv ▸ booting.masks, same.procPtr.trans booting.procPtr⟩
  all_goals
    by_cases isIp : p = ip.procNr
  · subst isIp
    obtain ⟨next', rts, level, quantum, slot⟩ := booting.slot ip.procNr
    exact ⟨_, _, _, _, by rw [here, slot]; rfl⟩
  · obtain ⟨next', other⟩ := others p isIp
    obtain ⟨next', rts, level, quantum, slot⟩ := booting.slot p
    exact ⟨_, _, _, _, by rw [other, slot]⟩
  · subst isIp
    rwa [here]
  · obtain ⟨next', other⟩ := others p isIp
    rw [other]
    exact booting.level p
  · subst isIp
    rw [here]
    exact (if_neg notRoot).trans (booting.least _ notRoot)
  · obtain ⟨next', other⟩ := others p isIp
    rw [other]
    exact booting.least p notRoot
  · exact absurd (isIp ▸ List.mem_cons_self) notDone
  · obtain ⟨next', other⟩ := others p isIp
    rw [other]
    exact booting.free p fun isDone => notDone (List.mem_cons_of_mem _ isDone)
  · subst isIp
    rw [here]
    exact bootFlags_call call
  · obtain ⟨next', other⟩ := others p isIp
    rw [other]
    exact booting.used p (was p isDone isIp) f call
  · subst isIp
    rw [here]
    exact Finset.mem_union_right _ (by rw [if_pos isTask]; exact Finset.mem_singleton_self _)
  · obtain ⟨next', other⟩ := others p isIp
    rw [other]
    exact booting.task p (was p isDone isIp) isTask
  · subst isIp
    rw [here] at flag ⊢
    have isRoot : ip.procNr = image.rootsys := by
      by_contra notRoot
      refine flag (Finset.mem_union_left _ (Finset.mem_union_left _ ?_))
      rw [if_neg (by simp [user, notRoot])]
      decide
    have quantum : (bootDone cfg image ip (K.proc ip.procNr)).quantumSize = image.srvQt :=
      if_pos isRoot
    refine ⟨isRoot, ?_⟩
    change (bootDone cfg image ip (K.proc ip.procNr)).quantumSize ≠ 0
    rw [quantum]
    exact image.srvQt_ne
  · obtain ⟨next', other⟩ := others p isIp
    rw [other] at flag ⊢
    exact booting.quantum p (was p isDone isIp) user flag

theorem Booting.field {done : List (Fin n)} (booting : Booting image done K) (p : Fin n) {β : Type}
    (field : Proc n k α → β) (same : ∀ (p : Proc n k α) next rts level quantum, field { p with
      nextready := next, rts := rts, priority := level, quantumSize := quantum } = field p) :
    field (K.proc p) = field (freeSlot image p) := by
  obtain ⟨next, rts, level, quantum, slot⟩ := booting.slot p
  rw [slot, same]

theorem Booting.silent {done : List (Fin n)} (booting : Booting image done K) (p : Fin n) :
    .sending ∉ (K.proc p).rts ∧ .receiving ∉ (K.proc p).rts := by
  by_cases isDone : p ∈ done
  · exact ⟨booting.used p isDone _ (by decide), booting.used p isDone _ (by decide)⟩
  · rw [booting.free p isDone]
    decide

theorem Booting.done_iff {done : List (Fin n)} (booting : Booting image done K) {p : Fin n} :
    p ∈ done ↔ .slotFree ∉ (K.proc p).rts := by
  refine ⟨fun isDone => booting.used p isDone _ (by decide), fun used => ?_⟩
  by_contra other
  exact used (by rw [booting.free p other]; exact Finset.mem_singleton_self _)

theorem Booting.table {done : List (Fin n)} (booting : Booting image done K)
    (idle : cfg.idle ∈ done) : Table cfg K where
  free p isFree := booting.free p fun isDone => booting.done_iff.mp isDone isFree
  task p isTask := by
    by_cases isDone : p ∈ done
    · exact .inl (booting.task p isDone isTask)
    · exact .inr (by rw [booting.free p isDone]; exact Finset.mem_singleton_self _)
  level p _ := booting.level p
  quantum p user used flag := (booting.quantum p (booting.done_iff.mpr used) user flag).2
  scheduler p s isScheduler := by
    rw [booting.field p Proc.scheduler fun _ _ _ _ _ => rfl] at isScheduler
    cases isScheduler
  idle := booting.done_iff.mp idle
  pending i id isSet := by
    rw [booting.priv.field i Priv.notifyPending fun _ _ => rfl, image.nothing] at isSet
    cases isSet
  notifiers i trap := by
    rw [booting.priv.field i Priv.trapMask fun _ _ => rfl] at trap
    rw [booting.priv.procNr]
    exact image.notifiers i trap
  masks := booting.masks

theorem Booting.ipc {done : List (Fin n)} (booting : Booting image done K) :
    IpcOk K.Live K fun _ => [] where
  slot p := ⟨0, booting.field p Proc.endpoint fun _ _ _ _ _ => rfl⟩
  chain d _ := by
    rw [booting.field d Proc.callerQ fun _ _ _ _ _ => rfl]
    exact .nil
  queued p d := iff_of_false List.not_mem_nil fun sends => (booting.silent p).1 sends.1
  target p sends := absurd sends (booting.silent p).1
  source p receives := absurd receives (booting.silent p).2
  both p sends := absurd sends (booting.silent p).1
  ends p := by
    have waits : K.waits p = none := by
      rw [State.waits, Proc.blockedOn, if_neg (booting.silent p).1, if_neg (booting.silent p).2]
      rfl
    exact ⟨[p], .cons (waits ▸ .nil)⟩

theorem Booting.best {done : List (Fin n)} (booting : Booting image done K) : K.Best := by
  refine fun _ => .inr fun p runnable => ?_
  rw [booting.runs runnable]
  by_cases isRoot : K.procPtr = image.rootsys
  · rw [isRoot]
  · rw [booting.least _ isRoot]
    exact Nat.zero_le _

theorem Booting.flow {done : List (Fin n)} (booting : Booting image done K) (p d : Fin n) :
    K.flow p d = [] := by
  have got : K.mail.got d = [] := booting.field d Proc.got fun _ _ _ _ _ => rfl
  have inbox : K.mail.inbox d = none := by
    refine inbox_eq_none.mpr ?_
    rw [booting.field d Proc.misc fun _ _ _ _ _ => rfl]
    exact Finset.notMem_empty _
  have pend : K.mail.pend p = none := pend_eq_none.mpr (booting.silent p).1
  rw [State.flow, Mail.flow, got, inbox, pend]
  rfl

theorem head_mem (image : Image cfg) :
    (blank (α := α) image).procPtr ∈ image.entries.map BootImage.procNr := by
  have idle := image.idle
  unfold blank
  cases entries : image.entries with
  | nil =>
      rw [entries] at idle
      cases idle
  | cons ip rest => exact List.mem_cons_self

theorem Booting.ok {Fair Clean : Prop} {done : List (Fin n)} (booting : Booting image done K)
    (all : ∀ p ∈ image.entries.map BootImage.procNr, p ∈ done) :
    Ok cfg Fair Clean K fun _ => [] where
  ready := booting.ready
  best _ := booting.best
  table := booting.table (all _ image.idle)
  ipc := booting.ipc
  met := nofun
  clean _ p linked := absurd (booting.field p Proc.qLink fun _ _ _ _ _ => rfl) linked
  current := by
    rw [booting.procPtr]
    exact booting.done_iff.mp (all _ (head_mem image))

theorem bootProcs_spec {done : List (Fin n)} (booting : Booting image done K)
    (entries : List (BootImage n)) (distinct : (entries.map BootImage.procNr).Nodup)
    (apart : ∀ p ∈ entries.map BootImage.procNr, p ∉ done) :
    ∃ K' done', entries.foldlM (bootProc image) K = .ok K' ∧ Booting image done' K' ∧
      ∀ p, p ∈ done' ↔ p ∈ done ∨ p ∈ entries.map BootImage.procNr := by
  induction entries generalizing K done with
  | nil => exact ⟨K, done, rfl, booting, by simp⟩
  | cons ip rest ih =>
      obtain ⟨K₁, isOk, booting₁⟩ := bootProc_spec booting (apart _ List.mem_cons_self)
      rw [List.map_cons, List.nodup_cons] at distinct
      obtain ⟨K', done', isOk', booting', members⟩ := ih booting₁ distinct.2 fun p member isDone => by
        obtain rfl | isDone := List.mem_cons.mp isDone
        · exact distinct.1 member
        · exact apart p (List.mem_cons_of_mem _ member) isDone
      refine ⟨K', done', ?_, booting', fun p => ?_⟩
      · rw [List.foldlM_cons]
        exact bind_ok.mpr ⟨K₁, isOk, isOk'⟩
      · rw [members, List.map_cons, List.mem_cons, List.mem_cons]
        tauto

theorem boot_spec {Fair Clean : Prop} (image : Image cfg) :
    Ends (SwitchHalts Clean) (boot image) fun K : State n k α =>
      Left cfg Fair Clean K ∧ ∀ p d, K.flow p d = [] := by
  obtain ⟨K, done, isOk, booting, members⟩ :=
    bootProcs_spec (blank_booting (α := α)) image.entries image.distinct fun _ _ => List.not_mem_nil
  have ok : Ok cfg Fair Clean K fun _ => [] := booting.ok fun p member => (members p).mpr (.inr member)
  unfold boot
  refine Ends.bind (Ends.of_eq isOk rfl : Ends _ _ (K = ·)) ?_
  rintro _ rfl
  obtain ⟨ready, run⟩ := ok.ready
  rw [ensure_bind run.checked]
  have enough : K.inTime.card < n + 1 := by
    have card := K.inTime.card_le_univ
    rw [Fintype.card_fin] at card
    omega
  refine (switchToUser_spec ok enough).mono (fun _ => id) fun K' left => ⟨left.1, fun p d => ?_⟩
  rw [left.2.flow, booting.flow]

end Csc457.Kernel
