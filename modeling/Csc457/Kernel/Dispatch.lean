import Csc457.Kernel.Ending
import Csc457.Kernel.Machine

/-!
# Who runs next

sched_proc, proc_no_time and switch_to_user in a kernel that is in order.  switch_to_user comes
back to a process that is ready and has time, or finds that none is ready: each process whose
time is over is taken out for its scheduler, and there are only so many.
-/

set_option autoImplicit false

namespace Csc457.Kernel

open Function
open Csc457.Lib.LinkedQueue

variable {n k : Nat} {α : Type} {cfg : Config n k α} {K K' K'' : State n k α}
  {callers callers' : Fin n → List (Fin n)} {Fair Clean : Prop}

def callFlags : Finset Rts := {.sending, .receiving, .noEndpoint, .slotFree}

/-- The calls stay as they are, and so does what was said. -/
structure Quiet (K K' : State n k α) : Prop where
  same : ∀ p, SameIpc (K.proc p) (K'.proc p)
  mail : K'.mail = K.mail
  procPtr : K'.procPtr = K.procPtr

theorem Quiet.refl (K : State n k α) : Quiet K K :=
  ⟨fun _ => ⟨.rfl, .rfl, .rfl, .rfl, .rfl, rfl, rfl, rfl, rfl, rfl⟩, rfl, rfl⟩

theorem SameIpc.trans {p p' p'' : Proc n k α} (first : SameIpc p p') (second : SameIpc p' p'') :
    SameIpc p p'' where
  sending := second.sending.trans first.sending
  receiving := second.receiving.trans first.receiving
  noEndpoint := second.noEndpoint.trans first.noEndpoint
  slotFree := second.slotFree.trans first.slotFree
  deliver := second.deliver.trans first.deliver
  getfrom := second.getfrom.trans first.getfrom
  sendto := second.sendto.trans first.sendto
  endpoint := second.endpoint.trans first.endpoint
  callerQ := second.callerQ.trans first.callerQ
  qLink := second.qLink.trans first.qLink

theorem Quiet.trans (first : Quiet K K') (second : Quiet K' K'') : Quiet K K'' :=
  ⟨fun p => (first.same p).trans (second.same p), second.mail.trans first.mail,
    second.procPtr.trans first.procPtr⟩

theorem Alike.quiet (alike : Alike K K') : Quiet K K' :=
  ⟨alike.sameIpc, alike.mail, alike.procPtr⟩

theorem Quiet.flow (quiet : Quiet K K') (p d : Fin n) : K'.flow p d = K.flow p d := by
  have names : K'.endpoints = K.endpoints := funext fun p => (quiet.same p).endpoint
  rw [State.flow, State.flow, quiet.mail, names]

theorem Quiet.calm (quiet : Quiet K K') (calm : Calm cfg Clean K callers) (table : Table cfg K') :
    Calm cfg Clean K' callers where
  table := table
  ipc := (calm.ipc.congr quiet.same).mono fun p live => by
    rwa [State.Live, (quiet.same p).noEndpoint, (quiet.same p).slotFree]
  met d p queued := by
    rw [(quiet.same d).willReceive, (quiet.same p).endpoint]
    exact calm.met d p queued
  clean isClean p linked := by
    rw [(quiet.same p).sending, (quiet.same p).noEndpoint]
    refine calm.clean isClean p ?_
    rwa [State.qLink, (quiet.same p).qLink] at linked
  current := by
    rw [quiet.procPtr, (quiet.same _).slotFree]
    exact calm.current

theorem Quiet.modify {x : Fin n} {g : Proc n k α → Proc n k α}
    (flags : ∀ f ∈ callFlags, f ∈ (g (K.proc x)).rts ↔ f ∈ (K.proc x).rts)
    (fields : ∃ rts priority cpuTimeLeft quantumSize, g (K.proc x) = { K.proc x with
      rts := rts, priority := priority, cpuTimeLeft := cpuTimeLeft, quantumSize := quantumSize }) :
    Quiet K (K.modify x g) := by
  obtain ⟨rts, priority, cpuTimeLeft, quantumSize, here⟩ := fields
  have sending := flags .sending (by decide)
  have receiving := flags .receiving (by decide)
  have noEndpoint := flags .noEndpoint (by decide)
  have slotFree := flags .slotFree (by decide)
  rw [here] at sending receiving noEndpoint slotFree
  refine ⟨fun p => ?_, ?_, rfl⟩
  · rw [modify_apply]
    split
    · next isX =>
        rw [isX, here]
        exact ⟨sending, receiving, noEndpoint, slotFree, .rfl, rfl, rfl, rfl, rfl, rfl⟩
    · exact ⟨.rfl, .rfl, .rfl, .rfl, .rfl, rfl, rfl, rfl, rfl, rfl⟩
  · rw [mail_of_others fun p other => modify_of_ne K g other, modify_self, here]
    refine Mail.ext ?_ ?_ (update_eq_self _ _) (update_eq_self _ _)
    · refine (update_eq_self_iff ..).mpr ?_
      simp [State.mail, Proc.pend, sending]
    · refine (update_eq_self_iff ..).mpr ?_
      simp [State.mail, Proc.await, receiving]

theorem setFlags_quiet (x : Fin n) {f : Finset Rts} (other : Disjoint f callFlags) :
    Quiet K (K.setFlags x f) := by
  refine Quiet.modify (fun y member => ?_) ⟨_, _, _, _, rfl⟩
  rw [Finset.mem_union]
  exact or_iff_left fun isSet => Finset.disjoint_left.mp other isSet member

theorem clearFlags_quiet (x : Fin n) {f : Finset Rts} (other : Disjoint f callFlags) :
    Quiet K (K.clearFlags x f) := by
  refine Quiet.modify (fun y member => ?_) ⟨_, _, _, _, rfl⟩
  rw [Finset.mem_sdiff]
  exact and_iff_left fun isSet => Finset.disjoint_left.mp other isSet member

theorem stop_ok (ok : Ok cfg Fair Clean K callers) {rp : Fin n} (used : .slotFree ∉ (K.proc rp).rts)
    {f : Finset Rts} (other : Disjoint f callFlags) :
    ∃ K', rtsSet cfg K rp f = .ok K' ∧ Ok cfg Fair Clean K' callers ∧ Quiet K K' ∧
      Alike (K.setFlags rp f) K' := by
  obtain ⟨K', isOk, queues, alike⟩ := ok.toQueues.rtsSet rp f
  have quiet := setFlags_quiet (K := K) rp other
  have notFree : .slotFree ∉ f := fun member => Finset.disjoint_left.mp other member (by decide)
  have calm := quiet.calm ok.toCalm (ok.table.setFlags used notFree)
  exact ⟨K', isOk, { queues with toCalm := calm.alike alike }, quiet.trans alike.quiet, alike⟩

theorem Table.clearFlags (table : Table cfg K) {rp : Fin n} (user : cfg.kernelTask rp = false)
    {f : Finset Rts} (other : .slotFree ∉ f)
    (quantum : .noQuantum ∉ (K.proc rp).rts \ f → .slotFree ∉ (K.proc rp).rts →
      (K.proc rp).quantumSize ≠ 0) : Table cfg (K.clearFlags rp f) := by
  have fields : ∀ p ≠ rp, (K.clearFlags rp f).proc p = K.proc p := fun p => modify_of_ne K _
  have here : (K.clearFlags rp f).proc rp = { K.proc rp with rts := (K.proc rp).rts \ f } :=
    modify_self ..
  have free : ∀ p, .slotFree ∈ ((K.clearFlags rp f).proc p).rts ↔ .slotFree ∈ (K.proc p).rts :=
    fun p => by
      by_cases isRp : p = rp
      · rw [isRp, here, Finset.mem_sdiff]
        exact and_iff_left other
      · rw [fields p isRp]
  refine ⟨fun p isFree => ?_, fun p isTask => ?_, fun p isUser => ?_, fun p isUser isUsed flag => ?_,
    fun p s => ?_, (free _).not.mpr table.idle, table.pending, table.notifiers, table.masks⟩
  · have wasFree := (free p).mp isFree
    by_cases isRp : p = rp
    · subst isRp
      rw [here]
      change (K.proc p).rts \ f = _
      rw [table.free p wasFree]
      exact Finset.sdiff_eq_self_of_disjoint (by simpa using other)
    · rw [fields p isRp]
      exact table.free p wasFree
  · have notRp : p ≠ rp := by
      rintro rfl
      rw [user] at isTask
      cases isTask
    rw [fields p notRp]
    exact table.task p isTask
  · have level := table.level p isUser
    by_cases isRp : p = rp
    · subst isRp
      rwa [here]
    · rwa [fields p isRp]
  · by_cases isRp : p = rp
    · subst isRp
      have wasUsed := (free p).not.mp isUsed
      rw [here] at flag ⊢
      exact quantum flag wasUsed
    · rw [fields p isRp] at flag isUsed ⊢
      exact table.quantum p isUser isUsed flag
  · rw [free]
    have here : ((K.clearFlags rp f).proc p).scheduler = (K.proc p).scheduler :=
      modify_field K rp p _ Proc.scheduler fun _ => rfl
    rw [here]
    exact table.scheduler p s

theorem go_ok (ok : Ok cfg Fair Clean K callers) {rp : Fin n} (user : cfg.kernelTask rp = false)
    {f : Finset Rts} (other : Disjoint f callFlags) (mark : .preempted ∉ f)
    (quantum : .noQuantum ∉ (K.proc rp).rts \ f → .slotFree ∉ (K.proc rp).rts →
      (K.proc rp).quantumSize ≠ 0) :
    ∃ K', rtsUnset cfg K rp f = .ok K' ∧ Ok cfg Fair Clean K' callers ∧ Quiet K K' := by
  obtain ⟨K', isOk, queues, alike⟩ := ok.toQueues.rtsUnset rp mark fun _ => ok.table.level rp user
  have quiet := clearFlags_quiet (K := K) rp other
  have notFree : .slotFree ∉ f := fun member => Finset.disjoint_left.mp other member (by decide)
  have calm := quiet.calm ok.toCalm (ok.table.clearFlags user notFree quantum)
  exact ⟨K', isOk, { queues with toCalm := calm.alike alike }, quiet.trans alike.quiet⟩

theorem RunOk.modify_stopped {ready : Nat → List (Fin n)} (run : RunOk cfg K ready) {rp : Fin n}
    (stopped : ¬ (K.proc rp).Runnable) {g : Proc n k α → Proc n k α}
    (nextready : ∀ p, (g p).nextready = p.nextready) (still : ¬ (g (K.proc rp)).Runnable) :
    RunOk cfg (K.modify rp g) ready := by
  have out : ∀ q, rp ∉ ready q := fun q member => by
    have here := run.level q rp member
    exact stopped ((run.mem rp).mp (here ▸ member))
  have links : (K.modify rp g).nextready = K.nextready :=
    funext fun p => modify_field K rp p _ Proc.nextready nextready
  refine ⟨⟨fun q => ?_, run.tail, fun q p member => ?_⟩, fun p => ?_, fun p runnable => ?_⟩
  · rw [links]
    exact run.chain q
  · rw [modify_of_ne K g (ne_of_mem_of_not_mem member (out q))]
    exact run.level q p member
  · by_cases isRp : p = rp
    · subst isRp
      rw [modify_self]
      exact iff_of_false (out _) still
    · rw [modify_of_ne K g isRp]
      exact run.mem p
  · by_cases isRp : p = rp
    · subst isRp
      rw [modify_self] at runnable
      exact absurd runnable still
    · rw [modify_of_ne K g isRp] at runnable ⊢
      exact run.bound p runnable

theorem setSchedule_ok (ok : Ok cfg Fair Clean K callers) {rp : Fin n} {priority quantum : Nat} (time : Nat)
    (stopped : ¬ (K.proc rp).Runnable) (level : priority < cfg.queues) (some : quantum ≠ 0)
    (fair : Fair → rp ≠ K.procPtr) :
    Ok cfg Fair Clean (K.modify rp fun p =>
      { p with priority := priority, quantumSize := quantum, cpuTimeLeft := time }) callers ∧
    Quiet K (K.modify rp fun p =>
      { p with priority := priority, quantumSize := quantum, cpuTimeLeft := time }) := by
  have quiet : Quiet K (K.modify rp fun p =>
      { p with priority := priority, quantumSize := quantum, cpuTimeLeft := time }) :=
    Quiet.modify (fun _ _ => .rfl) ⟨_, _, _, _, rfl⟩
  refine ⟨?_, quiet⟩
  generalize isL : (K.modify rp fun p =>
    { p with priority := priority, quantumSize := quantum, cpuTimeLeft := time }) = L at quiet
  have here : L.proc rp = { K.proc rp with
      priority := priority, quantumSize := quantum, cpuTimeLeft := time } := by
    rw [← isL, modify_self]
  have others : ∀ p ≠ rp, L.proc p = K.proc p := fun p other => by rw [← isL, modify_of_ne K _ other]
  have rts : ∀ p, (L.proc p).rts = (K.proc p).rts := fun p => by
    rw [← isL]
    exact modify_field K rp p _ Proc.rts fun _ => rfl
  have procPtr : L.procPtr = K.procPtr := isL ▸ rfl
  have privs : L.priv = K.priv := isL ▸ rfl
  obtain ⟨ready, run⟩ := ok.ready
  have run' : RunOk cfg L ready := isL ▸ run.modify_stopped stopped (fun _ => rfl) stopped
  have best : Fair → L.Best := fun isFair preemptible => by
    have other := others K.procPtr (fair isFair).symm
    rw [procPtr, privs, other] at preemptible
    rw [procPtr, other]
    refine (ok.best isFair preemptible).imp_right fun least p runnable => ?_
    have notRp : p ≠ rp := by
      rintro rfl
      rw [Proc.Runnable, rts] at runnable
      exact stopped runnable
    rw [others p notRp] at runnable ⊢
    exact least p runnable
  have table : Table cfg L := by
    refine ⟨fun p => ?_, fun p => ?_, fun p user => ?_, fun p user => ?_, fun p s => ?_, ?_, ?_, ?_, ?_⟩
    · rw [rts]
      exact ok.table.free p
    · rw [rts]
      exact ok.table.task p
    · by_cases isRp : p = rp
      · rw [isRp, here]
        exact level
      · rw [others p isRp]
        exact ok.table.level p user
    · by_cases isRp : p = rp
      · rw [isRp, here]
        exact fun _ _ => some
      · rw [others p isRp]
        exact ok.table.quantum p user
    · have same : (L.proc p).scheduler = (K.proc p).scheduler := by
        rw [← isL]
        exact modify_field K rp p _ Proc.scheduler fun _ => rfl
      rw [same, rts]
      exact ok.table.scheduler p s
    · rw [rts]
      exact ok.table.idle
    · rw [privs]
      exact ok.table.pending
    · rw [privs]
      exact ok.table.notifiers
    · rw [privs]
      exact ok.table.masks
  exact { ready := ⟨ready, run'⟩, best := best, toCalm := quiet.calm ok.toCalm table }

theorem schedProc_spec (ok : Ok cfg Fair Clean K callers) {rp : Fin n} {priority : Nat}
    (quantum : Nat) (user : cfg.kernelTask rp = false) (used : .slotFree ∉ (K.proc rp).rts)
    (inside : priority ≠ cfg.queues) (fair : Fair → rp ≠ K.procPtr) :
    ∃ result K', schedProc cfg K rp priority quantum = .ok (result, K') ∧
      Ok cfg Fair Clean K' callers ∧ Quiet K K' := by
  unfold schedProc
  split
  · exact ⟨_, K, rfl, ok, .refl K⟩
  next low =>
  split
  · exact ⟨_, K, rfl, ok, .refl K⟩
  next some =>
  -- it is taken out of its queue
  obtain ⟨K₁, isOk₁, ok₁, quiet₁, stopped⟩ :
      ∃ K₁, (if (K.proc rp).Runnable then rtsSet cfg K rp {Rts.noQuantum} else .ok K) = .ok K₁ ∧
        Ok cfg Fair Clean K₁ callers ∧ Quiet K K₁ ∧ ¬ (K₁.proc rp).Runnable := by
    split
    · obtain ⟨K₁, isOk, ok₁, quiet, alike⟩ := stop_ok ok used (f := {Rts.noQuantum}) (by decide)
      refine ⟨K₁, isOk, ok₁, quiet, fun runnable => ?_⟩
      have isSet : .noQuantum ∈ (K₁.proc rp).rts := by
        rw [alike.flag rp (by decide), State.setFlags, modify_self]
        simp
      rw [runnable] at isSet
      cases isSet
    · next stopped => exact ⟨K, rfl, ok, .refl K, stopped⟩
  obtain ⟨ok₂, quiet₂⟩ := setSchedule_ok ok₁ (quantum * cfg.cyclesPerMs) stopped
    (by omega : priority < cfg.queues) some (by rwa [quiet₁.procPtr])
  obtain ⟨K₃, isOk₃, ok₃, quiet₃⟩ := go_ok ok₂ user (f := {Rts.noQuantum}) (by decide) (by decide)
    fun _ _ => by
      rw [modify_self]
      exact some
  refine ⟨.ok, K₃, ?_, ok₃, (quiet₁.trans quiet₂).trans quiet₃⟩
  by_cases runnable : (K.proc rp).Runnable
  · rw [if_pos runnable] at isOk₁ ⊢
    exact bind_ok.mpr ⟨K₁, isOk₁, bind_ok.mpr ⟨K₃, isOk₃, rfl⟩⟩
  · rw [if_neg runnable] at isOk₁ ⊢
    cases isOk₁
    exact bind_ok.mpr ⟨K, rfl, bind_ok.mpr ⟨K₃, isOk₃, rfl⟩⟩

/-! ## The end of a quantum -/

/-- Nothing was said, and no link is better. -/
structure Silent (K K' : State n k α) : Prop where
  flow : ∀ p d, K'.flow p d = K.flow p d
  endpoints : K'.endpoints = K.endpoints
  stale : ∀ p, K.Stale p → K'.Stale p

theorem Silent.refl (K : State n k α) : Silent K K :=
  ⟨fun _ _ => rfl, rfl, fun _ => id⟩

theorem Silent.trans (first : Silent K K') (second : Silent K' K'') : Silent K K'' :=
  ⟨fun p d => (second.flow p d).trans (first.flow p d), second.endpoints.trans first.endpoints,
    fun p stale => second.stale p (first.stale p stale)⟩

theorem Quiet.stale (quiet : Quiet K K') {p : Fin n} (stale : K.Stale p) : K'.Stale p := by
  rw [State.Stale, (quiet.same p).sending, State.qLink, (quiet.same p).qLink]
  exact stale

theorem Quiet.silent (quiet : Quiet K K') : Silent K K' :=
  ⟨quiet.flow, funext fun p => (quiet.same p).endpoint, fun _ => quiet.stale⟩

def State.inTime (K : State n k α) : Finset (Fin n) :=
  Finset.univ.filter fun p => .noQuantum ∉ (K.proc p).rts

theorem inTime_mono (more : ∀ p, .noQuantum ∈ (K.proc p).rts → .noQuantum ∈ (K'.proc p).rts) :
    K'.inTime ⊆ K.inTime := by
  intro p member
  rw [State.inTime, Finset.mem_filter] at member ⊢
  exact ⟨member.1, fun spent => member.2 (more p spent)⟩

/-- Why switch_to_user can halt: the scheduler cannot be told, or a link is stale. -/
def SwitchHalts (Clean : Prop) (halt : Halt) : Prop :=
  halt = .scheduler ∨ halt = .linked ∧ ¬ Clean

theorem Ok.null_link (ok : Ok cfg Fair Clean K callers) {p : Fin n} (free : Free K p) :
    K.qLink p ≠ none → ¬ Clean := fun linked clean =>
  (ok.clean clean p linked).elim free.notSends free.live.1

theorem out_of_time (ok : Ok cfg Fair Clean K callers) {p : Fin n}
    (runnable : (K.proc p).Runnable) :
    ∃ K₁, rtsSet cfg K p {Rts.noQuantum} = .ok K₁ ∧ Ok cfg Fair Clean K₁ callers ∧ Quiet K K₁ ∧
      Alike (K.setFlags p {Rts.noQuantum}) K₁ ∧ Free K₁ p := by
  have none : ∀ f, f ∉ (K.proc p).rts := fun f member => by
    rw [runnable] at member
    cases member
  obtain ⟨K₁, isOk, ok₁, quiet, alike⟩ := stop_ok ok (none .slotFree) (f := {Rts.noQuantum}) (by decide)
  have same := quiet.same
  refine ⟨K₁, isOk, ok₁, quiet, alike, ⟨?_, ?_⟩, ?_, ?_⟩
  · rw [(same p).noEndpoint]
    exact none _
  · rw [(same p).slotFree]
    exact none _
  · rw [(same p).sending]
    exact none _
  · rw [(same p).receiving]
    exact none _

theorem notifyScheduler_spec (ok : Ok cfg Fair Clean K callers) {p scheduler : Fin n}
    (runnable : (K.proc p).Runnable) (other : scheduler ≠ p)
    (used : .slotFree ∉ (K.proc scheduler).rts) :
    Ends (SwitchHalts Clean) (notifyScheduler cfg K p scheduler) fun K' =>
      (∃ callers', Ok cfg Fair Clean K' callers') ∧ Silent K K' ∧ K'.procPtr = K.procPtr ∧
        K'.inTime ⊂ K.inTime ∧ ¬ (K'.proc p).Runnable := by
  have none : ∀ f, f ∉ (K.proc p).rts := fun f member => by
    rw [runnable] at member
    cases member
  obtain ⟨K₁, isOk, ok₁, quiet, alike, free⟩ := out_of_time ok runnable
  have same := quiet.same
  have out : .noQuantum ∈ (K₁.proc p).rts := by
    rw [alike.flag p (by decide), State.setFlags, modify_self]
    simp
  have more : ∀ q, .noQuantum ∈ (K.proc q).rts → .noQuantum ∈ (K₁.proc q).rts := fun q spent => by
    rw [alike.flag q (by decide), State.setFlags, modify_apply]
    split
    · exact Finset.mem_union_left _ (by rwa [show q = p from ‹_›] at spent)
    · exact spent
  have used₁ : .slotFree ∉ (K₁.proc scheduler).rts := by rwa [(same scheduler).slotFree]
  unfold notifyScheduler
  refine Ends.bind (Ends.of_eq isOk rfl : Ends _ _ (K₁ = ·)) ?_
  rintro _ rfl
  have sends := miniSend_spec ok₁ free used₁ other (some .schedulingNoQuantum) false true
  refine Ends.bind (sends.mono (fun halt bad => ?_) (fun r sent => sent) :
    Ends (SwitchHalts Clean) _ _) fun r sent => ?_
  · exact .inr ⟨bad.1, ok₁.null_link free bad.2⟩
  · obtain ⟨result, K'⟩ := r
    by_cases isOk : result = .ok
    · subst isOk
      have keeps := sent.keeps
      have flag : ∀ q, .noQuantum ∈ (K'.proc q).rts ↔ .noQuantum ∈ (K₁.proc q).rts := fun q =>
        keeps.rts q _ (by decide)
      refine Ends.of_eq (a := K') (ensure_bind rfl) ⟨sent.ok ok₁, ?_, ?_, ?_, ?_⟩
      · refine quiet.silent.trans ⟨fun p d => ?_, keeps.endpoints, keeps.stale⟩
        rw [sent_flow ok₁ free sent]
        simp [Content.text]
      · exact keeps.procPtr.trans quiet.procPtr
      · refine Finset.ssubset_iff_subset_ne.mpr ⟨inTime_mono fun q spent => ?_, fun same => ?_⟩
        · exact (flag q).mpr (more q spent)
        · have inside : p ∈ K.inTime := by simp [State.inTime, none]
          rw [← same, State.inTime, Finset.mem_filter] at inside
          exact inside.2 ((flag p).mpr out)
      · intro runs
        have isSet := (flag p).mpr out
        rw [runs] at isSet
        cases isSet
    · refine Ends.of_error ?_ (.inl rfl : SwitchHalts Clean .scheduler)
      change (ensure Halt.scheduler (result = .ok) >>= fun _ => Except.ok K') = _
      rw [ensure, if_neg isOk]
      rfl

theorem userScheduler_some {p s : Fin n} (isScheduler : userScheduler K p = some s) :
    (K.proc p).scheduler = some s ∧ s ≠ p := by
  unfold userScheduler at isScheduler
  split at isScheduler
  · cases isScheduler
  · next s' isSet =>
      split at isScheduler
      · next holds =>
          cases isScheduler
          exact ⟨isSet, holds.1⟩
      · cases isScheduler

theorem procNoTime_spec (ok : Ok cfg Fair Clean K callers) {p : Fin n}
    (runnable : (K.proc p).Runnable) :
    Ends (SwitchHalts Clean) (procNoTime cfg K p) fun K' =>
      (∃ callers', Ok cfg Fair Clean K' callers') ∧ Silent K K' ∧ K'.procPtr = K.procPtr ∧
        ((K'.proc p).Runnable ∧ (K'.proc p).cpuTimeLeft ≠ 0 ∧
            (K'.proc p).misc = (K.proc p).misc ∨
          ¬ (K'.proc p).Runnable ∧ K'.inTime ⊂ K.inTime) := by
  have none : ∀ f, f ∉ (K.proc p).rts := fun f member => by
    rw [runnable] at member
    cases member
  unfold procNoTime
  split
  · next scheduler isScheduler =>
      obtain ⟨isSet, other⟩ := userScheduler_some isScheduler
      refine (notifyScheduler_spec ok runnable other (ok.table.scheduler p _ isSet)).mono
        (fun _ => id) fun K' holds => ?_
      obtain ⟨ok', silent, procPtr, fewer, stopped⟩ := holds
      exact ⟨ok', silent, procPtr, .inr ⟨stopped, fewer⟩⟩
  · have quiet : Quiet K (K.modify p fun p =>
        { p with cpuTimeLeft := p.quantumSize * cfg.cyclesPerMs }) :=
      Quiet.modify (fun _ _ => .rfl) ⟨_, _, _, _, rfl⟩
    have user := ok.table.user (none _) (none _)
    have quantum := ok.table.quantum p user (none _) (none _)
    have keeps : Keeps K (K.modify p fun p =>
        { p with cpuTimeLeft := p.quantumSize * cfg.cyclesPerMs }) :=
      Keeps.modify (none _) (fun _ _ => .rfl) ⟨rfl, rfl, rfl, rfl, rfl, rfl⟩ .inl
    refine Ends.of_eq rfl ⟨⟨callers, ?_⟩, quiet.silent, rfl, .inl ?_⟩
    · have queues : Queues cfg Fair (K.modify p fun p =>
          { p with cpuTimeLeft := p.quantumSize * cfg.cyclesPerMs }) :=
        ok.toQueues.modify p fun _ => ⟨rfl, rfl, rfl, rfl⟩
      exact { queues with toCalm := ok.toCalm.same keeps quiet.same }
    · rw [modify_self]
      exact ⟨runnable, Nat.mul_ne_zero quantum cfg.cyclesPerMs_pos.ne', rfl⟩

/-! ## switch_to_user -/

theorem requeue_spec (ok : Ok cfg Fair Clean K callers) (stopped : ¬ (K.proc K.procPtr).Runnable) :
    ∃ K' ready, requeue cfg K = .ok K' ∧ RunOk cfg K' ready ∧ Calm cfg Clean K' callers ∧
      Quiet K K' ∧ Keeps K K' := by
  unfold requeue
  split
  · next mark =>
      have quiet : Quiet K (K.clearFlags K.procPtr {Rts.preempted}) := clearFlags_quiet _ (by decide)
      have keeps : Keeps K (K.clearFlags K.procPtr {Rts.preempted}) :=
        clearFlags_keeps ok.current (by decide)
      have calm := ok.toCalm.same keeps quiet.same
      obtain ⟨ready, run⟩ := ok.ready
      have but : RunOkBut cfg (K.clearFlags K.procPtr {Rts.preempted}) ready K.procPtr :=
        run.clearFlags stopped (ok.table.bound (by decide) (by decide))
      have procPtr : (K.clearFlags K.procPtr {Rts.preempted}).procPtr = K.procPtr := rfl
      dsimp only
      rw [procPtr]
      split
      · next runnable =>
          -- it goes to the head of its queue if it has time left, else to the end
          split
          · next time =>
              obtain ⟨K', ready', isOk, run', same⟩ := enqueueHead_spec but runnable time
              exact ⟨K', ready', isOk, run', calm.alike same.alike, quiet.trans same.alike.quiet,
                keeps.trans (same.alike.keeps calm.current)⟩
          · obtain ⟨K', ready', isOk, run', same⟩ := enqueue_spec but runnable
            have alike := (marked_alike _ K.procPtr).trans same.alike
            exact ⟨K', ready', isOk, run', calm.alike alike, quiet.trans alike.quiet,
              keeps.trans (alike.keeps calm.current)⟩
      · next waits =>
          have run' : RunOk cfg (K.clearFlags K.procPtr {Rts.preempted}) ready := by
            refine { but.toLinked with mem := fun p => ?_, bound := but.bound }
            by_cases isCurrent : p = K.procPtr
            · rw [isCurrent]
              exact iff_of_false (but.out _) waits
            · exact but.mem p isCurrent
          exact ⟨_, ready, rfl, run', calm, quiet, keeps⟩
  · obtain ⟨ready, run⟩ := ok.ready
    exact ⟨K, ready, rfl, run, ok.toCalm, .refl K, .refl K⟩

theorem Table.idle_stopped (table : Table cfg K) : ¬ (K.proc cfg.idle).Runnable := by
  intro runnable
  have stop := table.task cfg.idle cfg.idleTask
  rw [runnable] at stop
  simp at stop

/-- The process that is picked is the best one, and if there is none IDLE runs. -/
theorem pick_spec {ready : Nat → List (Fin n)} (run : RunOk cfg K ready)
    (calm : Calm cfg Clean K callers) :
    ∃ x, pick cfg K = .ok { K with procPtr := x } ∧
      Ok cfg Fair Clean { K with procPtr := x } callers ∧
      (x = cfg.idle ∧ (∀ p, ¬ (K.proc p).Runnable) ∨ x ≠ cfg.idle ∧ (K.proc x).Runnable) := by
  have run' : ∀ x, RunOk cfg { K with procPtr := x } ready := fun x =>
    run.congr (fun _ => ⟨rfl, rfl, rfl⟩) rfl rfl
  have calm' : ∀ x, .slotFree ∉ (K.proc x).rts → Calm cfg Clean { K with procPtr := x } callers :=
    fun x used =>
      { table := { calm.table with }
        ipc := calm.ipc.congr fun _ => ⟨.rfl, .rfl, .rfl, .rfl, .rfl, rfl, rfl, rfl, rfl, rfl⟩
        met := calm.met
        clean := calm.clean
        current := used }
  unfold pick
  obtain ⟨isNone, idle⟩ | ⟨rp, rest, isOk, runnable, _, least⟩ := pickProc_spec run
  · refine ⟨cfg.idle, bind_ok.mpr ⟨none, isNone, rfl⟩, ?_, .inl ⟨rfl, idle⟩⟩
    exact { ready := ⟨ready, run' _⟩
            best := fun _ _ => .inr fun p runs => absurd runs (idle p)
            toCalm := calm' _ calm.table.idle }
  · have used : .slotFree ∉ (K.proc rp).rts := by
      rw [runnable]
      exact Finset.notMem_empty _
    refine ⟨rp, bind_ok.mpr ⟨some rp, isOk, rfl⟩, ?_, .inr ⟨?_, runnable⟩⟩
    · exact { ready := ⟨ready, run' _⟩
              best := fun _ _ => .inr least
              toCalm := calm' _ used }
    · rintro rfl
      exact calm.table.idle_stopped runnable

theorem deliverWaiting_spec (ok : Ok cfg Fair Clean K callers) {p : Fin n}
    (runnable : (K.proc p).Runnable) :
    Ok cfg Fair Clean (deliverWaiting cfg K p) callers ∧ Silent K (deliverWaiting cfg K p) ∧
      (deliverWaiting cfg K p).inTime = K.inTime ∧
      (deliverWaiting cfg K p).procPtr = K.procPtr ∧
      ((deliverWaiting cfg K p).proc p).Runnable ∧
      .delivermsg ∉ ((deliverWaiting cfg K p).proc p).misc := by
  have none : ∀ f, f ∉ (K.proc p).rts := fun f member => by
    rw [runnable] at member
    cases member
  unfold deliverWaiting
  split
  · next delivers =>
      obtain ⟨used, retreg, copied⟩ := cfg.copies (K.proc p) delivers
      have others : ∀ q ≠ p, (K.modify p cfg.delivermsg).proc q = K.proc q :=
        fun q => modify_of_ne K _
      have here := (modify_self K p cfg.delivermsg).trans copied
      have rts : ∀ q, ((K.modify p cfg.delivermsg).proc q).rts = (K.proc q).rts := fun q => by
        by_cases isP : q = p
        · rw [isP, here]
        · rw [others q isP]
      have keeps : Keeps K (K.modify p cfg.delivermsg) :=
        Keeps.modify (none _) (fun _ _ => by rw [copied])
          (by rw [copied]; exact ⟨rfl, rfl, rfl, rfl, rfl, rfl⟩) fun sends => .inl (by rwa [copied] at sends)
      have procPtr : (K.modify p cfg.delivermsg).procPtr = K.procPtr := rfl
      have ok' := own_messages ok ⟨⟨none _, none _⟩, none _, none _⟩ others here keeps rfl rfl
      generalize K.modify p cfg.delivermsg = L at *
      have mail : L.mail = K.mail.read p := by
        rw [mail_of_others others, here]
        refine Mail.ext ?_ ?_ ?_ ?_
        · refine (update_eq_self_iff ..).mpr ?_
          simp [State.mail, Proc.pend]
        · refine (update_eq_self_iff ..).mpr ?_
          simp [State.mail, Proc.await]
        · simp [Proc.inbox, Mail.read]
        · simp [State.mail, Proc.inbox, Mail.read, delivers]
      refine ⟨ok', ⟨fun p d => ?_, keeps.endpoints, keeps.stale⟩, ?_, procPtr, ?_, ?_⟩
      · rw [State.flow, mail, keeps.endpoints]
        exact read_flow
      · simp only [State.inTime, rts]
      · rw [Proc.Runnable, rts]
        exact runnable
      · rw [here]
        simp
  · next notDelivers => exact ⟨ok, .refl K, rfl, rfl, runnable, notDelivers⟩

theorem choose_spec (ok : Ok cfg Fair Clean K callers) :
    ∃ K', choose cfg K = .ok K' ∧ Ok cfg Fair Clean K' callers ∧ Silent K K' ∧
      K'.inTime = K.inTime ∧ (K'.procPtr = cfg.idle ∧ (∀ p, ¬ (K'.proc p).Runnable) ∨
        K'.procPtr ≠ cfg.idle ∧ (K'.proc K'.procPtr).Runnable) := by
  unfold choose
  by_cases isIdle : K.procPtr = cfg.idle
  · rw [if_pos isIdle]
    obtain ⟨ready, run⟩ := ok.ready
    obtain ⟨x, isOk, ok', result⟩ := pick_spec run ok.toCalm
    exact ⟨_, isOk, ok', ⟨fun _ _ => rfl, rfl, fun _ => id⟩, rfl, result⟩
  · rw [if_neg isIdle]
    by_cases runnable : (K.proc K.procPtr).Runnable
    · rw [if_pos runnable]
      exact ⟨K, rfl, ok, .refl K, rfl, .inr ⟨isIdle, runnable⟩⟩
    · rw [if_neg runnable]
      obtain ⟨K₁, ready, isOk₁, run, calm, quiet, keeps⟩ := requeue_spec ok runnable
      obtain ⟨x, isOk, ok', result⟩ := pick_spec run calm
      refine ⟨_, bind_ok.mpr ⟨K₁, isOk₁, isOk⟩, ok', quiet.silent.trans ⟨fun _ _ => rfl, rfl, fun _ => id⟩,
        ?_, result⟩
      have flag := fun p => keeps.rts p .noQuantum (by decide)
      simp only [State.inTime, flag]

theorem checkMiscFlags_spec (ok : Ok cfg Fair Clean K callers)
    (runnable : (K.proc K.procPtr).Runnable) :
    Ends (SwitchHalts Clean) (checkMiscFlags cfg K) fun K' =>
      (∃ callers', Ok cfg Fair Clean K' callers') ∧ Silent K K' ∧ K'.procPtr = K.procPtr ∧
        (Running K' ∧ (K'.proc K'.procPtr).cpuTimeLeft ≠ 0 ∨
          ¬ (K'.proc K'.procPtr).Runnable ∧ K'.inTime ⊂ K.inTime) := by
  unfold checkMiscFlags
  obtain ⟨ok₁, silent₁, inTime₁, procPtr₁, runnable₁, noMessage⟩ := deliverWaiting_spec ok runnable
  generalize deliverWaiting cfg K K.procPtr = K₁ at *
  rw [← procPtr₁] at runnable₁ noMessage
  dsimp only
  split
  · refine (procNoTime_spec ok₁ runnable₁).mono (fun _ => id) fun K' holds => ?_
    obtain ⟨ok', silent, procPtr, result⟩ := holds
    refine ⟨ok', silent₁.trans silent, procPtr.trans procPtr₁, ?_⟩
    rw [procPtr, ← inTime₁]
    refine result.imp_left fun ⟨runs, time, misc⟩ => ⟨⟨?_, ?_⟩, time⟩
    · rwa [procPtr]
    · rw [procPtr, misc]
      exact noMessage
  · next time => exact ⟨⟨callers, ok₁⟩, silent₁, procPtr₁, .inl ⟨⟨runnable₁, noMessage⟩, time⟩⟩

/-- What is true when the kernel is left. -/
structure Left (cfg : Config n k α) (Fair Clean : Prop) (K : State n k α) : Prop where
  ok : ∃ callers, Ok cfg Fair Clean K callers
  idle : K.procPtr = cfg.idle → ∀ p, ¬ (K.proc p).Runnable
  running : K.procPtr ≠ cfg.idle → Running K ∧ (K.proc K.procPtr).cpuTimeLeft ≠ 0

/-- switch_to_user comes to its end, since each turn but the last takes a process out of time. -/
theorem switchToUser_spec {fuel : Nat} (ok : Ok cfg Fair Clean K callers)
    (enough : K.inTime.card < fuel) :
    Ends (SwitchHalts Clean) (switchToUser cfg fuel K) fun K' =>
      Left cfg Fair Clean K' ∧ Silent K K' := by
  induction fuel generalizing K callers with
  | zero => omega
  | succ fuel ih =>
      unfold switchToUser
      obtain ⟨K₁, isOk₁, ok₁, silent₁, inTime₁, result⟩ := choose_spec ok
      refine Ends.bind (Ends.of_eq isOk₁ rfl : Ends _ _ (K₁ = ·)) ?_
      rintro _ rfl
      obtain ⟨isIdle, idle⟩ | ⟨notIdle, runnable⟩ := result
      · rw [if_pos isIdle]
        exact ⟨⟨⟨callers, ok₁⟩, fun _ => idle, absurd isIdle⟩, silent₁⟩
      · rw [if_neg notIdle, ensure_bind runnable]
        refine Ends.bind (checkMiscFlags_spec ok₁ runnable) fun K₂ holds => ?_
        obtain ⟨⟨callers₂, ok₂⟩, silent₂, procPtr₂, ⟨running, time⟩ | ⟨stopped, fewer⟩⟩ := holds
        · rw [if_pos running.runnable, ensure_bind time]
          exact ⟨⟨⟨callers₂, ok₂⟩, fun isIdle => absurd (procPtr₂ ▸ isIdle) notIdle,
            fun _ => ⟨running, time⟩⟩, silent₁.trans silent₂⟩
        · rw [if_neg stopped]
          have less := Finset.card_lt_card fewer
          rw [inTime₁] at less
          refine (ih ok₂ (by omega)).mono (fun _ => id) fun K' holds => ?_
          exact ⟨holds.1, (silent₁.trans silent₂).trans holds.2⟩

end Csc457.Kernel
