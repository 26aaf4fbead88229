import Csc457.Kernel.Runs

/-!
# What halts the kernel

A kernel in order can still be halted.  notify_scheduler panics when the scheduler is gone or
waits for the process it is to schedule.  A process that receives from itself is blocked, and the
next one that would wait for it leads deadlock out of its array.  One that is given the priority
NR_SCHED_QUEUES leads enqueue out of its arrays as soon as it is ready.  Where a process ends
that several are sending to, all of them but the last keep a p_q_link for which mini_send later
fails an assertion.
-/

set_option autoImplicit false

namespace Csc457.Kernel

open Function
open Csc457.Lib.LinkedQueue Csc457.Lib.Transition

variable {n k : Nat} {α : Type} {cfg : Config n k α} {K K' : State n k α} {Fair Clean : Prop}
  {callers : Fin n → List (Fin n)} {image : Image cfg}

theorem miniSend_fails_iff (ok : Ok cfg Fair Clean K callers) {caller dst : Fin n}
    (used : .slotFree ∉ (K.proc dst).rts) (other : dst ≠ caller)
    (content : Content n α) (fromKernel : Bool) :
    (∃ r, miniSend cfg K caller (K.proc dst).endpoint (some content) false fromKernel = .ok r ∧
        r.1 ≠ .ok) ↔
      .noEndpoint ∈ (K.proc dst).rts ∨
        ¬ (K.proc dst).WillReceive (K.proc caller).endpoint ∧ Leads K.waits dst caller := by
  unfold miniSend
  simp only [slotOf_endpoint ok.ipc.slot]
  by_cases gone : .noEndpoint ∈ (K.proc dst).rts
  · rw [if_pos gone]
    exact iff_of_true ⟨_, rfl, by rintro ⟨⟩⟩ (.inl gone)
  rw [if_neg gone]
  by_cases will : (K.proc dst).WillReceive (K.proc caller).endpoint
  · rw [if_pos will, ensure_bind (ok.ipc.noMessage will)]
    refine iff_of_false ?_ fun holds => holds.elim gone fun fails => fails.1 will
    rintro ⟨r, isOk, fails⟩
    obtain ⟨K₁, _, last⟩ := bind_ok.mp isOk
    cases last
    exact fails rfl
  · rw [if_neg will, if_neg Bool.false_ne_true]
    obtain ⟨l, r, chain, isOk, exact⟩ := deadlock_send ok.ipc ⟨gone, used⟩ other will
    rw [isOk, ← chain.mem_iff]
    change (∃ r', (if r ≠ 0 then _ else _) = _ ∧ _) ↔ _
    by_cases safe : r = 0
    · rw [if_neg (not_not_intro safe)]
      refine iff_of_false ?_ fun holds => holds.elim gone fun fails => exact.mp safe fails.2
      rintro ⟨r, isOk, fails⟩
      obtain ⟨K₁, _, isOk⟩ := bind_ok.mp isOk
      obtain ⟨K₂, _, last⟩ := bind_ok.mp isOk
      cases last
      exact fails rfl
    · rw [if_pos safe]
      exact iff_of_true ⟨_, rfl, by rintro ⟨⟩⟩ (.inr ⟨will, by_contra fun notIn => safe (exact.mpr notIn)⟩)

/-- When the time of a process is over, the kernel panics exactly when its scheduler is gone, or
waits for it, over however many others, in another way than to receive from it. -/
theorem notify_scheduler_panics_iff (reached : Reached image Fair Clean K) {p s : Fin n}
    (runnable : (K.proc p).Runnable) (scheduled : userScheduler K p = some s) :
    procNoTime cfg K p = .error .scheduler ↔
      .noEndpoint ∈ (K.proc s).rts ∨
        ¬ (K.proc s).WillReceive (K.proc p).endpoint ∧ Leads K.waits s p := by
  obtain ⟨callers, ok⟩ := reached.left.ok
  obtain ⟨isSet, other⟩ := userScheduler_some scheduled
  obtain ⟨K₁, isOk, ok₁, quiet, _, free⟩ := out_of_time ok runnable
  have same := quiet.same
  have waits : K₁.waits = K.waits := funext fun x => by
    rw [State.waits, (same x).blockedOn]
    rfl
  have used : .slotFree ∉ (K₁.proc s).rts := by
    rw [(same s).slotFree]
    exact ok.table.scheduler p s isSet
  have fails := miniSend_fails_iff ok₁ used other .schedulingNoQuantum true
  rw [(same s).noEndpoint, (same s).willReceive, (same p).endpoint, waits] at fails
  rw [← fails]
  have sends := miniSend_spec ok₁ free used other (some .schedulingNoQuantum) false true
  unfold procNoTime notifyScheduler
  rw [scheduled, isOk]
  change (miniSend cfg K₁ p (K₁.proc s).endpoint _ false true >>= _) = _ ↔ _
  cases result : miniSend cfg K₁ p (K₁.proc s).endpoint (some .schedulingNoQuantum) false true with
  | error halt =>
      obtain ⟨isLinked, _⟩ := sends.error result
      subst isLinked
      exact iff_of_false (by rintro ⟨⟩) (by rintro ⟨_, ⟨⟩, _⟩)
  | ok r =>
      change (ensure .scheduler (r.1 = .ok) >>= _) = _ ↔ _
      by_cases isOk : r.1 = .ok
      · rw [ensure_bind isOk]
        refine iff_of_false (by rintro ⟨⟩) ?_
        rintro ⟨_, ⟨⟩, fails⟩
        exact fails isOk
      · rw [ensure, if_neg isOk]
        exact iff_of_true rfl ⟨r, rfl, isOk⟩

/-- Its scheduler is blocked in a send to it. -/
theorem smallState_panics : procNoTime small smallState 3 = .error .scheduler ↔
    .noEndpoint ∈ (smallState.proc 4).rts ∨
      ¬ (smallState.proc 4).WillReceive (smallState.proc 3).endpoint ∧
        Leads smallState.waits 4 3 :=
  notify_scheduler_panics_iff (smallState_reached : Reached smallImage True True smallState)
    (by decide +kernel) (by decide +kernel)

/-- Over a process that waits for itself deadlock goes on until its array is full. -/
theorem deadlock_self {x cp : Fin n}
    (slot : ∀ p, ∃ generation, (K.proc p).endpoint = .of p generation) (live : K.Live x)
    (self : (K.proc x).blockedOn = (K.proc x).endpoint) (other : cp ≠ x)
    (function : Call) {fuel size : Nat} (enough : n < size + fuel) (some : 0 < fuel) :
    deadlock K function cp fuel (K.proc x).endpoint size = .error .outside := by
  have notEmpty : ¬ (K.proc x).Empty := fun empty =>
    live.2 (by rw [empty]; exact Finset.mem_singleton_self _)
  have isOk : okendpt K (K.proc x).endpoint = .ok x := by
    unfold okendpt
    rw [(isokendpt_iff slot).mpr ⟨rfl, notEmpty⟩]
  induction fuel generalizing size with
  | zero => exact absurd some (Nat.lt_irrefl 0)
  | succ fuel ih =>
      rw [deadlock_turn isOk live.2]
      by_cases room : size < n
      · rw [ensure_bind room, self, if_neg (endpoint_ne_special slot x).2,
          if_neg fun same => other (endpoint_inj slot same).symm]
        exact ih (by omega) (by omega)
      · rw [ensure, if_neg room]
        rfl

/-- A process that receives from itself waits for itself, unless it has been notified by itself. -/
theorem miniReceive_self (ok : Ok cfg Fair Clean K callers) {c : Fin n} (free : Free K c)
    (noMessage : .delivermsg ∉ (K.proc c).misc) (more : 1 < n)
    (nothing : pendingFrom cfg K c (some c) = none) :
    ∃ M, miniReceive cfg K c (K.proc c).endpoint = .ok (.ok, M) ∧ M.endpoints = K.endpoints ∧
      M.Live c ∧ .sending ∉ (M.proc c).rts ∧ (M.proc c).await = some (K.proc c).endpoint := by
  have idle : (K.proc c).blockedOn = .none := by
    rw [Proc.blockedOn, if_neg free.notSends, if_neg free.notReceives]
  have safe : deadlock K .receive c n (K.proc c).endpoint 1 = .ok 0 := by
    obtain ⟨m, rfl⟩ : ∃ m, n = m + 1 := ⟨n - 1, by omega⟩
    rw [deadlock_turn (okendpt_live ok.ipc free.live) free.live.2, ensure_bind more, if_pos idle]
    rfl
  have chain := ok.ipc.chain c free.live
  have absent : search K.qLink (fun x => decide (some c = none ∨ some c = some x)) n none
      (K.proc c).callerQ = some none := by
    obtain ⟨absent, _⟩ | ⟨A, sender, B, split, _, isWanted, _⟩ :=
      search_chain (fun x => decide (some c = none ∨ some c = some x)) none chain
        (by simpa using chain.length_le : _ ≤ n)
    · exact absent
    · have same : c = sender := by simpa using isWanted
      have queued : sender ∈ callers c := by
        rw [split]
        exact List.mem_append_right _ List.mem_cons_self
      exact absurd ((ok.ipc.queued c c).mp (same ▸ queued)).1 free.notSends
  obtain ⟨M, isOk, _, alike⟩ := (ok.toQueues.modify c
    (g := fun p => { p with getfrom := (K.proc c).endpoint })
    fun _ => ⟨rfl, rfl, rfl, rfl⟩).rtsSet c {Rts.receiving}
  rw [State.setFlags, modify_modify] at alike
  have rts : ∀ f, f ≠ .preempted → (f ∈ (M.proc c).rts ↔ f ∈ (K.proc c).rts ∨ f = .receiving) := by
    intro f other
    rw [alike.flag c other, modify_self]
    change f ∈ (K.proc c).rts ∪ {Rts.receiving} ↔ _
    rw [Finset.mem_union, Finset.mem_singleton]
  have endpoints : M.endpoints = K.endpoints := funext fun p =>
    (alike.field p Proc.endpoint fun _ _ _ => rfl).trans
      (modify_field K c p _ Proc.endpoint fun _ => rfl)
  have getfrom : (M.proc c).getfrom = (K.proc c).endpoint := by
    rw [alike.field c Proc.getfrom fun _ _ _ => rfl, modify_self]
  refine ⟨M, ?_, endpoints, ⟨?_, ?_⟩, ?_, ?_⟩
  · obtain ⟨_, blocks⟩ :=
      (miniReceive_from cfg ok.ipc free noMessage free.live).2 nothing none absent
    rw [blocks rfl]
    exact receiveBlock_safe safe isOk
  · rw [rts .noEndpoint (by decide)]
    exact not_or.mpr ⟨free.live.1, by decide⟩
  · rw [rts .slotFree (by decide)]
    exact not_or.mpr ⟨free.live.2, by decide⟩
  · rw [rts .sending (by decide)]
    exact not_or.mpr ⟨free.notSends, by decide⟩
  · rw [Proc.await, if_pos ((rts .receiving (by decide)).mpr (.inr rfl)), getfrom]

/-- A process may receive from itself.  If no notification from itself is pending it is blocked;
whoever would then block in a send to it leads the kernel out of an array. -/
theorem self_receive_halts (reached : Reached image Fair Clean K) (notIdle : K.procPtr ≠ cfg.idle)
    (allowed : refusal cfg K K.procPtr .receive (K.proc K.procPtr).endpoint = none)
    (nothing : pendingFrom cfg K K.procPtr (some K.procPtr) = none) (m : Option α) :
    ∃ K', doIpc cfg K .receive (K.proc K.procPtr).endpoint m = .ok K' ∧
      (K'.proc K.procPtr).await = some (K.proc K.procPtr).endpoint ∧
      ∀ q ≠ K.procPtr, ∀ content fromKernel,
        miniSend cfg K' q (K.proc K.procPtr).endpoint (some content) false fromKernel =
          .error .outside := by
  obtain ⟨callers, ok⟩ := reached.left.ok
  have running := (reached.left.running notIdle).1
  have free := running.free
  have more : 1 < n := by
    have differ := Fin.val_ne_of_ne notIdle
    have here := K.procPtr.isLt
    have there := cfg.idle.isLt
    omega
  obtain ⟨ok₁, keeps₁, mail₁⟩ := misc_ok ok (f := (·.erase .replyPend)) free.live.2 (by simp)
  have free₁ := free.of_same keeps₁ mail₁
  have noMessage₁ := inbox_eq_none.mp
    ((congrFun (congrArg Mail.inbox mail₁) K.procPtr).trans (inbox_eq_none.mpr running.noMessage))
  have nothing₁ : pendingFrom cfg (K.modify K.procPtr fun p =>
      { p with misc := p.misc.erase .replyPend }) K.procPtr (some K.procPtr) = none := by
    unfold pendingFrom at nothing ⊢
    rwa [modify_self]
  obtain ⟨M, isOk, names, live, notSends, waits⟩ :=
    miniReceive_self ok₁ free₁ noMessage₁ more nothing₁
  rw [keeps₁.endpoint] at isOk waits
  refine ⟨M.modify K.procPtr fun p => { p with retreg := .ok }, ?_, ?_, ?_⟩
  · unfold doIpc doSyncIpc
    rw [ensure_bind free.live.2, ensure_bind running.noMessage, allowed]
    exact bind_ok.mpr ⟨_, isOk, rfl⟩
  · rw [modify_self]
    exact waits
  · intro q other content fromKernel
    generalize isK' : (M.modify K.procPtr fun p => { p with retreg := .ok }) = K'
    have rts : ∀ p, (K'.proc p).rts = (M.proc p).rts := fun p =>
      isK' ▸ modify_field M _ p _ Proc.rts fun _ => rfl
    have endpoint : ∀ p, (K'.proc p).endpoint = (M.proc p).endpoint := fun p =>
      isK' ▸ modify_field M _ p _ Proc.endpoint fun _ => rfl
    have await : ∀ p, (K'.proc p).await = (M.proc p).await := fun p =>
      isK' ▸ modify_field M _ p _ Proc.await fun _ => rfl
    have names' : ∀ p, (K'.proc p).endpoint = (K.proc p).endpoint := fun p =>
      (endpoint p).trans ((congrFun names p).trans (keeps₁.endpoint p))
    have slot : ∀ p, ∃ generation, (K'.proc p).endpoint = .of p generation := fun p => by
      rw [names']
      exact ok.ipc.slot p
    have live' : K'.Live K.procPtr := by
      rw [State.Live, rts]
      exact live
    have notSends' : .sending ∉ (K'.proc K.procPtr).rts := by rwa [rts]
    obtain ⟨receives, getfrom⟩ := await_eq_some.mp ((await K.procPtr).trans waits)
    have self' : (K'.proc K.procPtr).blockedOn = (K'.proc K.procPtr).endpoint := by
      rw [Proc.blockedOn, if_neg notSends', if_pos receives, getfrom, names']
    have wont : ¬ (K'.proc K.procPtr).WillReceive (K'.proc q).endpoint := by
      rintro ⟨_, isAny | isQ⟩
      · rw [getfrom, ← names'] at isAny
        exact (endpoint_ne_special slot K.procPtr).1 isAny
      · rw [getfrom, ← names'] at isQ
        exact other (endpoint_inj slot isQ).symm
    unfold miniSend
    rw [← names']
    simp only [slotOf_endpoint slot]
    rw [if_neg live'.1, if_neg wont, if_neg Bool.false_ne_true,
      deadlock_self slot live' self' other .send (by omega) (by omega)]
    rfl

theorem smallState_self_receive :
    ∃ K', doIpc small smallState .receive (smallState.proc smallState.procPtr).endpoint none =
        .ok K' ∧
      (K'.proc smallState.procPtr).await = some (smallState.proc smallState.procPtr).endpoint ∧
      ∀ q ≠ smallState.procPtr, ∀ content fromKernel,
        miniSend small K' q (smallState.proc smallState.procPtr).endpoint (some content) false
          fromKernel = .error .outside :=
  self_receive_halts (smallState_reached : Reached smallImage True True smallState)
    (by decide +kernel) (by decide +kernel) (by decide +kernel) none

theorem rtsUnset_outside {p : Fin n} {f : Finset Rts} (stopped : ¬ (K.proc p).Runnable)
    (last : (K.proc p).priority = cfg.queues) (all : (K.proc p).rts ⊆ f) :
    rtsUnset cfg K p f = .error .outside := by
  have starts : ((K.clearFlags p f).proc p).Runnable := by
    rw [State.clearFlags, modify_self]
    exact Finset.sdiff_eq_empty_iff_subset.mpr all
  have outside : ¬ ((K.clearFlags p f).proc p).priority < cfg.queues := by
    rw [State.clearFlags, modify_self, last]
    exact lt_irrefl _
  rw [rtsUnset, if_pos ⟨stopped, starts⟩, enqueue, ensure_bind starts, ensure, if_neg outside]
  rfl

/-- sched_proc accepts NR_SCHED_QUEUES as a priority.  It leaves the arrays of the ready queues if
nothing but the quantum keeps the process from being ready, and else they are left when the last
of its flags is cleared. -/
theorem last_queue_halts (reached : Reached image Fair Clean K) (p : Fin n) {quantum : Nat}
    (some : quantum ≠ 0) :
    (schedProc cfg K p cfg.queues quantum = .error .outside ↔
      (K.proc p).rts ⊆ {Rts.noQuantum}) ∧
    (¬ (K.proc p).rts ⊆ {Rts.noQuantum} →
      ∃ K', schedProc cfg K p cfg.queues quantum = .ok (.ok, K') ∧
        ∀ f, (K'.proc p).rts ⊆ f → rtsUnset cfg K' p f = .error .outside) := by
  obtain ⟨callers, ok⟩ := reached.left.ok
  obtain ⟨ready, run⟩ := ok.ready
  obtain ⟨K₁, isOk, stopped, same⟩ :
      ∃ K₁, (if (K.proc p).Runnable then rtsSet cfg K p {Rts.noQuantum} else .ok K) = .ok K₁ ∧
        ¬ (K₁.proc p).Runnable ∧
        ((K₁.proc p).rts ⊆ {Rts.noQuantum} ↔ (K.proc p).rts ⊆ {Rts.noQuantum}) := by
    split
    · next runnable =>
        obtain ⟨K₁, ready', isOk, _, requeued⟩ := rtsSet_spec run p {Rts.noQuantum}
        obtain ⟨next, here⟩ := requeued.proc p
        have rts : (K₁.proc p).rts = {Rts.noQuantum} := by
          rw [here, State.setFlags, modify_self]
          change (K.proc p).rts ∪ _ = _
          rw [runnable, Finset.empty_union]
        refine ⟨K₁, isOk, ?_, ?_⟩
        · rw [Proc.Runnable, rts]
          exact Finset.singleton_ne_empty _
        · rw [rts, runnable]
          exact iff_of_true (Finset.Subset.refl _) (Finset.empty_subset _)
    · next stopped => exact ⟨K, rfl, stopped, .rfl⟩
  generalize isL : (K₁.modify p fun p =>
    { p with
      priority := cfg.queues
      quantumSize := quantum
      cpuTimeLeft := quantum * cfg.cyclesPerMs }) = L
  have rts : (L.proc p).rts = (K₁.proc p).rts := by rw [← isL, modify_self]
  have last : (L.proc p).priority = cfg.queues := by rw [← isL, modify_self]
  have stopped' : ¬ (L.proc p).Runnable := by rwa [Proc.Runnable, rts]
  have result : schedProc cfg K p cfg.queues quantum =
      (rtsUnset cfg L p {Rts.noQuantum} >>= fun K => .ok (.ok, K)) := by
    rw [schedProc, if_neg (lt_irrefl _), if_neg some, ← isL]
    by_cases runnable : (K.proc p).Runnable
    · rw [if_pos runnable] at isOk ⊢
      rw [isOk]
      rfl
    · rw [if_neg runnable] at isOk ⊢
      cases isOk
      rfl
  rw [result, ← same, ← rts]
  by_cases onlyQuantum : (L.proc p).rts ⊆ {Rts.noQuantum}
  · rw [rtsUnset_outside stopped' last onlyQuantum]
    exact ⟨iff_of_true rfl onlyQuantum, absurd onlyQuantum⟩
  · have waits : rtsUnset cfg L p {Rts.noQuantum} = .ok (L.clearFlags p {Rts.noQuantum}) := by
      refine if_neg fun starts => onlyQuantum ?_
      have empty := starts.2
      rw [State.clearFlags, modify_self] at empty
      exact Finset.sdiff_eq_empty_iff_subset.mp empty
    rw [waits]
    refine ⟨iff_of_false (by rintro ⟨⟩) onlyQuantum, fun _ => ⟨_, rfl, fun f all => ?_⟩⟩
    refine rtsUnset_outside (fun starts => onlyQuantum ?_) ?_ all
    · rw [State.clearFlags, modify_self] at starts
      exact Finset.sdiff_eq_empty_iff_subset.mp starts
    · rw [State.clearFlags, modify_self]
      exact last

theorem smallState_last_queue :
    (schedProc small smallState 3 small.queues 5 = .error .outside ↔
      (smallState.proc 3).rts ⊆ {Rts.noQuantum}) ∧
    (¬ (smallState.proc 3).rts ⊆ {Rts.noQuantum} →
      ∃ K', schedProc small smallState 3 small.queues 5 = .ok (.ok, K') ∧
        ∀ f, (K'.proc 3).rts ⊆ f → rtsUnset small K' 3 f = .error .outside) :=
  last_queue_halts (smallState_reached : Reached smallImage True True smallState) 3 (by decide)

/-- A send of `p` to `d` would have to wait. -/
structure State.Blocks (K : State n k α) (p d : Fin n) : Prop where
  live : K.Live d
  other : d ≠ p
  wont : ¬ (K.proc d).WillReceive (K.proc p).endpoint
  noCycle : ¬ Leads K.waits d p

theorem State.Blocks.congr {p d : Fin n} (blocks : K.Blocks p d)
    (same : ∀ x, SameIpc (K.proc x) (K'.proc x)) : K'.Blocks p d where
  live := by
    rw [State.Live, (same d).noEndpoint, (same d).slotFree]
    exact blocks.live
  other := blocks.other
  wont := by
    rw [(same d).willReceive, (same p).endpoint]
    exact blocks.wont
  noCycle := by
    have waits : K'.waits = K.waits := funext fun x => by
      rw [State.waits, (same x).blockedOn]
      rfl
    rw [waits]
    exact blocks.noCycle

theorem miniSend_stale (ok : Ok cfg Fair Clean K callers) {p d : Fin n} (free : Free K p)
    (stale : K.Stale p) (blocks : K.Blocks p d) (content : Content n α) (fromKernel : Bool) :
    miniSend cfg K p (K.proc d).endpoint (some content) false fromKernel = .error .linked := by
  have live := blocks.live
  have sends := miniSend_spec ok free live.2 blocks.other (some content) false fromKernel
  cases result : miniSend cfg K p (K.proc d).endpoint (some content) false fromKernel with
  | error halt => rw [(sends.error result).1]
  | ok r =>
      have sent := sends.ok result
      cases sent with
      | refused fails =>
          have reason := (miniSend_fails_iff ok live.2 blocks.other content fromKernel).mp
            ⟨_, result, fails⟩
          exact absurd reason (not_or.mpr ⟨live.1, fun locked => blocks.noCycle locked.2⟩)
      | handed _ will _ _ _ => exact absurd will blocks.wont
      | @queued _ K' _ _ _ _ keeps mail =>
          have notSends : K'.mail.pend p = none := pend_eq_none.mpr (keeps.stale p stale).1
          rw [mail, Mail.queue] at notSends
          simp at notSends

theorem doIpc_stale (ok : Ok cfg Fair Clean K callers) (running : Running K)
    (stale : K.Stale K.procPtr) {d : Fin n} (blocks : K.Blocks K.procPtr d) {call : Call}
    (sends : call = .send ∨ call = .sendrec)
    (allowed : refusal cfg K K.procPtr call (K.proc d).endpoint = none) (text : α) :
    doIpc cfg K call (K.proc d).endpoint (some text) = .error .linked := by
  have free := running.free
  unfold doIpc doSyncIpc
  rw [ensure_bind free.live.2, ensure_bind running.noMessage, allowed]
  obtain rfl | rfl := sends
  · change (miniSend cfg K _ _ (some (Content.user text)) false false >>= _) = _
    rw [miniSend_stale ok free stale blocks]
    rfl
  · -- MF_REPLY_PEND is set before the send
    obtain ⟨ok₁, keeps₁, mail₁⟩ := misc_ok ok (f := insert .replyPend) free.live.2 (by simp)
    have blocks₁ := blocks.congr (modify_sameIpc K K.procPtr
      (g := fun p => { p with misc := insert .replyPend p.misc })
      fun p => ⟨.rfl, .rfl, .rfl, .rfl, by simp, rfl, rfl, rfl, rfl, rfl⟩)
    have linked := miniSend_stale ok₁ (free.of_same keeps₁ mail₁) (keeps₁.stale _ stale) blocks₁
      (.user text) false
    rw [keeps₁.endpoint] at linked
    change ((miniSend cfg _ _ _ (some (Content.user text)) false false >>= _) >>= _) = _
    rw [linked]
    rfl

theorem notifyScheduler_stale (ok : Ok cfg Fair Clean K callers) {p s : Fin n}
    (runnable : (K.proc p).Runnable) (stale : K.Stale p) (blocks : K.Blocks p s) :
    notifyScheduler cfg K p s = .error .linked := by
  obtain ⟨K₁, isOk, ok₁, quiet, _, free⟩ := out_of_time ok runnable
  have linked := miniSend_stale ok₁ free (quiet.stale stale) (blocks.congr quiet.same)
    .schedulingNoQuantum true
  unfold notifyScheduler
  rw [isOk]
  change (miniSend cfg K₁ p (K₁.proc s).endpoint _ false true >>= _) = _
  rw [linked]
  rfl

theorem switchToUser_spent (running : Running K) (notIdle : K.procPtr ≠ cfg.idle)
    (spent : (K.proc K.procPtr).cpuTimeLeft = 0) {halt : Halt}
    (halts : procNoTime cfg K K.procPtr = .error halt) (fuel : Nat) :
    switchToUser cfg (fuel + 1) K = .error halt := by
  have chosen : choose cfg K = .ok K := by
    unfold choose
    rw [if_neg notIdle, if_pos running.runnable]
  have noMessage : deliverWaiting cfg K K.procPtr = K := if_neg running.noMessage
  have checked : checkMiscFlags cfg K = .error halt := by
    unfold checkMiscFlags
    dsimp only
    rw [noMessage, if_pos spent, halts]
  unfold switchToUser
  rw [chosen]
  change (if K.procPtr = cfg.idle then _ else _) = _
  rw [if_neg notIdle, ensure_bind running.runnable, checked]
  rfl

theorem enter_time_stale (left : Left cfg Fair Clean K) (notIdle : K.procPtr ≠ cfg.idle)
    (stale : K.Stale K.procPtr) {s : Fin n} (blocks : K.Blocks K.procPtr s)
    (scheduled : userScheduler K K.procPtr = some s) :
    enter cfg K (.time 0) = .error .linked := by
  obtain ⟨callers, ok⟩ := left.ok
  have running := (left.running notIdle).1
  obtain ⟨ok₁, keeps₁, _⟩ := ok.modify (x := K.procPtr)
    (g := fun p => { p with cpuTimeLeft := 0 }) running.free.live.2 fun p =>
      ⟨⟨.rfl, .rfl, .rfl, .rfl, .rfl, rfl, rfl, rfl, rfl, rfl⟩,
        rfl, rfl, rfl, rfl, rfl, rfl, rfl, rfl, rfl⟩
  have blocks₁ := blocks.congr (modify_sameIpc K K.procPtr
    (g := fun p => { p with cpuTimeLeft := 0 })
    fun p => ⟨.rfl, .rfl, .rfl, .rfl, .rfl, rfl, rfl, rfl, rfl, rfl⟩)
  have stale₁ := keeps₁.stale _ stale
  have field : ∀ {β : Type} (f : Proc n k α → β), (∀ p, f { p with cpuTimeLeft := 0 } = f p) →
      f ((K.modify K.procPtr fun p => { p with cpuTimeLeft := 0 }).proc K.procPtr) =
        f (K.proc K.procPtr) := fun f same => modify_field K K.procPtr K.procPtr _ f same
  have rts := field Proc.rts fun _ => rfl
  have misc := field Proc.misc fun _ => rfl
  have scheduled₁ : userScheduler (K.modify K.procPtr fun p => { p with cpuTimeLeft := 0 })
      K.procPtr = some s := by
    unfold userScheduler
    rw [field Proc.scheduler fun _ => rfl, field Proc.priv fun _ => rfl]
    exact scheduled
  have spent : ((K.modify K.procPtr fun p => { p with cpuTimeLeft := 0 }).proc
      K.procPtr).cpuTimeLeft = 0 := by rw [modify_self]
  change switchToUser cfg (n + 1) (K.modify K.procPtr fun p => { p with cpuTimeLeft := 0 }) = _
  have here : (K.modify K.procPtr fun p => { p with cpuTimeLeft := 0 }).procPtr = K.procPtr := rfl
  generalize (K.modify K.procPtr fun p => { p with cpuTimeLeft := 0 }) = L at *
  have running₁ : Running L := by
    constructor
    · rw [here, Proc.Runnable, rts]
      exact running.runnable
    · rw [here, misc]
      exact running.noMessage
  refine switchToUser_spent running₁ (here ▸ notIdle) (here ▸ spent) ?_ n
  unfold procNoTime
  rw [here, scheduled₁]
  exact notifyScheduler_stale ok₁ (here ▸ running₁.runnable) stale₁ blocks₁

/-- Of two that send to a process that ends, one can never again block in a send.  Whenever it
would, in a SEND or SENDREC or with the message for its scheduler, the kernel halts. -/
theorem unclean_end_halts (reached : Reached image False False K) {rc : Fin n}
    (ends : step cfg K (.clear rc) K') {a b : Fin n} (differ : a ≠ b) (sendsA : K.SendsTo a rc)
    (sendsB : K.SendsTo b rc) :
    ∃ p, K.SendsTo p rc ∧ ∀ run K'', Exec (fun K event K' => step cfg K event K' ∧
        Allowed cfg False False K event) K' run K'' →
      .sending ∉ (K''.proc p).rts ∧
      (K''.procPtr = p → p ≠ cfg.idle → ∀ d, K''.Blocks p d →
        (∀ call, call = .send ∨ call = .sendrec →
          refusal cfg K'' p call (K''.proc d).endpoint = none → ∀ text,
          enter cfg K'' (.ipc call (K''.proc d).endpoint (some text)) = .error .linked) ∧
        (userScheduler K'' p = some d → enter cfg K'' (.time 0) = .error .linked)) := by
  have left := reached.left
  obtain ⟨callers, ok⟩ := left.ok
  have queuedA := (ok.ipc.queued a rc).mpr sendsA
  have queuedB := (ok.ipc.queued b rc).mpr sendsB
  have live : K.Live rc := by
    obtain ⟨_, d, isTarget, live⟩ := ok.ipc.target a sendsA.1
    rwa [endpoint_inj ok.ipc.slot (sendsA.2.symm.trans isTarget)]
  -- the first of them has another one behind it
  obtain ⟨p, queued, linked⟩ : ∃ p ∈ callers rc, K.qLink p ≠ none := by
    have chain := ok.ipc.chain rc live
    generalize callers rc = l at *
    generalize (K.proc rc).callerQ = head at chain
    cases chain with
    | nil => cases queuedA
    | @cons x rest tail =>
        refine ⟨x, List.mem_cons_self, fun null => ?_⟩
        rw [null] at tail
        cases tail
        exact differ ((List.mem_singleton.mp queuedA).trans (List.mem_singleton.mp queuedB).symm)
  have sends := (ok.ipc.queued p rc).mp queued
  refine ⟨p, sends, fun run K'' exec => ?_⟩
  have allowed : Allowed cfg False False K (.clear rc) := ⟨trivial, nofun, nofun⟩
  obtain ⟨left', handled⟩ := (enter_spec left ends.1 allowed).ok ends.2
  have invariant : AllStates (fun K => Left cfg False False K ∧ K.Stale p) run K'' := by
    refine exec.invariant (fun K event K' holds next => ?_) ⟨left', ?_⟩
    · obtain ⟨left, handled⟩ := (enter_spec holds.1 next.1.1 next.2).ok next.1.2
      exact ⟨left, handled.stale p (.inl holds.2)⟩
    · exact handled.stale p (.inr ⟨rc, rfl, sends, linked⟩)
  obtain ⟨left'', stale⟩ := invariant.2
  refine ⟨stale.1, fun isCurrent notIdle d blocks => ?_⟩
  subst isCurrent
  refine ⟨fun call sends allowed text => ?_, enter_time_stale left'' notIdle stale blocks⟩
  obtain ⟨callers, ok⟩ := left''.ok
  have running := (left''.running notIdle).1
  change (doIpc cfg K'' call (K''.proc d).endpoint (some text) >>= _) = _
  rw [doIpc_stale ok running stale blocks sends allowed]
  rfl

theorem twoSent_ends : ∃ p, twoSent.SendsTo p 3 ∧ ∀ run K'',
    Exec (fun K event K' => step small K event K' ∧ Allowed small False False K event)
      (twoSent.after small (.clear 3)) run K'' →
    .sending ∉ (K''.proc p).rts ∧
    (K''.procPtr = p → p ≠ small.idle → ∀ d, K''.Blocks p d →
      (∀ call, call = .send ∨ call = .sendrec →
        refusal small K'' p call (K''.proc d).endpoint = none → ∀ text,
        enter small K'' (.ipc call (K''.proc d).endpoint (some text)) = .error .linked) ∧
      (userScheduler K'' p = some d → enter small K'' (.time 0) = .error .linked)) :=
  unclean_end_halts (reached_of_playable (by decide +kernel) (by decide +kernel))
    ⟨by decide +kernel, eq_stateOf twoSent (by decide +kernel)⟩
    (by decide : (4 : Fin 6) ≠ 5) (by decide +kernel) (by decide +kernel)

end Csc457.Kernel
