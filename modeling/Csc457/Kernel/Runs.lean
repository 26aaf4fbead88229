import Csc457.Kernel.Boot

/-!
# Runs of the kernel

The kernel is booted, and entered for one event after the other.  No process receives from
itself, and sched_proc is not given NR_SCHED_QUEUES, which it accepts, as a priority.  Some
results are about runs in which no process is scheduled anew while it is the current one, and
some about those in which no process ends that several are sending to.
-/

set_option autoImplicit false

namespace Csc457.Kernel

open Function
open Csc457.Lib.LinkedQueue Csc457.Lib.Transition

variable {n k : Nat} {α : Type} (cfg : Config n k α)

/-- What the processes do not do. -/
def Sane (K : State n k α) : Event n α → Prop
  | .ipc call e _ => call = .receive → slotOf n e ≠ some K.procPtr
  | .schedule _ priority _ => priority ≠ cfg.queues
  | _ => True

def FairEvent (K : State n k α) : Event n α → Prop
  | .schedule p _ _ => p ≠ K.procPtr
  | _ => True

def CleanEvent (K : State n k α) : Event n α → Prop
  | .clear d => ∀ a b, K.SendsTo a d → K.SendsTo b d → a = b
  | _ => True

structure Allowed (Fair Clean : Prop) (K : State n k α) (event : Event n α) : Prop where
  sane : Sane cfg K event
  fair : Fair → FairEvent K event
  clean : Clean → CleanEvent K event

/-- What the event adds to what `p` says to `d`, by the result that the call returns. -/
def said (K : State n k α) (event : Event n α) (p d : Fin n) : List α :=
  match event with
  | .ipc call e m => match doIpc cfg K call e m with
      | .ok K' => accepted K.procPtr call e m (K'.proc K.procPtr).retreg p d
      | .error _ => []
  | _ => []

variable {cfg} {K K' : State n k α} {Fair Clean : Prop} {callers : Fin n → List (Fin n)}

/-- What an event leaves behind before another process is chosen. -/
structure Handled (cfg : Config n k α) (Fair Clean : Prop) (K : State n k α) (event : Event n α)
    (K' : State n k α) : Prop where
  ok : ∃ callers', Ok cfg Fair Clean K' callers'
  endpoints : K'.endpoints = K.endpoints
  sub : ∀ p d, (K'.flow p d).Sublist (K.flow p d ++ said cfg K event p d)
  flow : ∀ p d, (∀ rc, event = .clear rc → p ≠ rc ∧ d ≠ rc) →
    K'.flow p d = K.flow p d ++ said cfg K event p d
  stale : ∀ p, K.Stale p ∨ (∃ rc, event = .clear rc ∧ K.SendsTo p rc ∧ K.qLink p ≠ none) →
    K'.Stale p

theorem Handled.silent {event : Event n α} (ok : Ok cfg Fair Clean K' callers)
    (silent : Silent K K') (nothing : ∀ p d, said cfg K event p d = [])
    (noEnd : ∀ rc, event ≠ .clear rc) : Handled cfg Fair Clean K event K' where
  ok := ⟨callers, ok⟩
  endpoints := silent.endpoints
  sub p d := by rw [silent.flow, nothing, List.append_nil]
  flow p d _ := by rw [silent.flow, nothing, List.append_nil]
  stale p linked := by
    obtain stale | ⟨rc, isClear, _⟩ := linked
    · exact silent.stale p stale
    · exact absurd isClear (noEnd rc)

theorem post_keeps (K : State n k α) (source dst : Fin n) (bits : Finset Nat) :
    Keeps K (post cfg K source dst bits) := by
  refine Keeps.modifyPriv ?_ fun id isSet => .inl ?_
  · split
    · exact ⟨rfl, rfl, rfl, rfl, rfl⟩
    · split
      · exact ⟨rfl, rfl, rfl, rfl, rfl⟩
      · exact ⟨rfl, rfl, rfl, rfl, rfl⟩
  · split at isSet
    · exact isSet
    · split at isSet
      · exact isSet
      · exact isSet

theorem notify_flow (ok : Ok cfg Fair Clean K callers) {source dst : Fin n} (keeps : Keeps K K')
    (mail : K'.mail = K.mail ∨ (K.proc dst).WillReceive (K.proc source).endpoint ∧ ∃ arg,
      K'.mail = K.mail.hand dst ⟨(K.proc source).endpoint, .notify source arg⟩) (p d : Fin n) :
    K'.flow p d = K.flow p d := by
  rw [State.flow, keeps.endpoints]
  obtain mail | ⟨will, arg, mail⟩ := mail
  · rw [mail]
    rfl
  · rw [mail]
    refine (hand_flow ok.ipc.injective
      (inbox_eq_none.mpr (ok.ipc.noMessage will)) (.inr rfl)).trans ?_
    simp [Content.text, State.flow]

theorem stopFlags_other {f : Rts} (isStop : f ∈ stopFlags) :
    Disjoint {f} callFlags ∧ .preempted ∉ ({f} : Finset Rts) ∧ f ≠ .noQuantum := by
  have apart : Disjoint stopFlags (callFlags ∪ {Rts.preempted, Rts.noQuantum}) := by decide
  have other := Finset.disjoint_left.mp apart isStop
  simp only [Finset.mem_union, Finset.mem_insert, Finset.mem_singleton, not_or] at other
  refine ⟨Finset.disjoint_singleton_left.mpr other.1, fun same => ?_, other.2.2⟩
  exact other.2.1 (Finset.mem_singleton.mp same).symm

theorem setScheduler_ok (ok : Ok cfg Fair Clean K callers) {p s : Fin n}
    (used : .slotFree ∉ (K.proc s).rts) :
    Ok cfg Fair Clean (K.modify p fun p => { p with scheduler := some s }) callers ∧
      Silent K (K.modify p fun p => { p with scheduler := some s }) := by
  have field : ∀ {β : Type} (field : Proc n k α → β),
      (∀ x : Proc n k α, field { x with scheduler := some s } = field x) → ∀ q,
      field ((K.modify p fun p => { p with scheduler := some s }).proc q) = field (K.proc q) :=
    fun field same q => modify_field K p q _ field same
  have rts := field Proc.rts fun _ => rfl
  have endpoint := field Proc.endpoint fun _ => rfl
  have same := modify_sameIpc K p (g := fun p => { p with scheduler := some s })
    fun p => ⟨.rfl, .rfl, .rfl, .rfl, .rfl, rfl, rfl, rfl, rfl, rfl⟩
  have mail : (K.modify p fun p => { p with scheduler := some s }).mail = K.mail :=
    Mail.ext (funext (field Proc.pend fun _ => rfl)) (funext (field Proc.await fun _ => rfl))
      (funext (field Proc.inbox fun _ => rfl)) (funext (field Proc.got fun _ => rfl))
  have quiet : Quiet K (K.modify p fun p => { p with scheduler := some s }) := ⟨same, mail, rfl⟩
  have table : Table cfg (K.modify p fun p => { p with scheduler := some s }) := by
    refine ⟨fun q => ?_, fun q => ?_, fun q => ?_, fun q => ?_, fun q x isScheduler => ?_, ?_,
      ok.table.pending, ok.table.notifiers, ok.table.masks⟩
    · rw [rts]
      exact ok.table.free q
    · rw [rts]
      exact ok.table.task q
    · rw [field Proc.priority fun _ => rfl]
      exact ok.table.level q
    · rw [rts, field Proc.quantumSize fun _ => rfl]
      exact ok.table.quantum q
    · rw [rts]
      rw [modify_apply] at isScheduler
      split at isScheduler
      · cases isScheduler
        exact used
      · exact ok.table.scheduler q x isScheduler
    · rw [rts]
      exact ok.table.idle
  have queues : Queues cfg Fair (K.modify p fun p => { p with scheduler := some s }) :=
    ok.toQueues.modify p fun _ => ⟨rfl, rfl, rfl, rfl⟩
  exact ⟨{ queues with toCalm := quiet.calm ok.toCalm table }, quiet.silent⟩

theorem handle_spec {event : Event n α} (left : Left cfg Fair Clean K)
    (possible : Possible cfg K event) (allowed : Allowed cfg Fair Clean K event) :
    Ends (SwitchHalts Clean) (handle cfg K event) (Handled cfg Fair Clean K event) := by
  obtain ⟨callers, ok⟩ := left.ok
  obtain ⟨sane, fair, clean⟩ := allowed
  cases event with
  | ipc call e m =>
      have running := (left.running possible).1
      have calls := doIpc_spec ok running call sane m
      change Ends _ (doIpc cfg K call e m) _
      cases result : doIpc cfg K call e m with
      | error halt =>
          obtain ⟨isLinked, notNull⟩ := calls.error result
          exact .inr ⟨isLinked, ok.null_link running.free notNull⟩
      | ok K' =>
          obtain ⟨ok', keeps, flow⟩ := calls.ok result
          have appends : ∀ p d, K'.flow p d = K.flow p d ++ said cfg K (.ipc call e m) p d := by
            intro p d
            rw [said, result]
            exact flow p d
          refine ⟨ok', keeps.endpoints, fun p d => (appends p d).symm ▸ List.Sublist.refl _,
            fun p d _ => appends p d, fun p linked => ?_⟩
          obtain stale | ⟨rc, isClear, _⟩ := linked
          · exact keeps.stale p stale
          · cases isClear
  | time left' =>
      have running := (left.running possible).1
      obtain ⟨ok', keeps, mail⟩ := ok.modify (x := K.procPtr)
        (g := fun p => { p with cpuTimeLeft := left' }) running.free.live.2 fun p =>
          ⟨⟨.rfl, .rfl, .rfl, .rfl, .rfl, rfl, rfl, rfl, rfl, rfl⟩,
            rfl, rfl, rfl, rfl, rfl, rfl, rfl, rfl, rfl⟩
      refine Ends.of_eq rfl (.silent ok' ⟨fun p d => ?_, keeps.endpoints, keeps.stale⟩
        (fun _ _ => rfl) (by rintro _ ⟨⟩))
      rw [State.flow, mail, keeps.endpoints]
      rfl
  | notify source e bits =>
      obtain ⟨dst, isOk⟩ := Option.ne_none_iff_exists'.mp possible.2
      obtain ⟨rfl, used⟩ := isokendpt_used ok.toCalm isOk
      have posted : Keeps K (post cfg K source dst bits) := post_keeps K source dst bits
      have ok₁ : Ok cfg Fair Clean (post cfg K source dst bits) callers := ok.modifyPriv posted
      obtain ⟨K', isNotify, ok', keeps, mail⟩ := miniNotify_spec ok₁ source used
        (posted.procNr _ ▸ possible.1)
      refine Ends.of_eq (a := K') ?_ (.silent ok' ⟨fun p d => notify_flow ok₁ keeps mail p d,
        keeps.endpoints.trans posted.endpoints, fun p stale => keeps.stale p (posted.stale p stale)⟩
        (fun _ _ => rfl) (by rintro _ ⟨⟩))
      have isDst : okendpt K (K.proc dst).endpoint = .ok dst := by
        unfold okendpt
        rw [isOk]
      exact bind_ok.mpr ⟨dst, isDst, bind_ok.mpr ⟨_, isNotify, rfl⟩⟩
  | stop p f =>
      obtain ⟨other, _, _⟩ := stopFlags_other possible.1
      obtain ⟨K', isOk, ok', quiet, _⟩ := stop_ok ok (used_of_notEmpty ok.table possible.2) other
      exact Ends.of_eq isOk (.silent ok' quiet.silent (fun _ _ => rfl) (by rintro _ ⟨⟩))
  | go p f =>
      obtain ⟨other, mark, quantum⟩ := stopFlags_other possible.1
      obtain ⟨K', isOk, ok', quiet⟩ := go_ok ok possible.2 other mark fun flag used =>
        ok.table.quantum p possible.2 used fun isSet => flag <|
          Finset.mem_sdiff.mpr ⟨isSet, fun same => quantum (Finset.mem_singleton.mp same).symm⟩
      exact Ends.of_eq isOk (.silent ok' quiet.silent (fun _ _ => rfl) (by rintro _ ⟨⟩))
  | schedule p priority quantum =>
      obtain ⟨result, K', isOk, ok', quiet⟩ := schedProc_spec ok quantum possible.2
        (used_of_notEmpty ok.table possible.1) sane fair
      refine Ends.of_eq (a := K') ?_
        (.silent ok' quiet.silent (fun _ _ => rfl) (by rintro _ ⟨⟩))
      exact bind_ok.mpr ⟨_, isOk, rfl⟩
  | scheduler p s =>
      obtain ⟨ok', silent⟩ := setScheduler_ok ok (p := p) (used_of_notEmpty ok.table possible.2)
      exact Ends.of_eq rfl (.silent ok' silent (fun _ _ => rfl) (by rintro _ ⟨⟩))
  | mask p mask =>
      have keeps : Keeps K (K.fillMask p mask) := fillMask_keeps possible mask
      exact Ends.of_eq rfl (.silent (ok.privs keeps) ⟨fun _ _ => rfl, rfl, fun _ => id⟩
        (fun _ _ => rfl) (by rintro _ ⟨⟩))
  | clear rc =>
      obtain ⟨K', callers', isOk, ok', endpoints, _, stale, flow⟩ := clearEndpoint_spec ok
        (used_of_notEmpty ok.table possible.1 : .slotFree ∉ (K.proc rc).rts) fun isClean a queued b queued' =>
          clean isClean a b ((ok.ipc.queued a rc).mp queued) ((ok.ipc.queued b rc).mp queued')
      refine Ends.of_eq isOk ⟨⟨callers', ok'⟩, endpoints, fun p d => ?_, fun p d others => ?_,
        fun p linked => stale p (linked.imp_right ?_)⟩
      · exact (List.append_nil (K.flow p d)).symm ▸ (flow p d).1
      · exact ((flow p d).2 (others rc rfl).1 (others rc rfl).2).trans (List.append_nil _).symm
      · rintro ⟨rc', isClear, holds⟩
        cases isClear
        exact holds

theorem enter_spec {event : Event n α} (left : Left cfg Fair Clean K)
    (possible : Possible cfg K event) (allowed : Allowed cfg Fair Clean K event) :
    Ends (SwitchHalts Clean) (enter cfg K event) fun K' =>
      Left cfg Fair Clean K' ∧ Handled cfg Fair Clean K event K' := by
  unfold enter
  refine Ends.bind (handle_spec left possible allowed) fun K₁ handled => ?_
  obtain ⟨callers₁, ok₁⟩ := handled.ok
  have enough : K₁.inTime.card < n + 1 := by
    have card := K₁.inTime.card_le_univ
    rw [Fintype.card_fin] at card
    omega
  refine (switchToUser_spec ok₁ enough).mono (fun _ => id) fun K' ⟨left', silent⟩ => ⟨left', ?_⟩
  refine ⟨left'.ok, silent.endpoints.trans handled.endpoints, fun p d => ?_, fun p d others => ?_,
    fun p linked => silent.stale p (handled.stale p linked)⟩
  · rw [silent.flow]
    exact handled.sub p d
  · rw [silent.flow]
    exact handled.flow p d others

def Reached (image : Image cfg) (Fair Clean : Prop) : State n k α → Prop :=
  Reach (fun K => boot image = .ok K)
    fun K event K' => step cfg K event K' ∧ Allowed cfg Fair Clean K event

variable {image : Image cfg}

theorem Reached.left (reached : Reached image Fair Clean K) : Left cfg Fair Clean K := by
  refine Reach.invariant (fun K isBoot => ?_) (fun K event K' left next => ?_) reached
  · exact ((boot_spec image).ok isBoot).1
  · exact ((enter_spec left next.1.1 next.2).ok next.1.2).1

section
variable (cfg) (K)

instance : (event : Event n α) → Decidable (Possible cfg K event)
  | .ipc _ _ _ => inferInstanceAs (Decidable (_ ≠ _))
  | .time _ => inferInstanceAs (Decidable (_ ≠ _))
  | .notify _ _ _ => inferInstanceAs (Decidable (_ ≠ _ ∧ _ ≠ _))
  | .stop _ _ => inferInstanceAs (Decidable (_ ∈ _ ∧ ¬ _))
  | .go _ _ => inferInstanceAs (Decidable (_ ∈ _ ∧ _ = _))
  | .schedule _ _ _ => inferInstanceAs (Decidable (¬ _ ∧ _ = _))
  | .scheduler _ _ => inferInstanceAs (Decidable (¬ _ ∧ ¬ _))
  | .mask _ _ => inferInstanceAs (Decidable (_ ≠ _))
  | .clear _ => inferInstanceAs (Decidable (¬ _ ∧ _ = _))

instance (p d : Fin n) : Decidable (K.SendsTo p d) := inferInstanceAs (Decidable (_ ∧ _))

instance : (event : Event n α) → Decidable (Allowed cfg True True K event)
  | .ipc call e _ => decidable_of_iff (call = .receive → slotOf n e ≠ some K.procPtr)
      ⟨fun sane => ⟨sane, fun _ => trivial, fun _ => trivial⟩, Allowed.sane⟩
  | .schedule p priority _ => decidable_of_iff (priority ≠ cfg.queues ∧ p ≠ K.procPtr)
      ⟨fun holds => ⟨holds.1, fun _ => holds.2, fun _ => trivial⟩,
        fun allowed => ⟨allowed.sane, allowed.fair trivial⟩⟩
  | .clear d => decidable_of_iff (∀ a b, K.SendsTo a d → K.SendsTo b d → a = b)
      ⟨fun few => ⟨trivial, fun _ => trivial, fun _ => few⟩, fun allowed => allowed.clean trivial⟩
  | .time _ => isTrue ⟨trivial, fun _ => trivial, fun _ => trivial⟩
  | .notify _ _ _ => isTrue ⟨trivial, fun _ => trivial, fun _ => trivial⟩
  | .stop _ _ => isTrue ⟨trivial, fun _ => trivial, fun _ => trivial⟩
  | .go _ _ => isTrue ⟨trivial, fun _ => trivial, fun _ => trivial⟩
  | .scheduler _ _ => isTrue ⟨trivial, fun _ => trivial, fun _ => trivial⟩
  | .mask _ _ => isTrue ⟨trivial, fun _ => trivial, fun _ => trivial⟩

def stateOf (x : Run (State n k α)) : State n k α :=
  match x with
  | .ok K' => K'
  | .error _ => K

def comesThrough (x : Run (State n k α)) : Bool :=
  match x with
  | .ok _ => true
  | .error _ => false

theorem eq_stateOf {x : Run (State n k α)} (through : comesThrough x = true) :
    x = .ok (stateOf K x) := by
  cases x with
  | ok K' => rfl
  | error halt => cases through

def Enters (event : Event n α) : Prop :=
  Possible cfg K event ∧ Allowed cfg True True K event ∧ comesThrough (enter cfg K event) = true

instance (event : Event n α) : Decidable (Enters cfg K event) :=
  inferInstanceAs (Decidable (_ ∧ _ ∧ _))

def State.after (event : Event n α) : State n k α := stateOf K (enter cfg K event)

end

def start (image : Image cfg) : State n k α := stateOf (blank image) (boot image)

theorem Allowed.weaken {event : Event n α} (allowed : Allowed cfg True True K event) :
    Allowed cfg Fair Clean K event :=
  ⟨allowed.sane, fun _ => allowed.fair trivial, fun _ => allowed.clean trivial⟩

theorem reached_of_playable {events : List (Event n α)}
    (through : comesThrough (boot image : Run (State n k α)) = true)
    (playable : Playable (Enters cfg) (State.after cfg) (start image) events) :
    Reached image Fair Clean (events.foldl (State.after cfg) (start image)) := by
  refine Reach.exec (.init (eq_stateOf _ through)) (playable.exec fun K event enters => ?_)
  exact ⟨⟨enters.1, eq_stateOf K enters.2.2⟩, enters.2.1.weaken⟩

/-- IDLE, HARDWARE, SYSTEM, the root system process and two more. -/
def small : Config 6 4 Nat where
  queues := 3
  chunkBits := 32
  chunkBits_pos := by decide
  cyclesPerMs := 1
  cyclesPerMs_pos := by decide
  kernelTask p := p < 3
  hardware := 1
  system := 2
  idle := 0
  idleTask := by decide
  delivermsg p :=
    { p with
      got := p.got ++ [p.delivermsg]
      misc := p.misc.erase .delivermsg
      delivermsg := { p.delivermsg with source := .none }
      retreg := .ok }
  copies _ _ := ⟨_, _, rfl⟩

def smallImage : Image small where
  entries := [⟨0, false⟩, ⟨1, false⟩, ⟨2, false⟩, ⟨3, false⟩, ⟨4, true⟩, ⟨5, false⟩]
  distinct := by decide
  idle := by decide
  rootsys := 3
  rootsys_user := by decide
  srvQ := 1
  srvQ_lt := by decide
  srvQt := 7
  srvQt_ne := by decide
  queues_pos := by decide
  privOf p := if p = 3 then 1 else if p = 4 then 2 else if p = 5 then 3 else 0
  privs i :=
    { procNr := some (if i = 0 then 2 else if i = 1 then 3 else if i = 2 then 4 else 5)
      preemptible := true
      trapMask := fun _ => true
      otherTraps := false
      ipcTo := fun _ => false
      notifyPending := fun _ => false
      intPending := ∅
      sigPending := ∅ }
  nothing _ _ := rfl
  tskM := 0
  srvM := 15
  silent _ _ := rfl
  associated _ _ := nofun
  notifiers _ _ := nofun

/-- The fifth process is started, is sent a message and takes it, becomes the scheduler of the
root system process and blocks in a send to it. -/
def smallEvents : List (Event 6 Nat) :=
  [.go 4 .noPriv, .go 4 .vminhibit, .schedule 4 1 5, .ipc .send (.of 4 0) (some 17),
    .ipc .receive (.of 3 0) none, .scheduler 3 4, .ipc .send (.of 3 0) (some 18)]

def smallState : State 6 4 Nat := smallEvents.foldl (State.after small) (start smallImage)

theorem smallState_reached : Reached smallImage Fair Clean smallState :=
  reached_of_playable (by decide +kernel) (by decide +kernel)

/-- The root system process is stopped, and the two others send to it. -/
def twoSenders : List (Event 6 Nat) :=
  [.go 4 .noPriv, .go 4 .vminhibit, .schedule 4 1 5, .go 5 .noPriv, .schedule 5 1 5,
    .stop 3 .procStop, .ipc .send (.of 3 0) (some 1), .ipc .send (.of 3 0) (some 2)]

def twoSent : State 6 4 Nat := twoSenders.foldl (State.after small) (start smallImage)

/-- The root system process is notified by the fifth, and by SYSTEM, and then runs. -/
def twoNotifiers : List (Event 6 Nat) :=
  [.go 4 .noPriv, .go 4 .vminhibit, .schedule 4 1 5, .ipc .send (.of 4 0) (some 17),
    .ipc .receive (.of 3 0) none, .ipc .notify (.of 3 0) none, .notify 2 (.of 3 0) {1},
    .stop 4 .procStop]

def twoNotified : State 6 4 Nat := twoNotifiers.foldl (State.after small) (start smallImage)

/-! ## What is always true -/

/-- The check of the queues never fails. -/
theorem queues_always_ok (reached : Reached image Fair Clean K) : runqueuesOk cfg K = true := by
  obtain ⟨callers, ok⟩ := reached.left.ok
  obtain ⟨ready, run⟩ := ok.ready
  exact run.checked

theorem smallState_queues : runqueuesOk small smallState = true :=
  queues_always_ok (smallState_reached : Reached smallImage True True smallState)

/-- IDLE is current only when no process is ready.  Any other current process is ready and has
time left, and none that is ready is better if it can be preempted. -/
theorem best_is_current (reached : Reached image True Clean K) :
    (K.procPtr = cfg.idle → ∀ p, ¬ (K.proc p).Runnable) ∧
    (K.procPtr ≠ cfg.idle → (K.proc K.procPtr).Runnable ∧ (K.proc K.procPtr).cpuTimeLeft ≠ 0 ∧
      ((K.priv (K.proc K.procPtr).priv).preemptible = true →
        ∀ p, (K.proc p).Runnable → (K.proc K.procPtr).priority ≤ (K.proc p).priority)) := by
  have left := reached.left
  obtain ⟨callers, ok⟩ := left.ok
  refine ⟨left.idle, fun notIdle => ?_⟩
  obtain ⟨running, time⟩ := left.running notIdle
  refine ⟨running.runnable, time, fun preemptible => ?_⟩
  refine (ok.best trivial preemptible).resolve_left fun mark => ?_
  rw [running.runnable] at mark
  exact Finset.notMem_empty _ mark

theorem smallState_best :
    (smallState.procPtr = small.idle → ∀ p, ¬ (smallState.proc p).Runnable) ∧
    (smallState.procPtr ≠ small.idle → (smallState.proc smallState.procPtr).Runnable ∧
      (smallState.proc smallState.procPtr).cpuTimeLeft ≠ 0 ∧
      ((smallState.priv (smallState.proc smallState.procPtr).priv).preemptible = true →
        ∀ p, (smallState.proc p).Runnable →
          (smallState.proc smallState.procPtr).priority ≤ (smallState.proc p).priority)) :=
  best_is_current (smallState_reached : Reached smallImage True True smallState)

/-- Nothing the kernel is entered for halts it but the panic of notify_scheduler, and the
assertion on p_q_link where a process ended that several were sending to. -/
theorem never_halts (reached : Reached image Fair Clean K) {event : Event n α}
    (possible : Possible cfg K event) (allowed : Allowed cfg Fair Clean K event) {halt : Halt}
    (halts : enter cfg K event = .error halt) :
    halt = .scheduler ∨ halt = .linked ∧ ¬ Clean :=
  (enter_spec reached.left possible allowed).error halts

def haltOf {β : Type} (x : Run β) : Option Halt :=
  match x with
  | .ok _ => none
  | .error halt => some halt

theorem eq_error {β : Type} {x : Run β} {halt : Halt} (halts : haltOf x = some halt) :
    x = .error halt := by
  cases x with
  | ok _ => cases halts
  | error halt' => rw [Option.some.inj halts]

/-- The time of the root system process ends, whose scheduler is blocked in a send to it. -/
theorem smallState_halts : ∃ halt, enter small smallState (.time 0) = .error halt ∧
    (halt = .scheduler ∨ halt = .linked ∧ ¬ True) := by
  have halts : enter small smallState (.time 0) = .error .scheduler := eq_error (by decide +kernel)
  refine ⟨_, halts, ?_⟩
  exact never_halts (smallState_reached : Reached smallImage True True smallState)
    (by decide +kernel : Possible small smallState (.time 0)) (by decide +kernel) halts

/-- Whom a process waits for is there, and nobody waits for himself, over however many others. -/
theorem no_circular_wait (reached : Reached image Fair Clean K) (p : Fin n) :
    (∀ d, K.waits p = some d → K.Live d) ∧ ¬ Leads K.waits p p := by
  obtain ⟨callers, ok⟩ := reached.left.ok
  refine ⟨fun d waits => ?_, ?_⟩
  · have isProc := ok.ipc.waits_eq waits
    obtain isNone | isAny | ⟨x, isX, live⟩ := ok.ipc.blockedOn p
    · rw [State.waits, isNone] at waits
      cases waits
    · rw [State.waits, isAny] at waits
      cases waits
    · have same : d = x := ok.ipc.injective (isProc.symm.trans isX)
      exact same ▸ live
  · obtain ⟨l, chain⟩ := ok.ipc.ends p
    exact chain.not_leads

theorem smallState_waits : (∀ d, smallState.waits 4 = some d → smallState.Live d) ∧
    ¬ Leads smallState.waits 4 4 :=
  no_circular_wait (smallState_reached : Reached smallImage True True smallState) 4

/-- For the current process deadlock ends inside its array, and finds a deadlock exactly when the
process that is called waits for the caller, over however many others, except that one of the two
may receive what the other sends. -/
theorem deadlock_exact (reached : Reached image Fair Clean K) {d : Fin n} (live : K.Live d)
    (other : d ≠ K.procPtr) (function : Call) :
    ∃ r, deadlock K function K.procPtr n (K.proc d).endpoint 1 = .ok r ∧
      (r ≠ 0 ↔ Leads K.waits d K.procPtr ∧ ¬ (K.waits d = some K.procPtr ∧
        (.sending ∈ (K.proc d).rts ↔ function ≠ .send))) := by
  obtain ⟨callers, ok⟩ := reached.left.ok
  obtain ⟨l, r, chain, isOk, exact⟩ := deadlock_spec ok.ipc function live other
  refine ⟨r, isOk, ?_⟩
  rw [ne_eq, exact, chain.mem_iff, not_or, not_not]

theorem smallState_deadlock :
    ∃ r, deadlock smallState .send smallState.procPtr 6 (smallState.proc 4).endpoint 1 = .ok r ∧
      (r ≠ 0 ↔ Leads smallState.waits 4 smallState.procPtr ∧
        ¬ (smallState.waits 4 = some smallState.procPtr ∧
          (.sending ∈ (smallState.proc 4).rts ↔ Call.send ≠ .send))) :=
  deadlock_exact (smallState_reached : Reached smallImage True True smallState)
    ⟨by decide +kernel, by decide +kernel⟩ (by decide +kernel) .send

/-- Those who send to a process are in its queue, each of them once, and none of them is one it
waits to receive from. -/
theorem no_missed_rendezvous (reached : Reached image Fair Clean K) {d : Fin n} (live : K.Live d) :
    ∃ l, Chain K.qLink (K.proc d).callerQ l ∧ ∀ p, (p ∈ l ↔ K.SendsTo p d) ∧
      (K.SendsTo p d → ¬ (K.proc d).WillReceive (K.proc p).endpoint) := by
  obtain ⟨callers, ok⟩ := reached.left.ok
  refine ⟨callers d, ok.ipc.chain d live, fun p => ⟨ok.ipc.queued p d, fun sends => ?_⟩⟩
  exact ok.met d p ((ok.ipc.queued p d).mpr sends)

theorem smallState_queued :
    ∃ l, Chain smallState.qLink (smallState.proc 3).callerQ l ∧ ∀ p,
      (p ∈ l ↔ smallState.SendsTo p 3) ∧
      (smallState.SendsTo p 3 →
        ¬ (smallState.proc 3).WillReceive (smallState.proc p).endpoint) :=
  no_missed_rendezvous (smallState_reached : Reached smallImage True True smallState)
    ⟨by decide +kernel, by decide +kernel⟩

/-- The kernel, the texts for which a call reported success, and the processes that were ended. -/
structure Traced (n k : Nat) (α : Type) where
  kernel : State n k α
  sent : Fin n → Fin n → List α
  ended : List (Fin n)

def Traced.next (cfg : Config n k α) (T : Traced n k α) (event : Event n α) (K' : State n k α) :
    Traced n k α where
  kernel := K'
  sent p d := T.sent p d ++ said cfg T.kernel event p d
  ended := match event with
    | .clear rc => rc :: T.ended
    | _ => T.ended

def TracedReached (image : Image cfg) (Fair Clean : Prop) : Traced n k α → Prop :=
  Reach (fun T => boot image = .ok T.kernel ∧ (∀ p d, T.sent p d = []) ∧ T.ended = [])
    fun T event T' => step cfg T.kernel event T'.kernel ∧ Allowed cfg Fair Clean T.kernel event ∧
      T' = T.next cfg event T'.kernel

theorem mem_next_ended {T : Traced n k α} {event : Event n α} {p : Fin n} :
    p ∈ (T.next cfg event K').ended ↔ event = .clear p ∨ p ∈ T.ended := by
  unfold Traced.next
  cases event with
  | clear rc => simp [eq_comm]
  | _ => simp

/-- The kernel is in order, and what was said by `p` to `d` is what was sent. -/
structure Accounted (cfg : Config n k α) (Fair Clean : Prop) (p d : Fin n) (T : Traced n k α) : Prop where
  left : Left cfg Fair Clean T.kernel
  sub : (T.kernel.flow p d).Sublist (T.sent p d)
  all : p ∉ T.ended → d ∉ T.ended → T.kernel.flow p d = T.sent p d

theorem TracedReached.accounted {T : Traced n k α} (reached : TracedReached image Fair Clean T)
    (p d : Fin n) : Accounted cfg Fair Clean p d T := by
  refine Reach.invariant (fun T start => ?_) (fun T event T' before next => ?_) reached
  · obtain ⟨isBoot, nothing, _⟩ := start
    obtain ⟨left, silent⟩ := (boot_spec image).ok isBoot
    exact ⟨left, by rw [silent, nothing], fun _ _ => by rw [silent, nothing]⟩
  · obtain ⟨⟨possible, isOk⟩, allowed, isNext⟩ := next
    obtain ⟨left, handled⟩ := (enter_spec before.left possible allowed).ok isOk
    rw [isNext]
    refine ⟨left, (handled.sub p d).trans (before.sub.append_right _), fun aliveP aliveD => ?_⟩
    rw [mem_next_ended, not_or] at aliveP aliveD
    have flow := handled.flow p d fun rc isClear => by
      refine ⟨?_, ?_⟩
      · rintro rfl
        exact aliveP.1 isClear
      · rintro rfl
        exact aliveD.1 isClear
    rw [before.all aliveP.2 aliveD.2] at flow
    exact flow

/-- The texts that `p` sent to `d` with success are, in this order, those that `d` was given, the
one it will be given when it goes on, and the one `p` is blocked with.  Some may be missing once
one of the two was ended. -/
theorem texts_in_order {T : Traced n k α} (reached : TracedReached image Fair Clean T)
    (p d : Fin n) :
    (T.kernel.flow p d).Sublist (T.sent p d) ∧
      (p ∉ T.ended → d ∉ T.ended → T.kernel.flow p d = T.sent p d) := by
  have accounted := reached.accounted p d
  exact ⟨accounted.sub, accounted.all⟩

section
variable (cfg)

def Traced.after (T : Traced n k α) (event : Event n α) : Traced n k α :=
  T.next cfg event (T.kernel.after cfg event)

def Traced.Enters (T : Traced n k α) (event : Event n α) : Prop := Kernel.Enters cfg T.kernel event

instance (T : Traced n k α) (event : Event n α) : Decidable (T.Enters cfg event) :=
  inferInstanceAs (Decidable (Kernel.Enters cfg T.kernel event))

end

def smallTrace : Traced 6 4 Nat :=
  smallEvents.foldl (Traced.after small) ⟨start smallImage, fun _ _ => [], []⟩

theorem smallTrace_reached : TracedReached smallImage Fair Clean smallTrace := by
  have playable : Playable (Traced.Enters small) (Traced.after small)
      (⟨start smallImage, fun _ _ => [], []⟩ : Traced 6 4 Nat) smallEvents := by decide +kernel
  refine Reach.exec (.init ?_) (playable.exec fun T event enters => ?_)
  · exact ⟨eq_stateOf (blank smallImage) (by decide +kernel), fun _ _ => rfl, rfl⟩
  · exact ⟨⟨enters.1, eq_stateOf T.kernel enters.2.2⟩, enters.2.1.weaken, rfl⟩

/-- One text was taken, and another one waits. -/
theorem smallTrace_texts : (smallTrace.kernel.flow 4 3).Sublist (smallTrace.sent 4 3) ∧
    (4 ∉ smallTrace.ended → 3 ∉ smallTrace.ended →
      smallTrace.kernel.flow 4 3 = smallTrace.sent 4 3) :=
  texts_in_order (smallTrace_reached : TracedReached smallImage True True smallTrace) 4 3

example : smallTrace.sent 3 4 = [17] ∧ smallTrace.sent 4 3 = [18] := by decide +kernel

end Csc457.Kernel
