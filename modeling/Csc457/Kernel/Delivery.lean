import Csc457.Kernel.Order

/-!
# Sending and notifying

mini_notify and mini_send, in a kernel that is in order: a message goes to a process that
waits for it, or its sender waits in a queue.
-/

set_option autoImplicit false

namespace Csc457.Kernel

open Function
open Csc457.Lib.LinkedQueue

variable {n k : Nat} {α : Type} {cfg : Config n k α} {K K' K'' : State n k α}
  {callers callers' : Fin n → List (Fin n)} {Fair Clean : Prop}

theorem unblock_receiver (ok : Ok cfg Fair Clean K callers) {dst : Fin n} {source : Endpoint}
    (will : (K.proc dst).WillReceive source) (K₁ : State n k α) {msg : Message n α}
    {misc : Finset Misc} (others : ∀ p ≠ dst, K₁.proc p = K.proc p)
    (here : K₁.proc dst = { K.proc dst with delivermsg := msg, misc := misc })
    (delivers : .delivermsg ∈ misc) (keeps : Keeps K K₁) (heads : K₁.rdyHead = K.rdyHead)
    (tails : K₁.rdyTail = K.rdyTail) :
    ∃ K', rtsUnset cfg K₁ dst {Rts.receiving} = .ok K' ∧ Ok cfg Fair Clean K' callers ∧
      Keeps K K' ∧ K'.mail = K.mail.hand dst msg := by
  obtain ⟨⟨receives, notSends⟩, _⟩ := will
  have queues₁ : Queues cfg Fair K₁ := by
    refine ok.toQueues.congr (fun p => ?_) heads tails keeps.preemptible keeps.procPtr
    by_cases isDst : p = dst
    · rw [isDst, here]
      exact ⟨rfl, rfl, rfl, rfl⟩
    · rw [others p isDst]
      exact ⟨rfl, rfl, rfl, rfl⟩
  obtain ⟨K', isOk, queues', alike⟩ := queues₁.rtsUnset dst (f := {Rts.receiving}) (by decide)
    ((ok.table.keep keeps).bound (by decide) (by decide))
  have cleared : (K₁.clearFlags dst {Rts.receiving}).proc dst =
      { K.proc dst with
        delivermsg := msg, misc := misc, rts := (K.proc dst).rts \ {Rts.receiving} } := by
    rw [State.clearFlags, modify_self, here]
  have others₂ : ∀ p ≠ dst, (K₁.clearFlags dst {Rts.receiving}).proc p = K.proc p :=
    fun p other => (modify_of_ne _ _ other).trans (others p other)
  have live : K.Live dst := (ok.ipc.source dst receives).1
  have keeps₂ : Keeps K (K₁.clearFlags dst {Rts.receiving}) := by
    refine keeps.trans (Keeps.modify ?_ (fun f other => ?_) ⟨rfl, rfl, rfl, rfl, rfl, rfl⟩
      fun isSet => .inl (Finset.mem_sdiff.mp isSet).1)
    · exact (keeps.slotFree dst).not.mpr live.2
    · rw [Finset.mem_sdiff, Finset.mem_singleton]
      refine and_iff_left fun isReceiving => other ?_
      rw [isReceiving]
      decide
  have ends : .receiving ∉ ((K₁.clearFlags dst {Rts.receiving}).proc dst).rts := by
    rw [cleared]
    simp
  have sameSending : .sending ∈ ((K₁.clearFlags dst {Rts.receiving}).proc dst).rts ↔
      .sending ∈ (K.proc dst).rts := by
    rw [cleared]
    simp
  have waits : (K₁.clearFlags dst {Rts.receiving}).waits dst = none := by
    rw [State.waits, Proc.blockedOn, if_neg (sameSending.not.mpr notSends), if_neg ends]
    rfl
  have calm₂ : Calm cfg Clean (K₁.clearFlags dst {Rts.receiving}) callers := by
    refine ok.toCalm.keep keeps₂ (ok.ipc.receiveSide (d := dst) (C := []) (fun p other => ?_)
      sameSending (keeps₂.live dst) ?_ (absurd · ends) (waits ▸ .nil) (by simp)) ?_ ?_
    · rw [others₂ p other]
      exact ⟨.rfl, .rfl, .rfl, .rfl, .rfl, rfl, rfl, rfl, rfl, rfl⟩
    · rw [cleared]
      exact ⟨rfl, rfl, rfl, rfl⟩
    · intro d p queued
      rw [keeps₂.endpoint]
      by_cases isDst : d = dst
      · exact fun will => ends (isDst ▸ will.1.1)
      · rw [others₂ d isDst]
        exact ok.met d p queued
    · intro clean p linked
      by_cases isDst : p = dst
      · subst isDst
        rw [sameSending]
        refine ok.clean clean p ?_
        rwa [State.qLink, cleared] at linked
      · rw [others₂ p isDst]
        refine ok.clean clean p ?_
        rwa [State.qLink, others₂ p isDst] at linked
  refine ⟨K', isOk, { queues' with toCalm := calm₂.alike alike },
    keeps₂.trans (alike.keeps calm₂.current), ?_⟩
  rw [alike.mail, mail_of_others others₂, cleared]
  refine Mail.ext ?_ ?_ ?_ (update_eq_self _ _)
  · refine (update_eq_self_iff ..).mpr ?_
    simp [State.mail, Proc.pend]
  · simp [Proc.await, Mail.hand]
  · simp [Proc.inbox, delivers, Mail.hand]

theorem Keeps.modifyPriv {i : Fin k} {g : Priv n k → Priv n k}
    (same : (g (K.priv i)).procNr = (K.priv i).procNr ∧
      (g (K.priv i)).trapMask = (K.priv i).trapMask ∧
      (g (K.priv i)).preemptible = (K.priv i).preemptible ∧
      (g (K.priv i)).ipcTo = (K.priv i).ipcTo ∧ (g (K.priv i)).speaks = (K.priv i).speaks)
    (pending : ∀ id, (g (K.priv i)).notifyPending id = true →
      (K.priv i).notifyPending id = true ∨ (K.priv id).procNr ≠ none) :
    Keeps K (K.modifyPriv i g) := by
  have here : ∀ {β : Type} (field : Priv n k → β), field (g (K.priv i)) = field (K.priv i) →
      ∀ j, field ((K.modifyPriv i g).priv j) = field (K.priv j) := by
    intro β field same j
    by_cases isI : j = i
    · rw [isI, modifyPriv_self, same]
    · rw [modifyPriv_of_ne K isI]
  refine ⟨fun _ _ _ => Iff.rfl, fun _ _ => rfl, fun _ => rfl, fun _ => rfl, fun _ => rfl,
    fun _ => rfl, fun _ => rfl, here _ same.1, here _ same.2.1, here _ same.2.2.1,
    fun j id set => ?_, rfl, fun _ => id,
    Masks.congr (here _ same.1) (here _ same.2.2.2.1) (here _ same.2.2.2.2)⟩
  by_cases isI : j = i
  · subst isI
    rw [modifyPriv_self] at set
    exact pending id set
  · rw [modifyPriv_of_ne K isI] at set
    exact .inl set

theorem Ok.privs (ok : Ok cfg Fair Clean K callers) {priv : Fin k → Priv n k}
    (keeps : Keeps K { K with priv := priv }) :
    Ok cfg Fair Clean { K with priv := priv } callers where
  toQueues := ok.toQueues.congr (fun _ => ⟨rfl, rfl, rfl, rfl⟩) rfl rfl keeps.preemptible rfl
  toCalm := ok.toCalm.same keeps fun _ => ⟨.rfl, .rfl, .rfl, .rfl, .rfl, rfl, rfl, rfl, rfl, rfl⟩

theorem Ok.modifyPriv (ok : Ok cfg Fair Clean K callers) {i : Fin k} {g : Priv n k → Priv n k}
    (keeps : Keeps K (K.modifyPriv i g)) : Ok cfg Fair Clean (K.modifyPriv i g) callers :=
  ok.privs keeps

theorem fillMask_keeps {p : Fin n} (there : (K.priv (K.proc p).priv).procNr ≠ none) (mask : Nat) :
    Keeps K (K.fillMask p mask) := by
  have same := fillSendtoMask_remasked K.priv (K.proc p).priv mask
  exact ⟨fun _ _ _ => .rfl, fun _ _ => rfl, fun _ => rfl, fun _ => rfl, fun _ => rfl,
    fun _ => rfl, fun _ => rfl, same.procNr, fun i => same.field i Priv.trapMask fun _ _ => rfl,
    fun i => same.field i Priv.preemptible fun _ _ => rfl,
    fun i id isSet => .inl (same.field i Priv.notifyPending (fun _ _ => rfl) ▸ isSet), rfl,
    fun _ => id, fun masks => masks.fill there mask⟩

theorem takeArg_snd (cfg : Config n k α) (source : Fin n) (p : Priv n k) :
    ∃ int sig, (takeArg cfg source p).2 = { p with intPending := int, sigPending := sig } := by
  unfold takeArg
  split
  · exact ⟨_, _, rfl⟩
  · split <;> exact ⟨_, _, rfl⟩

theorem takeArg_keeps (source : Fin n) (i : Fin k) :
    Keeps K (K.modifyPriv i fun _ => (takeArg cfg source (K.priv i)).2) := by
  obtain ⟨int, sig, here⟩ := takeArg_snd cfg source (K.priv i)
  refine Keeps.modifyPriv ?_ fun id set => .inl ?_
  · rw [here]
    exact ⟨rfl, rfl, rfl, rfl, rfl⟩
  · rwa [here] at set

theorem deliver_keeps (dst : Fin n) (msg : Message n α) (used : .slotFree ∉ (K.proc dst).rts) :
    Keeps K (K.deliver dst msg) :=
  Keeps.modify used (fun _ _ => Iff.rfl) ⟨rfl, rfl, rfl, rfl, rfl, rfl⟩ .inl

theorem deliverNotify_keeps (dst source : Fin n) (used : .slotFree ∉ (K.proc dst).rts) :
    Keeps K (K.deliverNotify cfg dst source) :=
  (takeArg_keeps source (K.proc dst).priv).trans (deliver_keeps dst _ used)

theorem IpcOk.noMessage {There : Fin n → Prop} (ok : IpcOk There K callers) {dst : Fin n}
    {source : Endpoint} (will : (K.proc dst).WillReceive source) :
    .delivermsg ∉ (K.proc dst).misc := (ok.source dst will.1.1).2.1

theorem miniNotify_spec (ok : Ok cfg Fair Clean K callers) (caller : Fin n) {dst : Fin n}
    (used : .slotFree ∉ (K.proc dst).rts)
    (notifier : (K.priv (K.proc caller).priv).procNr ≠ none) :
    ∃ K', miniNotify cfg K caller (K.proc dst).endpoint = .ok (.ok, K') ∧
      Ok cfg Fair Clean K' callers ∧ Keeps K K' ∧
      (K'.mail = K.mail ∨ (K.proc dst).WillReceive (K.proc caller).endpoint ∧ ∃ arg,
        K'.mail = K.mail.hand dst ⟨(K.proc caller).endpoint, .notify caller arg⟩) := by
  have isOk : isokendpt K (K.proc dst).endpoint = some dst := by
    refine (isokendpt_iff ok.ipc.slot).mpr ⟨rfl, fun empty => used ?_⟩
    rw [empty]
    exact Finset.mem_singleton_self _
  unfold miniNotify
  simp only [isOk]
  split
  · next will =>
      have keeps : Keeps K (K.deliverNotify cfg dst caller) := deliverNotify_keeps dst caller used
      obtain ⟨K', unset, ok', keeps', mail⟩ := unblock_receiver ok will.1
        (K.deliverNotify cfg dst caller)
        (fun p other => update_of_ne other ..) (update_self ..) (Finset.mem_insert_self ..) keeps
        rfl rfl
      rw [ensure_bind (ok.ipc.noMessage will.1), unset]
      exact ⟨K', rfl, ok', keeps', .inr ⟨will.1, _, mail⟩⟩
  · have keeps : Keeps K (K.modifyPriv (K.proc dst).priv fun p =>
        { p with notifyPending := update p.notifyPending (K.proc caller).priv true }) := by
      refine Keeps.modifyPriv ⟨rfl, rfl, rfl, rfl, rfl⟩ fun id set => ?_
      by_cases isCaller : id = (K.proc caller).priv
      · exact .inr (isCaller ▸ notifier)
      · exact .inl (by simpa [isCaller] using set)
    exact ⟨_, rfl, ok.modifyPriv keeps, keeps, .inl rfl⟩

/-! ## The queues of senders -/

theorem Alike.modify (alike : Alike K K') (x : Fin n) {g : Proc n k α → Proc n k α}
    (commutes : ∀ p next rts, g { p with nextready := next, rts := rts } =
      { g p with nextready := next, rts := rts })
    (sameRts : ∀ p, (g p).rts = p.rts) : Alike (K.modify x g) (K'.modify x g) := by
  refine ⟨fun p => ?_, alike.priv, alike.procPtr⟩
  obtain ⟨next, rts, here, flags⟩ := alike.proc p
  rw [modify_apply, modify_apply]
  split
  · next isX =>
      subst isX
      exact ⟨next, rts, by rw [here, commutes], by rwa [sameRts]⟩
  · exact ⟨next, rts, here, flags⟩

@[simp] theorem modify_modify (x : Fin n) (f g : Proc n k α → Proc n k α) :
    (K.modify x f).modify x g = K.modify x fun p => g (f p) := by
  simp only [State.modify, update_self, update_idem]

/-- `K'` is `K` but for the links of the queues. -/
structure Relinked (K K' : State n k α) : Prop where
  proc : ∀ p, ∃ head next, K'.proc p = { K.proc p with callerQ := head, qLink := next }
  priv : K'.priv = K.priv
  procPtr : K'.procPtr = K.procPtr
  heads : K'.rdyHead = K.rdyHead
  tails : K'.rdyTail = K.rdyTail

theorem Relinked.trans (first : Relinked K K') (second : Relinked K' K'') : Relinked K K'' := by
  refine ⟨fun p => ?_, second.priv.trans first.priv, second.procPtr.trans first.procPtr,
    second.heads.trans first.heads, second.tails.trans first.tails⟩
  obtain ⟨head, next, here⟩ := first.proc p
  obtain ⟨head', next', here'⟩ := second.proc p
  exact ⟨head', next', by rw [here', here]⟩

theorem Relinked.field {β : Type} (same : Relinked K K') (p : Fin n) (field : Proc n k α → β)
    (other : ∀ (p : Proc n k α) head next,
      field { p with callerQ := head, qLink := next } = field p) :
    field (K'.proc p) = field (K.proc p) := by
  obtain ⟨head, next, here⟩ := same.proc p
  rw [here, other]

theorem Relinked.rts (same : Relinked K K') (p : Fin n) : (K'.proc p).rts = (K.proc p).rts :=
  same.field p Proc.rts fun _ _ _ => rfl

theorem Relinked.misc (same : Relinked K K') (p : Fin n) : (K'.proc p).misc = (K.proc p).misc :=
  same.field p Proc.misc fun _ _ _ => rfl

theorem Relinked.sendto (same : Relinked K K') (p : Fin n) :
    (K'.proc p).sendto = (K.proc p).sendto := same.field p Proc.sendto fun _ _ _ => rfl

theorem Relinked.getfrom (same : Relinked K K') (p : Fin n) :
    (K'.proc p).getfrom = (K.proc p).getfrom := same.field p Proc.getfrom fun _ _ _ => rfl

theorem Keeps.relink (keeps : Keeps K K') (same : Relinked K' K'')
    (stale : ∀ p, K.Stale p → K''.qLink p ≠ none) : Keeps K K'' where
  rts p f other := by rw [same.rts, keeps.rts p f other]
  free p free := by rw [same.rts, keeps.free p free]
  priority p := by rw [same.field p Proc.priority fun _ _ _ => rfl, keeps.priority]
  quantumSize p := by rw [same.field p Proc.quantumSize fun _ _ _ => rfl, keeps.quantumSize]
  scheduler p := by rw [same.field p Proc.scheduler fun _ _ _ => rfl, keeps.scheduler]
  endpoint p := by rw [same.field p Proc.endpoint fun _ _ _ => rfl, keeps.endpoint]
  privOf p := by rw [same.field p Proc.priv fun _ _ _ => rfl, keeps.privOf]
  procNr i := by rw [same.priv, keeps.procNr]
  trapMask i := by rw [same.priv, keeps.trapMask]
  preemptible i := by rw [same.priv, keeps.preemptible]
  pending i id set := keeps.pending i id (by rwa [same.priv] at set)
  procPtr := same.procPtr.trans keeps.procPtr
  stale p isStale := ⟨by rw [same.rts]; exact (keeps.stale p isStale).1, stale p isStale⟩
  masks masks := by rw [same.priv]; exact keeps.masks masks

theorem Relinked.mail (same : Relinked K K') : K'.mail = K.mail :=
  Mail.ext (funext fun p => same.field p Proc.pend fun _ _ _ => rfl)
    (funext fun p => same.field p Proc.await fun _ _ _ => rfl)
    (funext fun p => same.field p Proc.inbox fun _ _ _ => rfl)
    (funext fun p => same.field p Proc.got fun _ _ _ => rfl)

theorem Relinked.queues (same : Relinked K K') (queues : Queues cfg Fair K) :
    Queues cfg Fair K' :=
  queues.congr (fun p => ⟨same.rts p, same.field p Proc.priority fun _ _ _ => rfl,
    same.field p Proc.nextready fun _ _ _ => rfl, same.field p Proc.priv fun _ _ _ => rfl⟩)
    same.heads same.tails (fun i => by rw [same.priv]) same.procPtr

section
variable {dst : Fin n} {prev v : Option (Fin n)}

theorem setLink_relinked (K : State n k α) (x : Fin n) (next : Option (Fin n)) :
    Relinked K (K.setLink x next) := by
  refine ⟨fun p => ?_, rfl, rfl, rfl, rfl⟩
  rw [State.setLink, modify_apply]
  split
  · next isX => exact ⟨_, next, by rw [isX]⟩
  · exact ⟨_, _, rfl⟩

theorem storeCaller_relinked (K : State n k α) (dst : Fin n) (prev v : Option (Fin n)) :
    Relinked K (storeCaller K dst prev v) := by
  cases prev with
  | some x => exact setLink_relinked K x v
  | none =>
      refine ⟨fun p => ?_, rfl, rfl, rfl, rfl⟩
      rw [storeCaller, State.setCallerQ, modify_apply]
      split
      · next isDst => exact ⟨v, _, by rw [isDst]⟩
      · exact ⟨_, _, rfl⟩

theorem storeCaller_qLink : (storeCaller K dst prev v).qLink =
    (store K.qLink (K.proc dst).callerQ prev v).1 := by
  funext x
  unfold storeCaller store
  split
  · simp only [State.setCallerQ, State.qLink, modify_apply]
    split
    · next isX => rw [isX]
    · rfl
  · simp only [State.setLink, State.qLink, modify_apply, update_apply]
    split <;> rfl

theorem storeCaller_callerQ (d : Fin n) : ((storeCaller K dst prev v).proc d).callerQ =
    if d = dst then (store K.qLink (K.proc dst).callerQ prev v).2 else (K.proc d).callerQ := by
  unfold storeCaller store
  split
  · simp only [State.setCallerQ, modify_apply]
    split <;> rfl
  · simp only [State.setLink, modify_apply]
    split
    · next isX =>
        rw [← isX]
        split
        · next isDst => rw [isDst]
        · rfl
    · split <;> simp [*]

theorem storeCaller_alike (alike : Alike K K') :
    Alike (storeCaller K dst prev v) (storeCaller K' dst prev v) := by
  unfold storeCaller
  split <;> exact alike.modify _ (fun _ _ _ => rfl) fun _ => rfl

end

section
variable {There : Fin n → Prop} (ok : IpcOk There K callers)
include ok

theorem IpcOk.queue_unique {p d d' : Fin n} (queued : p ∈ callers d) (queued' : p ∈ callers d') :
    d = d' :=
  endpoint_inj ok.slot
    (((ok.queued p d).mp queued).2.symm.trans ((ok.queued p d').mp queued').2)

theorem IpcOk.add_caller {caller dst : Fin n} (notSends : .sending ∉ (K.proc caller).rts)
    (null : K.qLink caller = none) (live : K.Live dst) {L : State n k α}
    (links : L.qLink = K.qLink) (heads : ∀ d, (L.proc d).callerQ = (K.proc d).callerQ)
    {d : Fin n} (liveD : K.Live d) :
    Chain (storeCaller L dst (callers dst).getLast? (some caller)).qLink
      ((storeCaller L dst (callers dst).getLast? (some caller)).proc d).callerQ
      (update callers dst (callers dst ++ [caller]) d) := by
  rw [storeCaller_qLink, storeCaller_callerQ, links, heads, heads]
  by_cases isDst : d = dst
  · rw [if_pos isDst, isDst, update_self]
    refine (ok.chain dst live).add (fun queued => notSends ?_) null
    exact ((ok.queued caller dst).mp queued).1
  · rw [if_neg isDst, update_of_ne isDst]
    refine (ok.chain d liveD).congr fun a queued => store_next_of_ne fun isLast => isDst ?_
    exact ok.queue_unique queued (List.mem_of_getLast? isLast)

theorem IpcOk.remove_caller {sender dst : Fin n} {A B : List (Fin n)}
    (split : callers dst = A ++ sender :: B) (live : K.Live dst) {M : State n k α}
    (links : M.qLink = (store K.qLink (K.proc dst).callerQ A.getLast? (K.qLink sender)).1)
    (heads : ∀ d, (M.proc d).callerQ = if d = dst then
      (store K.qLink (K.proc dst).callerQ A.getLast? (K.qLink sender)).2 else (K.proc d).callerQ)
    {d : Fin n} (liveD : K.Live d) :
    Chain M.qLink (M.proc d).callerQ (update callers dst (A ++ B) d) := by
  rw [links, heads]
  by_cases isDst : d = dst
  · rw [if_pos isDst, isDst, update_self]
    have chain := ok.chain dst live
    rw [split] at chain
    exact chain.remove
  · rw [if_neg isDst, update_of_ne isDst]
    refine (ok.chain d liveD).congr fun a queued => store_next_of_ne fun isLast => isDst ?_
    refine ok.queue_unique queued ?_
    rw [split]
    exact List.mem_append_left _ (List.mem_of_getLast? isLast)

end

theorem IpcOk.waits_eq {There : Fin n → Prop} (ok : IpcOk There K callers) {p d : Fin n}
    (waits : K.waits p = some d) : (K.proc p).blockedOn = (K.proc d).endpoint := by
  obtain isNone | isAny | ⟨x, isProc, _⟩ := ok.blockedOn p
  · rw [State.waits, isNone] at waits
    cases waits
  · rw [State.waits, isAny] at waits
    cases waits
  · rw [State.waits, isProc, slotOf_endpoint ok.slot] at waits
    rw [isProc, Option.some.inj waits]

theorem deadlock_send (ok : IpcOk K.Live K callers) {caller dst : Fin n} (live : K.Live dst)
    (other : dst ≠ caller) (wont : ¬ (K.proc dst).WillReceive (K.proc caller).endpoint) :
    ∃ l r, Chain K.waits (K.waits dst) l ∧
      deadlock K .send caller n (K.proc dst).endpoint 1 = .ok r ∧ (r = 0 ↔ caller ∉ l) := by
  obtain ⟨l, r, chain, isOk, exact⟩ := deadlock_spec ok .send live other
  refine ⟨l, r, chain, isOk, exact.trans (or_iff_left fun exempt => wont ?_)⟩
  have waits := ok.waits_eq exempt.1
  have notSends : .sending ∉ (K.proc dst).rts := by simpa using exempt.2
  rw [Proc.blockedOn, if_neg notSends] at waits
  split at waits
  · next receives => exact ⟨⟨receives, notSends⟩, .inr waits⟩
  · exact absurd waits.symm (endpoint_ne_special ok.slot caller).2

theorem deadlock_receive (ok : IpcOk K.Live K callers) {caller src : Fin n} (live : K.Live src)
    (other : src ≠ caller) (none : src ∉ callers caller) :
    ∃ l r, Chain K.waits (K.waits src) l ∧
      deadlock K .receive caller n (K.proc src).endpoint 1 = .ok r ∧ (r = 0 ↔ caller ∉ l) := by
  obtain ⟨l, r, chain, isOk, exact⟩ := deadlock_spec ok .receive live other
  refine ⟨l, r, chain, isOk, exact.trans (or_iff_left fun exempt => none ?_)⟩
  have waits := ok.waits_eq exempt.1
  have sends : .sending ∈ (K.proc src).rts := by simpa using exempt.2
  rw [Proc.blockedOn, if_pos sends] at waits
  exact (ok.queued src caller).mpr ⟨sends, waits⟩

/-! ## Sending -/

/-- A process that can make a call: it is in no other. -/
structure Free (K : State n k α) (p : Fin n) : Prop where
  live : K.Live p
  notSends : .sending ∉ (K.proc p).rts
  notReceives : .receiving ∉ (K.proc p).rts

theorem linkCaller_spec (ok : IpcOk K.Live K callers) {caller dst : Fin n} (live : K.Live dst)
    (null : K.qLink caller = none) {L : State n k α} (links : L.qLink = K.qLink)
    (heads : ∀ d, (L.proc d).callerQ = (K.proc d).callerQ) :
    linkCaller L caller dst = .ok (storeCaller L dst (callers dst).getLast? (some caller)) := by
  have chain := ok.chain dst live
  rw [← links, ← heads] at chain
  have null : (L.proc caller).qLink = none := (congrFun links caller).trans null
  have enough : (callers dst).length ≤ n := by simpa using chain.length_le
  unfold linkCaller
  rw [ensure_bind null]
  obtain ⟨nothing, all⟩ | ⟨A, last, B, split, _, isLast, found⟩ :=
    search_chain (fun x => (L.qLink x).isNone) none chain enough
  · rw [nothing]
    rcases List.eq_nil_or_concat (callers dst) with empty | ⟨A, last, split⟩
    · rw [empty]
      rfl
    · rw [split, List.concat_eq_append] at chain all
      have isLast := all last (by simp)
      rw [chain.last_next] at isLast
      cases isLast
  · rw [found]
    have isNull : L.qLink last = none := Option.isNone_iff_eq_none.mp isLast
    rw [split] at chain
    have rest := chain.after
    rw [isNull] at rest
    cases rest
    rw [split, List.getLast?_append_of_ne_nil _ (List.cons_ne_nil last [])]
    rfl

theorem block_sender (ok : Ok cfg Fair Clean K callers) {caller dst : Fin n}
    (free : Free K caller) (live : K.Live dst) (other : dst ≠ caller)
    (wont : ¬ (K.proc dst).WillReceive (K.proc caller).endpoint)
    (null : K.qLink caller = none) {l : List (Fin n)} (chain : Chain K.waits (K.waits dst) l)
    (noCycle : caller ∉ l) (content : Content n α) {f : Proc n k α → Finset Misc}
    (delivers : .delivermsg ∈ f (K.proc caller) ↔ .delivermsg ∈ (K.proc caller).misc) :
    ∃ K₁, rtsSet cfg (K.modify caller fun p => { p with sendmsg := content, misc := f p }) caller
        {Rts.sending} = .ok K₁ ∧
      ∃ K', linkCaller (K₁.modify caller fun p => { p with sendto := (K.proc dst).endpoint })
          caller dst = .ok K' ∧
        Ok cfg Fair Clean K' (update callers dst (callers dst ++ [caller])) ∧ Keeps K K' ∧
        K'.mail = K.mail.queue caller (K.proc dst).endpoint content := by
  have queues : Queues cfg Fair (K.modify caller fun p => { p with sendmsg := content, misc := f p }) :=
    ok.toQueues.modify caller fun _ => ⟨rfl, rfl, rfl, rfl⟩
  obtain ⟨K₁, isOk, queues₁, alike⟩ := queues.rtsSet caller {Rts.sending}
  have alike := alike.modify caller (g := fun p => { p with sendto := (K.proc dst).endpoint })
    (fun _ _ _ => rfl) fun _ => rfl
  have queues₂ : Queues cfg Fair (K₁.modify caller fun p =>
      { p with sendto := (K.proc dst).endpoint }) :=
    queues₁.modify caller fun _ => ⟨rfl, rfl, rfl, rfl⟩
  rw [State.setFlags, modify_modify, modify_modify] at alike
  refine ⟨K₁, isOk, ?_⟩
  generalize (K₁.modify caller fun p => { p with sendto := (K.proc dst).endpoint }) = K₂
    at alike queues₂ ⊢
  generalize isL : (K.modify caller fun p =>
    { p with
      sendmsg := content
      misc := f p
      rts := p.rts ∪ {Rts.sending}
      sendto := (K.proc dst).endpoint }) = L at alike
  have here : L.proc caller =
      { K.proc caller with
        sendmsg := content
        misc := f (K.proc caller)
        rts := (K.proc caller).rts ∪ {Rts.sending}
        sendto := (K.proc dst).endpoint } := by rw [← isL, modify_self]
  have others : ∀ p ≠ caller, L.proc p = K.proc p := fun p differ => by
    rw [← isL, modify_of_ne K _ differ]
  have keepsL : Keeps K L := by
    rw [← isL]
    refine Keeps.modify free.live.2 (fun x outside => ?_) ⟨rfl, rfl, rfl, rfl, rfl, rfl⟩
      fun _ => .inr null
    rw [Finset.mem_union, Finset.mem_singleton]
    refine or_iff_left fun isSending => outside ?_
    rw [isSending]
    decide
  have fields : ∀ p, (L.proc p).qLink = (K.proc p).qLink ∧
      (L.proc p).callerQ = (K.proc p).callerQ ∧ (L.proc p).getfrom = (K.proc p).getfrom ∧
      (.receiving ∈ (L.proc p).rts ↔ .receiving ∈ (K.proc p).rts) ∧
      (.delivermsg ∈ (L.proc p).misc ↔ .delivermsg ∈ (K.proc p).misc) := fun p => by
    by_cases isCaller : p = caller
    · rw [isCaller, here]
      exact ⟨rfl, rfl, rfl, by simp, delivers⟩
    · rw [others p isCaller]
      exact ⟨rfl, rfl, rfl, .rfl, .rfl⟩
  have links : L.qLink = K.qLink := funext fun p => (fields p).1
  have heads := fun d => (fields d).2.1
  have links₂ : K₂.qLink = K.qLink := by
    rw [← links]
    exact funext fun p => alike.field p Proc.qLink fun _ _ _ => rfl
  have heads₂ : ∀ d, (K₂.proc d).callerQ = (K.proc d).callerQ := fun d =>
    (alike.field d Proc.callerQ fun _ _ _ => rfl).trans (heads d)
  refine ⟨_, linkCaller_spec ok.ipc live null links₂ heads₂, ?_⟩
  have alike' : Alike (storeCaller L dst (callers dst).getLast? (some caller))
      (storeCaller K₂ dst (callers dst).getLast? (some caller)) := storeCaller_alike alike
  have queues' : Queues cfg Fair (storeCaller K₂ dst (callers dst).getLast? (some caller)) :=
    (storeCaller_relinked ..).queues queues₂
  have relinked := storeCaller_relinked L dst (callers dst).getLast? (some caller)
  have keeps : Keeps K (storeCaller L dst (callers dst).getLast? (some caller)) :=
    keepsL.relink relinked fun p stale => by
      have notLast : (callers dst).getLast? ≠ some p := fun isLast =>
        stale.1 ((ok.ipc.queued p dst).mp (List.mem_of_getLast? isLast)).1
      rw [storeCaller_qLink, store_next_of_ne notLast, links]
      exact stale.2
  have calm : Calm cfg Clean (storeCaller L dst (callers dst).getLast? (some caller))
      (update callers dst (callers dst ++ [caller])) := by
    have sends : .sending ∈ (L.proc caller).rts := by rw [here]; simp
    have sendto : (L.proc caller).sendto = (K.proc dst).endpoint := by rw [here]
    have queue : ∀ x ≠ caller, ∀ d,
        x ∈ update callers dst (callers dst ++ [caller]) d ↔ x ∈ callers d := by
      intro x differ d
      by_cases isDst : d = dst
      · rw [isDst, update_self]
        simp [differ]
      · rw [update_of_ne isDst]
    refine ok.toCalm.keep keeps (ok.ipc.sendSide (p := caller) (C := dst :: l) (fun x differ => ?_)
      (fun x => ?_) (fun d liveD => ok.ipc.add_caller free.notSends null live links heads liveD)
      queue (fun d => ?_) (fun _ => ⟨free.live, dst, ?_, live⟩)
      (fun _ receives => absurd receives free.notReceives) ?_ ?_) ?_ ?_
    · rw [relinked.rts, relinked.sendto, others x differ]
      exact ⟨.rfl, rfl⟩
    · rw [relinked.rts, relinked.misc, relinked.getfrom]
      exact ⟨(fields x).2.2.2.1, keeps.live x, (fields x).2.2.2.2, (fields x).2.2.1, keeps.endpoint x⟩
    · rw [relinked.rts, relinked.sendto, sendto]
      by_cases isDst : d = dst
      · rw [isDst, update_self]
        simp [sends]
      · rw [update_of_ne isDst]
        constructor
        · exact fun queued => absurd ((ok.ipc.queued caller d).mp queued).1 free.notSends
        · exact fun isTarget => absurd (endpoint_inj ok.ipc.slot isTarget.2).symm isDst
    · rw [relinked.sendto, sendto]
    · have waits : (storeCaller L dst (callers dst).getLast? (some caller)).waits caller = some dst := by
        rw [State.waits, Proc.blockedOn, relinked.rts, relinked.sendto, if_pos sends, sendto,
          slotOf_endpoint ok.ipc.slot]
      rw [waits]
      exact .cons chain
    · exact List.not_mem_cons_of_ne_of_not_mem other.symm noCycle
    · intro d p queued
      rw [keeps.endpoint, Proc.WillReceive, relinked.rts, relinked.getfrom]
      by_cases isCaller : d = caller
      · exact fun will => will.1.2 (isCaller ▸ sends)
      · rw [others d isCaller]
        by_cases isDst : d = dst
        · subst isDst
          rw [update_self, List.mem_append, List.mem_singleton] at queued
          obtain queued | rfl := queued
          · exact ok.met d p queued
          · exact wont
        · rw [update_of_ne isDst] at queued
          exact ok.met d p queued
    · intro clean p linked
      rw [relinked.rts]
      by_cases isCaller : p = caller
      · exact .inl (isCaller ▸ sends)
      · rw [others p isCaller]
        by_cases isLast : (callers dst).getLast? = some p
        · exact .inl ((ok.ipc.queued p dst).mp (List.mem_of_getLast? isLast)).1
        · refine ok.clean clean p ?_
          rwa [storeCaller_qLink, store_next_of_ne isLast, links] at linked
  refine ⟨{ queues' with toCalm := calm.alike alike' },
    keeps.trans (alike'.keeps calm.current), ?_⟩
  rw [alike'.mail, relinked.mail, mail_of_others others, here]
  refine Mail.ext ?_ ?_ ?_ (update_eq_self _ _)
  · simp [Proc.pend, Mail.queue]
  · refine (update_eq_self_iff ..).mpr ?_
    simp [State.mail, Proc.await]
  · refine (update_eq_self_iff ..).mpr ?_
    simp [State.mail, Proc.inbox, delivers]

inductive Sent (cfg : Config n k α) (Fair Clean : Prop) (K : State n k α)
    (callers : Fin n → List (Fin n)) (caller dst : Fin n) (m : Option (Content n α)) :
    Result × State n k α → Prop where
  | refused {result : Result} (fails : result ≠ .ok) :
      Sent cfg Fair Clean K callers caller dst m (result, K)
  | handed {content : Content n α} {K' : State n k α} (isMessage : m = some content)
      (will : (K.proc dst).WillReceive (K.proc caller).endpoint)
      (ok : Ok cfg Fair Clean K' callers) (keeps : Keeps K K')
      (mail : K'.mail = K.mail.hand dst ⟨(K.proc caller).endpoint, content⟩) :
      Sent cfg Fair Clean K callers caller dst m (.ok, K')
  | queued {content : Content n α} {K' : State n k α} (isMessage : m = some content)
      (wont : ¬ (K.proc dst).WillReceive (K.proc caller).endpoint) (live : K.Live dst)
      (ok : Ok cfg Fair Clean K' (update callers dst (callers dst ++ [caller])))
      (keeps : Keeps K K') (mail : K'.mail = K.mail.queue caller (K.proc dst).endpoint content) :
      Sent cfg Fair Clean K callers caller dst m (.ok, K')

theorem miniSend_spec (ok : Ok cfg Fair Clean K callers) {caller dst : Fin n}
    (free : Free K caller) (used : .slotFree ∉ (K.proc dst).rts) (other : dst ≠ caller)
    (m : Option (Content n α)) (nonBlocking fromKernel : Bool) :
    Ends (fun halt => halt = .linked ∧ K.qLink caller ≠ none)
      (miniSend cfg K caller (K.proc dst).endpoint m nonBlocking fromKernel)
      (Sent cfg Fair Clean K callers caller dst m) := by
  unfold miniSend
  simp only [slotOf_endpoint ok.ipc.slot]
  split
  · exact .refused (by rintro ⟨⟩)
  next hasEndpoint =>
  split
  · next will =>
      rw [ensure_bind (ok.ipc.noMessage will)]
      cases m with
      | none => exact .refused (by rintro ⟨⟩)
      | some content =>
          have keeps : Keeps K ((K.deliver dst ⟨(K.proc caller).endpoint, content⟩).modify dst
              fun p => { p with misc := p.misc.erase .replyPend }) :=
            (deliver_keeps dst _ used).trans
              (Keeps.modify ((deliver_keeps dst _ used).slotFree dst |>.not.mpr used)
                (fun _ _ => .rfl) ⟨rfl, rfl, rfl, rfl, rfl, rfl⟩ .inl)
          obtain ⟨K', isOk, ok', keeps', mail⟩ := unblock_receiver ok will
            ((K.deliver dst ⟨(K.proc caller).endpoint, content⟩).modify dst
              fun p => { p with misc := p.misc.erase .replyPend })
            (fun p differ => (update_of_ne differ ..).trans (update_of_ne differ ..))
            (by rw [State.deliver, modify_modify, modify_self]) (by simp) keeps rfl rfl
          exact Ends.of_eq (bind_ok.mpr ⟨K', isOk, rfl⟩) (.handed rfl will ok' keeps' mail)
  · next wont =>
      split
      · exact .refused (by rintro ⟨⟩)
      · have live : K.Live dst := ⟨hasEndpoint, used⟩
        obtain ⟨l, r, chain, isOk, exact⟩ := deadlock_send ok.ipc live other wont
        rw [isOk]
        change Ends _ (if r ≠ 0 then _ else _) _
        split
        · exact .refused (by rintro ⟨⟩)
        · next safe =>
            have noCycle : caller ∉ l := exact.mp (not_not.mp safe)
            cases m with
            | none => exact .refused (by rintro ⟨⟩)
            | some content =>
                by_cases null : K.qLink caller = none
                · obtain ⟨K₁, isSet, K', isLinked, ok', keeps, mail⟩ := block_sender ok free live
                    other wont null chain noCycle content
                    (f := fun p => if fromKernel then insert .sendingFromKernel p.misc else p.misc)
                    (by split <;> simp)
                  refine Ends.of_eq (bind_ok.mpr ⟨K₁, isSet, bind_ok.mpr ⟨K', isLinked, rfl⟩⟩) ?_
                  exact .queued rfl wont live ok' keeps mail
                · obtain ⟨K₁, isSet, _, alike⟩ := (ok.toQueues.modify caller
                    (g := fun p => { p with
                      sendmsg := content
                      misc := if fromKernel then insert .sendingFromKernel p.misc else p.misc })
                    fun _ => ⟨rfl, rfl, rfl, rfl⟩).rtsSet caller {Rts.sending}
                  have linked : ((K₁.modify caller fun p =>
                      { p with sendto := (K.proc dst).endpoint }).proc caller).qLink ≠ none := by
                    rw [modify_self]
                    refine fun isNull => null (Eq.trans ?_ isNull)
                    rw [alike.field caller Proc.qLink fun _ _ _ => rfl, State.setFlags,
                      modify_modify, modify_self]
                    rfl
                  refine Ends.of_error ?_ ⟨rfl, null⟩
                  change (rtsSet cfg _ caller {Rts.sending} >>= _) = _
                  rw [isSet]
                  change (linkCaller _ caller dst >>= _) = _
                  rw [linkCaller, ensure, if_neg linked]
                  rfl

end Csc457.Kernel
