import Csc457.Kernel.Delivery

/-!
# Receiving

mini_receive, in a kernel that is in order: it always comes to an end, with a notification,
with the first message of the queue that is wanted, or with the process waiting for one.
-/

set_option autoImplicit false

namespace Csc457.Kernel

open Function
open Csc457.Lib.LinkedQueue

variable {n k : Nat} {α : Type} {cfg : Config n k α} {K K' K'' : State n k α}
  {callers callers' : Fin n → List (Fin n)} {Fair Clean : Prop}

def Mail.put (m : Mail n α) (dst : Fin n) (msg : Message n α) : Mail n α :=
  { m with inbox := update m.inbox dst (some msg) }

theorem own_messages (ok : Ok cfg Fair Clean K callers) {caller : Fin n} (free : Free K caller)
    {L : State n k α} {msg : Message n α} {misc : Finset Misc} {got : List (Message n α)}
    {retreg : Result} (others : ∀ p ≠ caller, L.proc p = K.proc p)
    (here : L.proc caller =
      { K.proc caller with delivermsg := msg, misc := misc, got := got, retreg := retreg })
    (keeps : Keeps K L) (heads : L.rdyHead = K.rdyHead) (tails : L.rdyTail = K.rdyTail) :
    Ok cfg Fair Clean L callers := by
  have fields : ∀ p, (L.proc p).rts = (K.proc p).rts ∧ (L.proc p).priority = (K.proc p).priority ∧
      (L.proc p).nextready = (K.proc p).nextready ∧ (L.proc p).priv = (K.proc p).priv ∧
      (L.proc p).getfrom = (K.proc p).getfrom ∧ (L.proc p).sendto = (K.proc p).sendto ∧
      (L.proc p).qLink = (K.proc p).qLink ∧ (L.proc p).callerQ = (K.proc p).callerQ := fun p => by
    by_cases isCaller : p = caller
    · rw [isCaller, here]
      exact ⟨rfl, rfl, rfl, rfl, rfl, rfl, rfl, rfl⟩
    · rw [others p isCaller]
      exact ⟨rfl, rfl, rfl, rfl, rfl, rfl, rfl, rfl⟩
  have queues : Queues cfg Fair L := ok.toQueues.congr (fun p => ⟨(fields p).1, (fields p).2.1,
    (fields p).2.2.1, (fields p).2.2.2.1⟩) heads tails keeps.preemptible keeps.procPtr
  have notReceives : .receiving ∉ (L.proc caller).rts := (fields caller).1 ▸ free.notReceives
  have waits : L.waits caller = none := by
    rw [State.waits, Proc.blockedOn, (fields caller).1, if_neg free.notSends,
      if_neg free.notReceives]
    rfl
  have calm : Calm cfg Clean L callers := by
    refine ok.toCalm.keep keeps (ok.ipc.receiveSide (d := caller) (C := []) (fun p other => ?_)
      (by rw [(fields caller).1]) (keeps.live caller) ?_ (absurd · notReceives) (waits ▸ .nil)
      (by simp)) (fun d p queued => ?_) fun clean p linked => ?_
    · rw [others p other]
      exact ⟨.rfl, .rfl, .rfl, .rfl, .rfl, rfl, rfl, rfl, rfl, rfl⟩
    · rw [here]
      exact ⟨rfl, rfl, rfl, rfl⟩
    · rw [keeps.endpoint, Proc.WillReceive, (fields d).1, (fields d).2.2.2.2.1]
      exact ok.met d p queued
    · rw [(fields p).1]
      refine ok.clean clean p ?_
      rwa [State.qLink, (fields p).2.2.2.2.2.2.1] at linked
  exact { queues with toCalm := calm }

theorem put_message (ok : Ok cfg Fair Clean K callers) {caller : Fin n} (free : Free K caller)
    {L : State n k α} {msg : Message n α} {misc : Finset Misc}
    (others : ∀ p ≠ caller, L.proc p = K.proc p)
    (here : L.proc caller = { K.proc caller with delivermsg := msg, misc := misc })
    (delivers : .delivermsg ∈ misc) (keeps : Keeps K L) (heads : L.rdyHead = K.rdyHead)
    (tails : L.rdyTail = K.rdyTail) :
    Ok cfg Fair Clean L callers ∧ L.mail = K.mail.put caller msg := by
  refine ⟨own_messages ok free others here keeps heads tails, ?_⟩
  rw [mail_of_others others, here]
  refine Mail.ext ?_ ?_ ?_ (update_eq_self _ _)
  · refine (update_eq_self_iff ..).mpr ?_
    simp [State.mail, Proc.pend]
  · refine (update_eq_self_iff ..).mpr ?_
    simp [State.mail, Proc.await]
  · simp [Proc.inbox, delivers, Mail.put]

theorem pendingFrom_some {caller : Fin n} {src : Option (Fin n)} {id : Fin k}
    (found : pendingFrom cfg K caller src = some id) :
    (K.priv (K.proc caller).priv).notifyPending id = true ∧
      (src = none ∨ (K.priv id).procNr = src) := by
  obtain ⟨_, chunk, _, _, here, _⟩ := List.findSome?_eq_some_iff.mp found
  cases isLowest : lowestPending cfg (K.priv (K.proc caller).priv).notifyPending chunk with
  | none =>
      rw [isLowest] at here
      cases here
  | some lowest =>
      simp only [isLowest] at here
      split at here
      · next wanted =>
          cases here
          have holds := List.find?_some isLowest
          exact ⟨(by simpa using holds : _ ∧ _).2, wanted⟩
      · cases here

/-- The sources that a process asks for: all, or one. -/
def State.wanted (K : State n k α) : Option (Fin n) → Endpoint
  | none => .any
  | some s => (K.proc s).endpoint

theorem receiveNotify_spec (ok : Ok cfg Fair Clean K callers) {caller : Fin n}
    (free : Free K caller) (noMessage : .delivermsg ∉ (K.proc caller).misc)
    {src : Option (Fin n)} {id : Fin k} (found : pendingFrom cfg K caller src = some id) :
    ∃ K' source arg, receiveNotify cfg K caller (K.wanted src) id = .ok (.ok, K') ∧
      (src = none ∨ src = some source) ∧ Ok cfg Fair Clean K' callers ∧ Keeps K K' ∧
      K'.mail = K.mail.put caller ⟨(K.proc source).endpoint, .notify source arg⟩ := by
  obtain ⟨pending, isWanted⟩ := pendingFrom_some found
  obtain ⟨source, isSource⟩ := Option.ne_none_iff_exists'.mp (ok.table.pending _ id pending)
  rw [isSource] at isWanted
  have matches' : K.wanted src = .any ∨ (K.proc source).endpoint = K.wanted src := by
    obtain rfl | rfl := isWanted
    · exact .inl rfl
    · exact .inr rfl
  unfold receiveNotify
  simp only [isSource]
  have cleared : Keeps K (K.modifyPriv (K.proc caller).priv fun p =>
      { p with notifyPending := update p.notifyPending id false }) := by
    refine Keeps.modifyPriv ⟨rfl, rfl, rfl, rfl, rfl⟩ fun x set => .inl ?_
    by_cases same : x = id
    · rw [same]
      exact pending
    · simpa [same] using set
  generalize isK₁ : (K.modifyPriv (K.proc caller).priv fun p =>
      { p with notifyPending := update p.notifyPending id false }) = K₁ at cleared ⊢
  have proc : K₁.proc = K.proc := by rw [← isK₁]; rfl
  rw [← proc] at noMessage matches'
  rw [ensure_bind noMessage, ensure_bind matches']
  have used : .slotFree ∉ (K₁.proc caller).rts := proc ▸ free.live.2
  have keeps : Keeps K ((K₁.deliverNotify cfg caller source).receiveDone caller) :=
    (cleared.trans (deliverNotify_keeps caller source used)).trans
      (Keeps.modify ((deliverNotify_keeps caller source used).slotFree caller |>.not.mpr used)
        (fun _ _ => .rfl) ⟨rfl, rfl, rfl, rfl, rfl, rfl⟩ .inl)
  have others : ∀ p ≠ caller,
      ((K₁.deliverNotify cfg caller source).receiveDone caller).proc p = K.proc p := by
    intro p other
    rw [State.receiveDone, modify_of_ne _ _ other, State.deliverNotify, State.deliver,
      modify_of_ne _ _ other, ← proc]
    rfl
  have here : ((K₁.deliverNotify cfg caller source).receiveDone caller).proc caller =
      { K.proc caller with
        delivermsg := ⟨(K.proc source).endpoint, .notify source
          (takeArg cfg source (K₁.priv (K.proc caller).priv)).1⟩
        misc := (insert .delivermsg (K.proc caller).misc).erase .replyPend } := by
    rw [State.receiveDone, modify_self, State.deliverNotify, State.deliver, modify_self, ← proc]
    rfl
  obtain ⟨ok', mail⟩ := put_message ok free others here (by simp) keeps (by rw [← isK₁]; rfl)
    (by rw [← isK₁]; rfl)
  exact ⟨_, source, _, rfl, isWanted.imp_right Eq.symm, ok', keeps, mail⟩

/-- The queues once `sender` has left that of `dst`. -/
def leave (callers : Fin n → List (Fin n)) (dst sender : Fin n) : Fin n → List (Fin n) :=
  update callers dst ((callers dst).filter (· ≠ sender))

theorem IpcOk.leave_eq {There : Fin n → Prop} (ok : IpcOk There K callers) {dst sender : Fin n}
    (live : K.Live dst) {A B : List (Fin n)} (split : callers dst = A ++ sender :: B) :
    leave callers dst sender = update callers dst (A ++ B) := by
  have nodup := (ok.chain dst live).nodup
  rw [split] at nodup
  simp only [List.nodup_append, List.nodup_cons, List.mem_cons, forall_eq_or_imp] at nodup
  have keep : ∀ l : List (Fin n), sender ∉ l → l.filter (· ≠ sender) = l := by
    intro l other
    refine List.filter_eq_self.mpr fun x member => ?_
    simpa using ne_of_mem_of_not_mem member other
  rw [leave, split, List.filter_append, List.filter_cons_of_neg (by simp), keep B nodup.2.1.1,
    keep A fun member => (nodup.2.2 sender member).1 rfl]

theorem mem_leave {dst sender p d : Fin n} (other : p ≠ sender) :
    p ∈ leave callers dst sender d ↔ p ∈ callers d := by
  unfold leave
  by_cases isDst : d = dst
  · rw [isDst, update_self]
    simp [other]
  · rw [update_of_ne isDst]

theorem mem_of_leave {dst sender p d : Fin n} (left : p ∈ leave callers dst sender d) :
    p ∈ callers d := by
  unfold leave at left
  by_cases isDst : d = dst
  · rw [isDst, update_self] at left
    exact isDst ▸ (List.mem_filter.mp left).1
  · rwa [update_of_ne isDst] at left

section
variable {There : Fin n → Prop} (ok : IpcOk There K callers) {dst sender : Fin n}
include ok

theorem IpcOk.relink (relinked : Relinked K K')
    (chains : ∀ d, K.Live d → Chain K'.qLink (K'.proc d).callerQ (callers d)) :
    IpcOk There K' callers := by
  have endpoint := fun p => relinked.field p Proc.endpoint fun _ _ _ => rfl
  have waits : K'.waits = K.waits := funext fun p => by
    rw [State.waits, State.waits, relinked.field p Proc.blockedOn fun _ _ _ => rfl]
  refine ⟨fun p => ?_, fun d => ?_, fun p d => ?_, fun p => ?_, fun p => ?_, fun p => ?_, ?_⟩
  · rw [endpoint]
    exact ok.slot p
  · rw [State.Live, relinked.rts]
    exact chains d
  · rw [relinked.rts, relinked.sendto, endpoint]
    exact ok.queued p d
  · simp only [relinked.rts, relinked.sendto, endpoint]
    exact ok.target p
  · simp only [relinked.rts, relinked.misc, relinked.getfrom, endpoint]
    exact ok.source p
  · rw [relinked.rts, relinked.getfrom, relinked.sendto]
    exact ok.both p
  · rw [waits]
    exact ok.ends

theorem IpcOk.setLink {x : Fin n} (out : ∀ d, x ∉ callers d) (next : Option (Fin n)) :
    IpcOk There (K.setLink x next) callers := by
  have links : (K.setLink x next).qLink = update K.qLink x next := funext fun p => by
    simp only [State.setLink, State.qLink, modify_apply, update_apply]
    split <;> rfl
  refine ok.relink (setLink_relinked K x next) fun d live => ?_
  have head : ((K.setLink x next).proc d).callerQ = (K.proc d).callerQ := by
    rw [State.setLink, modify_apply]
    split
    · next isX => rw [isX]
    · rfl
  rw [links, head]
  exact (ok.chain d live).update_other (out d)

theorem IpcOk.not_mem_leave (queued : sender ∈ callers dst) (d : Fin n) :
    sender ∉ leave callers dst sender d := by
  unfold leave
  by_cases isDst : d = dst
  · rw [isDst, update_self]
    simp
  · rw [update_of_ne isDst]
    exact fun queued' => isDst (ok.queue_unique queued' queued)

theorem IpcOk.leaves {A B : List (Fin n)} (split : callers dst = A ++ sender :: B)
    (live : K.Live dst) {L M : State n k α} {misc : Finset Misc}
    (others : ∀ p ≠ sender, L.proc p = K.proc p)
    (here : L.proc sender = { K.proc sender with rts := (K.proc sender).rts \ {.sending}, misc := misc })
    (delivers : .delivermsg ∈ misc ↔ .delivermsg ∈ (K.proc sender).misc)
    (relinked : Relinked L M)
    (links : M.qLink = (store K.qLink (K.proc dst).callerQ A.getLast? (K.qLink sender)).1)
    (heads : ∀ d, (M.proc d).callerQ = if d = dst then
      (store K.qLink (K.proc dst).callerQ A.getLast? (K.qLink sender)).2
      else (K.proc d).callerQ) :
    IpcOk There M (leave callers dst sender) := by
  have queued : sender ∈ callers dst := by rw [split]; simp
  have ends : .sending ∉ (M.proc sender).rts := by
    rw [relinked.rts, here]
    simp
  have fields : ∀ p, (.receiving ∈ (M.proc p).rts ↔ .receiving ∈ (K.proc p).rts) ∧
      (M.Live p ↔ K.Live p) ∧ (.delivermsg ∈ (M.proc p).misc ↔ .delivermsg ∈ (K.proc p).misc) ∧
      (M.proc p).getfrom = (K.proc p).getfrom ∧ (M.proc p).endpoint = (K.proc p).endpoint := by
    intro p
    have endpoint := relinked.field p Proc.endpoint fun _ _ _ => rfl
    simp only [State.Live, relinked.rts, relinked.misc, relinked.getfrom, endpoint]
    by_cases isSender : p = sender
    · rw [isSender, here]
      exact ⟨by simp, by simp, delivers, rfl, rfl⟩
    · rw [others p isSender]
      exact ⟨.rfl, .rfl, .rfl, rfl, rfl⟩
  obtain ⟨l, chain⟩ := ok.ends sender
  cases chain with
  | @cons _ rest tail =>
      -- it waits for the one it sent to, if it is to receive the answer
      have waits : ∃ C, Chain K.waits (M.waits sender) C ∧ sender ∉ C := by
        by_cases receives : .receiving ∈ (K.proc sender).rts
        · refine ⟨rest, ?_, (List.nodup_cons.mp (Chain.cons tail).nodup).1⟩
          have sends := ((ok.queued sender dst).mp queued).1
          have same : M.waits sender = K.waits sender := by
            rw [State.waits, State.waits, Proc.blockedOn, Proc.blockedOn, if_neg ends,
              if_pos ((fields sender).1.mpr receives), if_pos sends, (fields sender).2.2.2.1,
              ok.both sender sends receives]
          rwa [same]
        · refine ⟨[], ?_, by simp⟩
          have none : M.waits sender = none := by
            rw [State.waits, Proc.blockedOn, if_neg ends, if_neg ((fields sender).1.not.mpr receives)]
            rfl
          rw [none]
          exact .nil
      obtain ⟨C, chain, other⟩ := waits
      refine ok.sendSide (p := sender) (fun x differ => ?_) fields (fun d liveD => ?_)
        (fun x differ d => mem_leave differ) (fun d => ?_) (absurd · ends)
        (fun sends => absurd sends ends) chain other
      · rw [relinked.rts, relinked.sendto, others x differ]
        exact ⟨.rfl, rfl⟩
      · rw [ok.leave_eq live split]
        exact ok.remove_caller split live links heads liveD
      · exact iff_of_false (ok.not_mem_leave queued d) fun sends => ends sends.1

end

/-! ## A message from the queue -/

theorem unblock_sender (ok : Ok cfg Fair Clean K callers) {dst sender : Fin n}
    {A B : List (Fin n)} (split : callers dst = A ++ sender :: B) (live : K.Live dst)
    (notSends : .sending ∉ (K.proc dst).rts) :
    ∃ K₁, rtsUnset cfg K sender {Rts.sending} = .ok K₁ ∧ ∀ K₂ K', 
      K₂ = (K₁.modify sender fun p => { p with misc := p.misc.erase .sendingFromKernel }) →
      K' = (storeCaller K₂ dst A.getLast? (K₂.proc sender).qLink).setLink sender none →
      Ok cfg Fair Clean K' (leave callers dst sender) ∧ Keeps K K' ∧
        K'.mail = { K.mail with pend := update K.mail.pend sender none } := by
  have queued : sender ∈ callers dst := by rw [split]; simp
  have sends := (ok.ipc.queued sender dst).mp queued
  have liveS : K.Live sender := (ok.ipc.target sender sends.1).1
  obtain ⟨K₁, isOk, queues₁, alike⟩ := ok.toQueues.rtsUnset sender (f := {Rts.sending})
    (by decide) (ok.table.bound (by decide) (by decide))
  refine ⟨K₁, isOk, ?_⟩
  rintro K₂ K' isK₂ isK'
  have alike₂ := alike.modify sender
    (g := fun p => { p with misc := p.misc.erase .sendingFromKernel }) (fun _ _ _ => rfl) fun _ => rfl
  have queues₂ : Queues cfg Fair K₂ :=
    isK₂ ▸ queues₁.modify sender fun _ => ⟨rfl, rfl, rfl, rfl⟩
  rw [← isK₂, State.clearFlags, modify_modify] at alike₂
  generalize isL : (K.modify sender fun p =>
    { p with rts := p.rts \ {Rts.sending}, misc := p.misc.erase .sendingFromKernel }) = L at alike₂
  have here : L.proc sender =
      { K.proc sender with
        rts := (K.proc sender).rts \ {Rts.sending}
        misc := (K.proc sender).misc.erase .sendingFromKernel } := by rw [← isL, modify_self]
  have others : ∀ p ≠ sender, L.proc p = K.proc p := fun p differ => by
    rw [← isL, modify_of_ne K _ differ]
  have keepsL : Keeps K L := by
    rw [← isL]
    refine Keeps.modify liveS.2 (fun x outside => ?_) ⟨rfl, rfl, rfl, rfl, rfl, rfl⟩
      fun isSet => .inl (Finset.mem_sdiff.mp isSet).1
    rw [Finset.mem_sdiff, Finset.mem_singleton]
    refine and_iff_left fun isSending => outside ?_
    rw [isSending]
    decide
  have linkSender : (K₂.proc sender).qLink = K.qLink sender := by
    rw [alike₂.field sender Proc.qLink fun _ _ _ => rfl, here]
    rfl
  rw [linkSender] at isK'
  -- the same by hand
  generalize isM : storeCaller L dst A.getLast? (K.qLink sender) = M
  have relinked : Relinked L M := isM ▸ storeCaller_relinked ..
  have linksL : L.qLink = K.qLink := funext fun p => by
    by_cases isSender : p = sender
    · rw [isSender, State.qLink, here]
      rfl
    · rw [State.qLink, others p isSender]
      rfl
  have headsL : ∀ d, (L.proc d).callerQ = (K.proc d).callerQ := fun d => by
    by_cases isSender : d = sender
    · rw [isSender, here]
    · rw [others d isSender]
  have ipcM : IpcOk K.Live M (leave callers dst sender) := by
    refine ok.ipc.leaves split live others here (by simp) relinked ?_ fun d => ?_
    · rw [← isM, storeCaller_qLink, linksL, headsL]
    · rw [← isM, storeCaller_callerQ, linksL, headsL, headsL]
  have ipc : IpcOk K.Live (M.setLink sender none) (leave callers dst sender) :=
    ipcM.setLink (ok.ipc.not_mem_leave queued) none
  have relinked' : Relinked L (M.setLink sender none) := relinked.trans (setLink_relinked ..)
  have link : ∀ p ≠ sender, A.getLast? ≠ some p → (M.setLink sender none).qLink p = K.qLink p := by
    intro p notSender notLast
    rw [State.qLink, State.setLink, modify_of_ne M _ notSender]
    change M.qLink p = _
    rw [← isM, storeCaller_qLink, store_next_of_ne notLast, linksL]
  have sendsLast : ∀ p, A.getLast? = some p → .sending ∈ (K.proc p).rts := fun p isLast => by
    have queuedP : p ∈ callers dst := by
      rw [split]
      exact List.mem_append_left _ (List.mem_of_getLast? isLast)
    exact ((ok.ipc.queued p dst).mp queuedP).1
  have keeps : Keeps K (M.setLink sender none) := keepsL.relink relinked' fun p stale => by
    rw [link p (fun isSender => stale.1 (isSender ▸ sends.1))
      fun isLast => stale.1 (sendsLast p isLast)]
    exact stale.2
  have alike' : Alike (M.setLink sender none) K' := by
    rw [isK', ← isM]
    exact (storeCaller_alike alike₂).modify sender (fun _ _ _ => rfl) fun _ => rfl
  have queues' : Queues cfg Fair K' := by
    rw [isK']
    exact ((storeCaller_relinked ..).trans (setLink_relinked ..)).queues queues₂
  have rts : ∀ p ≠ sender, ((M.setLink sender none).proc p).rts = (K.proc p).rts := fun p differ => by
    rw [relinked'.rts, others p differ]
  have calm : Calm cfg Clean (M.setLink sender none) (leave callers dst sender) := by
    refine ok.toCalm.keep keeps ipc (fun d p left will => ?_) fun clean p linked => ?_
    · have queuedP := mem_of_leave left
      rw [keeps.endpoint, Proc.WillReceive, relinked'.getfrom] at will
      by_cases isSender : d = sender
      · -- an answer can come from `dst` only, which sends to nobody
        subst isSender
        rw [relinked'.rts, here] at will
        obtain ⟨⟨receives, _⟩, isWanted⟩ := will
        have getfrom := ok.ipc.both d sends.1 (Finset.mem_sdiff.mp receives).1
        rw [sends.2] at getfrom
        simp only [getfrom] at isWanted
        obtain isAny | isP := isWanted
        · exact (endpoint_ne_special ok.ipc.slot dst).1 isAny
        · rw [← endpoint_inj ok.ipc.slot isP] at queuedP
          exact notSends ((ok.ipc.queued dst d).mp queuedP).1
      · rw [rts d isSender, others d isSender] at will
        exact ok.met d p queuedP will
    · by_cases isSender : p = sender
      · refine absurd ?_ linked
        rw [State.qLink, isSender, State.setLink, modify_self]
      · rw [rts p isSender]
        by_cases isLast : A.getLast? = some p
        · exact .inl (sendsLast p isLast)
        · refine ok.clean clean p ?_
          rwa [link p isSender isLast] at linked
  refine ⟨{ queues' with toCalm := calm.alike alike' }, keeps.trans (alike'.keeps calm.current), ?_⟩
  rw [alike'.mail, relinked'.mail, mail_of_others others, here]
  refine Mail.ext ?_ ?_ ?_ (update_eq_self _ _)
  · simp [Proc.pend]
  · refine (update_eq_self_iff ..).mpr ?_
    simp [State.mail, Proc.await]
  · refine (update_eq_self_iff ..).mpr ?_
    simp [State.mail, Proc.inbox]

/-- The fields that the queues and the calls look at are the same. -/
structure Inert (p p' : Proc n k α) : Prop extends SameIpc p p' where
  rts : p'.rts = p.rts
  priority : p'.priority = p.priority
  nextready : p'.nextready = p.nextready
  priv : p'.priv = p.priv
  quantumSize : p'.quantumSize = p.quantumSize
  scheduler : p'.scheduler = p.scheduler
  sendmsg : p'.sendmsg = p.sendmsg
  delivermsg : p'.delivermsg = p.delivermsg
  got : p'.got = p.got

theorem Ok.modify (ok : Ok cfg Fair Clean K callers) {x : Fin n} (used : .slotFree ∉ (K.proc x).rts)
    {g : Proc n k α → Proc n k α} (inert : ∀ p, Inert p (g p)) :
    Ok cfg Fair Clean (K.modify x g) callers ∧ Keeps K (K.modify x g) ∧
      (K.modify x g).mail = K.mail := by
  have here := inert (K.proc x)
  have keeps : Keeps K (K.modify x g) := Keeps.modify used (fun f _ => by rw [here.rts])
    ⟨here.priority, here.quantumSize, here.scheduler, here.endpoint, here.priv, here.qLink⟩
    fun isSet => .inl (by rwa [here.rts] at isSet)
  have same := modify_sameIpc K x fun p => (inert p).toSameIpc
  refine ⟨{ ok.toQueues.modify x fun p => ⟨(inert p).rts, (inert p).priority, (inert p).nextready,
    (inert p).priv⟩ with toCalm := ok.toCalm.same keeps same }, keeps, ?_⟩
  rw [mail_of_others fun p other => modify_of_ne K g other, modify_self]
  refine Mail.ext ?_ ?_ ?_ ?_
  all_goals refine (update_eq_self_iff ..).mpr ?_
  · simp [State.mail, Proc.pend, here.rts, here.sendto, here.sendmsg]
  · simp [State.mail, Proc.await, here.rts, here.getfrom]
  · simp [State.mail, Proc.inbox, here.deliver, here.delivermsg]
  · exact here.got

theorem misc_ok (ok : Ok cfg Fair Clean K callers) {x : Fin n} (used : .slotFree ∉ (K.proc x).rts)
    {f : Finset Misc → Finset Misc} (same : ∀ misc, .delivermsg ∈ f misc ↔ .delivermsg ∈ misc) :
    Ok cfg Fair Clean (K.modify x fun p => { p with misc := f p.misc }) callers ∧
      Keeps K (K.modify x fun p => { p with misc := f p.misc }) ∧
      (K.modify x fun p => { p with misc := f p.misc }).mail = K.mail :=
  ok.modify used fun p => ⟨⟨.rfl, .rfl, .rfl, .rfl, same p.misc, rfl, rfl, rfl, rfl, rfl⟩,
    rfl, rfl, rfl, rfl, rfl, rfl, rfl, rfl, rfl⟩

theorem receiveMessage_spec (ok : Ok cfg Fair Clean K callers) {caller sender : Fin n}
    (free : Free K caller) (noMessage : .delivermsg ∉ (K.proc caller).misc) {A B : List (Fin n)}
    (split : callers caller = A ++ sender :: B) :
    ∃ K', receiveMessage cfg K caller A.getLast? sender = .ok (.ok, K') ∧
      Ok cfg Fair Clean K' (leave callers caller sender) ∧ Keeps K K' ∧
      K'.mail = K.mail.take caller sender ⟨(K.proc sender).endpoint, (K.proc sender).sendmsg⟩ := by
  have sends := (ok.ipc.queued sender caller).mp (by rw [split]; simp)
  have liveS : K.Live sender := (ok.ipc.target sender sends.1).1
  unfold receiveMessage
  rw [ensure_bind liveS.2, ensure_bind liveS.1, ensure_bind noMessage]
  have keeps₁ := deliver_keeps caller ⟨(K.proc sender).endpoint, (K.proc sender).sendmsg⟩ free.live.2
  obtain ⟨ok₁, mail₁⟩ := put_message ok free (fun p other => modify_of_ne K _ other)
    (modify_self ..) (Finset.mem_insert_self ..) keeps₁ rfl rfl
  have notSends : .sending ∉ ((K.deliver caller
      ⟨(K.proc sender).endpoint, (K.proc sender).sendmsg⟩).proc caller).rts := by
    rw [State.deliver, modify_self]
    exact free.notSends
  obtain ⟨K₂, isOk, rest⟩ := unblock_sender ok₁ split ((keeps₁.live caller).mpr free.live) notSends
  obtain ⟨ok₂, keeps₂, mail₂⟩ := rest _ _ rfl rfl
  have keeps₂ := keeps₁.trans keeps₂
  obtain ⟨ok₃, keeps₃, mail₃⟩ := misc_ok ok₂ (f := (·.erase .replyPend))
    ((keeps₂.slotFree caller).not.mpr free.live.2) (by simp)
  exact ⟨_, bind_ok.mpr ⟨K₂, isOk, rfl⟩, ok₃, keeps₂.trans keeps₃,
    mail₃.trans (by rw [mail₂, mail₁]; rfl)⟩

/-! ## Waiting for a message -/

/-- Somebody who can send what is waited for. -/
def State.Source (K : State n k α) (caller : Fin n) (src : Option (Fin n)) : Prop :=
  ∀ s, src = some s → K.Live s ∧ s ≠ caller

theorem block_receiver (ok : Ok cfg Fair Clean K callers) {caller : Fin n} (live : K.Live caller)
    (noMessage : .delivermsg ∉ (K.proc caller).misc) {src : Option (Fin n)}
    (source : K.Source caller src)
    (sends : .sending ∈ (K.proc caller).rts → (K.proc caller).sendto = K.wanted src)
    (none : .sending ∉ (K.proc caller).rts →
      (∀ p ∈ callers caller, ¬ (src = none ∨ src = some p)) ∧
        ∃ C, Chain K.waits src C ∧ caller ∉ C) :
    ∃ K', rtsSet cfg (K.modify caller fun p => { p with getfrom := K.wanted src }) caller
        {Rts.receiving} = .ok K' ∧ Ok cfg Fair Clean K' callers ∧ Keeps K K' ∧
      K'.mail = K.mail.block caller (K.wanted src) := by
  have queues : Queues cfg Fair (K.modify caller fun p => { p with getfrom := K.wanted src }) :=
    ok.toQueues.modify caller fun _ => ⟨rfl, rfl, rfl, rfl⟩
  obtain ⟨K', isOk, queues', alike⟩ := queues.rtsSet caller {Rts.receiving}
  rw [State.setFlags, modify_modify] at alike
  refine ⟨K', isOk, ?_⟩
  generalize isL : (K.modify caller fun p =>
    { p with getfrom := K.wanted src, rts := p.rts ∪ {Rts.receiving} }) = L at alike
  have here : L.proc caller =
      { K.proc caller with
        getfrom := K.wanted src
        rts := (K.proc caller).rts ∪ {Rts.receiving} } := by rw [← isL, modify_self]
  have others : ∀ p ≠ caller, L.proc p = K.proc p := fun p differ => by
    rw [← isL, modify_of_ne K _ differ]
  have keeps : Keeps K L := by
    rw [← isL]
    refine Keeps.modify live.2 (fun x outside => ?_) ⟨rfl, rfl, rfl, rfl, rfl, rfl⟩
      fun isSet => .inl (by simpa using isSet)
    rw [Finset.mem_union, Finset.mem_singleton]
    refine or_iff_left fun isReceiving => outside ?_
    rw [isReceiving]
    decide
  have sameSending : .sending ∈ (L.proc caller).rts ↔ .sending ∈ (K.proc caller).rts := by
    rw [here]
    simp
  have isReceiving : .receiving ∈ (L.proc caller).rts := by
    rw [here]
    simp
  have slot : slotOf n (K.wanted src) = src := by
    cases src with
    | none => rfl
    | some s => exact slotOf_endpoint ok.ipc.slot s
  have waits : ∃ C, Chain K.waits (L.waits caller) C ∧ caller ∉ C := by
    by_cases isSending : .sending ∈ (K.proc caller).rts
    · obtain ⟨l, chain⟩ := ok.ipc.ends caller
      cases chain with
      | @cons _ rest tail =>
          refine ⟨rest, ?_, (List.nodup_cons.mp (Chain.cons tail).nodup).1⟩
          have same : L.waits caller = K.waits caller := by
            rw [State.waits, State.waits, Proc.blockedOn, Proc.blockedOn,
              if_pos (sameSending.mpr isSending), if_pos isSending, here]
          rwa [same]
    · have same : L.waits caller = src := by
        rw [State.waits, Proc.blockedOn, if_neg (sameSending.not.mpr isSending), if_pos isReceiving,
          here, slot]
      rw [same]
      exact (none isSending).2
  obtain ⟨C, chain, other⟩ := waits
  have calm : Calm cfg Clean L callers := by
    refine ok.toCalm.keep keeps (ok.ipc.receiveSide (d := caller) (fun p differ => ?_) sameSending
      (keeps.live caller) ?_ (fun _ => ⟨live, ?_, ?_, fun isSending => ?_⟩) chain other)
      (fun d p queued => ?_) fun clean p linked => ?_
    · rw [others p differ]
      exact ⟨.rfl, .rfl, .rfl, .rfl, .rfl, rfl, rfl, rfl, rfl, rfl⟩
    · rw [here]
      exact ⟨rfl, rfl, rfl, rfl⟩
    · rw [here]
      exact noMessage
    · rw [here]
      cases src with
      | none => exact .inl rfl
      | some s => exact .inr ⟨s, rfl, (source s rfl).1⟩
    · rw [here]
      exact (sends isSending).symm
    · rw [keeps.endpoint]
      by_cases isCaller : d = caller
      · subst isCaller
        rintro ⟨⟨_, notSends⟩, isWanted⟩
        refine (none (sameSending.not.mp notSends)).1 p queued ?_
        rw [here] at isWanted
        cases src with
        | none => exact .inl rfl
        | some s =>
            obtain isAny | isP := isWanted
            · exact absurd isAny (endpoint_ne_special ok.ipc.slot s).1
            · exact .inr (congrArg some (endpoint_inj ok.ipc.slot isP))
      · rw [others d isCaller]
        exact ok.met d p queued
    · by_cases isCaller : p = caller
      · subst isCaller
        rw [sameSending]
        refine ok.clean clean p ?_
        rwa [State.qLink, here] at linked
      · rw [others p isCaller]
        refine ok.clean clean p ?_
        rwa [State.qLink, others p isCaller] at linked
  refine ⟨{ queues' with toCalm := calm.alike alike }, keeps.trans (alike.keeps calm.current), ?_⟩
  rw [alike.mail, mail_of_others others, here]
  refine Mail.ext ?_ ?_ ?_ (update_eq_self _ _)
  · refine (update_eq_self_iff ..).mpr ?_
    simp [State.mail, Proc.pend]
  · simp [Proc.await, Mail.block]
  · refine (update_eq_self_iff ..).mpr ?_
    simp [State.mail, Proc.inbox]

inductive Received (cfg : Config n k α) (Fair Clean : Prop) (K : State n k α)
    (callers : Fin n → List (Fin n)) (caller : Fin n) (src : Option (Fin n)) :
    Result × State n k α → Prop where
  | dead {s : Fin n} (isSource : src = some s) (dead : ¬ K.Live s) :
      Received cfg Fair Clean K callers caller src (.edeadsrcdst, K)
  | locked {s : Fin n} {l : List (Fin n)} (isSource : src = some s)
      (notSends : .sending ∉ (K.proc caller).rts) (chain : Chain K.waits (K.waits s) l)
      (cycle : caller ∈ l) : Received cfg Fair Clean K callers caller src (.elocked, K)
  | notified {K' : State n k α} {source : Fin n} {arg : Finset Nat}
      (wanted : src = none ∨ src = some source) (ok : Ok cfg Fair Clean K' callers)
      (keeps : Keeps K K')
      (mail : K'.mail = K.mail.put caller ⟨(K.proc source).endpoint, .notify source arg⟩) :
      Received cfg Fair Clean K callers caller src (.ok, K')
  | taken {K' : State n k α} {A B : List (Fin n)} {sender : Fin n}
      (split : callers caller = A ++ sender :: B) (wanted : src = none ∨ src = some sender)
      (first : ∀ p ∈ A, ¬ (src = none ∨ src = some p))
      (ok : Ok cfg Fair Clean K' (leave callers caller sender)) (keeps : Keeps K K')
      (mail : K'.mail =
        K.mail.take caller sender ⟨(K.proc sender).endpoint, (K.proc sender).sendmsg⟩) :
      Received cfg Fair Clean K callers caller src (.ok, K')
  | blocked {K' : State n k α}
      (none : .sending ∉ (K.proc caller).rts →
        ∀ p ∈ callers caller, ¬ (src = none ∨ src = some p))
      (ok : Ok cfg Fair Clean K' callers) (keeps : Keeps K K')
      (mail : K'.mail = K.mail.block caller (K.wanted src)) :
      Received cfg Fair Clean K callers caller src (.ok, K')

theorem used_of_live {p : Fin n} (used : .slotFree ∉ (K.proc p).rts) : ¬ (K.proc p).Empty := by
  intro empty
  refine used ?_
  rw [empty]
  exact Finset.mem_singleton_self _

theorem sourceSlot_wanted (ok : IpcOk K.Live K callers) {src : Option (Fin n)}
    (used : ∀ s, src = some s → .slotFree ∉ (K.proc s).rts) :
    sourceSlot K (K.wanted src) = .ok src := by
  cases src with
  | none => rfl
  | some s =>
      have isOk := (isokendpt_iff ok.slot).mpr ⟨rfl, used_of_live (used s rfl)⟩
      rw [sourceSlot, State.wanted, if_neg (endpoint_ne_special ok.slot s).1, okendpt, isOk]
      rfl

theorem deadlock_answer (ok : IpcOk K.Live K callers) {caller s : Fin n} (live : K.Live s)
    (other : s ≠ caller) (waits : K.waits caller = some s) :
    deadlock K .receive caller n (K.proc s).endpoint 1 = .ok 0 := by
  obtain ⟨l, chain⟩ := ok.ends caller
  cases chain with
  | @cons _ rest tail =>
      have alone := (List.nodup_cons.mp (Chain.cons tail).nodup).1
      rw [waits] at tail
      cases tail with
      | @cons _ rest tail =>
          have notIn : caller ∉ rest := fun member => alone (List.mem_cons_of_mem s member)
          have notQueued : s ∉ callers caller := fun queued => by
            have sends := (ok.queued s caller).mp queued
            have back : K.waits s = some caller := by
              rw [State.waits, Proc.blockedOn, if_pos sends.1, sends.2, slotOf_endpoint ok.slot]
            rw [back] at tail
            cases tail
            exact notIn List.mem_cons_self
          obtain ⟨l, r, chain, isOk, exact⟩ := deadlock_receive ok live other notQueued
          rw [chain.unique tail] at exact
          rw [isOk, exact.mpr notIn]

theorem receiveBlock_safe {caller : Fin n} {e : Endpoint}
    (safe : deadlock K .receive caller n e 1 = .ok 0)
    (isOk : rtsSet cfg (K.modify caller fun p => { p with getfrom := e }) caller
      {Rts.receiving} = .ok K') : receiveBlock cfg K caller e = .ok (.ok, K') := by
  unfold receiveBlock
  exact bind_ok.mpr ⟨0, safe, bind_ok.mpr ⟨K', isOk, rfl⟩⟩

theorem miniReceive_from (cfg : Config n k α) (ok : IpcOk K.Live K callers) {caller s : Fin n}
    (free : Free K caller) (noMessage : .delivermsg ∉ (K.proc caller).misc) (live : K.Live s) :
    (.replyPend ∉ (K.proc caller).misc → ∀ id, pendingFrom cfg K caller (some s) = some id →
      miniReceive cfg K caller (K.proc s).endpoint =
        receiveNotify cfg K caller (K.proc s).endpoint id) ∧
    (pendingFrom cfg K caller (some s) = none → ∀ found,
      search K.qLink (fun x => some s = none ∨ some s = some x) n none
        (K.proc caller).callerQ = some found →
      (∀ prev sender, found = some (prev, sender) →
        miniReceive cfg K caller (K.proc s).endpoint =
          receiveMessage cfg K caller prev sender) ∧
      (found = none → miniReceive cfg K caller (K.proc s).endpoint =
        receiveBlock cfg K caller (K.proc s).endpoint)) := by
  have isSource : sourceSlot K (K.proc s).endpoint = .ok (some s) :=
    @sourceSlot_wanted _ _ _ _ _ ok (some s) fun x isS => Option.some.inj isS ▸ live.2
  have hasEndpoint : ¬ ∃ p, some s = some p ∧ Rts.noEndpoint ∈ (K.proc p).rts := by
    rintro ⟨_, isS, gone⟩
    exact live.1 (Option.some.inj isS ▸ gone)
  unfold miniReceive
  rw [ensure_bind noMessage, isSource]
  simp only [bind, Except.bind]
  rw [if_neg hasEndpoint, if_neg free.notSends]
  refine ⟨fun noReply id found => by rw [if_neg noReply, found], fun nothing found isFound => ?_⟩
  rw [nothing, ite_self, isFound]
  refine ⟨fun prev sender isSome => by rw [isSome], fun isNone => by rw [isNone]⟩

/-- Nothing is there from the only source: the caller waits, or it would wait for itself. -/
theorem receiveBlock_spec (ok : Ok cfg Fair Clean K callers) {caller s : Fin n}
    (free : Free K caller) (noMessage : .delivermsg ∉ (K.proc caller).misc) (live : K.Live s)
    (other : s ≠ caller) (none : s ∉ callers caller) :
    ∃ l r, Chain K.waits (K.waits s) l ∧ receiveBlock cfg K caller (K.proc s).endpoint = .ok r ∧
      (caller ∈ l ∧ r = (.elocked, K) ∨
        caller ∉ l ∧ ∃ K', r = (.ok, K') ∧ Ok cfg Fair Clean K' callers ∧ Keeps K K' ∧
          K'.mail = K.mail.block caller (K.proc s).endpoint) := by
  obtain ⟨l, group, chain, isOk, exact⟩ := deadlock_receive ok.ipc live other none
  by_cases safe : group = 0
  · have notIn := exact.mp safe
    have source : K.Source caller (some s) := by
      rintro _ ⟨⟩
      exact ⟨live, other⟩
    have notQueued : ∀ p ∈ callers caller, ¬ (some s = Option.none ∨ some s = some p) := by
      rintro p queued (⟨⟨⟩⟩ | ⟨⟨⟩⟩)
      exact none queued
    obtain ⟨K', isSet, ok', keeps, mail⟩ := block_receiver ok free.live noMessage source
      (absurd · free.notSends) fun _ =>
        ⟨notQueued, s :: l, .cons chain, List.not_mem_cons_of_ne_of_not_mem other.symm notIn⟩
    exact ⟨l, _, chain, receiveBlock_safe (safe ▸ isOk) isSet,
      .inr ⟨notIn, K', rfl, ok', keeps, mail⟩⟩
  · have cycle : caller ∈ l := by_contra fun notIn => safe (exact.mpr notIn)
    refine ⟨l, (.elocked, K), chain, ?_, .inl ⟨cycle, rfl⟩⟩
    rw [receiveBlock, isOk]
    exact if_pos safe

theorem miniReceive_spec (ok : Ok cfg Fair Clean K callers) (caller : Fin n)
    (src : Option (Fin n)) (live : K.Live caller) (notReceives : .receiving ∉ (K.proc caller).rts)
    (noMessage : .delivermsg ∉ (K.proc caller).misc)
    (there : ∀ s, src = some s → .slotFree ∉ (K.proc s).rts ∧ s ≠ caller)
    (sends : .sending ∈ (K.proc caller).rts → (K.proc caller).sendto = K.wanted src) :
    ∃ r, miniReceive cfg K caller (K.wanted src) = .ok r ∧
      Received cfg Fair Clean K callers caller src r := by
  unfold miniReceive
  rw [ensure_bind noMessage, sourceSlot_wanted ok.ipc fun s isS => (there s isS).1]
  change ∃ r, (if ∃ p, src = some p ∧ Rts.noEndpoint ∈ (K.proc p).rts then _ else _) = _ ∧ _
  split
  · next dead =>
      obtain ⟨s, isS, no⟩ := dead
      exact ⟨_, rfl, .dead isS fun live => live.1 no⟩
  next hasEndpoint =>
  have source : K.Source caller src := fun s isS =>
    ⟨⟨fun no => hasEndpoint ⟨s, isS, no⟩, (there s isS).1⟩, (there s isS).2⟩
  split
  · next isSending =>
      obtain ⟨_, d, isTarget, _⟩ := ok.ipc.target caller isSending
      have sendto := sends isSending
      cases src with
      | none => exact absurd (isTarget.symm.trans sendto) (endpoint_ne_special ok.ipc.slot d).1
      | some s =>
          have waits : K.waits caller = some s := by
            rw [State.waits, Proc.blockedOn, if_pos isSending, sendto]
            exact slotOf_endpoint ok.ipc.slot s
          have safe := deadlock_answer ok.ipc (source s rfl).1 (source s rfl).2 waits
          obtain ⟨K', isOk, ok', keeps, mail⟩ :=
            block_receiver ok live noMessage source sends (absurd isSending)
          exact ⟨_, receiveBlock_safe safe isOk, .blocked (absurd isSending) ok' keeps mail⟩
  · next notSends =>
      have free : Free K caller := ⟨live, notSends, notReceives⟩
      split
      · next id found =>
          have found : pendingFrom cfg K caller src = some id := by
            split at found
            · cases found
            · exact found
          obtain ⟨K', source, arg, isOk, wanted, ok', keeps, mail⟩ :=
            receiveNotify_spec ok free noMessage found
          exact ⟨_, isOk, .notified wanted ok' keeps mail⟩
      · have chain := ok.ipc.chain caller live
        obtain ⟨nothing, all⟩ | ⟨A, sender, B, split, before, isWanted, found⟩ :=
          search_chain (fun x => decide (src = none ∨ src = some x)) none
            chain (by simpa using chain.length_le : _ ≤ n)
        · rw [nothing]
          have none : ∀ p ∈ callers caller, ¬ (src = none ∨ src = some p) := by simpa using all
          cases src with
          | none =>
              obtain ⟨K', isOk, ok', keeps, mail⟩ := block_receiver ok live noMessage source
                (absurd · notSends) fun _ => ⟨none, [], .nil, List.not_mem_nil⟩
              exact ⟨_, receiveBlock_safe (deadlock_any ..) isOk,
                .blocked (fun _ => none) ok' keeps mail⟩
          | some s =>
              obtain ⟨l, r, waits, isOk, result⟩ := receiveBlock_spec ok free noMessage
                (source s rfl).1 (source s rfl).2 fun queued => none s queued (.inr rfl)
              obtain ⟨cycle, rfl⟩ | ⟨_, K', rfl, ok', keeps, mail⟩ := result
              · exact ⟨_, isOk, .locked rfl notSends waits cycle⟩
              · exact ⟨_, isOk, .blocked (fun _ => none) ok' keeps mail⟩
        · rw [found]
          obtain ⟨K', isOk, ok', keeps, mail⟩ := receiveMessage_spec ok free noMessage split
          refine ⟨_, ?_, .taken split (by simpa using isWanted) (by simpa using before) ok' keeps mail⟩
          rw [← isOk]
          simp

end Csc457.Kernel
