import Csc457.Kernel.Receiving

/-!
# What one process says to another

The texts on the way from one process to another: those that were given to it, the one in its
delivery buffer, and the one its sender is blocked with.  A call puts a text at the end if it
reports success, and changes nothing else of it.
-/

set_option autoImplicit false

namespace Csc457.Kernel

open Function
open Csc457.Lib.LinkedQueue

variable {n k : Nat} {α : Type} {cfg : Config n k α} {K K' K'' : State n k α}
  {callers callers' : Fin n → List (Fin n)} {Fair Clean : Prop}

def Content.text : Content n α → Option α
  | .user text => some text
  | _ => none

/-- What a message says, if it is from `source`. -/
def Message.from (source : Endpoint) (msg : Message n α) : Option α :=
  if msg.source = source then msg.content.text else none

/-- What a sender is blocked with, if it sends to `dst`. -/
def asked (dst : Endpoint) (x : Endpoint × Content n α) : Option α :=
  if x.1 = dst then x.2.text else none

/-- What `p` has said to `d`, in order. -/
def Mail.flow (m : Mail n α) (name : Fin n → Endpoint) (p d : Fin n) : List α :=
  (m.got d ++ (m.inbox d).toList).filterMap (Message.from (name p)) ++
    (m.pend p).toList.filterMap (asked (name d))

section
variable {m : Mail n α} {name : Fin n → Endpoint} (inj : Injective name) {p d : Fin n}

include inj in
theorem hand_flow {caller dst : Fin n} {content : Content n α} (empty : m.inbox dst = none)
    (free : m.pend caller = none ∨ content.text = none) :
    (m.hand dst ⟨name caller, content⟩).flow name p d =
      m.flow name p d ++ if p = caller ∧ d = dst then content.text.toList else [] := by
  unfold Mail.flow Mail.hand
  by_cases isDst : d = dst
  · subst isDst
    by_cases isCaller : p = caller
    · subst isCaller
      obtain none | none := free <;> cases text : content.text <;> simp_all [Message.from]
    · have differ : name caller ≠ name p := fun same => isCaller (inj same).symm
      simp [empty, isCaller, Message.from, differ]
  · simp [isDst]

include inj in
theorem queue_flow {caller dst : Fin n} {content : Content n α} (free : m.pend caller = none) :
    (m.queue caller (name dst) content).flow name p d =
      m.flow name p d ++ if p = caller ∧ d = dst then content.text.toList else [] := by
  unfold Mail.flow Mail.queue
  by_cases isCaller : p = caller
  · subst isCaller
    by_cases isDst : d = dst
    · subst isDst
      cases text : content.text <;> simp [free, asked, text]
    · have differ : name dst ≠ name d := fun same => isDst (inj same).symm
      simp [free, asked, differ, isDst]
  · simp [isCaller]

include inj in
theorem take_flow {caller sender : Fin n} {content : Content n α} (empty : m.inbox caller = none)
    (pend : m.pend sender = some (name caller, content)) :
    (m.take caller sender ⟨name sender, content⟩).flow name p d = m.flow name p d := by
  unfold Mail.flow Mail.take
  by_cases isSender : p = sender
  · subst isSender
    by_cases isCaller : d = caller
    · subst isCaller
      cases text : content.text <;> simp [empty, pend, Message.from, asked, text]
    · have differ : name caller ≠ name d := fun same => isCaller (inj same).symm
      simp [pend, isCaller, asked, differ]
  · by_cases isCaller : d = caller
    · subst isCaller
      have differ : name sender ≠ name p := fun same => isSender (inj same).symm
      simp [empty, isSender, Message.from, differ]
    · simp [isSender, isCaller]

theorem put_flow {dst : Fin n} {msg : Message n α} (empty : m.inbox dst = none)
    (silent : msg.content.text = none) : (m.put dst msg).flow name p d = m.flow name p d := by
  unfold Mail.flow Mail.put
  by_cases isDst : d = dst
  · subst isDst
    simp [empty, Message.from, silent]
  · simp [isDst]

theorem read_flow {dst : Fin n} : (m.read dst).flow name p d = m.flow name p d := by
  unfold Mail.flow Mail.read
  by_cases isDst : d = dst
  · subst isDst
    simp
  · simp [isDst]

theorem drop_flow (m : Mail n α) (name : Fin n → Endpoint) (p d x : Fin n) :
    ((m.drop x).flow name p d).Sublist (m.flow name p d) ∧
      (p ≠ x → (m.drop x).flow name p d = m.flow name p d) := by
  unfold Mail.flow Mail.drop
  by_cases isX : p = x
  · subst isX
    simp
  · simp [isX]

end

def State.endpoints (K : State n k α) : Fin n → Endpoint := fun p => (K.proc p).endpoint

def State.flow (K : State n k α) (p d : Fin n) : List α := K.mail.flow K.endpoints p d

theorem Keeps.endpoints (keeps : Keeps K K') : K'.endpoints = K.endpoints := funext keeps.endpoint

theorem Keeps.wanted (keeps : Keeps K K') (src : Option (Fin n)) : K'.wanted src = K.wanted src := by
  cases src with
  | none => rfl
  | some s => exact keeps.endpoint s

theorem IpcOk.injective {There : Fin n → Prop} (ok : IpcOk There K callers) :
    Injective K.endpoints := fun _ _ same => endpoint_inj ok.slot same

/-! ## Calls -/

/-- What the call of `caller` adds to what `p` says to `d`. -/
def accepted (caller : Fin n) (call : Call) (e : Endpoint) (m : Option α) (result : Result)
    (p d : Fin n) : List α :=
  if result = .ok ∧ (call = .send ∨ call = .sendrec ∨ call = .sendnb) ∧ p = caller ∧
    slotOf n e = some d then m.toList else []

theorem sent_flow {caller dst : Fin n} {m : Option (Content n α)} {r : Result × State n k α}
    (ok : Ok cfg Fair Clean K callers) (free : Free K caller)
    (sent : Sent cfg Fair Clean K callers caller dst m r) (p d : Fin n) :
    r.2.flow p d = K.flow p d ++
      if r.1 = .ok ∧ p = caller ∧ d = dst then (m.bind Content.text).toList else [] := by
  have none : K.mail.pend caller = none := pend_eq_none.mpr free.notSends
  cases sent with
  | refused fails => simp [fails]
  | handed isMessage will ok' keeps mail =>
      have empty : K.mail.inbox dst = .none := inbox_eq_none.mpr (ok.ipc.noMessage will)
      rw [State.flow, mail, keeps.endpoints, isMessage]
      refine (hand_flow ok.ipc.injective empty (.inl none)).trans ?_
      simp [State.flow]
  | queued isMessage wont live ok' keeps mail =>
      rw [State.flow, mail, keeps.endpoints, isMessage]
      refine (queue_flow ok.ipc.injective none).trans ?_
      simp [State.flow]

theorem received_flow {caller : Fin n} {src : Option (Fin n)} {r : Result × State n k α}
    (ok : Ok cfg Fair Clean K callers) (noMessage : .delivermsg ∉ (K.proc caller).misc)
    (received : Received cfg Fair Clean K callers caller src r) (p d : Fin n) :
    r.2.flow p d = K.flow p d := by
  have empty : K.mail.inbox caller = none := inbox_eq_none.mpr noMessage
  cases received with
  | dead _ _ => rfl
  | locked _ _ _ _ => rfl
  | notified _ _ keeps mail =>
      rw [State.flow, mail, keeps.endpoints]
      exact put_flow empty rfl
  | @taken _ A B sender split _ _ _ keeps mail =>
      have sends := (ok.ipc.queued sender caller).mp (by rw [split]; simp)
      rw [State.flow, mail, keeps.endpoints]
      refine take_flow ok.ipc.injective empty ?_
      change (K.proc sender).pend = _
      rw [Proc.pend, if_pos sends.1, sends.2]
      rfl
  | blocked _ _ keeps mail =>
      rw [State.flow, mail, keeps.endpoints]
      rfl

theorem refusal_none {caller : Fin n} {call : Call} {e : Endpoint}
    (allowed : refusal cfg K caller call e = none) :
    (call = .receive ∧ e = .any ∨ ∃ dst, isokendpt K e = some dst) ∧
      (K.priv (K.proc caller).priv).trapMask call = true ∧
      (call ≠ .receive → ∀ dst, isokendpt K e = some dst → maySendTo K caller dst = true) := by
  unfold refusal at allowed
  simp only at allowed
  split at allowed
  · cases allowed
  next notAny =>
  split at allowed
  · cases allowed
  next isProc =>
  split at allowed
  · cases allowed
  next may =>
  split at allowed
  · cases allowed
  next trap =>
  refine ⟨?_, by simpa using trap, fun sends dst isDst => ?_⟩
  swap
  · exact Bool.not_eq_false _ ▸ fun mayNot => may ⟨sends, dst, isDst, mayNot⟩
  by_cases isAny : e = .any
  · exact .inl ⟨by_contra fun other => notAny ⟨isAny, other⟩, isAny⟩
  · exact .inr (Option.ne_none_iff_exists'.mp fun none => isProc ⟨isAny, none⟩)

/-- The state after a call, and what was said by it. -/
structure Called (cfg : Config n k α) (Fair Clean : Prop) (K : State n k α) (caller : Fin n)
    (call : Call) (e : Endpoint) (m : Option α) (r : Result × State n k α) : Prop where
  ok : ∃ callers', Ok cfg Fair Clean r.2 callers'
  keeps : Keeps K r.2
  flow : ∀ p d, r.2.flow p d = K.flow p d ++ accepted caller call e m r.1 p d

theorem Called.rejected (ok : Ok cfg Fair Clean K callers) {caller : Fin n} {call : Call}
    {e : Endpoint} {m : Option α} {result : Result} (fails : result ≠ .ok) :
    Called cfg Fair Clean K caller call e m (result, K) :=
  ⟨⟨callers, ok⟩, .refl K, fun _ _ => by simp [accepted, fails]⟩

theorem Sent.keeps {caller dst : Fin n} {m : Option (Content n α)} {r : Result × State n k α}
    (sent : Sent cfg Fair Clean K callers caller dst m r) : Keeps K r.2 := by
  cases sent with
  | refused => exact .refl K
  | handed _ _ _ keeps _ => exact keeps
  | queued _ _ _ _ keeps _ => exact keeps

theorem Sent.ok {caller dst : Fin n} {m : Option (Content n α)} {r : Result × State n k α}
    (sent : Sent cfg Fair Clean K callers caller dst m r) (ok : Ok cfg Fair Clean K callers) :
    ∃ callers', Ok cfg Fair Clean r.2 callers' := by
  cases sent with
  | refused => exact ⟨_, ok⟩
  | handed _ _ ok' _ _ => exact ⟨_, ok'⟩
  | queued _ _ _ ok' _ _ => exact ⟨_, ok'⟩

theorem Received.keeps {caller : Fin n} {src : Option (Fin n)} {r : Result × State n k α}
    (received : Received cfg Fair Clean K callers caller src r) : Keeps K r.2 := by
  cases received with
  | dead => exact .refl K
  | locked => exact .refl K
  | notified _ _ keeps _ => exact keeps
  | taken _ _ _ _ keeps _ => exact keeps
  | blocked _ _ keeps _ => exact keeps

theorem Received.ok {caller : Fin n} {src : Option (Fin n)} {r : Result × State n k α}
    (received : Received cfg Fair Clean K callers caller src r)
    (ok : Ok cfg Fair Clean K callers) : ∃ callers', Ok cfg Fair Clean r.2 callers' := by
  cases received with
  | dead => exact ⟨_, ok⟩
  | locked => exact ⟨_, ok⟩
  | notified _ ok' _ _ => exact ⟨_, ok'⟩
  | taken _ _ _ ok' _ _ => exact ⟨_, ok'⟩
  | blocked _ ok' _ _ => exact ⟨_, ok'⟩

theorem pend_eq_some {p : Proc n k α} {e : Endpoint} {content : Content n α} :
    p.pend = some (e, content) ↔ .sending ∈ p.rts ∧ p.sendto = e ∧ p.sendmsg = content := by
  simp [Proc.pend]

theorem waits_eq_none {p : Fin n} (noPend : K.mail.pend p = none) (noAwait : K.mail.await p = none) :
    K.waits p = none := by
  rw [State.waits, Proc.blockedOn, if_neg (pend_eq_none.mp noPend), if_neg (await_eq_none.mp noAwait)]
  rfl

/-- SENDREC: a message that could be sent is followed by waiting for the answer, or by one that
is there. -/
theorem sendrec_receives (ok : Ok cfg Fair Clean K callers) {caller dst : Fin n}
    (free : Free K caller) (noMessage : .delivermsg ∉ (K.proc caller).misc) (other : dst ≠ caller)
    (used : .slotFree ∉ (K.proc dst).rts) {m : Option (Content n α)}
    (sent : Sent cfg Fair Clean K callers caller dst m (.ok, K')) :
    ∃ r callers', miniReceive cfg K' caller (K.proc dst).endpoint = .ok (.ok, r) ∧
      Ok cfg Fair Clean K' callers' ∧ .delivermsg ∉ (K'.proc caller).misc ∧
      Received cfg Fair Clean K' callers' caller (some dst) (.ok, r) := by
  have keeps := sent.keeps
  obtain ⟨callers', ok'⟩ := sent.ok ok
  have noPend : K.mail.pend caller = none := pend_eq_none.mpr free.notSends
  have noAwait : K.mail.await caller = none := await_eq_none.mpr free.notReceives
  have noInbox : K.mail.inbox caller = none := inbox_eq_none.mpr noMessage
  obtain ⟨live, await, inbox, sends, waits⟩ : K.Live dst ∧ K'.mail.await caller = none ∧
      K'.mail.inbox caller = none ∧
      (.sending ∈ (K'.proc caller).rts → (K'.proc caller).sendto = (K.proc dst).endpoint) ∧
      (.sending ∉ (K'.proc caller).rts → K'.waits dst = none) := by
    cases sent with
    | refused fails => exact absurd rfl fails
    | handed isMessage will ok' keeps mail =>
        refine ⟨(ok.ipc.source dst will.1.1).1, ?_, ?_, fun sends => absurd sends ?_, fun _ => ?_⟩
        · rw [mail]
          exact (update_of_ne other.symm ..).trans noAwait
        · rw [mail]
          exact (update_of_ne other.symm ..).trans noInbox
        · refine pend_eq_none.mp ?_
          change K'.mail.pend caller = none
          rw [mail]
          exact noPend
        · refine waits_eq_none ?_ ?_
          · rw [mail]
            exact pend_eq_none.mpr will.1.2
          · rw [mail]
            exact update_self ..
    | @queued content _ isMessage wont live ok' keeps mail =>
        have pend : K'.mail.pend caller = some ((K.proc dst).endpoint, content) := by
          rw [mail]
          exact update_self ..
        have sends := pend_eq_some.mp pend
        exact ⟨live, by rw [mail]; exact noAwait, by rw [mail]; exact noInbox,
          fun _ => sends.2.1, absurd sends.1⟩
  have wanted : K'.wanted (some dst) = (K.proc dst).endpoint := keeps.endpoint dst
  obtain ⟨r, isOk, received⟩ := miniReceive_spec ok' caller (some dst)
    ((keeps.live caller).mpr free.live) (await_eq_none.mp await) (inbox_eq_none.mp inbox)
    (by rintro _ ⟨⟩; exact ⟨(keeps.slotFree dst).not.mpr used, other⟩)
    (by rw [wanted]; exact sends)
  rw [wanted] at isOk
  obtain ⟨result, K₂⟩ := r
  have isResult : result = .ok := by
    cases received with
    | dead isSource dead =>
        cases isSource
        exact absurd ((keeps.live dst).mpr live) dead
    | locked isSource notSends chain cycle =>
        cases isSource
        rw [waits notSends] at chain
        cases chain
        cases cycle
    | notified => rfl
    | taken => rfl
    | blocked => rfl
  subst isResult
  exact ⟨K₂, callers', isOk, ok', inbox_eq_none.mp inbox, received⟩

theorem refusal_ne_ok {caller : Fin n} {call : Call} {e : Endpoint} {result : Result}
    (refused : refusal cfg K caller call e = some result) : result ≠ .ok := by
  rintro rfl
  unfold refusal at refused
  simp only at refused
  repeat' split at refused
  all_goals cases refused

theorem Sent.called {caller dst : Fin n} (call : Call) {m : Option α} {r : Result × State n k α}
    (ok : Ok cfg Fair Clean K callers) (free : Free K caller)
    (sends : call = .send ∨ call = .sendrec ∨ call = .sendnb)
    (sent : Sent cfg Fair Clean K callers caller dst (m.map .user) r) :
    Called cfg Fair Clean K caller call (K.proc dst).endpoint m r := by
  refine ⟨sent.ok ok, sent.keeps, fun p d => ?_⟩
  have text : (m.map Content.user).bind (Content.text (n := n)) = m := by cases m <;> rfl
  rw [sent_flow ok free sent, text, accepted, slotOf_endpoint ok.ipc.slot]
  simp [sends, eq_comm]

theorem Received.called {caller : Fin n} {src : Option (Fin n)} {e : Endpoint} {m : Option α}
    {r : Result × State n k α} (ok : Ok cfg Fair Clean K callers)
    (noMessage : .delivermsg ∉ (K.proc caller).misc)
    (received : Received cfg Fair Clean K callers caller src r) :
    Called cfg Fair Clean K caller .receive e m r := by
  refine ⟨received.ok ok, received.keeps, fun p d => ?_⟩
  rw [received_flow ok noMessage received, accepted, if_neg (by simp), List.append_nil]

theorem isokendpt_used (calm : Calm cfg Clean K callers) {e : Endpoint} {dst : Fin n}
    (isOk : isokendpt K e = some dst) : e = (K.proc dst).endpoint ∧ .slotFree ∉ (K.proc dst).rts := by
  obtain ⟨isEndpoint, notEmpty⟩ := (isokendpt_iff calm.ipc.slot).mp isOk
  exact ⟨isEndpoint, fun free => notEmpty (calm.table.free dst free)⟩

theorem Called.of_same {caller : Fin n} {call : Call} {e : Endpoint} {m : Option α}
    {r : Result × State n k α} (called : Called cfg Fair Clean K' caller call e m r)
    (keeps : Keeps K K') (mail : K'.mail = K.mail) : Called cfg Fair Clean K caller call e m r := by
  refine ⟨called.ok, keeps.trans called.keeps, fun p d => ?_⟩
  rw [called.flow, State.flow, mail, keeps.endpoints]
  rfl

theorem Free.of_same {caller : Fin n} (free : Free K caller) (keeps : Keeps K K')
    (mail : K'.mail = K.mail) : Free K' caller where
  live := (keeps.live caller).mpr free.live
  notSends := pend_eq_none.mp
    ((congrFun (congrArg Mail.pend mail) caller).trans (pend_eq_none.mpr free.notSends))
  notReceives := await_eq_none.mp
    ((congrFun (congrArg Mail.await mail) caller).trans (await_eq_none.mpr free.notReceives))

theorem maySendTo_other (table : Table cfg K) {p d : Fin n} (may : maySendTo K p d = true) :
    d ≠ p := by
  rintro rfl
  rw [maySendTo, table.masks.alone] at may
  cases may

theorem doSyncIpc_spec (ok : Ok cfg Fair Clean K callers) {caller : Fin n} (free : Free K caller)
    (noMessage : .delivermsg ∉ (K.proc caller).misc) (call : Call) {e : Endpoint}
    (noSelf : call = .receive → slotOf n e ≠ some caller) (m : Option α) :
    Ends (fun halt => halt = .linked ∧ K.qLink caller ≠ none) (doSyncIpc cfg K caller call e m)
      (Called cfg Fair Clean K caller call e m) := by
  unfold doSyncIpc
  cases refused : refusal cfg K caller call e with
  | some result => exact Called.rejected ok (refusal_ne_ok refused)
  | none =>
      obtain ⟨target, trap, may⟩ := refusal_none refused
      have isProc : call ≠ .receive →
          ∃ dst, e = (K.proc dst).endpoint ∧ .slotFree ∉ (K.proc dst).rts ∧ dst ≠ caller := by
        intro notReceive
        obtain ⟨isReceive, _⟩ | ⟨dst, isOk⟩ := target
        · exact absurd isReceive notReceive
        · obtain ⟨isEndpoint, used⟩ := isokendpt_used ok.toCalm isOk
          exact ⟨dst, isEndpoint, used, maySendTo_other ok.table (may notReceive dst isOk)⟩
      cases call with
      | send =>
          obtain ⟨dst, rfl, used, other⟩ := isProc nofun
          exact (miniSend_spec ok free used other (m.map .user) false false).mono (fun _ => id)
            fun r sent => sent.called _ ok free (by simp)
      | sendnb =>
          obtain ⟨dst, rfl, used, other⟩ := isProc nofun
          exact (miniSend_spec ok free used other (m.map .user) true false).mono (fun _ => id)
            fun r sent => sent.called _ ok free (by simp)
      | notify =>
          obtain ⟨dst, rfl, used, other⟩ := isProc nofun
          obtain ⟨K', isOk, ok', keeps, mail⟩ :=
            miniNotify_spec ok caller used (ok.table.notifiers _ trap)
          refine Ends.of_eq isOk ⟨⟨_, ok'⟩, keeps, fun p d => ?_⟩
          rw [accepted, if_neg (by simp), List.append_nil, State.flow, keeps.endpoints]
          obtain mail | ⟨will, arg, mail⟩ := mail
          · rw [mail]
            rfl
          · rw [mail]
            refine (hand_flow ok.ipc.injective
              (inbox_eq_none.mpr (ok.ipc.noMessage will)) (.inr rfl)).trans ?_
            simp [Content.text, State.flow]
      | receive =>
          obtain ⟨ok₁, keeps₁, mail₁⟩ := misc_ok ok (f := (·.erase .replyPend)) free.live.2 (by simp)
          obtain ⟨src, isSrc, there⟩ : ∃ src, K.wanted src = e ∧
              ∀ s, src = some s → .slotFree ∉ (K.proc s).rts ∧ s ≠ caller := by
            obtain ⟨_, rfl⟩ | ⟨dst, isOk⟩ := target
            · exact ⟨none, rfl, nofun⟩
            · obtain ⟨rfl, used⟩ := isokendpt_used ok.toCalm isOk
              refine ⟨some dst, rfl, ?_⟩
              rintro _ ⟨⟩
              refine ⟨used, fun same => noSelf rfl ?_⟩
              rw [slotOf_endpoint ok.ipc.slot, same]
          have wanted : State.wanted _ src = e := isSrc ▸ keeps₁.wanted src
          have free₁ := free.of_same keeps₁ mail₁
          have noMessage₁ := inbox_eq_none.mp
            ((congrFun (congrArg Mail.inbox mail₁) caller).trans (inbox_eq_none.mpr noMessage))
          obtain ⟨r, isOk, received⟩ := miniReceive_spec ok₁ caller src free₁.live free₁.notReceives
            noMessage₁ (fun s isS => ⟨(keeps₁.slotFree s).not.mpr (there s isS).1, (there s isS).2⟩)
            (absurd · free₁.notSends)
          rw [wanted] at isOk
          exact Ends.of_eq isOk ((received.called ok₁ noMessage₁).of_same keeps₁ mail₁)
      | sendrec =>
          obtain ⟨dst, rfl, used, other⟩ := isProc nofun
          obtain ⟨ok₁, keeps₁, mail₁⟩ := misc_ok ok (f := insert .replyPend) free.live.2 (by simp)
          have free₁ := free.of_same keeps₁ mail₁
          have noMessage₁ := inbox_eq_none.mp
            ((congrFun (congrArg Mail.inbox mail₁) caller).trans (inbox_eq_none.mpr noMessage))
          have used₁ := (keeps₁.slotFree dst).not.mpr used
          have sends := miniSend_spec ok₁ free₁ used₁ other (m.map .user) false false
          rw [keeps₁.endpoint dst] at sends
          refine Ends.bind (sends.mono (fun halt bad => ?_) (fun r sent => sent) :
            Ends (fun halt => halt = .linked ∧ K.qLink caller ≠ none) _ _) fun r sent => ?_
          · refine ⟨bad.1, fun null => bad.2 ?_⟩
            rwa [State.qLink, modify_self]
          · obtain ⟨result, K₂⟩ := r
            have called := (sent.called .sendrec ok₁ free₁ (by simp)).of_same keeps₁ mail₁
            rw [keeps₁.endpoint dst] at called
            by_cases isOk : result = .ok
            · subst isOk
              obtain ⟨K₃, callers₂, isOk, ok₂, noMessage₂, received⟩ :=
                sendrec_receives ok₁ free₁ noMessage₁ other used₁ sent
              rw [keeps₁.endpoint dst] at isOk
              refine Ends.of_eq isOk ⟨received.ok ok₂, called.keeps.trans received.keeps,
                fun p d => ?_⟩
              rw [received_flow ok₂ noMessage₂ received]
              exact called.flow p d
            · refine Ends.of_eq (a := (result, K₂)) ?_ called
              exact if_pos isOk

/-- The running process can make a call. -/
structure Running (K : State n k α) : Prop where
  runnable : (K.proc K.procPtr).Runnable
  noMessage : .delivermsg ∉ (K.proc K.procPtr).misc

theorem Running.free (running : Running K) : Free K K.procPtr := by
  have none : ∀ f, f ∉ (K.proc K.procPtr).rts := fun f member => by
    rw [running.runnable] at member
    cases member
  exact ⟨⟨none _, none _⟩, none _, none _⟩

theorem doIpc_spec (ok : Ok cfg Fair Clean K callers) (running : Running K) (call : Call)
    {e : Endpoint} (noSelf : call = .receive → slotOf n e ≠ some K.procPtr) (m : Option α) :
    Ends (fun halt => halt = .linked ∧ K.qLink K.procPtr ≠ none) (doIpc cfg K call e m) fun K' =>
      (∃ callers', Ok cfg Fair Clean K' callers') ∧ Keeps K K' ∧
        ∀ p d, K'.flow p d =
          K.flow p d ++ accepted K.procPtr call e m (K'.proc K.procPtr).retreg p d := by
  have free := running.free
  unfold doIpc
  rw [ensure_bind free.live.2, ensure_bind running.noMessage]
  refine Ends.bind (doSyncIpc_spec ok free running.noMessage call noSelf m) fun r called => ?_
  obtain ⟨callers', ok'⟩ := called.ok
  obtain ⟨ok₂, keeps, mail⟩ := ok'.modify (x := K.procPtr) (g := fun p => { p with retreg := r.1 })
    ((called.keeps.slotFree _).not.mpr free.live.2) fun p =>
      ⟨⟨.rfl, .rfl, .rfl, .rfl, .rfl, rfl, rfl, rfl, rfl, rfl⟩,
        rfl, rfl, rfl, rfl, rfl, rfl, rfl, rfl, rfl⟩
  refine ⟨⟨callers', ok₂⟩, called.keeps.trans keeps, fun p d => ?_⟩
  rw [modify_self, State.flow, mail, keeps.endpoints]
  exact called.flow p d

end Csc457.Kernel
