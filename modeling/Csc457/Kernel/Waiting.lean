import Csc457.Kernel.Messages

/-!
# Who waits for whom

The processes that are blocked in a call: each sender is in the queue of the process it sends
to, once, in the order in which they came, and a receiver has no message yet.  Whoever a
blocked process waits for is there, and no process waits for itself, over however many
others.
-/

set_option autoImplicit false

namespace Csc457.Kernel

open Function
open Csc457.Lib.LinkedQueue

variable {n k : Nat} {α : Type} {cfg : Config n k α} {K K' K'' : State n k α}

/-- `K'` is `K` but for the ready queues and for whether the current process was preempted. -/
structure Alike (K K' : State n k α) : Prop where
  proc : ∀ p, ∃ next rts, K'.proc p = { K.proc p with nextready := next, rts := rts } ∧
    (rts = (K.proc p).rts ∨ p = K.procPtr ∧ rts = insert .preempted (K.proc p).rts)
  priv : K'.priv = K.priv
  procPtr : K'.procPtr = K.procPtr

theorem Requeued.alike (same : Requeued K K') : Alike K K' := by
  refine ⟨fun p => ?_, same.priv, same.procPtr⟩
  obtain ⟨next, here⟩ := same.proc p
  exact ⟨next, (K.proc p).rts, here, .inl rfl⟩

theorem marked_alike (K : State n k α) (rp : Fin n) : Alike K (K.marked rp) := by
  unfold State.marked
  split
  · refine ⟨fun p => ?_, rfl, rfl⟩
    rw [State.setFlags, modify_apply]
    split
    · next isCurrent =>
        refine ⟨_, _, by rw [isCurrent], .inr ⟨isCurrent, ?_⟩⟩
        rw [isCurrent]
        exact Finset.union_comm ..
    · exact ⟨_, _, rfl, .inl rfl⟩
  · exact (Requeued.refl K).alike

theorem Alike.trans (first : Alike K K') (second : Alike K' K'') : Alike K K'' := by
  refine ⟨fun p => ?_, second.priv.trans first.priv, second.procPtr.trans first.procPtr⟩
  obtain ⟨next, rts, here, flags⟩ := first.proc p
  obtain ⟨next', rts', here', flags'⟩ := second.proc p
  refine ⟨next', rts', by rw [here', here], ?_⟩
  rw [here] at flags'
  simp only [first.procPtr] at flags'
  rcases flags with rfl | ⟨isCurrent, rfl⟩
  · exact flags'
  · rcases flags' with rfl | ⟨_, rfl⟩
    · exact .inr ⟨isCurrent, rfl⟩
    · exact .inr ⟨isCurrent, Finset.insert_idem ..⟩

theorem Alike.flag (alike : Alike K K') (p : Fin n) {f : Rts} (other : f ≠ .preempted) :
    f ∈ (K'.proc p).rts ↔ f ∈ (K.proc p).rts := by
  obtain ⟨next, rts, here, rfl | ⟨_, rfl⟩⟩ := alike.proc p
  · rw [here]
  · rw [here, Finset.mem_insert]
    exact or_iff_right other

theorem Alike.field {β : Type} (alike : Alike K K') (p : Fin n) (field : Proc n k α → β)
    (other : ∀ (p : Proc n k α) next rts,
      field { p with nextready := next, rts := rts } = field p) :
    field (K'.proc p) = field (K.proc p) := by
  obtain ⟨next, rts, here, _⟩ := alike.proc p
  rw [here, other]

/-! ## The invariant -/

def State.Live (K : State n k α) (p : Fin n) : Prop :=
  .noEndpoint ∉ (K.proc p).rts ∧ .slotFree ∉ (K.proc p).rts

/-- Whom a blocked process waits for, if that is one process. -/
def State.waits (K : State n k α) (p : Fin n) : Option (Fin n) := slotOf n (K.proc p).blockedOn

/-- The blocked processes; `There` are those that can be waited for, and `callers` the
queues. -/
structure IpcOk (There : Fin n → Prop) (K : State n k α) (callers : Fin n → List (Fin n)) :
    Prop where
  slot : ∀ p, ∃ generation, (K.proc p).endpoint = .of p generation
  chain : ∀ d, K.Live d → Chain K.qLink (K.proc d).callerQ (callers d)
  queued : ∀ p d, p ∈ callers d ↔ .sending ∈ (K.proc p).rts ∧ (K.proc p).sendto = (K.proc d).endpoint
  target : ∀ p, .sending ∈ (K.proc p).rts →
    There p ∧ ∃ d, (K.proc p).sendto = (K.proc d).endpoint ∧ There d
  source : ∀ p, .receiving ∈ (K.proc p).rts →
    There p ∧ .delivermsg ∉ (K.proc p).misc ∧
      ((K.proc p).getfrom = .any ∨ ∃ d, (K.proc p).getfrom = (K.proc d).endpoint ∧ There d)
  both : ∀ p, .sending ∈ (K.proc p).rts → .receiving ∈ (K.proc p).rts →
    (K.proc p).getfrom = (K.proc p).sendto
  ends : ∀ p, ∃ l, Chain K.waits (some p) l

variable {There : Fin n → Prop} {callers callers' : Fin n → List (Fin n)}

/-- What the invariant is about. -/
structure SameIpc (p p' : Proc n k α) : Prop where
  sending : .sending ∈ p'.rts ↔ .sending ∈ p.rts
  receiving : .receiving ∈ p'.rts ↔ .receiving ∈ p.rts
  noEndpoint : .noEndpoint ∈ p'.rts ↔ .noEndpoint ∈ p.rts
  slotFree : .slotFree ∈ p'.rts ↔ .slotFree ∈ p.rts
  deliver : .delivermsg ∈ p'.misc ↔ .delivermsg ∈ p.misc
  getfrom : p'.getfrom = p.getfrom
  sendto : p'.sendto = p.sendto
  endpoint : p'.endpoint = p.endpoint
  callerQ : p'.callerQ = p.callerQ
  qLink : p'.qLink = p.qLink

theorem SameIpc.blockedOn {p p' : Proc n k α} (same : SameIpc p p') : p'.blockedOn = p.blockedOn := by
  simp only [Proc.blockedOn, same.sending, same.receiving, same.getfrom, same.sendto]

theorem modify_sameIpc (K : State n k α) (x : Fin n) {g : Proc n k α → Proc n k α}
    (same : ∀ p, SameIpc p (g p)) (p : Fin n) : SameIpc (K.proc p) ((K.modify x g).proc p) := by
  rw [modify_apply]
  split
  · next isX => exact isX ▸ same _
  · exact ⟨.rfl, .rfl, .rfl, .rfl, .rfl, rfl, rfl, rfl, rfl, rfl⟩

theorem IpcOk.congr (ok : IpcOk There K callers) (same : ∀ p, SameIpc (K.proc p) (K'.proc p)) :
    IpcOk There K' callers := by
  have live : ∀ p, K'.Live p ↔ K.Live p := fun p => by
    simp only [State.Live, (same p).noEndpoint, (same p).slotFree]
  have qLink : K'.qLink = K.qLink := funext fun p => (same p).qLink
  have waits : K'.waits = K.waits := funext fun p => by rw [State.waits, (same p).blockedOn]; rfl
  refine ⟨fun p => ?_, fun d => ?_, fun p d => ?_, fun p => ?_, fun p => ?_, fun p => ?_, ?_⟩
  · rw [(same p).endpoint]
    exact ok.slot p
  · rw [live, qLink, (same d).callerQ]
    exact ok.chain d
  · rw [(same p).sending, (same p).sendto, (same d).endpoint]
    exact ok.queued p d
  · simp only [(same p).sending, (same p).sendto, (same _).endpoint]
    exact ok.target p
  · simp only [(same p).receiving, (same p).deliver, (same p).getfrom, (same _).endpoint]
    exact ok.source p
  · rw [(same p).sending, (same p).receiving, (same p).getfrom, (same p).sendto]
    exact ok.both p
  · rw [waits]
    exact ok.ends

theorem Alike.sameIpc (alike : Alike K K') (p : Fin n) : SameIpc (K.proc p) (K'.proc p) where
  sending := alike.flag p (by decide)
  receiving := alike.flag p (by decide)
  noEndpoint := alike.flag p (by decide)
  slotFree := alike.flag p (by decide)
  deliver := by rw [alike.field p Proc.misc fun _ _ _ => rfl]
  getfrom := alike.field p Proc.getfrom fun _ _ _ => rfl
  sendto := alike.field p Proc.sendto fun _ _ _ => rfl
  endpoint := alike.field p Proc.endpoint fun _ _ _ => rfl
  callerQ := alike.field p Proc.callerQ fun _ _ _ => rfl
  qLink := alike.field p Proc.qLink fun _ _ _ => rfl

theorem IpcOk.alike (ok : IpcOk There K callers) (alike : Alike K K') : IpcOk There K' callers :=
  ok.congr alike.sameIpc

/-- Nobody waits for himself after `p` has come to wait for someone else, or for none. -/
theorem IpcOk.ends_of (ok : IpcOk There K callers) {p : Fin n}
    (others : ∀ x ≠ p, K'.waits x = K.waits x) {C : List (Fin n)}
    (chain : Chain K.waits (K'.waits p) C) (other : p ∉ C) (x : Fin n) :
    ∃ l, Chain K'.waits (some x) l := by
  have waits : K'.waits = update K.waits p (K'.waits p) := by
    funext y
    by_cases same : y = p
    · rw [same, update_self]
    · rw [update_of_ne same, others y same]
  rw [waits]
  exact ends_update ok.ends chain other x

theorem IpcOk.receiveSide (ok : IpcOk There K callers) {d : Fin n}
    (others : ∀ p ≠ d, SameIpc (K.proc p) (K'.proc p))
    (sending : .sending ∈ (K'.proc d).rts ↔ .sending ∈ (K.proc d).rts)
    (live : K'.Live d ↔ K.Live d)
    (fields : (K'.proc d).sendto = (K.proc d).sendto ∧
      (K'.proc d).endpoint = (K.proc d).endpoint ∧
      (K'.proc d).callerQ = (K.proc d).callerQ ∧ (K'.proc d).qLink = (K.proc d).qLink)
    (source : .receiving ∈ (K'.proc d).rts → There d ∧ .delivermsg ∉ (K'.proc d).misc ∧
      ((K'.proc d).getfrom = .any ∨ ∃ x, (K'.proc d).getfrom = (K.proc x).endpoint ∧ There x) ∧
      (.sending ∈ (K.proc d).rts → (K'.proc d).getfrom = (K.proc d).sendto))
    {C : List (Fin n)} (chain : Chain K.waits (K'.waits d) C) (other : d ∉ C) :
    IpcOk There K' callers := by
  obtain ⟨sendto, endpoint, callerQ, qLink⟩ := fields
  have allLive : ∀ p, K'.Live p ↔ K.Live p := fun p => by
    by_cases same : p = d
    · rw [same, live]
    · simp only [State.Live, (others p same).noEndpoint, (others p same).slotFree]
  have allEndpoint : ∀ p, (K'.proc p).endpoint = (K.proc p).endpoint := fun p => by
    by_cases same : p = d
    · rw [same, endpoint]
    · exact (others p same).endpoint
  have allSendto : ∀ p, (K'.proc p).sendto = (K.proc p).sendto := fun p => by
    by_cases same : p = d
    · rw [same, sendto]
    · exact (others p same).sendto
  have allSending : ∀ p, .sending ∈ (K'.proc p).rts ↔ .sending ∈ (K.proc p).rts := fun p => by
    by_cases same : p = d
    · rw [same, sending]
    · exact (others p same).sending
  have allLinks : K'.qLink = K.qLink := funext fun p => by
    by_cases same : p = d
    · rw [same]
      exact qLink
    · exact (others p same).qLink
  refine ⟨fun p => ?_, fun p => ?_, fun p x => ?_, fun p => ?_, fun p => ?_, fun p => ?_, ?_⟩
  · rw [allEndpoint]
    exact ok.slot p
  · rw [allLive, allLinks]
    by_cases same : p = d
    · rw [same, callerQ]
      exact ok.chain d
    · rw [(others p same).callerQ]
      exact ok.chain p
  · rw [allSending, allSendto, allEndpoint]
    exact ok.queued p x
  · simp only [allSending, allSendto, allEndpoint]
    exact ok.target p
  · simp only [allEndpoint]
    by_cases same : p = d
    · subst same
      exact fun receives =>
        ⟨(source receives).1, (source receives).2.1, (source receives).2.2.1⟩
    · rw [(others p same).receiving, (others p same).deliver, (others p same).getfrom]
      exact ok.source p
  · rw [allSending, allSendto]
    by_cases same : p = d
    · subst same
      exact fun sends receives => (source receives).2.2.2 sends
    · rw [(others p same).receiving, (others p same).getfrom]
      exact ok.both p
  · exact ok.ends_of (fun x differ => by rw [State.waits, (others x differ).blockedOn]; rfl)
      chain other

theorem IpcOk.sendSide (ok : IpcOk There K callers) {p : Fin n}
    (others : ∀ x ≠ p, (.sending ∈ (K'.proc x).rts ↔ .sending ∈ (K.proc x).rts) ∧
      (K'.proc x).sendto = (K.proc x).sendto)
    (same : ∀ x, (.receiving ∈ (K'.proc x).rts ↔ .receiving ∈ (K.proc x).rts) ∧
      (K'.Live x ↔ K.Live x) ∧
      (.delivermsg ∈ (K'.proc x).misc ↔ .delivermsg ∈ (K.proc x).misc) ∧
      (K'.proc x).getfrom = (K.proc x).getfrom ∧ (K'.proc x).endpoint = (K.proc x).endpoint)
    (chains : ∀ d, K.Live d → Chain K'.qLink (K'.proc d).callerQ (callers' d))
    (queue : ∀ x ≠ p, ∀ d, x ∈ callers' d ↔ x ∈ callers d)
    (queued : ∀ d, p ∈ callers' d ↔
      .sending ∈ (K'.proc p).rts ∧ (K'.proc p).sendto = (K.proc d).endpoint)
    (target : .sending ∈ (K'.proc p).rts →
      There p ∧ ∃ d, (K'.proc p).sendto = (K.proc d).endpoint ∧ There d)
    (both : .sending ∈ (K'.proc p).rts → .receiving ∈ (K.proc p).rts →
      (K.proc p).getfrom = (K'.proc p).sendto)
    {C : List (Fin n)} (chain : Chain K.waits (K'.waits p) C) (other : p ∉ C) :
    IpcOk There K' callers' := by
  have endpoint := fun x => (same x).2.2.2.2
  refine ⟨fun x => ?_, fun x => ?_, fun x d => ?_, fun x => ?_, fun x => ?_, fun x => ?_, ?_⟩
  · rw [endpoint]
    exact ok.slot x
  · rw [(same x).2.1]
    exact chains x
  · rw [endpoint]
    by_cases isP : x = p
    · subst isP
      exact queued d
    · rw [queue x isP, (others x isP).1, (others x isP).2]
      exact ok.queued x d
  · simp only [endpoint]
    by_cases isP : x = p
    · subst isP
      exact target
    · rw [(others x isP).1, (others x isP).2]
      exact ok.target x
  · simp only [endpoint]
    rw [(same x).1, (same x).2.2.1, (same x).2.2.2.1]
    exact ok.source x
  · rw [(same x).1, (same x).2.2.2.1]
    by_cases isP : x = p
    · subst isP
      exact both
    · rw [(others x isP).1, (others x isP).2]
      exact ok.both x
  · refine ok.ends_of (fun x differ => ?_) chain other
    simp only [State.waits, Proc.blockedOn, (others x differ).1, (others x differ).2, (same x).1,
      (same x).2.2.2.1]

theorem slotOf_of (p : Fin n) (generation : Nat) : slotOf n (.of p generation) = some p := by
  rw [slotOf, dif_pos p.isLt]

section
variable (slot : ∀ p, ∃ generation, (K.proc p).endpoint = .of p generation)
include slot

theorem slotOf_endpoint (p : Fin n) : slotOf n (K.proc p).endpoint = some p := by
  obtain ⟨generation, here⟩ := slot p
  rw [here, slotOf_of]

theorem endpoint_inj {p q : Fin n} (same : (K.proc p).endpoint = (K.proc q).endpoint) : p = q := by
  have slots := slotOf_endpoint slot p
  rw [same, slotOf_endpoint slot q] at slots
  exact (Option.some.inj slots).symm

theorem endpoint_ne_special (p : Fin n) :
    (K.proc p).endpoint ≠ .any ∧ (K.proc p).endpoint ≠ .none := by
  obtain ⟨generation, here⟩ := slot p
  rw [here]
  exact ⟨nofun, nofun⟩

theorem isokendpt_iff {e : Endpoint} {p : Fin n} :
    isokendpt K e = some p ↔ e = (K.proc p).endpoint ∧ ¬ (K.proc p).Empty := by
  constructor
  · intro found
    obtain ⟨q, isSlot, check⟩ := Option.bind_eq_some_iff.mp found
    split at check
    · next holds =>
        cases check
        exact ⟨holds.2.symm, holds.1⟩
    · cases check
  · rintro ⟨rfl, used⟩
    refine Option.bind_eq_some_iff.mpr ⟨p, slotOf_endpoint slot p, ?_⟩
    rw [if_pos ⟨used, rfl⟩]

end

theorem State.Live.used {p : Fin n} (live : K.Live p) : ¬ (K.proc p).Empty := by
  intro empty
  refine live.2 ?_
  rw [empty]
  exact Finset.mem_singleton_self _

theorem okendpt_live (ok : IpcOk There K callers) {p : Fin n} (live : K.Live p) :
    okendpt K (K.proc p).endpoint = .ok p := by
  rw [okendpt, (isokendpt_iff ok.slot).mpr ⟨rfl, live.used⟩]

/-! ## deadlock -/

theorem IpcOk.blockedOn (ok : IpcOk There K callers) (p : Fin n) :
    (K.proc p).blockedOn = .none ∨ (K.proc p).blockedOn = .any ∨
      ∃ d, (K.proc p).blockedOn = (K.proc d).endpoint ∧ There d := by
  unfold Proc.blockedOn
  split
  · next sends =>
      obtain ⟨_, d, isTarget, there⟩ := ok.target p sends
      exact .inr (.inr ⟨d, isTarget, there⟩)
  · split
    · next receives =>
        obtain ⟨_, _, isAny | ⟨d, isSource, there⟩⟩ := ok.source p receives
        · exact .inr (.inl isAny)
        · exact .inr (.inr ⟨d, isSource, there⟩)
    · exact .inl rfl

theorem deadlock_any (function : Call) (cp : Fin n) (fuel size : Nat) :
    deadlock K function cp fuel .any size = .ok 0 := by
  unfold deadlock
  rfl

theorem deadlock_turn {e : Endpoint} {x : Fin n} (isOk : okendpt K e = .ok x)
    (used : .slotFree ∉ (K.proc x).rts) (function : Call) (cp : Fin n) (fuel size : Nat) :
    deadlock K function cp (fuel + 1) e size = (do
      ensure .outside (size < n)
      if (K.proc x).blockedOn = .none then return 0
      else if (K.proc x).blockedOn = (K.proc cp).endpoint then
        if size + 1 = 2 ∧ (.sending ∈ (K.proc x).rts ↔ function ≠ .send) then return 0
        else return size + 1
      else deadlock K function cp fuel (K.proc x).blockedOn (size + 1)) := by
  cases e with
  | any => cases isOk
  | none => cases isOk
  | of slot generation =>
      conv_lhs => unfold deadlock
      rw [isOk]
      simp only [bind, Except.bind, ensure, if_pos used]

theorem deadlock_step (ok : IpcOk There K callers) (function : Call) {cp x : Fin n}
    {fuel size : Nat} (live : K.Live x) (room : size < n) :
    deadlock K function cp (fuel + 1) (K.proc x).endpoint size =
      if (K.proc x).blockedOn = .none then .ok 0
      else if (K.proc x).blockedOn = (K.proc cp).endpoint then
        if size + 1 = 2 ∧ (.sending ∈ (K.proc x).rts ↔ function ≠ .send) then .ok 0
        else .ok (size + 1)
      else deadlock K function cp fuel (K.proc x).blockedOn (size + 1) := by
  rw [deadlock_turn (okendpt_live ok live) live.2, ensure_bind room]
  rfl

/-- The walk of deadlock from `x` on, which comes to an end and stays in its array. -/
theorem deadlock_walk (ok : IpcOk K.Live K callers) (function : Call) {cp x : Fin n}
    {l : List (Fin n)} {fuel size : Nat} (chain : Chain K.waits (some x) (x :: l))
    (live : K.Live x) (other : x ≠ cp) (pos : 0 < size)
    (room : size + ((x :: l).takeWhile (· ≠ cp)).length ≤ n)
    (enough : ((x :: l).takeWhile (· ≠ cp)).length ≤ fuel) :
    ∃ r, deadlock K function cp fuel (K.proc x).endpoint size = .ok r ∧
      (r = 0 ↔ cp ∉ l ∨ size = 1 ∧ K.waits x = some cp ∧
        (.sending ∈ (K.proc x).rts ↔ function ≠ .send)) := by
  induction l generalizing x fuel size with
  | nil =>
      rw [List.takeWhile_cons_of_pos (by simpa using other), List.takeWhile_nil,
        List.length_singleton] at room enough
      obtain ⟨fuel, rfl⟩ := Nat.exists_eq_succ_of_ne_zero (by omega : fuel ≠ 0)
      have last : K.waits x = none := by
        cases chain with
        | cons tail => exact tail.head_eq
      refine ⟨0, ?_, by simp⟩
      rw [deadlock_step ok function live (by omega)]
      obtain isNone | isAny | ⟨d, isProc, _⟩ := ok.blockedOn x
      · rw [if_pos isNone]
      · rw [isAny, if_neg nofun, if_neg (endpoint_ne_special ok.slot cp).1.symm, deadlock_any]
      · rw [State.waits, isProc, slotOf_endpoint ok.slot] at last
        cases last
  | cons y l ih =>
      rw [List.takeWhile_cons_of_pos (by simpa using other), List.length_cons] at room enough
      obtain ⟨fuel, rfl⟩ := Nat.exists_eq_succ_of_ne_zero (by omega : fuel ≠ 0)
      have next : K.waits x = some y := by
        cases chain with
        | cons tail => exact tail.head_eq
      have tail : Chain K.waits (some y) (y :: l) := by
        cases chain with
        | cons tail => rwa [next] at tail
      rw [deadlock_step ok function live (by omega)]
      obtain isNone | isAny | ⟨d, isProc, liveD⟩ := ok.blockedOn x
      · rw [State.waits, isNone] at next
        cases next
      · rw [State.waits, isAny] at next
        cases next
      · have isD := next
        rw [State.waits, isProc, slotOf_endpoint ok.slot] at isD
        obtain rfl := Option.some.inj isD
        rw [isProc, if_neg (endpoint_ne_special ok.slot d).2]
        by_cases isCp : d = cp
        · subst isCp
          rw [if_pos rfl]
          split
          · next exempt => exact ⟨0, rfl, iff_of_true rfl (.inr ⟨by omega, next, exempt.2⟩)⟩
          · next fatal =>
              refine ⟨size + 1, rfl, by omega, fun cases => ?_⟩
              obtain notIn | ⟨isOne, _, exempt⟩ := cases
              · simp at notIn
              · exact absurd ⟨by omega, exempt⟩ fatal
        · have isCp' : (K.proc d).endpoint ≠ (K.proc cp).endpoint :=
            fun same => isCp (endpoint_inj ok.slot same)
          rw [if_neg isCp']
          obtain ⟨r, isOk, exact⟩ :=
            @ih d fuel (size + 1) tail liveD isCp (by omega) (by omega) (by omega)
          refine ⟨r, isOk, exact.trans ?_⟩
          have notCp : cp ∉ d :: l ↔ cp ∉ l := by simp [Ne.symm isCp]
          rw [notCp, next]
          refine or_congr_right ⟨fun impossible => ?_, fun impossible => ?_⟩
          · exact absurd impossible.1 (by omega)
          · exact absurd (Option.some.inj impossible.2.1) isCp

/-- deadlock ends, and finds a deadlock exactly when `dst` already waits for the caller,
over however many others, except that the two may go to send to and receive from each
other. -/
theorem deadlock_spec (ok : IpcOk K.Live K callers) (function : Call) {cp dst : Fin n}
    (live : K.Live dst) (other : dst ≠ cp) :
    ∃ l r, Chain K.waits (K.waits dst) l ∧
      deadlock K function cp n (K.proc dst).endpoint 1 = .ok r ∧
      (r = 0 ↔ cp ∉ l ∨ K.waits dst = some cp ∧
        (.sending ∈ (K.proc dst).rts ↔ function ≠ .send)) := by
  obtain ⟨l, chain⟩ := ok.ends dst
  cases chain with
  | @cons _ l tail =>
      have nodup : (cp :: (dst :: l).takeWhile (· ≠ cp)).Nodup := by
        refine List.nodup_cons.mpr ⟨fun member => ?_, ?_⟩
        · have holds := List.all_takeWhile (p := fun x => decide (x ≠ cp)) (l := dst :: l)
          simpa using List.all_eq_true.mp holds cp member
        · exact (Chain.cons tail).nodup.sublist (List.takeWhile_sublist _)
      have room := nodup.length_le_card
      rw [Fintype.card_fin, List.length_cons] at room
      obtain ⟨r, isOk, exact⟩ := deadlock_walk ok function (.cons tail) live other Nat.one_pos
        (by omega) (by omega : _ ≤ n)
      exact ⟨l, r, tail, isOk, exact.trans (by simp)⟩

end Csc457.Kernel
