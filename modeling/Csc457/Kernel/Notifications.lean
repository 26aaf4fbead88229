import Csc457.Kernel.Runs

/-!
# Notifications that are pending

A process that receives from one other has its pending notifications looked through chunk by
chunk, and of each chunk the lowest bit alone is looked at.  A notification behind that of
another process is passed over, and the process waits for what it was already told.
-/

set_option autoImplicit false

namespace Csc457.Kernel

open Function
open Csc457.Lib.LinkedQueue Csc457.Lib.Transition

variable {n k : Nat} {α : Type} {cfg : Config n k α} {K K' : State n k α} {Fair Clean : Prop}
  {callers : Fin n → List (Fin n)} {image : Image cfg}

variable (cfg) in
/-- The notification of `s` is the lowest of those in its chunk that are pending for `c`. -/
def State.Foremost (K : State n k α) (c s : Fin n) : Prop :=
  ∃ id, (K.priv id).procNr = some s ∧ (K.priv (K.proc c).priv).notifyPending id = true ∧
    ∀ lower < id, lower.val / cfg.chunkBits = id.val / cfg.chunkBits →
      (K.priv (K.proc c).priv).notifyPending lower = false

theorem lowestPending_iff {pending : Fin k → Bool} {chunk : Nat} {id : Fin k} :
    lowestPending cfg pending chunk = some id ↔
      id.val / cfg.chunkBits = chunk ∧ pending id = true ∧
        ∀ lower < id, lower.val / cfg.chunkBits = chunk → pending lower = false := by
  rw [lowestPending, List.find?_eq_some_iff_getElem]
  simp only [decide_eq_true_eq, List.getElem_finRange, and_assoc]
  refine and_congr_right fun _ => and_congr_right fun _ => ⟨?_, fun before => ?_⟩
  · rintro ⟨i, inside, rfl, before⟩ lower less inChunk
    simpa [inChunk] using before lower.val less
  · refine ⟨id.val, by simp, rfl, fun j less => ?_⟩
    have notPending := before ⟨j, less.trans id.isLt⟩ less
    simpa [imp_iff_not_or] using notPending

theorem chunk_lt (cfg : Config n k α) (id : Fin k) :
    id.val / cfg.chunkBits < (k + cfg.chunkBits - 1) / cfg.chunkBits := by
  have positive := cfg.chunkBits_pos
  have inside := id.isLt
  calc id.val / cfg.chunkBits
      < id.val / cfg.chunkBits + 1 := Nat.lt_succ_self _
    _ = (id.val + cfg.chunkBits) / cfg.chunkBits := (Nat.add_div_right _ positive).symm
    _ ≤ (k + cfg.chunkBits - 1) / cfg.chunkBits := Nat.div_le_div_right (by omega)

theorem pendingFrom_isSome_iff {c s : Fin n} :
    (pendingFrom cfg K c (some s)).isSome ↔ K.Foremost cfg c s := by
  rw [pendingFrom, List.findSome?_isSome_iff]
  constructor
  · rintro ⟨chunk, _, isSome⟩
    cases isLowest : lowestPending cfg (K.priv (K.proc c).priv).notifyPending chunk with
    | none =>
        rw [isLowest] at isSome
        cases isSome
    | some id =>
        obtain ⟨rfl, pending, before⟩ := lowestPending_iff.mp isLowest
        rw [isLowest] at isSome
        refine ⟨id, ?_, pending, before⟩
        by_contra differ
        simp [differ] at isSome
  · rintro ⟨id, isSource, pending, before⟩
    refine ⟨id.val / cfg.chunkBits, List.mem_range.mpr (chunk_lt cfg id), ?_⟩
    rw [lowestPending_iff.mpr ⟨rfl, pending, before⟩]
    simp [isSource]

section Privileges
variable {rp : Fin n} {f : Finset Rts}

theorem dequeue_priv (isOk : dequeue cfg K rp = .ok K') : K'.priv = K.priv := by
  obtain ⟨_, _, isOk⟩ := bind_ok.mp isOk
  obtain ⟨_, _, isOk⟩ := bind_ok.mp isOk
  split at isOk
  · cases isOk
  · cases isOk
    rfl
  · cases isOk
    exact (unlinkReady_requeued ..).priv

theorem rtsSet_priv (isOk : rtsSet cfg K rp f = .ok K') : K'.priv = K.priv := by
  unfold rtsSet at isOk
  split at isOk
  · exact (dequeue_priv isOk).trans rfl
  · cases isOk
    rfl

theorem linkTail_priv (isOk : linkTail K rp = .ok K') : K'.priv = K.priv := by
  unfold linkTail at isOk
  simp only at isOk
  split at isOk
  · cases isOk
    rfl
  · split at isOk
    · cases isOk
    · cases isOk
      rfl

theorem enqueue_priv (isOk : enqueue cfg K rp = .ok K') : K'.priv = K.priv := by
  obtain ⟨_, _, isOk⟩ := bind_ok.mp isOk
  obtain ⟨_, _, isOk⟩ := bind_ok.mp isOk
  obtain ⟨K₁, isLinked, isOk⟩ := bind_ok.mp isOk
  unfold preempt at isOk
  split at isOk
  · exact (rtsSet_priv isOk).trans (linkTail_priv isLinked)
  · cases isOk
    exact linkTail_priv isLinked

theorem rtsUnset_priv (isOk : rtsUnset cfg K rp f = .ok K') : K'.priv = K.priv := by
  unfold rtsUnset at isOk
  split at isOk
  · exact (enqueue_priv isOk).trans rfl
  · cases isOk
    rfl

theorem storeCaller_priv (K : State n k α) (dst : Fin n) (prev next : Option (Fin n)) :
    (storeCaller K dst prev next).priv = K.priv := by
  cases prev with
  | none => rfl
  | some x => rfl

theorem receiveMessage_priv {c sender : Fin n} {prev : Option (Fin n)} {r : Result × State n k α}
    (isOk : receiveMessage cfg K c prev sender = .ok r) : r.2.priv = K.priv := by
  obtain ⟨_, _, isOk⟩ := bind_ok.mp isOk
  obtain ⟨_, _, isOk⟩ := bind_ok.mp isOk
  obtain ⟨_, _, isOk⟩ := bind_ok.mp isOk
  obtain ⟨K₁, isUnset, isOk⟩ := bind_ok.mp isOk
  cases isOk
  exact (storeCaller_priv ..).trans ((rtsUnset_priv isUnset).trans rfl)

theorem receiveBlock_priv {c : Fin n} {e : Endpoint} {r : Result × State n k α}
    (isOk : receiveBlock cfg K c e = .ok r) : r.2.priv = K.priv := by
  obtain ⟨group, _, isOk⟩ := bind_ok.mp isOk
  split at isOk
  · cases isOk
    rfl
  · obtain ⟨K₁, isSet, isOk⟩ := bind_ok.mp isOk
    cases isOk
    exact (rtsSet_priv isSet).trans rfl

end Privileges

/-! ## Receiving from one process -/

/-- What a process that receives from `s` alone comes to, with the result and the state. -/
inductive Answer (cfg : Config n k α) (K : State n k α) (c s : Fin n) (result : Result)
    (K' : State n k α) : Prop where
  | notified {arg : Finset Nat} (foremost : K.Foremost cfg c s) (isOk : result = .ok)
      (given : (K'.proc c).inbox = some ⟨(K.proc s).endpoint, .notify s arg⟩)
  | taken (hidden : ¬ K.Foremost cfg c s) (same : K'.priv = K.priv) (sends : K.SendsTo s c)
      (isOk : result = .ok)
      (given : (K'.proc c).inbox = some ⟨(K.proc s).endpoint, (K.proc s).sendmsg⟩)
  | blocked (hidden : ¬ K.Foremost cfg c s) (same : K'.priv = K.priv)
      (nothing : ¬ K.SendsTo s c) (noCircle : ¬ Leads K.waits s c) (isOk : result = .ok)
      (waits : (K'.proc c).await = some (K.proc s).endpoint)
  | locked (hidden : ¬ K.Foremost cfg c s) (same : K'.priv = K.priv)
      (nothing : ¬ K.SendsTo s c) (circle : Leads K.waits s c) (isLocked : result = .elocked)
      (free : (K'.proc c).await = none)

theorem miniReceive_answer (ok : Ok cfg Fair Clean K callers) {c s : Fin n} (free : Free K c)
    (noMessage : .delivermsg ∉ (K.proc c).misc) (noReply : .replyPend ∉ (K.proc c).misc)
    (live : K.Live s) (other : s ≠ c) :
    ∃ r, miniReceive cfg K c (K.proc s).endpoint = .ok r ∧ Answer cfg K c s r.1 r.2 := by
  obtain ⟨isPending, notPending⟩ := miniReceive_from cfg ok.ipc free noMessage live
  cases found : pendingFrom cfg K c (some s) with
  | some id =>
      have foremost : K.Foremost cfg c s := pendingFrom_isSome_iff.mp (by rw [found]; rfl)
      obtain ⟨K', source, arg, isOk, isSource, _, _, mail⟩ :=
        receiveNotify_spec ok free noMessage found
      obtain rfl : s = source := by simpa using isSource
      have given : (K'.proc c).inbox = some ⟨(K.proc s).endpoint, .notify s arg⟩ :=
        (congrFun (congrArg Mail.inbox mail) c).trans (update_self ..)
      exact ⟨_, (isPending noReply id found).trans isOk, .notified foremost rfl given⟩
  | none =>
      have hidden : ¬ K.Foremost cfg c s := by
        rw [← pendingFrom_isSome_iff, found]
        exact Bool.false_ne_true
      obtain ⟨nothing, all⟩ | ⟨A, sender, B, split, before, isWanted, isFound⟩ :=
        search_chain (fun x => decide (some s = none ∨ some s = some x)) none
          (ok.ipc.chain c free.live) (by simpa using (ok.ipc.chain c free.live).length_le : _ ≤ n)
      · have notQueued : s ∉ callers c := fun queued => by simpa using all s queued
        have sendsNot : ¬ K.SendsTo s c := fun sends => notQueued ((ok.ipc.queued s c).mpr sends)
        obtain ⟨_, blocks⟩ := notPending found none nothing
        obtain ⟨l, r, chain, isOk, result⟩ :=
          receiveBlock_spec ok free noMessage live other notQueued
        have same := receiveBlock_priv isOk
        refine ⟨r, (blocks rfl).trans isOk, ?_⟩
        obtain ⟨circle, rfl⟩ | ⟨noCircle, K', rfl, _, _, mail⟩ := result
        · exact .locked hidden same sendsNot (chain.mem_iff.mp circle) rfl
            (await_eq_none.mpr free.notReceives)
        · refine .blocked hidden same sendsNot (chain.mem_iff.not.mp noCircle) rfl ?_
          refine (congrFun (congrArg Mail.await mail) c).trans ?_
          exact update_self ..
      · obtain rfl : s = sender := by simpa using isWanted
        rw [Option.or_none] at isFound
        obtain ⟨takes, _⟩ := notPending found _ isFound
        have queued : s ∈ callers c := by
          rw [split]
          exact List.mem_append_right _ List.mem_cons_self
        obtain ⟨K', isOk, _, _, mail⟩ := receiveMessage_spec ok free noMessage split
        have same := receiveMessage_priv isOk
        refine ⟨_, (takes _ s rfl).trans isOk,
          .taken hidden same ((ok.ipc.queued s c).mp queued) rfl ?_⟩
        refine (congrFun (congrArg Mail.inbox mail) c).trans ?_
        exact update_self ..

theorem Answer.of_misc {c s : Fin n} {result : Result} {f : Finset Misc → Finset Misc}
    (answer : Answer cfg (K.modify c fun p => { p with misc := f p.misc }) c s result K') :
    Answer cfg K c s result K' := by
  have field : ∀ {β : Type} (field : Proc n k α → β),
      (∀ x : Proc n k α, field { x with misc := f x.misc } = field x) → ∀ q,
      field ((K.modify c fun p => { p with misc := f p.misc }).proc q) = field (K.proc q) :=
    fun field same q => modify_field K c q _ field same
  have privOf := field Proc.priv fun _ => rfl
  have endpoint := field Proc.endpoint fun _ => rfl
  have sendmsg := field Proc.sendmsg fun _ => rfl
  have waits : (K.modify c fun p => { p with misc := f p.misc }).waits = K.waits :=
    funext fun q => congrArg (slotOf n) (field Proc.blockedOn (fun _ => rfl) q)
  have foremost : (K.modify c fun p => { p with misc := f p.misc }).Foremost cfg c s ↔
      K.Foremost cfg c s := by
    unfold State.Foremost
    rw [privOf]
    rfl
  have sendsTo : (K.modify c fun p => { p with misc := f p.misc }).SendsTo s c ↔
      K.SendsTo s c := by
    unfold State.SendsTo
    rw [field Proc.rts fun _ => rfl, field Proc.sendto fun _ => rfl, endpoint]
  cases answer with
  | notified isForemost isOk given =>
      exact .notified (foremost.mp isForemost) isOk (endpoint s ▸ given)
  | taken hidden same sends isOk given =>
      rw [endpoint, sendmsg] at given
      exact .taken (foremost.not.mp hidden) same (sendsTo.mp sends) isOk given
  | blocked hidden same nothing noCircle isOk isAwaited =>
      exact .blocked (foremost.not.mp hidden) same (sendsTo.not.mp nothing) (waits ▸ noCircle) isOk
        (endpoint s ▸ isAwaited)
  | locked hidden same nothing circle isLocked free =>
      exact .locked (foremost.not.mp hidden) same (sendsTo.not.mp nothing) (waits ▸ circle)
        isLocked free

theorem Answer.with_retreg {c s : Fin n} {result : Result} (answer : Answer cfg K c s result K') :
    Answer cfg K c s ((K'.modify c fun p => { p with retreg := result }).proc c).retreg
      (K'.modify c fun p => { p with retreg := result }) := by
  have inbox : ((K'.modify c fun p => { p with retreg := result }).proc c).inbox =
      (K'.proc c).inbox := modify_field K' c c _ Proc.inbox fun _ => rfl
  have await : ((K'.modify c fun p => { p with retreg := result }).proc c).await =
      (K'.proc c).await := modify_field K' c c _ Proc.await fun _ => rfl
  have retreg : ((K'.modify c fun p => { p with retreg := result }).proc c).retreg = result := by
    rw [modify_self]
  cases answer with
  | notified foremost isOk given =>
      exact .notified foremost (retreg.trans isOk) (inbox.trans given)
  | taken hidden same sends isOk given =>
      exact .taken hidden same sends (retreg.trans isOk) (inbox.trans given)
  | blocked hidden same nothing noCircle isOk waits =>
      exact .blocked hidden same nothing noCircle (retreg.trans isOk) (await.trans waits)
  | locked hidden same nothing circle isLocked free =>
      exact .locked hidden same nothing circle (retreg.trans isLocked) (await.trans free)

/-- A process that receives from one other alone has its notification exactly when no lower bit
of that chunk is set, and else what the other is sending to it, or waits. -/
theorem receive_answered (reached : Reached image Fair Clean K) (notIdle : K.procPtr ≠ cfg.idle)
    {s : Fin n} (live : K.Live s) (other : s ≠ K.procPtr)
    (allowed : (K.priv (K.proc K.procPtr).priv).trapMask .receive = true) (m : Option α) :
    ∃ K', doIpc cfg K .receive (K.proc s).endpoint m = .ok K' ∧
      Answer cfg K K.procPtr s (K'.proc K.procPtr).retreg K' := by
  obtain ⟨callers, ok⟩ := reached.left.ok
  have running := (reached.left.running notIdle).1
  have free := running.free
  obtain ⟨ok₁, keeps₁, mail₁⟩ := misc_ok ok (f := (·.erase .replyPend)) free.live.2 (by simp)
  have noMessage₁ := inbox_eq_none.mp ((congrFun (congrArg Mail.inbox mail₁) K.procPtr).trans
    (inbox_eq_none.mpr running.noMessage))
  obtain ⟨r, isOk, answer⟩ := miniReceive_answer ok₁ (free.of_same keeps₁ mail₁) noMessage₁
    (by rw [modify_self]; simp) ((keeps₁.live s).mpr live) other
  rw [keeps₁.endpoint] at isOk
  have notRefused : refusal cfg K K.procPtr .receive (K.proc s).endpoint = none := by
    have isProc : isokendpt K (K.proc s).endpoint = some s :=
      (isokendpt_iff ok.ipc.slot).mpr ⟨rfl, live.used⟩
    simp [refusal, isProc, allowed]
  refine ⟨r.2.modify K.procPtr fun p => { p with retreg := r.1 }, ?_, ?_⟩
  swap
  · exact (answer.of_misc (f := (·.erase .replyPend))).with_retreg
  unfold doIpc doSyncIpc
  rw [ensure_bind free.live.2, ensure_bind running.noMessage, notRefused]
  change (miniReceive cfg _ _ _ >>= _) = _
  rw [isOk]
  rfl

/-- It waits for the fifth, by which it was notified: the bit of SYSTEM is the lower one. -/
theorem twoNotified_answered :
    (twoNotified.priv (twoNotified.proc 3).priv).notifyPending 2 = true ∧ ∃ K',
      doIpc small twoNotified .receive (twoNotified.proc 4).endpoint none = .ok K' ∧
        Answer small twoNotified twoNotified.procPtr 4 (K'.proc twoNotified.procPtr).retreg K' := by
  have reached : Reached smallImage True True twoNotified :=
    reached_of_playable (by decide +kernel) (by decide +kernel)
  refine ⟨by decide +kernel, receive_answered reached (by decide +kernel) ?_ (by decide +kernel)
    (by decide +kernel) none⟩
  exact ⟨by decide +kernel, by decide +kernel⟩

end Csc457.Kernel
