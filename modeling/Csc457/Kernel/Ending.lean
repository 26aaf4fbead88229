import Csc457.Kernel.Traffic

/-!
# The end of a process

clear_endpoint: while the process is taken out of the queue it is in, and those who wait for it
are released one after the other, they still wait for a process that is gone.  When all were
visited nobody does.
-/

set_option autoImplicit false

namespace Csc457.Kernel

open Function
open Csc457.Lib.LinkedQueue

variable {n k : Nat} {α : Type} {cfg : Config n k α} {K K' K'' : State n k α}
  {callers callers' : Fin n → List (Fin n)} {Fair Clean : Prop} {rc : Fin n}

theorem Queues.clearFlags (queues : Queues cfg Fair K) (rp : Fin n) {f : Finset Rts}
    (other : .preempted ∉ f) (stopped : ¬ ((K.clearFlags rp f).proc rp).Runnable) :
    Queues cfg Fair (K.clearFlags rp f) := by
  obtain ⟨K', isOk, queues', _⟩ := queues.rtsUnset rp other (absurd · stopped)
  rw [Kernel.rtsUnset, if_neg fun starts => stopped starts.2] at isOk
  cases isOk
  exact queues'

theorem Relinked.modify (relinked : Relinked K K') (x : Fin n) {g : Proc n k α → Proc n k α}
    (commutes : ∀ p head next, g { p with callerQ := head, qLink := next } =
      { g p with callerQ := head, qLink := next }) : Relinked (K.modify x g) (K'.modify x g) := by
  refine ⟨fun p => ?_, relinked.priv, relinked.procPtr, relinked.heads, relinked.tails⟩
  obtain ⟨head, next, here⟩ := relinked.proc p
  rw [modify_apply, modify_apply]
  split
  · next isX =>
      subst isX
      exact ⟨head, next, by rw [here, commutes]⟩
  · exact ⟨head, next, here⟩

@[simp] theorem clearFlags_qLink (rp : Fin n) (f : Finset Rts) :
    (K.clearFlags rp f).qLink = K.qLink :=
  funext fun p => modify_field _ rp p _ Proc.qLink fun _ => rfl

/-- Those who are there, and the one that ends. -/
def State.There (K : State n k α) (rc : Fin n) (p : Fin n) : Prop := K.Live p ∨ p = rc

/-- The calls while `rc` is cleared; those in `left` may still wait for it. -/
structure Clearing (cfg : Config n k α) (Clean : Prop) (rc : Fin n) (left : List (Fin n))
    (K : State n k α) (callers : Fin n → List (Fin n)) : Prop where
  table : Table cfg K
  ipc : IpcOk (K.There rc) K callers
  met : Met K callers
  clean : Clean → ∀ p, K.qLink p ≠ none → .sending ∈ (K.proc p).rts ∨ .noEndpoint ∈ (K.proc p).rts
  current : .slotFree ∉ (K.proc K.procPtr).rts
  gone : .noEndpoint ∈ (K.proc rc).rts
  used : .slotFree ∉ (K.proc rc).rts
  single : Clean → ∀ p ∈ callers rc, K.qLink p = none
  waiting : ∀ p, (K.proc p).blockedOn = (K.proc rc).endpoint → p ∈ left

theorem Keeps.there (keeps : Keeps K K') (p : Fin n) : K'.There rc p ↔ K.There rc p :=
  or_congr_left (keeps.live p)

variable {left : List (Fin n)}

theorem Clearing.keep (clearing : Clearing cfg Clean rc left K callers) (keeps : Keeps K K')
    (ipc : IpcOk (K.There rc) K' callers') (met : Met K' callers')
    (clean : Clean → ∀ p, K'.qLink p ≠ none →
      .sending ∈ (K'.proc p).rts ∨ .noEndpoint ∈ (K.proc p).rts)
    (single : Clean → ∀ p ∈ callers' rc, K'.qLink p = none) {left' : List (Fin n)}
    (waiting : ∀ p, (K'.proc p).blockedOn = (K.proc rc).endpoint → p ∈ left') :
    Clearing cfg Clean rc left' K' callers' where
  table := clearing.table.keep keeps
  ipc := ipc.mono fun p => (keeps.there p).mpr
  met := met
  clean isClean p linked := by
    rw [keeps.rts p _ (by decide : Rts.noEndpoint ∉ ipcFlags)]
    exact clean isClean p linked
  current := by
    rw [keeps.slotFree, keeps.procPtr]
    exact clearing.current
  gone := (keeps.rts rc _ (by decide : Rts.noEndpoint ∉ ipcFlags)).mpr clearing.gone
  used := (keeps.slotFree rc).not.mpr clearing.used
  single := single
  waiting := by rwa [keeps.endpoint]

theorem Clearing.same (clearing : Clearing cfg Clean rc left K callers) (keeps : Keeps K K')
    (same : ∀ p, SameIpc (K.proc p) (K'.proc p)) : Clearing cfg Clean rc left K' callers := by
  have links : K'.qLink = K.qLink := funext fun p => (same p).qLink
  refine clearing.keep keeps (clearing.ipc.congr same) (fun d p queued => ?_)
    (fun clean p linked => ?_) (fun clean p queued => ?_) fun p waits => ?_
  · rw [(same d).willReceive, (same p).endpoint]
    exact clearing.met d p queued
  · rw [(same p).sending]
    exact clearing.clean clean p (links ▸ linked)
  · rw [links]
    exact clearing.single clean p queued
  · rw [(same p).blockedOn] at waits
    exact clearing.waiting p waits

theorem Clearing.done (clearing : Clearing cfg Clean rc [] K callers)
    (idle : (K.proc rc).blockedOn = .none) : Calm cfg Clean K callers := by
  have notSends : .sending ∉ (K.proc rc).rts := fun sends => by
    obtain ⟨_, d, isTarget, _⟩ := clearing.ipc.target rc sends
    rw [Proc.blockedOn, if_pos sends, isTarget] at idle
    exact (endpoint_ne_special clearing.ipc.slot d).2 idle
  have notReceives : .receiving ∉ (K.proc rc).rts := fun receives => by
    rw [Proc.blockedOn, if_neg notSends, if_pos receives] at idle
    obtain ⟨_, _, isAny | ⟨d, isSource, _⟩⟩ := clearing.ipc.source rc receives
    · rw [isAny] at idle
      cases idle
    · rw [isSource] at idle
      exact (endpoint_ne_special clearing.ipc.slot d).2 idle
  have live : ∀ p, K.There rc p → p ≠ rc → K.Live p := fun p there other =>
    there.resolve_right other
  have notFor : ∀ p, (K.proc p).blockedOn ≠ (K.proc rc).endpoint := fun p waits =>
    absurd (clearing.waiting p waits) (List.not_mem_nil)
  refine {
    table := clearing.table
    ipc := { clearing.ipc with target := fun p sends => ?_, source := fun p receives => ?_ }
    met := clearing.met
    clean := clearing.clean
    current := clearing.current }
  · obtain ⟨there, d, isTarget, thereD⟩ := clearing.ipc.target p sends
    refine ⟨live p there ?_, d, isTarget, live d thereD ?_⟩
    · rintro rfl
      exact notSends sends
    · rintro rfl
      exact notFor p (by rw [Proc.blockedOn, if_pos sends, isTarget])
  · obtain ⟨there, noMessage, source⟩ := clearing.ipc.source p receives
    refine ⟨live p there ?_, noMessage, source.imp_right ?_⟩
    · rintro rfl
      exact notReceives receives
    · rintro ⟨d, isSource, thereD⟩
      refine ⟨d, isSource, live d thereD ?_⟩
      rintro rfl
      refine notFor p ?_
      by_cases sends : .sending ∈ (K.proc p).rts
      · rw [Proc.blockedOn, if_pos sends, ← clearing.ipc.both p sends receives, isSource]
      · rw [Proc.blockedOn, if_neg sends, if_pos receives, isSource]

theorem Table.setFlags (table : Table cfg K) {rp : Fin n} (used : .slotFree ∉ (K.proc rp).rts)
    {f : Finset Rts} (other : .slotFree ∉ f) : Table cfg (K.setFlags rp f) := by
  have fields : ∀ p, ∃ g, .slotFree ∉ g ∧ (p ≠ rp → g = ∅) ∧
      (K.setFlags rp f).proc p = { K.proc p with rts := (K.proc p).rts ∪ g } := fun p => by
    rw [State.setFlags, modify_apply]
    split
    · next isRp => exact ⟨f, other, absurd isRp, by rw [isRp]⟩
    · exact ⟨∅, Finset.notMem_empty _, fun _ => rfl, by rw [Finset.union_empty]⟩
  have free : ∀ p, .slotFree ∈ ((K.setFlags rp f).proc p).rts ↔ .slotFree ∈ (K.proc p).rts :=
    fun p => by
      obtain ⟨g, notFree, _, here⟩ := fields p
      rw [here, Finset.mem_union]
      exact or_iff_left notFree
  refine ⟨fun p isFree => ?_, fun p isTask => ?_, fun p user => ?_, fun p user isUsed flag => ?_,
    fun p s => ?_, (free _).not.mpr table.idle, table.pending, table.notifiers, table.masks⟩
  · have wasFree := (free p).mp isFree
    obtain ⟨g, _, unchanged, here⟩ := fields p
    rw [here, unchanged (by rintro rfl; exact used wasFree), Finset.union_empty]
    exact table.free p wasFree
  · refine (table.task p isTask).imp (fun stop => ?_) (free p).mpr
    obtain ⟨g, _, _, here⟩ := fields p
    rw [here]
    exact Finset.mem_union_left _ stop
  · obtain ⟨g, _, _, here⟩ := fields p
    rw [here]
    exact table.level p user
  · have isUsed := (free p).not.mp isUsed
    obtain ⟨g, _, _, here⟩ := fields p
    rw [here] at flag ⊢
    exact table.quantum p user isUsed fun isSet => flag (Finset.mem_union_left _ isSet)
  · rw [free]
    obtain ⟨g, _, _, here⟩ := fields p
    rw [here]
    exact table.scheduler p s

theorem clear_begin (ok : Ok cfg Fair Clean K callers) (used : .slotFree ∉ (K.proc rc).rts)
    (few : Clean → ∀ a ∈ callers rc, ∀ b ∈ callers rc, a = b) :
    ∃ K₁, rtsSet cfg K rc {Rts.noEndpoint} = .ok K₁ ∧ Queues cfg Fair K₁ ∧
      Clearing cfg Clean rc (List.finRange n) K₁ callers ∧ K₁.mail = K.mail ∧
      K₁.endpoints = K.endpoints ∧ K₁.procPtr = K.procPtr ∧ K₁.qLink = K.qLink := by
  obtain ⟨K₁, isOk, queues, alike⟩ := ok.toQueues.rtsSet rc {Rts.noEndpoint}
  have table := ok.table.setFlags used (f := {Rts.noEndpoint}) (by decide)
  have fields : ∀ p, ∃ rts, (K.setFlags rc {Rts.noEndpoint}).proc p = { K.proc p with rts := rts } ∧
      (∀ f ≠ .noEndpoint, f ∈ rts ↔ f ∈ (K.proc p).rts) ∧
      (.noEndpoint ∈ rts ↔ .noEndpoint ∈ (K.proc p).rts ∨ p = rc) := fun p => by
    rw [State.setFlags, modify_apply]
    split
    · next isRc => exact ⟨_, by rw [isRc], by simp +contextual [isRc], by simp [isRc]⟩
    · next notRc => exact ⟨_, rfl, fun _ _ => .rfl, by simp [notRc]⟩
  have procPtr : (K.setFlags rc {Rts.noEndpoint}).procPtr = K.procPtr := rfl
  have endpoints : (K.setFlags rc {Rts.noEndpoint}).endpoints = K.endpoints := funext fun p => by
    obtain ⟨rts, here, _⟩ := fields p
    rw [State.endpoints, here]
    rfl
  have mail : (K.setFlags rc {Rts.noEndpoint}).mail = K.mail := by
    refine Mail.ext (funext fun p => ?_) (funext fun p => ?_) (funext fun p => ?_)
      (funext fun p => ?_)
    all_goals
      obtain ⟨rts, here, flags, _⟩ := fields p
      simp only [State.mail, here, Proc.pend, Proc.await, Proc.inbox,
        flags .sending (by decide), flags .receiving (by decide)]
  generalize (K.setFlags rc {Rts.noEndpoint}) = L at *
  have flag : ∀ p, ∀ f ≠ .noEndpoint, f ∈ (L.proc p).rts ↔ f ∈ (K.proc p).rts := fun p f other => by
    obtain ⟨rts, here, flags, _⟩ := fields p
    rw [here]
    exact flags f other
  have field : ∀ {β : Type} (g : Proc n k α → β), (∀ p rts, g { p with rts := rts } = g p) →
      ∀ p, g (L.proc p) = g (K.proc p) := fun g other p => by
    obtain ⟨rts, here, _⟩ := fields p
    rw [here, other]
  have sendto := field Proc.sendto fun _ _ => rfl
  have getfrom := field Proc.getfrom fun _ _ => rfl
  have endpoint := field Proc.endpoint fun _ _ => rfl
  have links : L.qLink = K.qLink := funext (field Proc.qLink fun _ _ => rfl)
  have sending := fun p => flag p .sending (by decide)
  have receiving := fun p => flag p .receiving (by decide)
  have slotFree := fun p => flag p .slotFree (by decide)
  have blockedOn : ∀ p, (L.proc p).blockedOn = (K.proc p).blockedOn := fun p => by
    simp only [Proc.blockedOn, sending, receiving, sendto, getfrom]
  have waits : L.waits = K.waits := funext fun p => by rw [State.waits, blockedOn]; rfl
  have noEndpoint : ∀ p, .noEndpoint ∈ (L.proc p).rts ↔ .noEndpoint ∈ (K.proc p).rts ∨ p = rc :=
    fun p => by
      obtain ⟨rts, here, _, endpoint⟩ := fields p
      rw [here]
      exact endpoint
  have live : ∀ p, L.Live p ↔ K.Live p ∧ p ≠ rc := fun p => by
    rw [State.Live, State.Live, noEndpoint, slotFree]
    tauto
  have there : ∀ p, K.Live p → L.There rc p := fun p isLive => by
    by_cases isRc : p = rc
    · exact .inr isRc
    · exact .inl ((live p).mpr ⟨isLive, isRc⟩)
  have ipc : IpcOk (L.There rc) L callers := by
    refine ⟨fun p => ?_, fun d isLive => ?_, fun p d => ?_, fun p => ?_, fun p => ?_, fun p => ?_, ?_⟩
    · rw [endpoint]
      exact ok.ipc.slot p
    · rw [links, field Proc.callerQ fun _ _ => rfl]
      exact ok.ipc.chain d ((live d).mp isLive).1
    · rw [sending, sendto, endpoint]
      exact ok.ipc.queued p d
    · simp only [sending, sendto, endpoint]
      exact (ok.ipc.mono there).target p
    · simp only [receiving, getfrom, endpoint, field Proc.misc fun _ _ => rfl]
      exact (ok.ipc.mono there).source p
    · rw [sending, receiving, getfrom, sendto]
      exact ok.ipc.both p
    · rw [waits]
      exact ok.ipc.ends
  have clearing : Clearing cfg Clean rc (List.finRange n) L callers := by
    refine ⟨table, ipc, fun d p queued => ?_, fun clean p linked => ?_, ?_, ?_, ?_,
      fun clean a queued => ?_, fun p _ => List.mem_finRange p⟩
    · simp only [Proc.WillReceive, sending, receiving, getfrom, endpoint]
      exact ok.met d p queued
    · rw [sending, noEndpoint]
      rw [links] at linked
      exact (ok.clean clean p linked).imp_right .inl
    · rw [slotFree, procPtr]
      exact ok.current
    · exact (noEndpoint rc).mpr (.inr rfl)
    · rwa [slotFree]
    · -- it is the only one in the queue
      have sends := (ok.ipc.queued a rc).mp queued
      obtain ⟨_, d, isTarget, liveD⟩ := ok.ipc.target a sends.1
      have isRc : d = rc := endpoint_inj ok.ipc.slot (isTarget.symm.trans sends.2)
      have chain := ok.ipc.chain rc (isRc ▸ liveD)
      obtain ⟨A, B, split⟩ := List.append_of_mem queued
      have nodup := chain.nodup
      rw [links]
      cases B with
      | nil =>
          rw [split] at chain
          exact chain.last_next
      | cons b B =>
          have same := few clean a queued b (by rw [split]; simp)
          rw [split, same] at nodup
          simp [List.nodup_append] at nodup
  refine ⟨K₁, isOk, queues, clearing.same (alike.keeps clearing.current) alike.sameIpc,
    alike.mail.trans mail, ?_, alike.procPtr.trans procPtr, ?_⟩
  · rw [← endpoints]
    exact (alike.keeps clearing.current).endpoints
  · rw [← links]
    exact funext fun p => alike.field p Proc.qLink fun _ _ _ => rfl

/-! ## Its own calls -/

theorem clearFlags_keeps {rp : Fin n} (used : .slotFree ∉ (K.proc rp).rts) {f : Finset Rts}
    (inside : f ⊆ ipcFlags) : Keeps K (K.clearFlags rp f) := by
  refine Keeps.modify used (fun x outside => ?_) ⟨rfl, rfl, rfl, rfl, rfl, rfl⟩
    fun isSet => .inl (Finset.mem_sdiff.mp isSet).1
  rw [Finset.mem_sdiff]
  exact and_iff_left fun member => outside (inside member)

theorem Clearing.stopped (clearing : Clearing cfg Clean rc left K callers) {f : Finset Rts}
    (other : .noEndpoint ∉ f) : ¬ ((K.clearFlags rc f).proc rc).Runnable := by
  intro runnable
  have member : .noEndpoint ∈ ((K.clearFlags rc f).proc rc).rts := by
    rw [State.clearFlags, modify_self]
    exact Finset.mem_sdiff.mpr ⟨clearing.gone, other⟩
  rw [runnable] at member
  cases member

theorem IpcOk.not_mutual {There : Fin n → Prop} (ok : IpcOk There K callers) {a b : Fin n}
    (waits : K.waits a = some b) (waits' : K.waits b = some a) : False := by
  obtain ⟨l, chain⟩ := ok.ends a
  have nodup := chain.nodup
  cases chain with
  | cons tail =>
      rw [waits] at tail
      cases tail with
      | cons tail =>
          rw [waits'] at tail
          cases tail
          simp at nodup

theorem IpcOk.waits_of_queued {There : Fin n → Prop} (ok : IpcOk There K callers) {p d : Fin n}
    (queued : p ∈ callers d) : K.waits p = some d := by
  obtain ⟨sends, isTarget⟩ := (ok.queued p d).mp queued
  rw [State.waits, Proc.blockedOn, if_pos sends, isTarget, slotOf_endpoint ok.slot]

theorem clear_sending (queues : Queues cfg Fair K)
    (clearing : Clearing cfg Clean rc left K callers) (sends : .sending ∈ (K.proc rc).rts) :
    ∃ target prev M callers', okendpt K (K.proc rc).sendto = .ok target ∧
      search K.qLink (fun x => x = rc) n none (K.proc target).callerQ = some (some (prev, rc)) ∧
      M = (storeCaller K target prev (K.proc rc).qLink).clearFlags rc {Rts.sending} ∧
      Queues cfg Fair M ∧ Clearing cfg Clean rc left M callers' ∧ Keeps K M ∧
      .sending ∉ (M.proc rc).rts ∧
      M.mail = { K.mail with pend := update K.mail.pend rc none } ∧
      ∀ p, K.SendsTo p rc → M.qLink p = K.qLink p := by
  obtain ⟨_, d, isTarget, there⟩ := clearing.ipc.target rc sends
  have queued : rc ∈ callers d := (clearing.ipc.queued rc d).mpr ⟨sends, isTarget⟩
  have waits := clearing.ipc.waits_of_queued queued
  have other : d ≠ rc := by
    rintro rfl
    exact clearing.ipc.not_mutual waits waits
  have live : K.Live d := there.resolve_right other
  have chain := clearing.ipc.chain d live
  obtain ⟨_, all⟩ | ⟨A, x, B, split, _, isRc, found⟩ :=
    search_chain (fun x => decide (x = rc)) none chain
      (by simpa using chain.length_le : _ ≤ n)
  · exact absurd (all rc queued) (by simp)
  have isRc : x = rc := by simpa using isRc
  subst isRc
  rw [Option.or_none] at found
  generalize isM : (storeCaller K d A.getLast? (K.proc x).qLink).clearFlags x {Rts.sending} = M
  have isOk : okendpt K (K.proc x).sendto = .ok d := by
    rw [isTarget]
    exact okendpt_live clearing.ipc live
  have relinked : Relinked (K.clearFlags x {Rts.sending}) M := by
    rw [← isM]
    exact (storeCaller_relinked ..).modify x fun _ _ _ => rfl
  have here : (K.clearFlags x {Rts.sending}).proc x =
      { K.proc x with rts := (K.proc x).rts \ {Rts.sending} } := modify_self ..
  have others : ∀ p ≠ x, (K.clearFlags x {Rts.sending}).proc p = K.proc p :=
    fun p differ => modify_of_ne K _ differ
  have links : M.qLink = (store K.qLink (K.proc d).callerQ A.getLast? (K.qLink x)).1 := by
    rw [← storeCaller_qLink, ← isM]
    exact funext fun p => modify_field _ x p _ Proc.qLink fun _ => rfl
  have heads : ∀ p, (M.proc p).callerQ = if p = d then
      (store K.qLink (K.proc d).callerQ A.getLast? (K.qLink x)).2 else (K.proc p).callerQ := by
    intro p
    rw [← storeCaller_callerQ, ← isM]
    exact modify_field _ x p _ Proc.callerQ fun _ => rfl
  have notLast : ∀ p, .sending ∉ (K.proc p).rts → A.getLast? ≠ some p := fun p notSends isLast => by
    have queuedP : p ∈ callers d := by
      rw [split]
      exact List.mem_append_left _ (List.mem_of_getLast? isLast)
    exact notSends ((clearing.ipc.queued p d).mp queuedP).1
  have keeps : Keeps K M := (clearFlags_keeps clearing.used (by decide)).relink relinked
    fun p stale => by
      rw [links, store_next_of_ne (notLast p stale.1)]
      exact stale.2
  have ipc := clearing.ipc.leaves split live others here .rfl relinked links heads
  have rts : ∀ p ≠ x, (M.proc p).rts = (K.proc p).rts := fun p differ => by
    rw [relinked.rts, others p differ]
  have ends : .sending ∉ (M.proc x).rts := by
    rw [relinked.rts, here]
    simp
  have queues' : Queues cfg Fair M := by
    rw [← isM]
    refine ((storeCaller_relinked ..).queues queues).clearFlags x (by decide) fun runnable => ?_
    rw [isM] at runnable
    have gone := (keeps.rts x _ (by decide : Rts.noEndpoint ∉ ipcFlags)).mpr clearing.gone
    rw [runnable] at gone
    cases gone
  have link : ∀ p, M.qLink p ≠ none → p ∉ callers d → K.qLink p ≠ none := by
    intro p linked notQueued
    rw [links, store_next_of_ne] at linked
    · exact linked
    · intro isLast
      refine notQueued ?_
      rw [split]
      exact List.mem_append_left _ (List.mem_of_getLast? isLast)
  refine ⟨d, A.getLast?, M, _, isOk, found, isM.symm, queues', clearing.keep keeps ipc
    (fun y p left will => ?_) (fun clean p linked => ?_) (fun clean p queuedP => ?_)
    (fun p waits => ?_), keeps, ends, ?_, fun p sendsTo => ?_⟩
  · have queuedP := mem_of_leave left
    rw [keeps.endpoint, Proc.WillReceive, relinked.getfrom] at will
    by_cases isX : y = x
    · -- it asked for an answer of the one it sent to, which did not send to it
      subst isX
      rw [relinked.rts, here] at will
      obtain ⟨⟨receives, _⟩, isWanted⟩ := will
      have getfrom := clearing.ipc.both y sends (Finset.mem_sdiff.mp receives).1
      rw [isTarget] at getfrom
      simp only [getfrom] at isWanted
      obtain isAny | isP := isWanted
      · exact (endpoint_ne_special clearing.ipc.slot d).1 isAny
      · rw [← endpoint_inj clearing.ipc.slot isP] at queuedP
        exact clearing.ipc.not_mutual waits (clearing.ipc.waits_of_queued queuedP)
    · rw [rts y isX, others y isX] at will
      exact clearing.met y p queuedP will
  · by_cases isX : p = x
    · exact .inr (isX ▸ clearing.gone)
    · rw [rts p isX]
      by_cases queuedP : p ∈ callers d
      · exact .inl ((clearing.ipc.queued p d).mp queuedP).1
      · exact clearing.clean clean p (link p linked queuedP)
  · have queuedX := mem_of_leave queuedP
    refine by_contra fun linked => link p linked (fun queuedD => other ?_)
      (clearing.single clean p queuedX)
    exact clearing.ipc.queue_unique queuedD queuedX
  · have blockedOn : ∀ p ≠ x, (M.proc p).blockedOn = (K.proc p).blockedOn := fun p differ => by
      rw [relinked.field p Proc.blockedOn fun _ _ _ => rfl, others p differ]
    by_cases isX : p = x
    · subst isX
      rw [Proc.blockedOn, if_neg ends] at waits
      split at waits
      · next receives =>
          rw [relinked.rts, here] at receives
          rw [relinked.getfrom, here] at waits
          have getfrom := clearing.ipc.both p sends (Finset.mem_sdiff.mp receives).1
          exact absurd (endpoint_inj clearing.ipc.slot
            (isTarget.symm.trans (getfrom.symm.trans waits))) other
      · exact absurd waits.symm (endpoint_ne_special clearing.ipc.slot p).2
    · rw [blockedOn p isX] at waits
      exact clearing.waiting p waits
  · rw [relinked.mail, mail_of_others others, here]
    refine Mail.ext ?_ ?_ ?_ (update_eq_self _ _)
    · simp [Proc.pend]
    · refine (update_eq_self_iff ..).mpr ?_
      simp [State.mail, Proc.await]
    · refine (update_eq_self_iff ..).mpr ?_
      simp [State.mail, Proc.inbox]
  · rw [links, store_next_of_ne]
    intro isLast
    have queuedP : p ∈ callers d := by
      rw [split]
      exact List.mem_append_left _ (List.mem_of_getLast? isLast)
    have isTargetP := ((clearing.ipc.queued p d).mp queuedP).2
    exact other (endpoint_inj clearing.ipc.slot (isTargetP.symm.trans sendsTo.2))

theorem Clearing.clear_receiving (clearing : Clearing cfg Clean rc left K callers) {rp : Fin n}
    (used : .slotFree ∉ (K.proc rp).rts) (notSends : .sending ∉ (K.proc rp).rts) :
    Clearing cfg Clean rc left (K.clearFlags rp {Rts.receiving}) callers ∧
      Keeps K (K.clearFlags rp {Rts.receiving}) ∧
      ((K.clearFlags rp {Rts.receiving}).proc rp).blockedOn = .none ∧
      (K.clearFlags rp {Rts.receiving}).mail =
        { K.mail with await := update K.mail.await rp none } := by
  have keeps := clearFlags_keeps (K := K) used (by decide : ({Rts.receiving} : Finset Rts) ⊆ ipcFlags)
  have here : (K.clearFlags rp {Rts.receiving}).proc rp =
      { K.proc rp with rts := (K.proc rp).rts \ {Rts.receiving} } := modify_self ..
  have others : ∀ p ≠ rp, (K.clearFlags rp {Rts.receiving}).proc p = K.proc p :=
    fun p differ => modify_of_ne K _ differ
  have links := clearFlags_qLink (K := K) rp {Rts.receiving}
  generalize (K.clearFlags rp {Rts.receiving}) = L at *
  have ends : .receiving ∉ (L.proc rp).rts := by rw [here]; simp
  have sending : ∀ p, .sending ∈ (L.proc p).rts ↔ .sending ∈ (K.proc p).rts := fun p => by
    by_cases isRp : p = rp
    · rw [isRp, here]
      simp
    · rw [others p isRp]
  have blockedOn : (L.proc rp).blockedOn = .none := by
    rw [Proc.blockedOn, if_neg ((sending rp).not.mpr notSends), if_neg ends]
  have waits : L.waits rp = none := by rw [State.waits, blockedOn]; rfl
  have ipc : IpcOk (K.There rc) L callers := by
    refine clearing.ipc.receiveSide (d := rp) (C := []) (fun p differ => ?_) (sending rp)
      (keeps.live rp) ?_ (absurd · ends) (waits ▸ .nil) (by simp)
    · rw [others p differ]
      exact ⟨.rfl, .rfl, .rfl, .rfl, .rfl, rfl, rfl, rfl, rfl, rfl⟩
    · rw [here]
      exact ⟨rfl, rfl, rfl, rfl⟩
  refine ⟨clearing.keep keeps ipc (fun d p queued => ?_) (fun clean p linked => ?_)
    (fun clean p queued => ?_) (fun p isBlocked => ?_), keeps, blockedOn, ?_⟩
  · rw [keeps.endpoint]
    by_cases isRp : d = rp
    · exact fun will => ends (isRp ▸ will.1.1)
    · rw [others d isRp]
      exact clearing.met d p queued
  · rw [sending]
    exact clearing.clean clean p (links ▸ linked)
  · rw [links]
    exact clearing.single clean p queued
  · by_cases isRp : p = rp
    · rw [isRp, blockedOn] at isBlocked
      exact absurd isBlocked.symm (endpoint_ne_special clearing.ipc.slot rc).2
    · rw [others p isRp] at isBlocked
      exact clearing.waiting p isBlocked
  · rw [mail_of_others others, here]
    refine Mail.ext ?_ ?_ ?_ (update_eq_self _ _)
    · refine (update_eq_self_iff ..).mpr ?_
      simp [State.mail, Proc.pend]
    · simp [Proc.await]
    · refine (update_eq_self_iff ..).mpr ?_
      simp [State.mail, Proc.inbox]

theorem clearIpc_spec (queues : Queues cfg Fair K)
    (clearing : Clearing cfg Clean rc left K callers) :
    ∃ K' callers', clearIpc K rc = .ok K' ∧ Queues cfg Fair K' ∧
      Clearing cfg Clean rc left K' callers' ∧ Keeps K K' ∧ (K'.proc rc).blockedOn = .none ∧
      K'.mail = K.mail.drop rc ∧ ∀ p, K.SendsTo p rc → K'.qLink p = K.qLink p := by
  -- what is left once it does not send
  have rest : ∀ M callers', Queues cfg Fair M → Clearing cfg Clean rc left M callers' → Keeps K M →
      .sending ∉ (M.proc rc).rts → M.mail = { K.mail with pend := update K.mail.pend rc none } →
      (∀ p, K.SendsTo p rc → M.qLink p = K.qLink p) →
      Queues cfg Fair (M.clearFlags rc {Rts.receiving}) ∧
        Clearing cfg Clean rc left (M.clearFlags rc {Rts.receiving}) callers' ∧
        Keeps K (M.clearFlags rc {Rts.receiving}) ∧
        ((M.clearFlags rc {Rts.receiving}).proc rc).blockedOn = .none ∧
        (M.clearFlags rc {Rts.receiving}).mail = K.mail.drop rc ∧
        ∀ p, K.SendsTo p rc → (M.clearFlags rc {Rts.receiving}).qLink p = K.qLink p := by
    intro M callers' queuesM clearingM keepsM notSends mailM linksM
    obtain ⟨clearing', keeps, blockedOn, mail⟩ := clearingM.clear_receiving clearingM.used notSends
    refine ⟨queuesM.clearFlags rc (by decide) (clearingM.stopped (by decide)), clearing',
      keepsM.trans keeps, blockedOn, ?_, ?_⟩
    · rw [mail, mailM]
      rfl
    · rwa [clearFlags_qLink]
  unfold clearIpc
  by_cases sends : .sending ∈ (K.proc rc).rts
  · obtain ⟨target, prev, M, callers', isOk, found, isM, queuesM, clearingM, keepsM, ends, mailM,
      linksM⟩ := clear_sending queues clearing sends
    refine ⟨_, callers', ?_, rest M callers' queuesM clearingM keepsM ends mailM linksM⟩
    rw [if_pos sends, isOk, isM]
    simp only [bind, Except.bind, found]
    rfl
  · refine ⟨_, callers, ?_, rest K callers queues clearing (.refl K) sends ?_ fun _ _ => rfl⟩
    · rw [if_neg sends]
      rfl
    · refine Mail.ext ?_ rfl rfl rfl
      exact ((update_eq_self_iff ..).mpr (pend_eq_none.mpr sends).symm).symm

/-! ## Those who wait for it -/

theorem Clearing.not_live (clearing : Clearing cfg Clean rc left K callers) {d : Fin n}
    (live : K.Live d) : d ≠ rc := by
  rintro rfl
  exact live.1 clearing.gone

theorem Clearing.release (clearing : Clearing cfg Clean rc left K callers) {rp : Fin n}
    (waits : (K.proc rp).blockedOn = (K.proc rc).endpoint) (used : .slotFree ∉ (K.proc rp).rts) :
    ∃ callers', Clearing cfg Clean rc left (K.clearFlags rp {Rts.sending}) callers' ∧
      Keeps K (K.clearFlags rp {Rts.sending}) ∧
      .sending ∉ ((K.clearFlags rp {Rts.sending}).proc rp).rts ∧
      (K.clearFlags rp {Rts.sending}).mail =
        { K.mail with pend := update K.mail.pend rp none } := by
  have keeps := clearFlags_keeps (K := K) used (by decide : ({Rts.sending} : Finset Rts) ⊆ ipcFlags)
  have here : (K.clearFlags rp {Rts.sending}).proc rp =
      { K.proc rp with rts := (K.proc rp).rts \ {Rts.sending} } := modify_self ..
  have others : ∀ p ≠ rp, (K.clearFlags rp {Rts.sending}).proc p = K.proc p :=
    fun p differ => modify_of_ne K _ differ
  have links := clearFlags_qLink (K := K) rp {Rts.sending}
  have heads : ∀ p, ((K.clearFlags rp {Rts.sending}).proc p).callerQ = (K.proc p).callerQ :=
    fun p => modify_field _ rp p _ Proc.callerQ fun _ => rfl
  generalize (K.clearFlags rp {Rts.sending}) = L at *
  have ends : .sending ∉ (L.proc rp).rts := by rw [here]; simp
  have mail : L.mail = { K.mail with pend := update K.mail.pend rp none } := by
    rw [mail_of_others others, here]
    refine Mail.ext ?_ ?_ ?_ (update_eq_self _ _)
    · simp [Proc.pend]
    · refine (update_eq_self_iff ..).mpr ?_
      simp [State.mail, Proc.await]
    · refine (update_eq_self_iff ..).mpr ?_
      simp [State.mail, Proc.inbox]
  by_cases sends : .sending ∈ (K.proc rp).rts
  · have isTarget : (K.proc rp).sendto = (K.proc rc).endpoint := by
      rwa [Proc.blockedOn, if_pos sends] at waits
    have queued : rp ∈ callers rc := (clearing.ipc.queued rp rc).mpr ⟨sends, isTarget⟩
    have receiving : ∀ p, .receiving ∈ (L.proc p).rts ↔ .receiving ∈ (K.proc p).rts := fun p => by
      by_cases isRp : p = rp
      · rw [isRp, here]
        simp
      · rw [others p isRp]
    have fields : ∀ p, (L.proc p).misc = (K.proc p).misc ∧
        (L.proc p).getfrom = (K.proc p).getfrom := fun p => by
      by_cases isRp : p = rp
      · rw [isRp, here]
        exact ⟨rfl, rfl⟩
      · rw [others p isRp]
        exact ⟨rfl, rfl⟩
    have differ : rp ≠ rc := by
      rintro rfl
      have waitsFor := clearing.ipc.waits_of_queued queued
      exact clearing.ipc.not_mutual waitsFor waitsFor
    -- if it is still to receive, it is from the same process
    have waitsL : (L.proc rp).blockedOn = .none ∨ (L.proc rp).blockedOn = (K.proc rc).endpoint := by
      rw [Proc.blockedOn, if_neg ends]
      split
      · next receives =>
          have getfrom := clearing.ipc.both rp sends ((receiving rp).mp receives)
          rw [(fields rp).2, getfrom, isTarget]
          exact .inr rfl
      · exact .inl rfl
    obtain ⟨C, chain, other⟩ : ∃ C, Chain K.waits (L.waits rp) C ∧ rp ∉ C := by
      obtain isNone | isRc := waitsL
      · refine ⟨[], ?_, by simp⟩
        rw [State.waits, isNone]
        exact .nil
      · obtain ⟨l, chain⟩ := clearing.ipc.ends rp
        cases chain with
        | @cons _ rest tail =>
            refine ⟨rest, ?_, (List.nodup_cons.mp (Chain.cons tail).nodup).1⟩
            rw [State.waits, isRc]
            rwa [State.waits, waits] at tail
    have ipc : IpcOk (K.There rc) L (leave callers rc rp) := by
      refine clearing.ipc.sendSide (p := rp) (fun x isOther => ?_)
        (fun x => ⟨receiving x, keeps.live x, by rw [(fields x).1], (fields x).2, keeps.endpoint x⟩)
        (fun d live => ?_) (fun x isOther d => mem_leave isOther)
        (fun d => iff_of_false (clearing.ipc.not_mem_leave queued d) fun sends => ends sends.1)
        (absurd · ends) (fun sends => absurd sends ends) chain other
      · rw [others x isOther]
        exact ⟨.rfl, rfl⟩
      · rw [links, heads, leave, update_of_ne (clearing.not_live live)]
        exact clearing.ipc.chain d live
    refine ⟨leave callers rc rp, clearing.keep keeps ipc (fun d p left will => ?_)
      (fun clean p linked => ?_) (fun clean p queuedP => ?_) (fun p isBlocked => ?_), keeps, ends, mail⟩
    · have queuedP := mem_of_leave left
      rw [keeps.endpoint] at will
      by_cases isRp : d = rp
      · subst isRp
        obtain ⟨⟨receives, _⟩, isWanted⟩ := will
        have getfrom := clearing.ipc.both d sends ((receiving d).mp receives)
        rw [(fields d).2, getfrom, isTarget] at isWanted
        obtain isAny | isP := isWanted
        · exact (endpoint_ne_special clearing.ipc.slot rc).1 isAny
        · rw [← endpoint_inj clearing.ipc.slot isP] at queuedP
          exact clearing.ipc.not_mutual (clearing.ipc.waits_of_queued queued)
            (clearing.ipc.waits_of_queued queuedP)
      · rw [others d isRp] at will
        exact clearing.met d p queuedP will
    · rw [links] at linked
      by_cases isRp : p = rp
      · exact absurd (clearing.single clean rp queued) (isRp ▸ linked)
      · rw [others p isRp]
        exact clearing.clean clean p linked
    · rw [links]
      exact clearing.single clean p (mem_of_leave queuedP)
    · by_cases isRp : p = rp
      · subst isRp
        exact clearing.waiting p waits
      · rw [others p isRp] at isBlocked
        exact clearing.waiting p isBlocked
  · refine ⟨callers, clearing.same keeps fun p => ?_, keeps, ends, mail⟩
    by_cases isRp : p = rp
    · rw [isRp, here, Finset.sdiff_singleton_eq_erase, Finset.erase_eq_of_notMem sends]
      exact ⟨.rfl, .rfl, .rfl, .rfl, .rfl, rfl, rfl, rfl, rfl, rfl⟩
    · rw [others p isRp]
      exact ⟨.rfl, .rfl, .rfl, .rfl, .rfl, rfl, rfl, rfl, rfl, rfl⟩

/-- What one turn of the loop, or several, have done to the mail: nothing to what others say to
each other. -/
structure Released (rc : Fin n) (K K' : State n k α) : Prop where
  keeps : Keeps K K'
  links : K'.qLink = K.qLink
  sendto : ∀ p, (K'.proc p).sendto = (K.proc p).sendto
  flow : ∀ p d, (K'.flow p d).Sublist (K.flow p d) ∧ (d ≠ rc → K'.flow p d = K.flow p d)

theorem Released.refl (K : State n k α) : Released rc K K :=
  ⟨.refl K, rfl, fun _ => rfl, fun _ _ => ⟨.refl _, fun _ => rfl⟩⟩

theorem Released.trans (first : Released rc K K') (second : Released rc K' K'') :
    Released rc K K'' :=
  ⟨first.keeps.trans second.keeps, second.links.trans first.links,
    fun p => (second.sendto p).trans (first.sendto p), fun p d =>
    ⟨(second.flow p d).1.trans (first.flow p d).1, fun other =>
      ((second.flow p d).2 other).trans ((first.flow p d).2 other)⟩⟩

theorem used_of_notEmpty (table : Table cfg K) {p : Fin n} (used : ¬ (K.proc p).Empty) :
    .slotFree ∉ (K.proc p).rts := fun free => used (table.free p free)

theorem release_waiter (queues : Queues cfg Fair K)
    (clearing : Clearing cfg Clean rc left K callers) {rp : Fin n} (other : rp ≠ rc)
    (used : .slotFree ∉ (K.proc rp).rts) (waits : (K.proc rp).blockedOn = (K.proc rc).endpoint)
    (result : Result) :
    ∃ K' callers', rtsUnset cfg (K.modify rp fun p => { p with retreg := result }) rp
        {Rts.receiving, Rts.sending} = .ok K' ∧ Queues cfg Fair K' ∧
      Clearing cfg Clean rc left K' callers' ∧ Released rc K K' ∧
      (K'.proc rp).blockedOn = .none ∧ (K'.proc rc).blockedOn = (K.proc rc).blockedOn := by
  generalize isK₁ : (K.modify rp fun p => { p with retreg := result }) = K₁
  have queues₁ : Queues cfg Fair K₁ := isK₁ ▸ queues.modify rp fun _ => ⟨rfl, rfl, rfl, rfl⟩
  have keeps₁ : Keeps K K₁ := isK₁ ▸ Keeps.modify used (fun _ _ => .rfl)
    ⟨rfl, rfl, rfl, rfl, rfl, rfl⟩ .inl
  have field : ∀ {β : Type} (g : Proc n k α → β), (∀ p, g { p with retreg := result } = g p) →
      ∀ p, g (K₁.proc p) = g (K.proc p) := fun g same p => isK₁ ▸ modify_field K rp p _ g same
  have rts := field Proc.rts fun _ => rfl
  have clearing₁ : Clearing cfg Clean rc left K₁ callers := clearing.same keeps₁ fun p => by
    refine ⟨?_, ?_, ?_, ?_, ?_, field Proc.getfrom (fun _ => rfl) p,
      field Proc.sendto (fun _ => rfl) p, field Proc.endpoint (fun _ => rfl) p,
      field Proc.callerQ (fun _ => rfl) p, field Proc.qLink (fun _ => rfl) p⟩
    · rw [rts]
    · rw [rts]
    · rw [rts]
    · rw [rts]
    · rw [field Proc.misc fun _ => rfl]
  have waits₁ : (K₁.proc rp).blockedOn = (K₁.proc rc).endpoint := by
    rw [field Proc.blockedOn fun _ => rfl, keeps₁.endpoint, waits]
  have used₁ := (keeps₁.slotFree rp).not.mpr used
  obtain ⟨callers', clearing₂, keeps₂, notSends, mail₂⟩ := clearing₁.release waits₁ used₁
  obtain ⟨clearing₃, keeps₃, blockedOn, mail₃⟩ :=
    clearing₂.clear_receiving ((keeps₂.slotFree rp).not.mpr used₁) notSends
  obtain ⟨K', isOk, queues', alike⟩ := queues₁.rtsUnset rp (f := {Rts.receiving, Rts.sending})
    (by decide) (clearing₁.table.bound (by decide) (by decide))
  have twice : K₁.clearFlags rp {Rts.receiving, Rts.sending} =
      (K₁.clearFlags rp {Rts.sending}).clearFlags rp {Rts.receiving} := by
    have flags : ∀ rts : Finset Rts, rts \ {Rts.receiving, Rts.sending} =
        (rts \ {Rts.sending}) \ {Rts.receiving} := fun rts => by
      ext f
      simp only [Finset.mem_sdiff, Finset.mem_insert, Finset.mem_singleton]
      tauto
    rw [State.clearFlags, State.clearFlags, State.clearFlags, modify_modify]
    simp only [flags]
  rw [twice] at alike
  refine ⟨K', callers', isOk, queues', clearing₃.same (alike.keeps clearing₃.current) alike.sameIpc,
    ⟨?_, ?_, fun p => ?_, fun p d => ?_⟩, ?_, ?_⟩
  · exact ((keeps₁.trans keeps₂).trans keeps₃).trans (alike.keeps clearing₃.current)
  · have links : K'.qLink = ((K₁.clearFlags rp {Rts.sending}).clearFlags rp {Rts.receiving}).qLink :=
      funext fun p => alike.field p Proc.qLink fun _ _ _ => rfl
    rw [links, clearFlags_qLink, clearFlags_qLink]
    exact funext (field Proc.qLink fun _ => rfl)
  · have here : ∀ f, ∀ L : State n k α, ((L.clearFlags rp f).proc p).sendto = (L.proc p).sendto :=
      fun f L => modify_field L rp p _ Proc.sendto fun _ => rfl
    rw [alike.field p Proc.sendto fun _ _ _ => rfl, here, here, field Proc.sendto fun _ => rfl]
  · have names : K'.endpoints = K.endpoints :=
      (((keeps₁.trans keeps₂).trans keeps₃).trans (alike.keeps clearing₃.current)).endpoints
    have pend : K₁.mail.pend = K.mail.pend := funext (field Proc.pend fun _ => rfl)
    have inbox : K₁.mail.inbox = K.mail.inbox := funext (field Proc.inbox fun _ => rfl)
    have got : K₁.mail.got = K.mail.got := funext (field Proc.got fun _ => rfl)
    have isFlow : K'.flow p d = (K.mail.drop rp).flow K.endpoints p d := by
      rw [State.flow, alike.mail, mail₃, mail₂, names]
      unfold Mail.flow Mail.drop
      simp only [pend, inbox, got]
    obtain ⟨sub, same⟩ := drop_flow K.mail K.endpoints p d rp
    rw [isFlow]
    refine ⟨sub, fun notRc => ?_⟩
    by_cases isRp : p = rp
    · -- what it was blocked with was for the process that ends
      subst isRp
      have nothing : (K.mail.pend p).toList.filterMap (asked (K.endpoints d)) = [] := by
        change ((K.proc p).pend).toList.filterMap _ = []
        unfold Proc.pend
        split
        · next sends =>
            rw [Proc.blockedOn, if_pos sends] at waits
            have differ : (K.proc rc).endpoint ≠ K.endpoints d := fun same =>
              notRc (endpoint_inj clearing.ipc.slot same).symm
            simp [asked, waits, differ]
        · rfl
      unfold State.flow Mail.flow Mail.drop
      rw [nothing]
      simp
    · exact same isRp
  · rw [(alike.sameIpc rp).blockedOn, blockedOn]
  · rw [(alike.sameIpc rc).blockedOn, State.clearFlags, State.clearFlags,
      modify_of_ne _ _ other.symm, modify_of_ne _ _ other.symm, field Proc.blockedOn fun _ => rfl]

theorem Clearing.visited {rp : Fin n} (clearing : Clearing cfg Clean rc (rp :: left) K callers)
    (notWaits : (K.proc rp).blockedOn ≠ (K.proc rc).endpoint) :
    Clearing cfg Clean rc left K callers :=
  { clearing with
    waiting := fun p waits => by
      refine (List.mem_cons.mp (clearing.waiting p waits)).resolve_left ?_
      rintro rfl
      exact notWaits waits }

theorem clearIpcRef_spec (queues : Queues cfg Fair K) {rp : Fin n}
    (clearing : Clearing cfg Clean rc (rp :: left) K callers)
    (idle : (K.proc rc).blockedOn = .none) (result : Result) :
    ∃ K' callers', clearIpcRef cfg rc result K rp = .ok K' ∧ Queues cfg Fair K' ∧
      Clearing cfg Clean rc left K' callers' ∧ Released rc K K' ∧
      (K'.proc rc).blockedOn = .none := by
  have special := endpoint_ne_special clearing.ipc.slot rc
  unfold clearIpcRef
  split
  · next empty =>
      have notWaits : (K.proc rp).blockedOn ≠ (K.proc rc).endpoint := by
        rw [Proc.blockedOn, empty, if_neg (by decide), if_neg (by decide)]
        exact special.2.symm
      exact ⟨K, callers, rfl, queues, clearing.visited notWaits, .refl K, idle⟩
  · next notEmpty =>
      have used := used_of_notEmpty clearing.table notEmpty
      generalize isK₁ : (K.modifyPriv (K.proc rp).priv fun p =>
        { p with notifyPending := update p.notifyPending (K.proc rc).priv false }) = K₁
      have proc : K₁.proc = K.proc := isK₁ ▸ rfl
      have keeps : Keeps K K₁ := by
        rw [← isK₁]
        refine Keeps.modifyPriv ⟨rfl, rfl, rfl, rfl, rfl⟩ fun id set => .inl ?_
        by_cases isRc : id = (K.proc rc).priv
        · simp [isRc] at set
        · simpa [isRc] using set
      have queues₁ : Queues cfg Fair K₁ :=
        queues.congr (fun p => by rw [proc]; exact ⟨rfl, rfl, rfl, rfl⟩) (isK₁ ▸ rfl) (isK₁ ▸ rfl)
          keeps.preemptible keeps.procPtr
      have clearing₁ : Clearing cfg Clean rc (rp :: left) K₁ callers := clearing.same keeps fun p => by
        rw [proc]
        exact ⟨.rfl, .rfl, .rfl, .rfl, .rfl, rfl, rfl, rfl, rfl, rfl⟩
      have released : Released rc K K₁ := by
        have flow : ∀ p d, K₁.flow p d = K.flow p d := fun p d => by
          rw [State.flow, State.flow, keeps.endpoints]
          simp only [State.mail, proc]
        refine ⟨keeps, ?_, fun p => by rw [proc], fun p d => ⟨?_, fun _ => flow p d⟩⟩
        · funext p
          rw [State.qLink, proc]
          rfl
        · rw [flow]
      rw [← proc] at idle used special
      dsimp only
      split
      · next waits =>
          have other : rp ≠ rc := by
            rintro rfl
            rw [idle] at waits
            exact special.2 waits.symm
          obtain ⟨K', callers', isOk, queues', clearing', released', notWaits, same⟩ :=
            release_waiter queues₁ clearing₁ other used waits result
          refine ⟨K', callers', isOk, queues', clearing'.visited ?_, released.trans released',
            same.trans idle⟩
          rw [notWaits, released'.keeps.endpoint]
          exact special.2.symm
      · next notWaits =>
          exact ⟨K₁, callers, rfl, queues₁, clearing₁.visited notWaits, released, idle⟩

theorem clearIpcRefs_spec (table : List (Fin n)) (queues : Queues cfg Fair K)
    (clearing : Clearing cfg Clean rc table K callers) (idle : (K.proc rc).blockedOn = .none)
    (result : Result) :
    ∃ K' callers', table.foldlM (clearIpcRef cfg rc result) K = .ok K' ∧ Queues cfg Fair K' ∧
      Calm cfg Clean K' callers' ∧ Released rc K K' := by
  induction table generalizing K callers with
  | nil => exact ⟨K, callers, rfl, queues, clearing.done idle, .refl K⟩
  | cons rp table ih =>
      obtain ⟨K₁, callers₁, isOk, queues₁, clearing₁, released, idle₁⟩ :=
        clearIpcRef_spec queues clearing idle result
      obtain ⟨K', callers', isOk', queues', calm', released'⟩ := ih queues₁ clearing₁ idle₁
      refine ⟨K', callers', ?_, queues', calm', released.trans released'⟩
      rw [List.foldlM_cons]
      exact bind_ok.mpr ⟨K₁, isOk, isOk'⟩

/-- clear_endpoint comes to its end, and takes nothing from what the others say. -/
theorem clearEndpoint_spec (ok : Ok cfg Fair Clean K callers) (used : .slotFree ∉ (K.proc rc).rts)
    (few : Clean → ∀ a ∈ callers rc, ∀ b ∈ callers rc, a = b) :
    ∃ K' callers', clearEndpoint cfg K rc = .ok K' ∧ Ok cfg Fair Clean K' callers' ∧
      K'.endpoints = K.endpoints ∧ K'.procPtr = K.procPtr ∧
      (∀ p, K.Stale p ∨ K.SendsTo p rc ∧ K.qLink p ≠ none → K'.Stale p) ∧ ∀ p d,
        (K'.flow p d).Sublist (K.flow p d) ∧ (p ≠ rc → d ≠ rc → K'.flow p d = K.flow p d) := by
  obtain ⟨K₁, isSet, queues₁, clearing₁, mail₁, endpoints₁, procPtr₁, links₁⟩ := clear_begin ok used few
  obtain ⟨K₂, callers₂, isClear, queues₂, clearing₂, keeps₂, idle, mail₂, links₂⟩ :=
    clearIpc_spec queues₁ clearing₁
  obtain ⟨K₃, callers₃, isRefs, queues₃, calm₃, released⟩ :=
    clearIpcRefs_spec _ queues₂ clearing₂ idle .edeadsrcdst
  have pend₁ : ∀ p, (K₁.proc p).pend = (K.proc p).pend := fun p =>
    congrFun (congrArg Mail.pend mail₁) p
  refine ⟨K₃, callers₃, ?_, { queues₃ with toCalm := calm₃ }, ?_, ?_, fun p linked => ?_, fun p d => ?_⟩
  · unfold clearEndpoint
    rw [ensure_bind (used_of_live used)]
    exact bind_ok.mpr ⟨K₁, isSet, bind_ok.mpr ⟨K₂, isClear, isRefs⟩⟩
  · rw [released.keeps.endpoints, keeps₂.endpoints, endpoints₁]
  · rw [released.keeps.procPtr, keeps₂.procPtr, procPtr₁]
  · obtain ⟨notSends, isLinked⟩ | ⟨sendsTo, isLinked⟩ := linked
    · refine released.keeps.stale p (keeps₂.stale p ⟨?_, by rwa [links₁]⟩)
      exact pend_eq_none.mp ((pend₁ p).trans (pend_eq_none.mpr notSends))
    · -- it is released, since it cannot wait for one that is gone
      have sendsTo₁ : K₁.SendsTo p rc := by
        have pend : (K₁.proc p).pend = some ((K.proc rc).endpoint, (K.proc p).sendmsg) :=
          (pend₁ p).trans (pend_eq_some.mpr ⟨sendsTo.1, sendsTo.2, rfl⟩)
        have here := pend_eq_some.mp pend
        exact ⟨here.1, here.2.1.trans (congrFun endpoints₁ rc).symm⟩
      have notRc : p ≠ rc := by
        rintro rfl
        have queued := (clearing₁.ipc.queued p p).mpr sendsTo₁
        have waits := clearing₁.ipc.waits_of_queued queued
        exact clearing₁.ipc.not_mutual waits waits
      have sendto₂ : (K₂.proc p).sendto = (K₁.proc rc).endpoint := by
        have pend : (K₂.proc p).pend = (K₁.proc p).pend := by
          change K₂.mail.pend p = _
          rw [mail₂]
          exact update_of_ne notRc ..
        rw [pend_eq_some.mpr ⟨sendsTo₁.1, sendsTo₁.2, rfl⟩] at pend
        exact (pend_eq_some.mp pend).2.1
      have link : K₃.qLink p = K.qLink p := by rw [released.links, links₂ p sendsTo₁, links₁]
      refine ⟨fun sends => ?_, by rwa [link]⟩
      obtain ⟨_, d, isTarget, live⟩ := calm₃.ipc.target p sends
      rw [released.sendto, sendto₂, ← keeps₂.endpoint, ← released.keeps.endpoint] at isTarget
      rw [← endpoint_inj calm₃.ipc.slot isTarget] at live
      refine live.1 ?_
      rw [released.keeps.rts rc _ (by decide : Rts.noEndpoint ∉ ipcFlags)]
      exact clearing₂.gone
  · obtain ⟨sub, same⟩ := drop_flow K.mail K.endpoints p d rc
    obtain ⟨sub', same'⟩ := released.flow p d
    have flow₂ : K₂.flow p d = (K.mail.drop rc).flow K.endpoints p d := by
      rw [State.flow, mail₂, mail₁, keeps₂.endpoints, endpoints₁]
    rw [flow₂] at sub' same'
    exact ⟨sub'.trans sub, fun notP notD => (same' notD).trans (same notP)⟩

end Csc457.Kernel
