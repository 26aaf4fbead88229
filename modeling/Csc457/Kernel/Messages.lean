import Csc457.Kernel.RunQueues

/-!
# Message passing

proc.c: mini_send, mini_receive, mini_notify, deadlock and do_sync_ipc, and system.c:
clear_endpoint and what it calls.  A message that cannot be copied from its sender is `none`.
Nobody calls SENDA, so that no process is ever marked for asynchronous messages.
-/

set_option autoImplicit false

namespace Csc457.Kernel

open Function
open Csc457.Lib.LinkedQueue

variable {n k : Nat} {α : Type} (cfg : Config n k α)

/-- The size of the group that would wait for each other, or 0.  `size` is that of the chain
so far, and each of its processes is written down in an array as long as the table. -/
def deadlock (K : State n k α) (function : Call) (cp : Fin n) : Nat → Endpoint → Nat → Run Nat
  | _, .any, _ => .ok 0
  | 0, _, _ => .error .loops
  | fuel + 1, e, size => do
      let slot ← okendpt K e
      let xp := K.proc slot
      ensure .assertion (.slotFree ∉ xp.rts)
      ensure .outside (size < n)
      if xp.blockedOn = .none then return 0
      else if xp.blockedOn = (K.proc cp).endpoint then
        -- (xp->p_rts_flags ^ (function << 2)) & RTS_SENDING
        if size + 1 = 2 ∧ (.sending ∈ xp.rts ↔ function ≠ .send) then return 0
        else return size + 1
      else deadlock K function cp fuel xp.blockedOn (size + 1)

/-- p_delivermsg, for a process that will have it before it runs again. -/
def State.deliver (K : State n k α) (dst : Fin n) (msg : Message n α) : State n k α :=
  K.modify dst fun p => { p with delivermsg := msg, misc := insert .delivermsg p.misc }

def State.setCallerQ (K : State n k α) (p : Fin n) (head : Option (Fin n)) : State n k α :=
  K.modify p fun p => { p with callerQ := head }

def State.setLink (K : State n k α) (p : Fin n) (next : Option (Fin n)) : State n k α :=
  K.modify p fun p => { p with qLink := next }

/-- `*xpp = next` in the queue of those who send to `dst`. -/
def storeCaller (K : State n k α) (dst : Fin n) (prev next : Option (Fin n)) : State n k α :=
  match prev with
  | none => K.setCallerQ dst next
  | some x => K.setLink x next

/-- Behind the others that send to `dst`. -/
def linkCaller (K : State n k α) (caller dst : Fin n) : Run (State n k α) := do
  ensure .linked ((K.proc caller).qLink = none)
  match search K.qLink (fun x => (K.qLink x).isNone) n none (K.proc dst).callerQ with
  | none => .error .loops
  | some none => return storeCaller K dst none (some caller)
  | some (some (_, last)) => return storeCaller K dst (some last) (some caller)

def miniSend (K : State n k α) (caller : Fin n) (dst_e : Endpoint) (m : Option (Content n α))
    (nonBlocking fromKernel : Bool) : Run (Result × State n k α) :=
  match slotOf n dst_e with
  | none => .error .outside
  | some dst =>
      if .noEndpoint ∈ (K.proc dst).rts then .ok (.edeadsrcdst, K)
      else if (K.proc dst).WillReceive (K.proc caller).endpoint then do
        ensure .assertion (.delivermsg ∉ (K.proc dst).misc)
        match m with
        | none => return (.efault, K)
        | some content =>
            let K := K.deliver dst ⟨(K.proc caller).endpoint, content⟩
            let K := K.modify dst fun p => { p with misc := p.misc.erase .replyPend }
            let K ← rtsUnset cfg K dst {Rts.receiving}
            return (.ok, K)
      else if nonBlocking = true then .ok (.enotready, K)
      else do
        -- check for a possible deadlock before actually blocking
        let group ← deadlock K .send caller n dst_e 1
        if group ≠ 0 then return (.elocked, K)
        else match m with
          | none => return (.efault, K)
          | some content =>
              let K := K.modify caller fun p =>
                { p with
                  sendmsg := content
                  misc := if fromKernel then insert .sendingFromKernel p.misc else p.misc }
              let K ← rtsSet cfg K caller {Rts.sending}
              let K := K.modify caller fun p => { p with sendto := dst_e }
              let K ← linkCaller K caller dst
              return (.ok, K)

def lowestPending (pending : Fin k → Bool) (chunk : Nat) : Option (Fin k) :=
  (List.finRange k).find? fun id => id.val / cfg.chunkBits = chunk ∧ pending id = true

/-- The pending notification that is delivered, `src` being the slot that is wanted.  Of each
chunk the lowest bit is looked at, and no other. -/
def pendingFrom (K : State n k α) (caller : Fin n) (src : Option (Fin n)) : Option (Fin k) :=
  (List.range ((k + cfg.chunkBits - 1) / cfg.chunkBits)).findSome? fun chunk =>
    match lowestPending cfg (K.priv (K.proc caller).priv).notifyPending chunk with
    | none => none
    | some id => if src = none ∨ (K.priv id).procNr = src then some id else none

/-- BuildNotifyMessage: the argument, and what is pending afterwards. -/
def takeArg (source : Fin n) (p : Priv n k) : Finset Nat × Priv n k :=
  if source = cfg.hardware then (p.intPending, { p with intPending := ∅ })
  else if source = cfg.system then (p.sigPending, { p with sigPending := ∅ })
  else (∅, p)

def State.deliverNotify (K : State n k α) (dst source : Fin n) : State n k α :=
  let taken := takeArg cfg source (K.priv (K.proc dst).priv)
  (K.modifyPriv (K.proc dst).priv fun _ => taken.2).deliver dst
    ⟨(K.proc source).endpoint, .notify source taken.1⟩

/-- `receive_done` -/
def State.receiveDone (K : State n k α) (caller : Fin n) : State n k α :=
  K.modify caller fun p => { p with misc := p.misc.erase .replyPend }

def receiveNotify (K : State n k α) (caller : Fin n) (src_e : Endpoint) (id : Fin k) :
    Run (Result × State n k α) :=
  match (K.priv id).procNr with
  | none => .error .outside
  | some source => do
      let K := K.modifyPriv (K.proc caller).priv fun p =>
        { p with notifyPending := update p.notifyPending id false }
      ensure .assertion (.delivermsg ∉ (K.proc caller).misc)
      ensure .assertion (src_e = .any ∨ (K.proc source).endpoint = src_e)
      return (.ok, (K.deliverNotify cfg caller source).receiveDone caller)

def receiveMessage (K : State n k α) (caller : Fin n) (prev : Option (Fin n)) (sender : Fin n) :
    Run (Result × State n k α) := do
  ensure .assertion (.slotFree ∉ (K.proc sender).rts)
  ensure .assertion (.noEndpoint ∉ (K.proc sender).rts)
  ensure .assertion (.delivermsg ∉ (K.proc caller).misc)
  let K := K.deliver caller ⟨(K.proc sender).endpoint, (K.proc sender).sendmsg⟩
  let K ← rtsUnset cfg K sender {Rts.sending}
  let K := K.modify sender fun p => { p with misc := p.misc.erase .sendingFromKernel }
  -- remove from queue
  let K := storeCaller K caller prev (K.proc sender).qLink
  let K := K.setLink sender none
  return (.ok, K.receiveDone caller)

def receiveBlock (K : State n k α) (caller : Fin n) (src_e : Endpoint) :
    Run (Result × State n k α) := do
  let group ← deadlock K .receive caller n src_e 1
  if group ≠ 0 then return (.elocked, K)
  else
    let K := K.modify caller fun p => { p with getfrom := src_e }
    let K ← rtsSet cfg K caller {Rts.receiving}
    return (.ok, K)

/-- The slot that is wanted, if only one is. -/
def sourceSlot (K : State n k α) (src_e : Endpoint) : Run (Option (Fin n)) :=
  if src_e = .any then .ok none else (okendpt K src_e).map some

def miniReceive (K : State n k α) (caller : Fin n) (src_e : Endpoint) :
    Run (Result × State n k α) := do
  ensure .assertion (.delivermsg ∉ (K.proc caller).misc)
  let src ← sourceSlot K src_e
  if ∃ p, src = some p ∧ .noEndpoint ∈ (K.proc p).rts then return (.edeadsrcdst, K)
  -- SENDREC could not send
  else if .sending ∈ (K.proc caller).rts then receiveBlock cfg K caller src_e
  else match (if .replyPend ∈ (K.proc caller).misc then none else pendingFrom cfg K caller src) with
    | some id => receiveNotify cfg K caller src_e id
    | none =>
        match search K.qLink (fun x => src = none ∨ src = some x) n none (K.proc caller).callerQ with
        | none => .error .loops
        | some (some (prev, sender)) => receiveMessage cfg K caller prev sender
        | some none => receiveBlock cfg K caller src_e

def miniNotify (K : State n k α) (caller : Fin n) (dst_e : Endpoint) :
    Run (Result × State n k α) :=
  match isokendpt K dst_e with
  | none => .ok (.edeadsrcdst, K)
  | some dst =>
      if (K.proc dst).WillReceive (K.proc caller).endpoint ∧ .replyPend ∉ (K.proc dst).misc then do
        ensure .assertion (.delivermsg ∉ (K.proc dst).misc)
        let K := K.deliverNotify cfg dst caller
        let K ← rtsUnset cfg K dst {Rts.receiving}
        return (.ok, K)
      else
        .ok (.ok, K.modifyPriv (K.proc dst).priv fun p =>
          { p with notifyPending := update p.notifyPending (K.proc caller).priv true })

/-! ## Calls -/

/-- Why a call is refused before it is tried. -/
def refusal (K : State n k α) (caller : Fin n) (call : Call) (e : Endpoint) : Option Result :=
  let dst := isokendpt K e
  if e = .any ∧ call ≠ .receive then some .einval
  else if e ≠ .any ∧ dst = none then some .edeadsrcdst
  else if call ≠ .receive ∧ ∃ d, dst = some d ∧ maySendTo K caller d = false then some .ecalldenied
  else if (K.priv (K.proc caller).priv).trapMask call = false then some .etrapdenied
  else if call ≠ .sendrec ∧ call ≠ .receive ∧ ∃ d, dst = some d ∧ cfg.kernelTask d = true then
    some .etrapdenied
  else none

def doSyncIpc (K : State n k α) (caller : Fin n) (call : Call) (e : Endpoint) (m : Option α) :
    Run (Result × State n k α) :=
  match refusal cfg K caller call e with
  | some result => .ok (result, K)
  | none =>
      match call with
      | .sendrec => do
          -- notifications cannot interrupt SENDREC
          let K := K.modify caller fun p => { p with misc := insert .replyPend p.misc }
          let (result, K) ← miniSend cfg K caller e (m.map .user) false false
          if result ≠ .ok then return (result, K) else miniReceive cfg K caller e
      | .send => miniSend cfg K caller e (m.map .user) false false
      | .receive =>
          miniReceive cfg (K.modify caller fun p => { p with misc := p.misc.erase .replyPend })
            caller e
      | .notify => miniNotify cfg K caller e
      | .sendnb => miniSend cfg K caller e (m.map .user) true false

/-- The running process traps into the kernel for a call that is not SENDA. -/
def doIpc (K : State n k α) (call : Call) (e : Endpoint) (m : Option α) : Run (State n k α) := do
  let caller := K.procPtr
  ensure .assertion (.slotFree ∉ (K.proc caller).rts)
  ensure .panic (.delivermsg ∉ (K.proc caller).misc)
  let (result, K) ← doSyncIpc cfg K caller call e m
  return K.modify caller fun p => { p with retreg := result }

/-! ## The end of a process -/

def clearIpc (K : State n k α) (rc : Fin n) : Run (State n k α) := do
  let K ← if .sending ∈ (K.proc rc).rts then do
      let target ← okendpt K (K.proc rc).sendto
      let K ← match search K.qLink (fun x => x = rc) n none (K.proc target).callerQ with
        | none => .error .loops
        | some none => .ok K
        | some (some (prev, _)) => .ok (storeCaller K target prev (K.proc rc).qLink)
      pure (K.clearFlags rc {Rts.sending})
    else pure K
  return K.clearFlags rc {Rts.receiving}

def clearIpcRef (rc : Fin n) (callerRet : Result) (K : State n k α) (rp : Fin n) :
    Run (State n k α) :=
  if (K.proc rp).Empty then .ok K
  else
    let K := K.modifyPriv (K.proc rp).priv fun p =>
      { p with notifyPending := update p.notifyPending (K.proc rc).priv false }
    if (K.proc rp).blockedOn = (K.proc rc).endpoint then
      rtsUnset cfg (K.modify rp fun p => { p with retreg := callerRet }) rp
        {Rts.receiving, Rts.sending}
    else .ok K

def clearIpcRefs (K : State n k α) (rc : Fin n) (callerRet : Result) : Run (State n k α) :=
  (List.finRange n).foldlM (clearIpcRef cfg rc callerRet) K

def clearEndpoint (K : State n k α) (rc : Fin n) : Run (State n k α) := do
  ensure .panic (¬ (K.proc rc).Empty)
  let K ← rtsSet cfg K rc {Rts.noEndpoint}
  let K ← clearIpc K rc
  clearIpcRefs cfg K rc .edeadsrcdst

end Csc457.Kernel
