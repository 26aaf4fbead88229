import Csc457.Kernel.Messages
import Csc457.Kernel.Privileges
import Csc457.Lib.Transition

/-!
# The kernel between two instructions of a process

switch_to_user, which chooses the process that runs next, and what the kernel is entered for:
a call of the running process, the end of its time, a notification from an interrupt or a
kernel task, and the kernel calls by which the servers stop and start, schedule and end the
processes.  The kernel is entered, does one of these, and goes back to a process, or halts
the processor until there is one to run.
-/

set_option autoImplicit false

namespace Csc457.Kernel

open Function
open Csc457.Lib.Transition

variable {n k : Nat} {α : Type} (cfg : Config n k α)

def schedProc (K : State n k α) (rp : Fin n) (priority quantum : Nat) :
    Run (Result × State n k α) :=
  if cfg.queues < priority then .ok (.einval, K)
  else if quantum = 0 then .ok (.einval, K)
  else do
    let K ← if (K.proc rp).Runnable then rtsSet cfg K rp {Rts.noQuantum} else .ok K
    let K := K.modify rp fun p =>
      { p with
        priority := priority
        quantumSize := quantum
        cpuTimeLeft := quantum * cfg.cyclesPerMs }
    let K ← rtsUnset cfg K rp {Rts.noQuantum}
    return (.ok, K)

def notifyScheduler (K : State n k α) (p scheduler : Fin n) : Run (State n k α) := do
  let K ← rtsSet cfg K p {Rts.noQuantum}
  let (result, K) ← miniSend cfg K p (K.proc scheduler).endpoint (some .schedulingNoQuantum) false true
  ensure .scheduler (result = .ok)
  return K

/-- The scheduler that is told when the time of a process is over, if it is not the kernel. -/
def userScheduler (K : State n k α) (p : Fin n) : Option (Fin n) :=
  match (K.proc p).scheduler with
  | none => none
  | some s => if s ≠ p ∧ (K.priv (K.proc p).priv).preemptible = true then some s else none

def procNoTime (K : State n k α) (p : Fin n) : Run (State n k α) :=
  match userScheduler K p with
  | some scheduler => notifyScheduler cfg K p scheduler
  | none => .ok (K.modify p fun p => { p with cpuTimeLeft := p.quantumSize * cfg.cyclesPerMs })

/-! ## Back to a process -/

def requeue (K : State n k α) : Run (State n k α) :=
  if .preempted ∈ (K.proc K.procPtr).rts then
    let K := K.clearFlags K.procPtr {Rts.preempted}
    if (K.proc K.procPtr).Runnable then
      if (K.proc K.procPtr).cpuTimeLeft ≠ 0 then enqueueHead cfg K K.procPtr
      else enqueue cfg K K.procPtr
    else .ok K
  else .ok K

/-- Without a process to run, IDLE is the current one and the processor is halted. -/
def pick (K : State n k α) : Run (State n k α) := do
  let rp ← pickProc cfg K
  return { K with procPtr := rp.getD cfg.idle }

def deliverWaiting (K : State n k α) (p : Fin n) : State n k α :=
  if .delivermsg ∈ (K.proc p).misc then K.modify p cfg.delivermsg else K

/-- The current process, if it can go on, and else the one that is picked. -/
def choose (K : State n k α) : Run (State n k α) :=
  if K.procPtr = cfg.idle then pick cfg K
  else if (K.proc K.procPtr).Runnable then .ok K
  else do
    let K ← requeue cfg K
    pick cfg K

/-- `check_misc_flags`, and the check of the quantum. -/
def checkMiscFlags (K : State n k α) : Run (State n k α) :=
  let K := deliverWaiting cfg K K.procPtr
  if (K.proc K.procPtr).cpuTimeLeft = 0 then procNoTime cfg K K.procPtr else .ok K

def switchToUser : Nat → State n k α → Run (State n k α)
  | 0, _ => .error .loops
  | fuel + 1, K => do
      let K ← choose cfg K
      if K.procPtr = cfg.idle then return K
      else
        ensure .assertion (K.proc K.procPtr).Runnable
        let K ← checkMiscFlags cfg K
        if (K.proc K.procPtr).Runnable then do
          ensure .assertion ((K.proc K.procPtr).cpuTimeLeft ≠ 0)
          return K
        else switchToUser fuel K

/-! ## Events -/

inductive Event (n : Nat) (α : Type) where
  /-- A call of the running process. -/
  | ipc (call : Call) (e : Endpoint) (m : Option α)
  /-- It has used some of its time. -/
  | time (left : Nat)
  /-- The kernel notifies on behalf of one of its tasks. -/
  | notify (source : Fin n) (e : Endpoint) (bits : Finset Nat)
  /-- A kernel call stops a process. -/
  | stop (p : Fin n) (f : Rts)
  | go (p : Fin n) (f : Rts)
  | schedule (p : Fin n) (priority quantum : Nat)
  /-- p_scheduler -/
  | scheduler (p s : Fin n)
  /-- fill_sendto_mask -/
  | mask (p : Fin n) (mask : Nat)
  /-- A process ends. -/
  | clear (p : Fin n)

/-- The flags that servers set and clear by kernel calls. -/
def stopFlags : Finset Rts :=
  {.procStop, .signaled, .sigPending, .pStop, .noPriv, .vminhibit, .pagefault, .vmrequest,
    .vmreqtarget}

/-- The bits are added to those that are pending with the notification. -/
def post (K : State n k α) (source dst : Fin n) (bits : Finset Nat) : State n k α :=
  K.modifyPriv (K.proc dst).priv fun p =>
    if source = cfg.hardware then { p with intPending := p.intPending ∪ bits }
    else if source = cfg.system then { p with sigPending := p.sigPending ∪ bits }
    else p

/-- What the kernel can be entered for: a kernel task is never started, and nothing is done to
a free slot. -/
def Possible (K : State n k α) : Event n α → Prop
  | .ipc _ _ _ => K.procPtr ≠ cfg.idle
  | .time _ => K.procPtr ≠ cfg.idle
  | .notify source e _ => (K.priv (K.proc source).priv).procNr ≠ none ∧ isokendpt K e ≠ none
  | .stop p f => f ∈ stopFlags ∧ ¬ (K.proc p).Empty
  | .go p f => f ∈ stopFlags ∧ cfg.kernelTask p = false
  | .schedule p _ _ => ¬ (K.proc p).Empty ∧ cfg.kernelTask p = false
  | .scheduler p s => ¬ (K.proc p).Empty ∧ ¬ (K.proc s).Empty
  | .mask p _ => (K.priv (K.proc p).priv).procNr ≠ none
  | .clear p => ¬ (K.proc p).Empty ∧ cfg.kernelTask p = false

def handle (K : State n k α) : Event n α → Run (State n k α)
  | .ipc call e m => doIpc cfg K call e m
  | .time left => .ok (K.modify K.procPtr fun p => { p with cpuTimeLeft := left })
  | .notify source e bits => do
      let dst ← okendpt K e
      let (_, K) ← miniNotify cfg (post cfg K source dst bits) source e
      return K
  | .stop p f => rtsSet cfg K p {f}
  | .go p f => rtsUnset cfg K p {f}
  | .schedule p priority quantum => do
      let (_, K) ← schedProc cfg K p priority quantum
      return K
  | .scheduler p s => .ok (K.modify p fun p => { p with scheduler := some s })
  | .mask p mask => .ok (K.fillMask p mask)
  | .clear p => clearEndpoint cfg K p

def enter (K : State n k α) (event : Event n α) : Run (State n k α) := do
  let K ← handle cfg K event
  switchToUser cfg (n + 1) K

def step (K : State n k α) (event : Event n α) (K' : State n k α) : Prop :=
  Possible cfg K event ∧ enter cfg K event = .ok K'

end Csc457.Kernel
