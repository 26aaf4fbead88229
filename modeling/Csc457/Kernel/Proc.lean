import Csc457.Lib.LinkedQueue
import Mathlib.Data.Finset.Basic

/-!
# The process table of the kernel

proc.h, priv.h and ipc.h: what the kernel knows of each process for scheduling it and for
passing messages, the ready queues, and the tests that are made on it all over the kernel.
A kernel call halts where the source would panic, fail an assertion, leave an array or loop.
-/

set_option autoImplicit false

namespace Csc457.Kernel

open Function
open Csc457.Lib.LinkedQueue

/-- p_rts_flags -/
inductive Rts where
  | slotFree
  | procStop
  | sending
  | receiving
  | signaled
  | sigPending
  | pStop
  | noPriv
  | noEndpoint
  | vminhibit
  | pagefault
  | vmrequest
  | vmreqtarget
  | preempted
  | noQuantum
  deriving DecidableEq

/-- p_misc_flags -/
inductive Misc where
  | replyPend
  | delivermsg
  | sendingFromKernel
  deriving DecidableEq

/-- An endpoint is a slot of the process table and a generation, or a special number. -/
inductive Endpoint where
  | any
  | none
  | of (slot generation : Nat)
  deriving DecidableEq

inductive Call where
  | send
  | receive
  | sendrec
  | notify
  | sendnb
  deriving DecidableEq

inductive Result where
  | ok
  | edeadsrcdst
  | efault
  | enotready
  | elocked
  | etrapdenied
  | ecalldenied
  | einval
  deriving DecidableEq

inductive Content (n : Nat) (α : Type) where
  | user (text : α)
  | schedulingNoQuantum
  /-- From a process, with the pending bits of HARDWARE or SYSTEM. -/
  | notify (source : Fin n) (arg : Finset Nat)

structure Message (n : Nat) (α : Type) where
  source : Endpoint
  content : Content n α

/-- The n slots of the table and the k structures of privileges. -/
structure Proc (n k : Nat) (α : Type) where
  priv : Fin k
  rts : Finset Rts
  misc : Finset Misc
  priority : Nat
  cpuTimeLeft : Nat
  quantumSize : Nat
  scheduler : Option (Fin n)
  nextready : Option (Fin n)
  callerQ : Option (Fin n)
  qLink : Option (Fin n)
  getfrom : Endpoint
  sendto : Endpoint
  endpoint : Endpoint
  /-- Its source is written when it is delivered. -/
  sendmsg : Content n α
  delivermsg : Message n α
  /-- The messages that were copied to it. -/
  got : List (Message n α)
  retreg : Result

structure Priv (n k : Nat) where
  procNr : Option (Fin n)
  preemptible : Bool
  trapMask : Call → Bool
  /-- The other bits of s_trap_mask, as that of SENDA. -/
  otherTraps : Bool
  ipcTo : Fin k → Bool
  notifyPending : Fin k → Bool
  intPending : Finset Nat
  sigPending : Finset Nat

/-- What does not change. -/
structure Config (n k : Nat) (α : Type) where
  /-- NR_SCHED_QUEUES -/
  queues : Nat
  /-- BITCHUNK_BITS -/
  chunkBits : Nat
  chunkBits_pos : 0 < chunkBits
  cyclesPerMs : Nat
  cyclesPerMs_pos : 0 < cyclesPerMs
  kernelTask : Fin n → Bool
  hardware : Fin n
  system : Fin n
  idle : Fin n
  idleTask : kernelTask idle = true
  /-- The architecture's own, which may also set the return register and write over what it
  has delivered. -/
  delivermsg : Proc n k α → Proc n k α
  copies : ∀ p, .delivermsg ∈ p.misc → ∃ used retreg, delivermsg p =
    { p with
      got := p.got ++ [p.delivermsg]
      misc := p.misc.erase .delivermsg
      delivermsg := used
      retreg := retreg }

structure State (n k : Nat) (α : Type) where
  proc : Fin n → Proc n k α
  priv : Fin k → Priv n k
  rdyHead : Nat → Option (Fin n)
  rdyTail : Nat → Option (Fin n)
  procPtr : Fin n

inductive Halt where
  | assertion
  | panic
  /-- An array is left, or a null pointer followed. -/
  | outside
  | loops
  /-- The assertion that a sender's p_q_link is null. -/
  | linked
  /-- The panic of notify_scheduler. -/
  | scheduler
  deriving DecidableEq

abbrev Run (β : Type) := Except Halt β

def ensure (halt : Halt) (c : Prop) [Decidable c] : Run Unit := if c then .ok () else .error halt

section
variable {β γ : Type} {x : Run β} {f : β → Run γ} {a : β} {r : γ}

theorem bind_ok : x >>= f = .ok r ↔ ∃ a, x = .ok a ∧ f a = .ok r := by
  cases x with
  | error halt => exact ⟨nofun, nofun⟩
  | ok a =>
      constructor
      · exact fun h => ⟨a, rfl, h⟩
      · rintro ⟨b, same, h⟩
        cases same
        exact h

theorem ensure_bind {halt : Halt} {c : Prop} [Decidable c] {y : Run β} (holds : c) :
    (ensure halt c >>= fun _ => y) = y := by
  rw [ensure, if_pos holds]
  rfl

/-- The result is as `Q` says, unless the kernel halts for one of the reasons in `bad`. -/
def Ends (bad : Halt → Prop) (x : Run β) (Q : β → Prop) : Prop :=
  match x with
  | .ok r => Q r
  | .error halt => bad halt

variable {bad bad' : Halt → Prop} {P Q : β → Prop}

theorem Ends.of_eq (isOk : x = .ok a) (holds : Q a) : Ends bad x Q := by
  rw [isOk]
  exact holds

theorem Ends.of_error {halt : Halt} (isError : x = .error halt) (isBad : bad halt) :
    Ends bad x Q := by
  rw [isError]
  exact isBad

theorem Ends.bind {R : γ → Prop} (first : Ends bad x P) (second : ∀ a, P a → Ends bad (f a) R) :
    Ends bad (x >>= f) R := by
  cases x with
  | error halt => exact first
  | ok a => exact second a first

theorem Ends.mono (ends : Ends bad x P) (weaker : ∀ halt, bad halt → bad' halt)
    (result : ∀ a, P a → Q a) : Ends bad' x Q := by
  cases x with
  | error halt => exact weaker halt ends
  | ok a => exact result a ends

theorem Ends.ok (ends : Ends bad x P) (isOk : x = .ok a) : P a := by
  subst isOk
  exact ends

theorem Ends.error {halt : Halt} (ends : Ends bad x P) (isError : x = .error halt) : bad halt := by
  subst isError
  exact ends

end

variable {n k : Nat} {α : Type}

/-! ## Tests -/

/-- proc_is_runnable -/
def Proc.Runnable (p : Proc n k α) : Prop := p.rts = ∅

instance (p : Proc n k α) : Decidable p.Runnable := inferInstanceAs (Decidable (_ = _))

/-- isemptyp -/
def Proc.Empty (p : Proc n k α) : Prop := p.rts = {Rts.slotFree}

instance (p : Proc n k α) : Decidable p.Empty := inferInstanceAs (Decidable (_ = _))

def Proc.blockedOn (p : Proc n k α) : Endpoint :=
  if .sending ∈ p.rts then p.sendto else if .receiving ∈ p.rts then p.getfrom else .none

def Proc.WillReceive (target : Proc n k α) (source : Endpoint) : Prop :=
  (.receiving ∈ target.rts ∧ .sending ∉ target.rts) ∧
    (target.getfrom = .any ∨ target.getfrom = source)

instance (target : Proc n k α) (source : Endpoint) : Decidable (target.WillReceive source) :=
  inferInstanceAs (Decidable (_ ∧ _))

/-- proc_addr(_ENDPOINT_P(e)), where it is in the table. -/
def slotOf (n : Nat) : Endpoint → Option (Fin n)
  | .of slot _ => if inside : slot < n then some ⟨slot, inside⟩ else none
  | _ => none

def isokendpt (K : State n k α) (e : Endpoint) : Option (Fin n) := do
  let p ← slotOf n e
  if ¬ (K.proc p).Empty ∧ (K.proc p).endpoint = e then some p else none

def okendpt (K : State n k α) (e : Endpoint) : Run (Fin n) :=
  match isokendpt K e with
  | some p => .ok p
  | none => .error .panic

def maySendTo (K : State n k α) (p dst : Fin n) : Bool :=
  (K.priv (K.proc p).priv).ipcTo (K.proc dst).priv

/-! ## Changes -/

def State.modify (K : State n k α) (p : Fin n) (f : Proc n k α → Proc n k α) : State n k α :=
  { K with proc := update K.proc p (f (K.proc p)) }

/-- `p_rts_flags |= f` -/
def State.setFlags (K : State n k α) (p : Fin n) (f : Finset Rts) : State n k α :=
  K.modify p fun p => { p with rts := p.rts ∪ f }

/-- `p_rts_flags &= ~f` -/
def State.clearFlags (K : State n k α) (p : Fin n) (f : Finset Rts) : State n k α :=
  K.modify p fun p => { p with rts := p.rts \ f }

def State.modifyPriv (K : State n k α) (i : Fin k) (f : Priv n k → Priv n k) : State n k α :=
  { K with priv := update K.priv i (f (K.priv i)) }

def State.nextready (K : State n k α) : Fin n → Option (Fin n) := fun p => (K.proc p).nextready

def State.qLink (K : State n k α) : Fin n → Option (Fin n) := fun p => (K.proc p).qLink

section
variable (K : State n k α) (p q : Fin n) (f : Proc n k α → Proc n k α)

theorem modify_apply : (K.modify p f).proc q = if q = p then f (K.proc p) else K.proc q :=
  update_apply ..

@[simp] theorem modify_self : (K.modify p f).proc p = f (K.proc p) := update_self ..

theorem modify_of_ne {p q : Fin n} (other : q ≠ p) : (K.modify p f).proc q = K.proc q :=
  update_of_ne other ..

theorem modify_field {β : Type} (field : Proc n k α → β) (same : ∀ p, field (f p) = field p) :
    field ((K.modify p f).proc q) = field (K.proc q) := by
  rw [modify_apply]
  split
  · next isP => rw [isP, same]
  · rfl

@[simp] theorem modify_priv : (K.modify p f).priv = K.priv := rfl

@[simp] theorem modify_procPtr : (K.modify p f).procPtr = K.procPtr := rfl

@[simp] theorem modify_rdyHead : (K.modify p f).rdyHead = K.rdyHead := rfl

@[simp] theorem modify_rdyTail : (K.modify p f).rdyTail = K.rdyTail := rfl

@[simp] theorem modifyPriv_self (i : Fin k) (g : Priv n k → Priv n k) :
    (K.modifyPriv i g).priv i = g (K.priv i) := update_self ..

theorem modifyPriv_of_ne {i j : Fin k} (other : j ≠ i) (g : Priv n k → Priv n k) :
    (K.modifyPriv i g).priv j = K.priv j := update_of_ne other ..

end

end Csc457.Kernel
