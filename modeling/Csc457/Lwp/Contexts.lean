import Csc457.Lwp.SwapRfiles
import Csc457.Lib.Transition
import Mathlib.Tactic.Ring

/-!
# Context switches

The threads of lwp.c at the level of the machine: each has a stack and a
context, and the running one has the registers.  A run takes any steps of the
running threads that leave the other threads alone, creates and frees threads,
and switches with swap_rfiles.

What a thread owns stays as it is while another thread runs, so the context and
the frame it left lead back to the point it was switched out at; those
lwp_create builds lead to lwp_wrap.
-/

set_option autoImplicit false

namespace Csc457.Lwp.Contexts

open Function
open Csc457.Lib.ByteMemory Csc457.Lib.X86 Csc457.Lib.Transition

/-- The fields of `struct threadinfo_st` that a switch depends on. -/
structure Thread where
  /-- The address of the field `state`. -/
  state : Word
  stack : Word
  stacksize : Nat
  deriving DecidableEq

def Thread.Owns (t : Thread) (x : Nat) : Prop :=
  (t.stack.toNat ≤ x ∧ x < t.stack.toNat + t.stacksize) ∨
    (t.state.toNat ≤ x ∧ x < t.state.toNat + rfileSize)

structure Thread.Valid (t : Thread) : Prop where
  context : Context t.state
  mapped : t.stack.toNat + t.stacksize < 2 ^ 64
  apart : Apart t.stack.toNat t.stacksize t.state.toNat rfileSize

/-- A frame of two words can be pushed at `rsp`. -/
def Thread.OnStack (t : Thread) (rsp : Word) : Prop :=
  t.stack.toNat + 16 ≤ rsp.toNat ∧ rsp.toNat ≤ t.stack.toNat + t.stacksize

/-- FPU_INIT, by the offsets of its bytes. -/
def fpuInit (i : Nat) : UInt8 :=
  if i = 0 then 0x7f
  else if i = 1 then 0x03
  else if i = 24 then 0x80
  else if i = 25 then 0x1f
  else if i = 28 ∨ i = 29 then 0xff
  else if 176 ≤ i ∧ i < 192 then 0x25
  else if i = 216 ∨ i = 221 then 0xff
  else 0

def alignmentMask : Word := 0xF

def pageSize : Nat := 4096

/-- The end of the stack, as lwp_create aligns it. -/
def stackEnd (t : Thread) : Word := (t.stack + BitVec.ofNat 64 t.stacksize) &&& ~~~ alignmentMask

section Create
variable (lwpWrap lwpExit : Word)

/-- The memory after lwp_create(func, args) initialized the stack and the state. -/
def lwpCreate (t : Thread) (func args : Word) (m : Memory) : Memory :=
  let stackTop := stackEnd t
  let stackTop := stackTop - 8
  let m := writeWord m stackTop lwpExit
  let stackTop := stackTop - 8
  let m := writeWord m stackTop lwpWrap
  let stackTop := stackTop - 8
  let m := writeWord m stackTop 0
  let m := writeWord m (slotOf rfileOffset t.state .rsi) args
  let m := writeWord m (slotOf rfileOffset t.state .rdi) func
  let m := writeWord m (slotOf rfileOffset t.state .rbp) stackTop
  let m := writeWord m (slotOf rfileOffset t.state .rsp) stackTop
  fxsaved m (t.state.toNat + fxsaveOffset) fpuInit

end Create

theorem stackEnd_toNat {t : Thread} (valid : t.Valid) (base : t.stack.toNat % pageSize = 0)
    (pages : t.stacksize % pageSize = 0) :
    (stackEnd t).toNat = t.stack.toNat + t.stacksize := by
  have sum : (t.stack + BitVec.ofNat 64 t.stacksize).toNat = t.stack.toNat + t.stacksize :=
    toNat_offset valid.mapped
  have aligned : (t.stack.toNat + t.stacksize) % 2 ^ 4 = 0 := by
    simp only [pageSize] at base pages
    omega
  have same : stackEnd t = t.stack + BitVec.ofNat 64 t.stacksize := by
    unfold stackEnd
    generalize t.stack + BitVec.ofNat 64 t.stacksize = w at sum ⊢
    ext i bound
    simp only [BitVec.getElem_and, BitVec.getElem_not, alignmentMask]
    by_cases low : i < 4
    · -- the low bits are zero already
      have bit : w[i] = false := by
        have masked := Nat.testBit_mod_two_pow w.toNat 4 i
        rw [sum, aligned, Nat.zero_testBit] at masked
        rw [← BitVec.getLsbD_eq_getElem, BitVec.getLsbD, sum]
        simpa [low] using masked.symm
      rw [bit, Bool.false_and]
    · have high : (15 : BitVec 64)[i] = false := by
        rw [← BitVec.getLsbD_eq_getElem, BitVec.getLsbD]
        apply Nat.testBit_lt_two_pow
        have grow : 2 ^ 4 ≤ 2 ^ i := Nat.pow_le_pow_right (by omega) (by omega)
        exact lt_of_lt_of_le (by decide) grow
      rw [high, Bool.not_false, Bool.and_true]
  rw [same, sum]

def frameOf (lwpWrap lwpExit : Word) (t : Thread) (m : Memory) : Memory :=
  writeWord (writeWord (writeWord m (stackEnd t - 8) lwpExit) (stackEnd t - 8 - 8) lwpWrap)
    (stackEnd t - 8 - 8 - 8) 0

def initialRegs (t : Thread) (func args : Word) : Reg → Word
  | .rsi => args
  | .rdi => func
  | .rbp | .rsp => stackEnd t - 8 - 8 - 8
  | _ => 0

theorem lwpCreate_eq (lwpWrap lwpExit : Word) (t : Thread) (func args : Word) (m : Memory) :
    lwpCreate lwpWrap lwpExit t func args m =
      fxsaved (saved rfileOffset (initialRegs t func args) t.state [.rsi, .rdi, .rbp, .rsp]
        (frameOf lwpWrap lwpExit t m)) (t.state.toNat + fxsaveOffset) fpuInit := rfl

/-- What lwp_create asks of the memory it got. -/
structure Mapped (t : Thread) : Prop where
  valid : t.Valid
  base : t.stack.toNat % pageSize = 0
  pages : t.stacksize % pageSize = 0
  some : 0 < t.stacksize

section Created
variable {lwpWrap lwpExit : Word} {t : Thread} {func args : Word} {m : Memory}

theorem Mapped.page (mapped : Mapped t) : pageSize ≤ t.stacksize := by
  have pages := mapped.pages
  have some := mapped.some
  simp only [pageSize] at pages ⊢
  omega

theorem Mapped.top (mapped : Mapped t) :
    (stackEnd t).toNat = t.stack.toNat + t.stacksize :=
  stackEnd_toNat mapped.valid mapped.base mapped.pages

theorem lwpCreate_outside (mapped : Mapped t) {x : Nat} (outside : ¬ t.Owns x) :
    lwpCreate lwpWrap lwpExit t func args m x = m x := by
  have top := mapped.top
  have page := mapped.page
  unfold Thread.Owns at outside
  simp only [rfileSize, fxsaveOffset, fxsaveSize, pageSize] at outside page
  have notFpu : ¬ (t.state.toNat + 128 ≤ x ∧ x < t.state.toNat + 128 + 512) := by omega
  rw [lwpCreate_eq, fxsaved, fxsaveOffset, fxsaveSize, if_neg notFpu,
    mapped.valid.context.slots.saved_outside (by simp only [fxsaveOffset]; omega), frameOf,
    writeWord_outside (by bv_omega), writeWord_outside (by bv_omega),
    writeWord_outside (by bv_omega)]

theorem lwpCreate_frame (mapped : Mapped t) {a : Word} (low : t.stack.toNat ≤ a.toNat)
    (high : a.toNat + 8 ≤ t.stack.toNat + t.stacksize) :
    readWord (lwpCreate lwpWrap lwpExit t func args m) a =
      readWord (frameOf lwpWrap lwpExit t m) a := by
  have apart := mapped.valid.apart
  unfold Apart at apart
  simp only [rfileSize, fxsaveOffset, fxsaveSize] at apart
  apply readWord_congr
  intro x least most
  have notFpu : ¬ (t.state.toNat + 128 ≤ x ∧ x < t.state.toNat + 128 + 512) := by omega
  rw [lwpCreate_eq, fxsaved, fxsaveOffset, fxsaveSize, if_neg notFpu,
    mapped.valid.context.slots.saved_outside (by simp only [fxsaveOffset]; omega)]

theorem lwpCreate_slot (mapped : Mapped t) {r : Reg} (member : r ∈ [Reg.rsi, .rdi, .rbp, .rsp]) :
    readWord (lwpCreate lwpWrap lwpExit t func args m) (slotOf rfileOffset t.state r) =
      initialRegs t func args r := by
  have slots := mapped.valid.context.slots
  rw [← slots.saved_same (f := initialRegs t func args) (m := frameOf lwpWrap lwpExit t m) member,
    lwpCreate_eq]
  apply readWord_congr
  rw [slots.toNat]
  intro x low high
  have inside := slots.inside r
  have notFpu : ¬ (t.state.toNat + fxsaveOffset ≤ x ∧
      x < t.state.toNat + fxsaveOffset + fxsaveSize) := by omega
  exact if_neg notFpu

end Created

/-- Where a new thread starts: at lwp_wrap, as if lwp_exit had called it. -/
def freshPoint (lwpWrap : Word) (t : Thread) (func args : Word) (m : Memory) : Point where
  regs := fun r =>
    match r with
    | .rsi => args
    | .rdi => func
    | .rbp => 0
    | .rsp => stackEnd t - 8
    | r => readWord m (slotOf rfileOffset t.state r)
  rip := lwpWrap

theorem lwpCreate_suspended (lwpWrap lwpExit : Word) {t : Thread} (func args : Word) (m : Memory)
    (mapped : Mapped t) :
    Suspended t.state
      (freshPoint lwpWrap t func args (lwpCreate lwpWrap lwpExit t func args m))
      (lwpCreate lwpWrap lwpExit t func args m) := by
  have top := mapped.top
  have page := mapped.page
  have least := mapped.valid.mapped
  simp only [pageSize] at page
  have lower : stackEnd t - 8 - 16 = stackEnd t - 8 - 8 - 8 := by
    rw [← sub_sixteen]
  refine ⟨?_, ?_, ?_, ?_⟩
  · intro r notRbp notRsp
    cases r with
    | rbp => exact absurd rfl notRbp
    | rsp => exact absurd rfl notRsp
    | rsi => exact lwpCreate_slot mapped (by decide)
    | rdi => exact lwpCreate_slot mapped (by decide)
    | rax | rbx | rcx | rdx | r8 | r9 | r10 | r11 | r12 | r13 | r14 | r15 => rfl
  · rw [lwpCreate_slot mapped (by decide)]
    exact lower.symm
  · change readWord _ (stackEnd t - 8 - 16) = 0
    rw [lower, lwpCreate_frame mapped (by bv_omega) (by bv_omega), frameOf,
      readWord_writeWord_same]
  · change readWord _ (stackEnd t - 8 - 8) = lwpWrap
    rw [lwpCreate_frame mapped (by bv_omega) (by bv_omega), frameOf,
      readWord_writeWord_apart (by unfold Apart; bv_omega), readWord_writeWord_same]

theorem lwpCreate_returns (lwpWrap lwpExit : Word) {t : Thread} (func args : Word) (m : Memory)
    (mapped : Mapped t) :
    readWord (lwpCreate lwpWrap lwpExit t func args m) (stackEnd t - 8) = lwpExit := by
  have top := mapped.top
  have page := mapped.page
  have least := mapped.valid.mapped
  simp only [pageSize] at page
  rw [lwpCreate_frame mapped (by bv_omega) (by bv_omega), frameOf,
    readWord_writeWord_apart (by unfold Apart; bv_omega),
    readWord_writeWord_apart (by unfold Apart; bv_omega), readWord_writeWord_same]

/-! ## Threads and switches -/

structure System where
  cpu : Cpu
  threads : List Thread
  running : Thread

inductive Act where
  /-- The running thread takes steps of its own. -/
  | work
  | create (t : Thread) (func args : Word)
  /-- The thread's stack is unmapped and its context freed. -/
  | free (t : Thread)
  /-- swap_rfiles(old, new), old being NULL unless `keep`, returning to `back`. -/
  | swap (keep : Bool) (next : Thread) (back : Word)

structure System.Calls (s : System) (keep : Bool) (next : Thread) : Prop where
  old : s.cpu.regs .rdi = if keep then s.running.state else 0
  new : s.cpu.regs .rsi = next.state
  member : next ∈ s.threads
  /-- A thread whose context is not saved cannot go on. -/
  other : keep = false → next ≠ s.running
  room : s.running.OnStack (s.cpu.regs .rsp)

section Step
variable (lwpWrap lwpExit : Word)

inductive Step (s : System) : Act → System → Prop where
  | work (cpu : Cpu)
      (others : ∀ t ∈ s.threads, t ≠ s.running → ∀ x, t.Owns x → cpu.memory x = s.cpu.memory x) :
      Step s .work { s with cpu := cpu }
  | create (t : Thread) (func args : Word) (some : func ≠ 0) (mapped : Mapped t)
      (fresh : ∀ u ∈ s.threads, ∀ x, u.Owns x → ¬ t.Owns x) :
      Step s (.create t func args)
        { s with
          cpu := { s.cpu with memory := lwpCreate lwpWrap lwpExit t func args s.cpu.memory }
          threads := t :: s.threads }
  | free (t : Thread) (other : t ≠ s.running) :
      Step s (.free t) { s with threads := s.threads.filter (· ≠ t) }
  | swap (keep : Bool) (next : Thread) (back : Word) (cpu : Cpu) (calls : s.Calls keep next)
      (returns : callSwapRfiles s.cpu back = some cpu) :
      Step s (.swap keep next back)
        { cpu := cpu
          threads := if keep then s.threads else s.threads.filter (· ≠ s.running)
          running := next }

end Step

/-- The threads are valid, own different memory, and one of them runs. -/
structure System.WellFormed (s : System) : Prop where
  valid : ∀ t ∈ s.threads, t.Valid
  apart : ∀ t ∈ s.threads, ∀ u ∈ s.threads, t ≠ u → ∀ x, t.Owns x → ¬ u.Owns x
  running : s.running ∈ s.threads

/-- The program starts as one thread on the stack of the process. -/
def System.Initial (s : System) : Prop := s.threads = [s.running] ∧ s.running.Valid

theorem System.Initial.wellFormed {s : System} (initial : s.Initial) : s.WellFormed where
  valid := by
    intro t member
    rw [initial.1, List.mem_singleton] at member
    rw [member]
    exact initial.2
  apart := by
    intro t first u second other
    rw [initial.1, List.mem_singleton] at first second
    exact absurd (first.trans second.symm) other
  running := by
    rw [initial.1]
    exact List.mem_singleton_self _

section Keep
variable {lwpWrap lwpExit : Word} {s s' : System} {a : Act}

theorem System.WellFormed.subset {threads : List Thread} (wellFormed : s.WellFormed)
    (sub : threads ⊆ s.threads) {running : Thread} (member : running ∈ threads) (cpu : Cpu) :
    System.WellFormed ⟨cpu, threads, running⟩ where
  valid := fun t inside => wellFormed.valid t (sub inside)
  apart := fun t first u second => wellFormed.apart t (sub first) u (sub second)
  running := member

theorem System.WellFormed.step (wellFormed : s.WellFormed)
    (next : Step lwpWrap lwpExit s a s') : s'.WellFormed := by
  cases next with
  | work cpu others => exact wellFormed.subset (List.Subset.refl _) wellFormed.running cpu
  | create t func args some mapped fresh =>
      refine ⟨?_, ?_, List.mem_cons_of_mem _ wellFormed.running⟩
      · intro u member
        rcases List.mem_cons.mp member with rfl | member
        · exact mapped.valid
        · exact wellFormed.valid u member
      · intro u first v second other x owns
        rcases List.mem_cons.mp first with rfl | live
        · rcases List.mem_cons.mp second with rfl | live'
          · exact absurd rfl other
          · exact fun owned => fresh v live' x owned owns
        · rcases List.mem_cons.mp second with rfl | live'
          · exact fresh u live x owns
          · exact wellFormed.apart u live v live' other x owns
  | free t other =>
      exact wellFormed.subset List.filter_sublist.subset
        (List.mem_filter.mpr ⟨wellFormed.running, by simpa using Ne.symm other⟩) s.cpu
  | swap keep next back cpu calls returns =>
      cases keep with
      | true => exact wellFormed.subset (List.Subset.refl _) calls.member cpu
      | false =>
          exact wellFormed.subset List.filter_sublist.subset
            (List.mem_filter.mpr ⟨calls.member, by simpa using calls.other rfl⟩) cpu

theorem wellFormed_of_reach
    (reached : Reach System.Initial (Step lwpWrap lwpExit) s) : s.WellFormed :=
  reached.invariant (fun _ initial => initial.wellFormed)
    fun _ _ _ wellFormed next => wellFormed.step next

end Keep

section Swap
variable {s : System} {keep : Bool} {next : Thread}

theorem System.Calls.oldContext (calls : s.Calls keep next) (wellFormed : s.WellFormed) :
    s.cpu.regs .rdi = 0 ∨ Context (s.cpu.regs .rdi) := by
  rw [calls.old]
  cases keep with
  | true => exact .inr (wellFormed.valid _ wellFormed.running).context
  | false => exact .inl rfl

theorem System.Calls.swaps (calls : s.Calls keep next) (wellFormed : s.WellFormed) (back : Word) :
    callSwapRfiles s.cpu back = some (resumed next.state (swapMemory s.cpu back)) := by
  have context : Context (s.cpu.regs .rsi) := by
    rw [calls.new]
    exact (wellFormed.valid _ calls.member).context
  rw [swap_run (calls.oldContext wellFormed) context, calls.new]

theorem System.Calls.swapMemory_outside (calls : s.Calls keep next) (wellFormed : s.WellFormed)
    (back : Word) {x : Nat} (outside : ¬ s.running.Owns x) :
    swapMemory s.cpu back x = s.cpu.memory x := by
  obtain ⟨low, high⟩ := calls.room
  unfold Thread.Owns at outside
  refine Contexts.swapMemory_outside (calls.oldContext wellFormed) (by omega) (by omega) ?_
  intro saves
  rw [calls.old] at saves ⊢
  cases keep with
  | true =>
      rw [if_pos rfl]
      omega
  | false => exact absurd rfl saves

end Swap

/-- The act is no switch to the thread and does not free it. -/
def Spares (t : Thread) : Act → Prop
  | .free u => u ≠ t
  | .swap _ next _ => next ≠ t
  | .work | .create _ _ _ => True

/-- The thread is one of the others, which owns what it did in memory `m`. -/
structure System.Waits (s : System) (t : Thread) (m : Memory) : Prop where
  wellFormed : s.WellFormed
  member : t ∈ s.threads
  other : t ≠ s.running
  same : ∀ x, t.Owns x → s.cpu.memory x = m x

section Wait
variable {lwpWrap lwpExit : Word} {s s' : System} {t : Thread} {m : Memory}

theorem System.Waits.untouched (waits : s.Waits t m) {a : Act}
    (next : Step lwpWrap lwpExit s a s') {x : Nat} (owns : t.Owns x) : s'.cpu.memory x = m x := by
  rw [← waits.same x owns]
  cases next with
  | work cpu others => exact others t waits.member waits.other x owns
  | create u func args some mapped fresh =>
      exact lwpCreate_outside mapped (fresh t waits.member x owns)
  | free u other => rfl
  | swap keep next back cpu calls returns =>
      have swapped := (calls.swaps waits.wellFormed back).symm.trans returns
      obtain rfl := Option.some.inj swapped
      have notRunning := waits.wellFormed.apart t waits.member _ waits.wellFormed.running
        waits.other x owns
      exact calls.swapMemory_outside waits.wellFormed back notRunning

theorem System.Waits.step (waits : s.Waits t m) {a : Act} (next : Step lwpWrap lwpExit s a s')
    (spares : Spares t a) : s'.Waits t m := by
  refine ⟨waits.wellFormed.step next, ?_, ?_, fun x owns => waits.untouched next owns⟩
  · cases next with
    | work cpu others => exact waits.member
    | create u func args some mapped fresh => exact List.mem_cons_of_mem _ waits.member
    | free u other =>
        exact List.mem_filter.mpr ⟨waits.member, by simpa using Ne.symm spares⟩
    | swap keep next back cpu calls returns =>
        cases keep with
        | true => exact waits.member
        | false => exact List.mem_filter.mpr ⟨waits.member, by simpa using waits.other⟩
  · cases next with
    | work cpu others => exact waits.other
    | create u func args some mapped fresh => exact waits.other
    | free u other => exact waits.other
    | swap keep next back cpu calls returns => exact Ne.symm spares

theorem System.Waits.run (waits : s.Waits t m) {run : List (System × Act)}
    (exec : Exec (Step lwpWrap lwpExit) s run s') (spared : AllSteps (fun _ a => Spares t a) run) :
    s'.Waits t m := by
  have keep : ∀ s a s', s.Waits t m → Spares t a → Step lwpWrap lwpExit s a s' →
      s'.Waits t m := fun s a s' waits spares next => waits.step next spares
  exact (exec.guarded_invariant keep waits spared).2

theorem System.Waits.resumes (waits : s.Waits t m) {p : Point} (suspended : Suspended t.state p m)
    (onStack : t.OnStack (p.regs .rsp)) {keep : Bool} {back : Word}
    (next : Step lwpWrap lwpExit s (.swap keep t back) s') :
    s'.cpu.regs = p.regs ∧ s'.cpu.rip = p.rip ∧ ∀ x, t.Owns x → s'.cpu.memory x = m x := by
  have same : ∀ x, t.Owns x → s'.cpu.memory x = m x := fun x owns => waits.untouched next owns
  cases next with
  | swap keep next back cpu calls returns =>
      obtain ⟨low, high⟩ := onStack
      have swapped := (calls.swaps waits.wellFormed back).symm.trans returns
      obtain rfl := Option.some.inj swapped
      have owner := waits.wellFormed.valid t waits.member
      have still : Suspended t.state p (swapMemory s.cpu back) := by
        refine suspended.congr owner.context (by omega) ?_ ?_
        · intro x least most
          exact same x (.inr ⟨least, most⟩)
        · intro x least most
          exact same x (.inl ⟨by omega, by omega⟩)
      exact ⟨still.resumes.1, still.resumes.2, same⟩

theorem swap_waits (wellFormed : s.WellFormed) {next : Thread} {back : Word}
    (switch : Step lwpWrap lwpExit s (.swap true next back) s') :
    Suspended s.running.state ⟨s.cpu.regs, back⟩ s'.cpu.memory ∧
      s.running.OnStack (s.cpu.regs .rsp) ∧
      (next ≠ s.running → s'.Waits s.running s'.cpu.memory) := by
  have kept := wellFormed.step switch
  cases switch with
  | swap keep next back cpu calls returns =>
      have swapped := (calls.swaps wellFormed back).symm.trans returns
      obtain rfl := Option.some.inj swapped
      obtain ⟨low, high⟩ := calls.room
      have owner := wellFormed.valid _ wellFormed.running
      have old : s.cpu.regs .rdi = s.running.state := calls.old
      have apart := owner.apart
      unfold Apart at apart
      have suspended := swap_suspends back (s := s.cpu) (by rw [old]; exact owner.context)
        (by omega) (by rw [old]; unfold Apart; omega)
      rw [old] at suspended
      exact ⟨suspended, calls.room, fun other =>
        ⟨kept, wellFormed.running, Ne.symm other, fun _ _ => rfl⟩⟩

theorem create_waits (wellFormed : s.WellFormed) {func args : Word}
    (create : Step lwpWrap lwpExit s (.create t func args) s') :
    Mapped t ∧ s'.cpu.memory = lwpCreate lwpWrap lwpExit t func args s.cpu.memory ∧
      s'.Waits t s'.cpu.memory := by
  have kept := wellFormed.step create
  cases create with
  | create t func args some mapped fresh =>
      have other : t ≠ s.running := by
        intro same
        have page := mapped.page
        have first : t.Owns t.stack.toNat := by
          refine .inl ⟨Nat.le_refl _, ?_⟩
          simp only [pageSize] at page
          omega
        exact fresh t (same ▸ wellFormed.running) _ first first
      exact ⟨mapped, rfl, kept, List.mem_cons_self, other, fun _ _ => rfl⟩

end Wait

/-! ## Transparency -/

/-- In every run from `s`, the first switch to the thread arrives in such a state. -/
def SwitchedTo (lwpWrap lwpExit : Word) (s : System) (t : Thread) (P : System → Prop) : Prop :=
  ∀ run s₁ keep back s₂, Exec (Step lwpWrap lwpExit) s run s₁ →
    AllSteps (fun _ a => Spares t a) run →
    Step lwpWrap lwpExit s₁ (.swap keep t back) s₂ → P s₂

/-- The running thread goes on at `back` with the registers it had in `s`. -/
def ContinuesAfter (s : System) (back : Word) (s' : System) : Prop :=
  s'.cpu.regs = s.cpu.regs ∧ s'.cpu.rip = back

/-- The thread enters lwp_wrap(func, args), which returns to lwp_exit. -/
structure Enters (lwpWrap lwpExit : Word) (t : Thread) (func args : Word) (s : System) : Prop where
  rip : s.cpu.rip = lwpWrap
  rdi : s.cpu.regs .rdi = func
  rsi : s.cpu.regs .rsi = args
  aligned : (s.cpu.regs .rsp).toNat % 16 = 8
  low : t.stack.toNat ≤ (s.cpu.regs .rsp).toNat
  high : (s.cpu.regs .rsp).toNat + 8 ≤ t.stack.toNat + t.stacksize
  returns : readWord s.cpu.memory (s.cpu.regs .rsp) = lwpExit

section Transparent
variable {lwpWrap lwpExit : Word} {s s' : System}

theorem swap_returns (wellFormed : s.WellFormed) {next : Thread} {back : Word}
    (switch : Step lwpWrap lwpExit s (.swap true next back) s') (other : next ≠ s.running) :
    SwitchedTo lwpWrap lwpExit s' s.running (ContinuesAfter s back) := by
  intro run s₁ keep back' s₂ exec spared switchBack
  obtain ⟨suspended, onStack, waits⟩ := swap_waits wellFormed switch
  have arrived := ((waits other).run exec spared).resumes suspended onStack switchBack
  exact ⟨arrived.1, arrived.2.1⟩

theorem self_swap_returns (wellFormed : s.WellFormed) {back : Word}
    (switch : Step lwpWrap lwpExit s (.swap true s.running back) s') :
    ContinuesAfter s back s' := by
  obtain ⟨suspended, -, -⟩ := swap_waits wellFormed switch
  cases switch with
  | swap keep next back cpu calls returns =>
      have swapped := (calls.swaps wellFormed back).symm.trans returns
      obtain rfl := Option.some.inj swapped
      exact suspended.resumes

theorem first_switch_enters (wellFormed : s.WellFormed) {t : Thread} {func args : Word}
    (create : Step lwpWrap lwpExit s (.create t func args) s') :
    SwitchedTo lwpWrap lwpExit s' t (Enters lwpWrap lwpExit t func args) := by
  intro run s₁ keep back s₂ exec spared switch
  obtain ⟨mapped, memory, waits⟩ := create_waits wellFormed create
  have top := mapped.top
  have page := mapped.page
  have least := mapped.valid.mapped
  have base := mapped.base
  have pages := mapped.pages
  simp only [pageSize] at page base pages
  have suspended := lwpCreate_suspended lwpWrap lwpExit func args s.cpu.memory mapped
  rw [← memory] at suspended
  have onStack : t.OnStack (stackEnd t - 8) := by
    unfold Thread.OnStack
    constructor <;> bv_omega
  obtain ⟨regs, rip, same⟩ := (waits.run exec spared).resumes suspended onStack switch
  have rsp : s₂.cpu.regs .rsp = stackEnd t - 8 := congrFun regs .rsp
  have returns : readWord s₂.cpu.memory (stackEnd t - 8) = lwpExit := by
    rw [← lwpCreate_returns lwpWrap lwpExit func args s.cpu.memory mapped, ← memory]
    apply readWord_congr
    intro x low high
    exact same x (.inl ⟨by bv_omega, by bv_omega⟩)
  refine ⟨rip, congrFun regs .rdi, congrFun regs .rsi, ?_, ?_, ?_, ?_⟩
  all_goals rw [rsp]
  · bv_omega
  · bv_omega
  · bv_omega
  · exact returns

/-- Context switches are transparent: a switch always gets to the next thread,
a thread switched out goes on after its call with its registers, and a created
thread first enters lwp_wrap(func, args) on its own stack. -/
theorem switches_transparent (reached : Reach System.Initial (Step lwpWrap lwpExit) s) :
    (∀ keep next back, s.Calls keep next → ∃ s', Step lwpWrap lwpExit s (.swap keep next back) s') ∧
      (∀ next back s', Step lwpWrap lwpExit s (.swap true next back) s' →
        if next = s.running then ContinuesAfter s back s'
        else SwitchedTo lwpWrap lwpExit s' s.running (ContinuesAfter s back)) ∧
      (∀ t func args s', Step lwpWrap lwpExit s (.create t func args) s' →
        SwitchedTo lwpWrap lwpExit s' t (Enters lwpWrap lwpExit t func args)) := by
  have wellFormed := wellFormed_of_reach reached
  refine ⟨?_, ?_, ?_⟩
  · intro keep next back calls
    exact ⟨_, .swap keep next back _ calls (calls.swaps wellFormed back)⟩
  · intro next back s' switch
    by_cases self : next = s.running
    · rw [if_pos self]
      subst self
      exact self_swap_returns wellFormed switch
    · rw [if_neg self]
      exact swap_returns wellFormed switch self
  · intro t func args s' create
    exact first_switch_enters wellFormed create

end Transparent

def mainThread : Thread := ⟨0x10000, 0x100000, 0x10000⟩

def newThread : Thread := ⟨0x20000, 0x200000, 0x2000⟩

/-- The registers of a call of swap_rfiles on the stack of `t`. -/
def callRegs (t : Thread) (old new : Word) : Reg → Word
  | .rdi => old
  | .rsi => new
  | .rsp => t.stack + 0x1000
  | _ => 42

/-- A thread is created and switched to, and switches back. -/
theorem switches_transparent_roundTrip :
    ∃ s₀ s₁ s₂ s₃ s₄, System.Initial s₀ ∧
      Step 0x401000 0x401100 s₀ (.create newThread 0x401200 7) s₁ ∧
      Step 0x401000 0x401100 s₁ (.swap true newThread 0x401300) s₂ ∧
      Enters 0x401000 0x401100 newThread 0x401200 7 s₂ ∧
      Step 0x401000 0x401100 s₂ .work s₃ ∧
      Step 0x401000 0x401100 s₃ (.swap true mainThread 0x401400) s₄ ∧
      ContinuesAfter s₁ 0x401300 s₄ := by
  have mainContext : Context mainThread.state := ⟨by decide, by decide, by decide⟩
  have newContext : Context newThread.state := ⟨by decide, by decide, by decide⟩
  let s₀ : System :=
    ⟨⟨callRegs mainThread mainThread.state newThread.state, 0, false, fun _ => 0, fun _ => 0⟩,
      [mainThread], mainThread⟩
  have initial : s₀.Initial := ⟨rfl, mainContext, by decide, by unfold Apart; decide⟩
  have mapped : Mapped newThread :=
    ⟨⟨newContext, by decide, by unfold Apart; decide⟩, by decide, by decide, by decide⟩
  have fresh : ∀ u ∈ s₀.threads, ∀ x, u.Owns x → ¬ newThread.Owns x := by
    intro u member x
    obtain rfl : u = mainThread := List.mem_singleton.mp member
    simp only [Thread.Owns, mainThread, newThread, rfileSize, fxsaveOffset, fxsaveSize,
      BitVec.reduceToNat]
    omega
  have create : Step 0x401000 0x401100 s₀ (.create newThread 0x401200 7) _ :=
    .create newThread 0x401200 7 (by decide) mapped fresh
  have reached₀ : Reach System.Initial (Step 0x401000 0x401100) s₀ := .init initial
  have reached₁ := reached₀.step create
  obtain ⟨s₂, switch⟩ := (switches_transparent reached₁).1 true newThread 0x401300
    ⟨rfl, rfl, List.mem_cons_self, by decide, by unfold Thread.OnStack; decide⟩
  have enters := (switches_transparent reached₀).2.2 _ _ _ _ create [] _ true _ _ (.nil _)
    allSteps_nil switch
  obtain ⟨threads, running⟩ : s₂.threads = [newThread, mainThread] ∧ s₂.running = newThread := by
    cases switch with
    | swap => exact ⟨rfl, rfl⟩
  have reached₂ := reached₁.step switch
  let back : Cpu := { s₂.cpu with regs := callRegs newThread newThread.state mainThread.state }
  have work : Step 0x401000 0x401100 s₂ .work { s₂ with cpu := back } :=
    .work back fun _ _ _ _ _ => rfl
  have reached₃ := reached₂.step work
  have room : newThread.OnStack (newThread.stack + 0x1000) := by unfold Thread.OnStack; decide
  obtain ⟨s₄, switchBack⟩ := (switches_transparent reached₃).1 true mainThread 0x401400
    ⟨by rw [running]; rfl, rfl, by rw [threads]; decide, fun no => absurd no (by decide),
      by rw [running]; exact room⟩
  have returned := (switches_transparent reached₁).2.1 newThread 0x401300 s₂ switch
  rw [if_neg (by decide)] at returned
  have continues := returned [(s₂, .work)] _ true _ _ (.cons work (.nil _))
    (by simp [AllSteps, Spares]) switchBack
  exact ⟨_, _, s₂, _, s₄, initial, create, switch, enters, work, switchBack, continues⟩

end Csc457.Lwp.Contexts
