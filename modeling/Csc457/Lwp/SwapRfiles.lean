import Csc457.Lib.X86

/-!
# swap_rfiles

The routine of magic64.S, instruction by instruction, and `struct registers` of
lwp.h as the offsets it uses.  A thread that called swap_rfiles(old, new) is
suspended: its context and the two words of its frame say where it goes on, and
with which registers.  Loading the context of a suspended thread resumes it.
-/

set_option autoImplicit false

namespace Csc457.Lwp.Contexts

open Function
open Csc457.Lib.ByteMemory Csc457.Lib.X86

/-- The fields of `struct registers`. -/
def rfileOffset : Reg → Nat
  | .rax => 0
  | .rbx => 8
  | .rcx => 16
  | .rdx => 24
  | .rsi => 32
  | .rdi => 40
  | .rbp => 48
  | .rsp => 56
  | .r8 => 64
  | .r9 => 72
  | .r10 => 80
  | .r11 => 88
  | .r12 => 96
  | .r13 => 104
  | .r14 => 112
  | .r15 => 120

/-- The field `fxsave`. -/
def fxsaveOffset : Nat := 128

/-- `sizeof(rfile)` -/
def rfileSize : Nat := fxsaveOffset + fxsaveSize

inductive Label where
  | load
  | done
  deriving DecidableEq

def swapRfiles : List (Instr Label) := [
  .op (.pushq .rbp),
  .op (.movq .rsp .rbp),
  -- save the old context (if old != NULL)
  .op (.cmpZero .rdi),
  .je .load,
  .op (.store .rax 0 .rdi),
  .op (.leaq 128 .rdi .rax),
  .op (.fxsave .rax),
  .op (.store .rbx 8 .rdi),
  .op (.store .rcx 16 .rdi),
  .op (.store .rdx 24 .rdi),
  .op (.store .rsi 32 .rdi),
  .op (.store .rdi 40 .rdi),
  .op (.store .rbp 48 .rdi),
  .op (.store .rsp 56 .rdi),
  .op (.store .r8 64 .rdi),
  .op (.store .r9 72 .rdi),
  .op (.store .r10 80 .rdi),
  .op (.store .r11 88 .rdi),
  .op (.store .r12 96 .rdi),
  .op (.store .r13 104 .rdi),
  .op (.store .r14 112 .rdi),
  .op (.store .r15 120 .rdi),
  -- load the new one (if new != NULL)
  .label .load,
  .op (.cmpZero .rsi),
  .je .done,
  .op (.leaq 128 .rsi .rax),
  .op (.fxrstor .rax),
  .op (.load 0 .rsi .rax),
  .op (.load 8 .rsi .rbx),
  .op (.load 16 .rsi .rcx),
  .op (.load 24 .rsi .rdx),
  .op (.load 40 .rsi .rdi),
  .op (.load 48 .rsi .rbp),
  .op (.load 56 .rsi .rsp),
  .op (.load 64 .rsi .r8),
  .op (.load 72 .rsi .r9),
  .op (.load 80 .rsi .r10),
  .op (.load 88 .rsi .r11),
  .op (.load 96 .rsi .r12),
  .op (.load 104 .rsi .r13),
  .op (.load 112 .rsi .r14),
  .op (.load 120 .rsi .r15),
  -- must do rsi last, since it's our pointer
  .op (.load 32 .rsi .rsi),
  .label .done,
  .op .leave,
  .ret]

/-- A call of swap_rfiles that returns to `back`. -/
def callSwapRfiles (s : Cpu) (back : Word) : Option Cpu := run swapRfiles (s.push back)

def prologue : List Op := [.pushq .rbp, .movq .rsp .rbp, .cmpZero .rdi]

/-- The registers stored after rax. -/
def restSaved : List Reg :=
  [.rbx, .rcx, .rdx, .rsi, .rdi, .rbp, .rsp, .r8, .r9, .r10, .r11, .r12, .r13, .r14, .r15]

def saveContext : List Op :=
  [.store .rax 0 .rdi, .leaq 128 .rdi .rax, .fxsave .rax] ++ saveOps rfileOffset .rdi restSaved

/-- The registers loaded before rsi. -/
def restLoaded : List Reg :=
  [.rax, .rbx, .rcx, .rdx, .rdi, .rbp, .rsp, .r8, .r9, .r10, .r11, .r12, .r13, .r14, .r15]

def loadContext : List Op :=
  [.leaq 128 .rsi .rax, .fxrstor .rax] ++
    (loadOps rfileOffset .rsi restLoaded ++ [.load 32 .rsi .rsi])

def epilogue : List (Instr Label) := [.op .leave, .ret]

def loading : List (Instr Label) :=
  .op (.cmpZero .rsi) :: .je .done :: (loadContext.map .op ++ .label .done :: epilogue)

theorem swapRfiles_eq :
    swapRfiles =
      prologue.map .op ++ .je .load :: (saveContext.map .op ++ .label .load :: loading) := rfl

theorem mem_restSaved (r : Reg) : r ∈ restSaved ↔ r ≠ .rax := by
  cases r <;> decide

theorem mem_restLoaded (r : Reg) : r ∈ restLoaded ↔ r ≠ .rsi := by
  cases r <;> decide

/-- A context of its own below 2^64. -/
structure Context (c : Word) : Prop where
  real : c ≠ 0
  aligned : c.toNat % 16 = 0
  fits : c.toNat + rfileSize ≤ 2 ^ 64

theorem Context.slots {c : Word} (context : Context c) : Slots rfileOffset fxsaveOffset c where
  inside := by
    intro r
    cases r <;> decide
  apart := by
    intro r q other
    unfold Apart
    cases r <;> cases q <;> first | exact absurd rfl other | simp [rfileOffset]
  fits := by
    have fits := context.fits
    simp only [rfileSize, fxsaveOffset, fxsaveSize] at fits ⊢
    omega

theorem Context.fpu_toNat {c : Word} (context : Context c) :
    (c + BitVec.ofNat 64 128).toNat = c.toNat + 128 := by
  have fits := context.fits
  simp only [rfileSize, fxsaveOffset, fxsaveSize] at fits
  exact toNat_offset (by omega)

theorem Context.fpu_aligned {c : Word} (context : Context c) :
    (c + BitVec.ofNat 64 128).toNat % 16 = 0 := by
  have aligned := context.aligned
  rw [context.fpu_toNat]
  omega

/-! ## What a call does -/

/-- The return address and the caller's rbp, pushed below rsp. -/
def frameMemory (s : Cpu) (back : Word) : Memory :=
  writeWord (writeWord s.memory (s.regs .rsp - 8) back) (s.regs .rsp - 8 - 8) (s.regs .rbp)

/-- After the prologue rsp and rbp both point to the saved rbp. -/
def entered (s : Cpu) (back : Word) : Cpu :=
  { s with
    regs := update (update s.regs .rsp (s.regs .rsp - 8 - 8)) .rbp (s.regs .rsp - 8 - 8)
    zeroFlag := s.regs .rdi == 0
    memory := frameMemory s back }

/-- The memory once the registers are saved to the context at rdi. -/
def contextMemory (s : Cpu) : Memory :=
  saved rfileOffset (update s.regs .rax (s.regs .rdi + BitVec.ofNat 64 128)) (s.regs .rdi) restSaved
    (fxsaved (writeWord s.memory (slotOf rfileOffset (s.regs .rdi) .rax) (s.regs .rax))
      ((s.regs .rdi).toNat + fxsaveOffset) s.fpu)

def swapMemory (s : Cpu) (back : Word) : Memory :=
  if s.regs .rdi = 0 then frameMemory s back else contextMemory (entered s back)

/-- The registers as the context at `c` and the frame it points to have them. -/
def resumed (c : Word) (m : Memory) : Cpu where
  regs := fun r =>
    if r = .rsp then readWord m (slotOf rfileOffset c .rbp) + 8 + 8
    else if r = .rbp then readWord m (readWord m (slotOf rfileOffset c .rbp))
    else readWord m (slotOf rfileOffset c r)
  rip := readWord m (readWord m (slotOf rfileOffset c .rbp) + 8)
  zeroFlag := false
  fpu := fun i => m (c.toNat + fxsaveOffset + i)
  memory := m

theorem exec_prologue (s : Cpu) (back : Word) :
    execAll prologue (s.push back) = some (entered s back) := by
  have rbp_rsp : (.rbp : Reg) ≠ .rsp := by decide
  have rdi_rsp : (.rdi : Reg) ≠ .rsp := by decide
  have rdi_rbp : (.rdi : Reg) ≠ .rbp := by decide
  rw [prologue, execAll_cons (exec_pushq _), execAll_cons (exec_movq _),
    execAll_cons (exec_cmpZero _), execAll]
  simp only [Cpu.push, Cpu.set, update_self, update_of_ne rbp_rsp, update_of_ne rdi_rsp,
    update_of_ne rdi_rbp, update_idem, entered, frameMemory]

theorem exec_saveContext {s : Cpu} (context : Context (s.regs .rdi)) :
    execAll saveContext s =
      some { s with
        regs := update s.regs .rax (s.regs .rdi + BitVec.ofNat 64 128)
        memory := contextMemory s } := by
  have rdi_rax : (.rdi : Reg) ≠ .rax := by decide
  have position := context.fpu_toNat
  rw [saveContext, List.cons_append, execAll_cons (exec_store _), List.cons_append,
    execAll_cons (exec_leaq _), List.cons_append, execAll_cons (exec_fxsave ?_),
    List.nil_append, execAll_saveOps]
  · simp only [Cpu.set, update_self, update_of_ne rdi_rax, position, contextMemory, slotOf,
      rfileOffset, fxsaveOffset]
  · simp only [Cpu.set, update_self]
    exact context.fpu_aligned

theorem exec_loadContext {s : Cpu} (context : Context (s.regs .rsi)) :
    execAll loadContext s =
      some { s with
        regs := fun r => readWord s.memory (slotOf rfileOffset (s.regs .rsi) r)
        fpu := fun i => s.memory ((s.regs .rsi).toNat + fxsaveOffset + i) } := by
  have rsi_rax : (.rsi : Reg) ≠ .rax := by decide
  have notFirst : (.rsi : Reg) ∉ restLoaded := by decide
  have position := context.fpu_toNat
  rw [loadContext, List.cons_append, execAll_cons (exec_leaq _), List.cons_append,
    execAll_cons (exec_fxrstor ?_), List.nil_append, execAll_append, execAll_loadOps notFirst,
    Option.bind_some, execAll_cons (exec_load _), execAll]
  · simp only [Cpu.set, update_self, update_of_ne rsi_rax, if_neg notFirst, position, fxsaveOffset,
      Option.some.injEq, Cpu.mk.injEq, and_true]
    funext r
    by_cases last : r = .rsi
    · subst last
      rw [update_self]
      rfl
    · rw [update_of_ne last, if_pos ((mem_restLoaded r).mpr last)]
  · simp only [Cpu.set, update_self]
    exact context.fpu_aligned

theorem run_loading {s : Cpu} (context : Context (s.regs .rsi)) :
    run loading s = some (resumed (s.regs .rsi) s.memory) := by
  have some_new : (s.regs .rsi == 0) = false := by simpa using context.real
  have loaded := exec_loadContext (s := { s with zeroFlag := false }) context
  rw [loading, run, exec_cmpZero, Option.bind_some, run, some_new, if_neg Bool.false_ne_true,
    run_ops, loaded, Option.bind_some, run, epilogue, run, exec_leave, Option.bind_some, run]
  simp only [Cpu.ret, Cpu.pop, Cpu.set, update_self, update_idem, resumed, Option.some.injEq,
    Cpu.mk.injEq, and_true]
  funext r
  by_cases isRsp : r = .rsp
  · subst isRsp
    simp
  · by_cases isRbp : r = .rbp
    · subst isRbp
      simp
    · simp [isRsp, isRbp]

theorem swap_run {s : Cpu} {back : Word} (old : s.regs .rdi = 0 ∨ Context (s.regs .rdi))
    (new : Context (s.regs .rsi)) :
    callSwapRfiles s back = some (resumed (s.regs .rsi) (swapMemory s back)) := by
  have rdi_kept : (entered s back).regs .rdi = s.regs .rdi := by
    simp [entered]
  have rsi_kept : (entered s back).regs .rsi = s.regs .rsi := by
    simp [entered]
  rw [callSwapRfiles, swapRfiles_eq, run_ops, exec_prologue, Option.bind_some, run]
  by_cases null : s.regs .rdi = 0
  · have isNull : (entered s back).zeroFlag = true := by simp [entered, null]
    have loaded := run_loading (s := entered s back) (by rw [rsi_kept]; exact new)
    rw [if_pos isNull, skipTo_ops, skipTo, if_pos rfl, loaded, rsi_kept, swapMemory, if_pos null]
    rfl
  · have notNull : ¬ (entered s back).zeroFlag = true := by simpa [entered] using null
    have context : Context ((entered s back).regs .rdi) := by
      rw [rdi_kept]
      exact old.resolve_left null
    have rsi_rax : (.rsi : Reg) ≠ .rax := by decide
    rw [if_neg notNull, run_ops, exec_saveContext context, Option.bind_some, run, run_loading]
    · simp only [update_of_ne rsi_rax, rsi_kept, swapMemory, if_neg null]
    · simpa only [update_of_ne rsi_rax, rsi_kept] using new

/-! ## Suspended threads -/

structure Point where
  regs : Reg → Word
  rip : Word

/-- The context at `c` and the frame it points to lead to the point. -/
structure Suspended (c : Word) (p : Point) (m : Memory) : Prop where
  slots : ∀ r, r ≠ .rbp → r ≠ .rsp → readWord m (slotOf rfileOffset c r) = p.regs r
  frame : readWord m (slotOf rfileOffset c .rbp) = p.regs .rsp - 16
  savedRbp : readWord m (p.regs .rsp - 16) = p.regs .rbp
  back : readWord m (p.regs .rsp - 8) = p.rip

theorem sub_sixteen (w : Word) : w - 8 - 8 = w - 16 := by
  rw [BitVec.sub_sub]
  rfl

/-- A suspended thread stays suspended while its context and its frame are left alone. -/
theorem Suspended.congr {c : Word} {p : Point} {m m' : Memory} (suspended : Suspended c p m)
    (context : Context c) (room : 16 ≤ (p.regs .rsp).toNat)
    (sameContext : AgreeOn m m' c.toNat rfileSize)
    (sameFrame : AgreeOn m m' ((p.regs .rsp).toNat - 16) 16) : Suspended c p m' := by
  have slot : ∀ r, readWord m' (slotOf rfileOffset c r) = readWord m (slotOf rfileOffset c r) := by
    intro r
    have inside := context.slots.inside r
    simp only [fxsaveOffset] at inside
    apply readWord_congr
    rw [context.slots.toNat]
    intro x low high
    refine sameContext x (by omega) ?_
    simp only [rfileSize, fxsaveOffset, fxsaveSize]
    omega
  have lower : readWord m' (p.regs .rsp - 16) = readWord m (p.regs .rsp - 16) := by
    apply readWord_congr
    intro x low high
    refine sameFrame x ?_ ?_ <;> bv_omega
  have upper : readWord m' (p.regs .rsp - 8) = readWord m (p.regs .rsp - 8) := by
    apply readWord_congr
    intro x low high
    refine sameFrame x ?_ ?_ <;> bv_omega
  exact ⟨fun r notRbp notRsp => (slot r).trans (suspended.slots r notRbp notRsp),
    (slot .rbp).trans suspended.frame, lower.trans suspended.savedRbp, upper.trans suspended.back⟩

theorem frameMemory_outside {s : Cpu} {back : Word} (room : 16 ≤ (s.regs .rsp).toNat) {x : Nat}
    (outside : x < (s.regs .rsp).toNat - 16 ∨ (s.regs .rsp).toNat ≤ x) :
    frameMemory s back x = s.memory x := by
  unfold frameMemory
  rw [writeWord_outside (by bv_omega), writeWord_outside (by bv_omega)]

theorem frameMemory_frame {s : Cpu} (back : Word) (room : 16 ≤ (s.regs .rsp).toNat) :
    readWord (frameMemory s back) (s.regs .rsp - 16) = s.regs .rbp ∧
      readWord (frameMemory s back) (s.regs .rsp - 8) = back := by
  unfold frameMemory
  rw [sub_sixteen]
  refine ⟨readWord_writeWord_same, ?_⟩
  rw [readWord_writeWord_apart (.inl (by bv_omega)), readWord_writeWord_same]

theorem contextMemory_outside {s : Cpu} (context : Context (s.regs .rdi)) {x : Nat}
    (outside : x < (s.regs .rdi).toNat ∨ (s.regs .rdi).toNat + rfileSize ≤ x) :
    contextMemory s x = s.memory x := by
  have first := context.slots.toNat .rax
  simp only [rfileSize, fxsaveOffset, fxsaveSize, rfileOffset] at outside first
  have notFpu : ¬ ((s.regs .rdi).toNat + 128 ≤ x ∧ x < (s.regs .rdi).toNat + 128 + 512) := by omega
  rw [contextMemory, context.slots.saved_outside (by simp only [fxsaveOffset]; omega), fxsaved,
    fxsaveOffset, fxsaveSize, if_neg notFpu, writeWord_outside (by omega)]

theorem contextMemory_slots {s : Cpu} (context : Context (s.regs .rdi)) (r : Reg) :
    readWord (contextMemory s) (slotOf rfileOffset (s.regs .rdi) r) = s.regs r := by
  unfold contextMemory
  by_cases first : r = .rax
  · subst first
    have notLater : (.rax : Reg) ∉ restSaved := by decide
    rw [context.slots.saved_other notLater]
    have unchanged : readWord
        (fxsaved (writeWord s.memory (slotOf rfileOffset (s.regs .rdi) .rax) (s.regs .rax))
          ((s.regs .rdi).toNat + fxsaveOffset) s.fpu) (slotOf rfileOffset (s.regs .rdi) .rax) =
        readWord (writeWord s.memory (slotOf rfileOffset (s.regs .rdi) .rax) (s.regs .rax))
          (slotOf rfileOffset (s.regs .rdi) .rax) := by
      apply readWord_congr
      rw [context.slots.toNat]
      intro x low high
      simp only [rfileOffset] at low high
      have notFpu : ¬ ((s.regs .rdi).toNat + fxsaveOffset ≤ x ∧
          x < (s.regs .rdi).toNat + fxsaveOffset + fxsaveSize) := by
        simp only [fxsaveOffset]
        omega
      exact if_neg notFpu
    rw [unchanged, readWord_writeWord_same]
  · rw [context.slots.saved_same ((mem_restSaved r).mpr first), update_of_ne first]

theorem swap_suspends {s : Cpu} (back : Word) (context : Context (s.regs .rdi))
    (room : 16 ≤ (s.regs .rsp).toNat)
    (apart : Apart ((s.regs .rsp).toNat - 16) 16 (s.regs .rdi).toNat rfileSize) :
    Suspended (s.regs .rdi) ⟨s.regs, back⟩ (swapMemory s back) := by
  have rdi_kept : (entered s back).regs .rdi = s.regs .rdi := by
    simp [entered]
  have context' : Context ((entered s back).regs .rdi) := by
    rw [rdi_kept]
    exact context
  have slots := contextMemory_slots context'
  rw [rdi_kept] at slots
  rw [swapMemory, if_neg context.real]
  have outside : AgreeOn (frameMemory s back) (contextMemory (entered s back))
      ((s.regs .rsp).toNat - 16) 16 := by
    intro x low high
    apply contextMemory_outside context'
    rw [rdi_kept]
    unfold Apart at apart
    omega
  obtain ⟨savedRbp, savedBack⟩ := frameMemory_frame back room
  have lower : readWord (contextMemory (entered s back)) (s.regs .rsp - 16) =
      readWord (frameMemory s back) (s.regs .rsp - 16) := by
    apply readWord_congr
    intro x low high
    exact outside x (by bv_omega) (by bv_omega)
  have upper : readWord (contextMemory (entered s back)) (s.regs .rsp - 8) =
      readWord (frameMemory s back) (s.regs .rsp - 8) := by
    apply readWord_congr
    intro x low high
    exact outside x (by bv_omega) (by bv_omega)
  refine ⟨?_, ?_, lower.trans savedRbp, upper.trans savedBack⟩
  · intro r notRbp notRsp
    rw [slots]
    simp [entered, notRbp, notRsp]
  · rw [slots, ← sub_sixteen]
    simp [entered]

theorem swapMemory_outside {s : Cpu} {back : Word}
    (old : s.regs .rdi = 0 ∨ Context (s.regs .rdi)) (room : 16 ≤ (s.regs .rsp).toNat) {x : Nat}
    (notFrame : x < (s.regs .rsp).toNat - 16 ∨ (s.regs .rsp).toNat ≤ x)
    (notContext : s.regs .rdi ≠ 0 →
      x < (s.regs .rdi).toNat ∨ (s.regs .rdi).toNat + rfileSize ≤ x) :
    swapMemory s back x = s.memory x := by
  rw [swapMemory]
  by_cases null : s.regs .rdi = 0
  · rw [if_pos null, frameMemory_outside room notFrame]
  · have rdi_kept : (entered s back).regs .rdi = s.regs .rdi := by
      simp [entered]
    have context : Context ((entered s back).regs .rdi) := by
      rw [rdi_kept]
      exact old.resolve_left null
    rw [if_neg null, contextMemory_outside context (by rw [rdi_kept]; exact notContext null)]
    exact frameMemory_outside room notFrame

theorem Suspended.resumes {c : Word} {p : Point} {m : Memory} (suspended : Suspended c p m) :
    (resumed c m).regs = p.regs ∧ (resumed c m).rip = p.rip := by
  have top : p.regs .rsp - 16 + 8 = p.regs .rsp - 8 := by bv_omega
  have whole : p.regs .rsp - 8 + 8 = p.regs .rsp := by bv_omega
  refine ⟨?_, ?_⟩
  · funext r
    simp only [resumed, suspended.frame]
    by_cases isRsp : r = .rsp
    · subst isRsp
      rw [if_pos rfl, top, whole]
    · rw [if_neg isRsp]
      by_cases isRbp : r = .rbp
      · subst isRbp
        rw [if_pos rfl, suspended.savedRbp]
      · rw [if_neg isRbp, suspended.slots r isRbp isRsp]
  · simp only [resumed, suspended.frame, top, suspended.back]

end Csc457.Lwp.Contexts
