import Csc457.Lib.ByteMemory
import Mathlib.Data.List.Basic

/-!
# Straight-line x86-64 code with forward jumps

The part of the machine that a context switch uses: the sixteen general
registers, the zero flag, the image fxsave writes, and byte-addressed memory.
`ops` are the instructions that do not jump; a jump goes forward to a label of
the same code, and `ret` ends the code.  Operands near 2^64 do not wrap around:
no object lies there.
-/

set_option autoImplicit false

namespace Csc457.Lib.X86

open Csc457.Lib.ByteMemory

abbrev Word := BitVec 64

inductive Reg where
  | rax | rbx | rcx | rdx | rsi | rdi | rbp | rsp
  | r8 | r9 | r10 | r11 | r12 | r13 | r14 | r15
  deriving DecidableEq

structure Cpu where
  regs : Reg → Word
  rip : Word
  zeroFlag : Bool
  fpu : Nat → UInt8
  memory : Memory

/-- The bytes fxsave stores and fxrstor loads. -/
def fxsaveSize : Nat := 512

/-- The memory with the image stored from `a` on. -/
def fxsaved (m : Memory) (a : Nat) (fpu : Nat → UInt8) : Memory := fun x =>
  if a ≤ x ∧ x < a + fxsaveSize then fpu (x - a) else m x

inductive Op where
  | pushq (source : Reg)
  | movq (source target : Reg)
  | store (source : Reg) (offset : Nat) (base : Reg)
  | load (offset : Nat) (base target : Reg)
  | cmpZero (source : Reg)
  | leaq (offset : Nat) (base target : Reg)
  | fxsave (base : Reg)
  | fxrstor (base : Reg)
  | leave
  deriving DecidableEq

inductive Instr (L : Type) where
  | op (o : Op)
  | je (target : L)
  | label (here : L)
  | ret

def readWord (m : Memory) (a : Word) : Word := BitVec.ofNat 64 (load64 m a.toNat)

def writeWord (m : Memory) (a v : Word) : Memory := store64 m a.toNat v.toNat

def Cpu.set (s : Cpu) (r : Reg) (v : Word) : Cpu := { s with regs := Function.update s.regs r v }

def Cpu.push (s : Cpu) (v : Word) : Cpu :=
  { s.set .rsp (s.regs .rsp - 8) with memory := writeWord s.memory (s.regs .rsp - 8) v }

/-- Pop a word into a register; rsp itself is never the target here. -/
def Cpu.pop (s : Cpu) (r : Reg) : Cpu :=
  (s.set r (readWord s.memory (s.regs .rsp))).set .rsp (s.regs .rsp + 8)

/-- `none` is the general protection fault of a misaligned fxsave area. -/
def Op.exec : Op → Cpu → Option Cpu
  | .pushq source, s => some (s.push (s.regs source))
  | .movq source target, s => some (s.set target (s.regs source))
  | .store source offset base, s =>
      some { s with
        memory := writeWord s.memory (s.regs base + BitVec.ofNat 64 offset) (s.regs source) }
  | .load offset base target, s =>
      some (s.set target (readWord s.memory (s.regs base + BitVec.ofNat 64 offset)))
  | .cmpZero source, s => some { s with zeroFlag := s.regs source == 0 }
  | .leaq offset base target, s => some (s.set target (s.regs base + BitVec.ofNat 64 offset))
  | .fxsave base, s =>
      let a := (s.regs base).toNat
      if a % 16 = 0 then some { s with memory := fxsaved s.memory a s.fpu } else none
  | .fxrstor base, s =>
      let a := (s.regs base).toNat
      if a % 16 = 0 then some { s with fpu := fun i => s.memory (a + i) } else none
  | .leave, s => some ((s.set .rsp (s.regs .rbp)).pop .rbp)

section Exec
variable (s : Cpu) {source base target : Reg} {offset : Nat}

theorem exec_pushq : (Op.pushq source).exec s = some (s.push (s.regs source)) := rfl

theorem exec_movq : (Op.movq source target).exec s = some (s.set target (s.regs source)) := rfl

theorem exec_store : (Op.store source offset base).exec s =
    some { s with
      memory := writeWord s.memory (s.regs base + BitVec.ofNat 64 offset) (s.regs source) } := rfl

theorem exec_load : (Op.load offset base target).exec s =
    some (s.set target (readWord s.memory (s.regs base + BitVec.ofNat 64 offset))) := rfl

theorem exec_cmpZero : (Op.cmpZero source).exec s =
    some { s with zeroFlag := s.regs source == 0 } := rfl

theorem exec_leaq : (Op.leaq offset base target).exec s =
    some (s.set target (s.regs base + BitVec.ofNat 64 offset)) := rfl

theorem exec_leave : Op.leave.exec s = some ((s.set .rsp (s.regs .rbp)).pop .rbp) := rfl

variable {s}

theorem exec_fxsave (aligned : (s.regs base).toNat % 16 = 0) : (Op.fxsave base).exec s =
    some { s with memory := fxsaved s.memory (s.regs base).toNat s.fpu } := if_pos aligned

theorem exec_fxrstor (aligned : (s.regs base).toNat % 16 = 0) : (Op.fxrstor base).exec s =
    some { s with fpu := fun i => s.memory ((s.regs base).toNat + i) } := if_pos aligned

end Exec

def Cpu.ret (s : Cpu) : Cpu :=
  { s.set .rsp (s.regs .rsp + 8) with rip := readWord s.memory (s.regs .rsp) }

section Run
variable {L : Type} [DecidableEq L]

def skipTo (target : L) : List (Instr L) → List (Instr L)
  | [] => []
  | .label here :: rest => if here = target then rest else skipTo target rest
  | .op _ :: rest => skipTo target rest
  | .je _ :: rest => skipTo target rest
  | .ret :: rest => skipTo target rest

theorem skipTo_length (target : L) (code : List (Instr L)) :
    (skipTo target code).length ≤ code.length := by
  induction code with
  | nil => exact Nat.le_refl _
  | cons i rest ih =>
      cases i with
      | label here =>
          rw [skipTo]
          split
          · exact Nat.le_succ _
          · exact Nat.le_succ_of_le ih
      | op o | je l | ret => exact Nat.le_succ_of_le ih

theorem skipTo_ops (target : L) (ops : List Op) (rest : List (Instr L)) :
    skipTo target (ops.map .op ++ rest) = skipTo target rest := by
  induction ops with
  | nil => rfl
  | cons o ops ih => exact ih

/-- Run the code to its ret; `none` is a fault or the end of the code. -/
def run : List (Instr L) → Cpu → Option Cpu
  | [], _ => none
  | .ret :: _, s => some s.ret
  | .label _ :: rest, s => run rest s
  | .je target :: rest, s => if s.zeroFlag then run (skipTo target rest) s else run rest s
  | .op o :: rest, s => (o.exec s).bind (run rest)
termination_by code => code.length
decreasing_by
  · exact Nat.lt_succ_self _
  · exact Nat.lt_succ_of_le (skipTo_length target rest)
  · exact Nat.lt_succ_self _
  · exact Nat.lt_succ_self _

def execAll : List Op → Cpu → Option Cpu
  | [], s => some s
  | o :: rest, s => (o.exec s).bind (execAll rest)

omit [DecidableEq L] in
theorem execAll_cons {o : Op} {rest : List Op} {s s' : Cpu} (first : o.exec s = some s') :
    execAll (o :: rest) s = execAll rest s' := by
  rw [execAll, first, Option.bind_some]

omit [DecidableEq L] in
theorem execAll_append (first second : List Op) (s : Cpu) :
    execAll (first ++ second) s = (execAll first s).bind (execAll second) := by
  induction first generalizing s with
  | nil => rfl
  | cons o first ih =>
      rw [List.cons_append, execAll, execAll, Option.bind_assoc]
      congr 1
      funext s'
      exact ih s'

theorem run_ops (ops : List Op) (rest : List (Instr L)) (s : Cpu) :
    run (ops.map .op ++ rest) s = (execAll ops s).bind (run rest) := by
  induction ops generalizing s with
  | nil => rfl
  | cons o ops ih =>
      rw [List.map_cons, List.cons_append, run, execAll, Option.bind_assoc]
      congr 1
      funext s'
      exact ih s'

end Run

section Word
variable {m : Memory} {a b v : Word}

theorem toNat_offset {c : Word} {k : Nat} (fits : c.toNat + k < 2 ^ 64) :
    (c + BitVec.ofNat 64 k).toNat = c.toNat + k := by
  rw [BitVec.toNat_add, BitVec.toNat_ofNat, Nat.mod_eq_of_lt (a := k) (by omega),
    Nat.mod_eq_of_lt fits]

theorem readWord_writeWord_same : readWord (writeWord m a v) a = v := by
  unfold readWord writeWord
  rw [load64_store64_same v.isLt, BitVec.ofNat_toNat, BitVec.setWidth_eq]

theorem readWord_writeWord_apart (apart : Apart a.toNat 8 b.toNat 8) :
    readWord (writeWord m a v) b = readWord m b := by
  unfold readWord writeWord
  rw [load64_store64_apart apart]

theorem readWord_congr {m' : Memory} (agree : AgreeOn m m' a.toNat 8) :
    readWord m' a = readWord m a := by
  unfold readWord
  rw [load64_congr agree]

theorem writeWord_outside {x : Nat} (outside : x < a.toNat ∨ a.toNat + 8 ≤ x) :
    writeWord m a v x = m x :=
  storeBytes_outside outside

end Word

/-! ## Saving and loading a register file -/

section RegisterFile
variable (slot : Reg → Nat)

def saveOps (base : Reg) (rs : List Reg) : List Op := rs.map fun r => .store r (slot r) base

def loadOps (base : Reg) (rs : List Reg) : List Op := rs.map fun r => .load (slot r) base r

def slotOf (c : Word) (r : Reg) : Word := c + BitVec.ofNat 64 (slot r)

/-- The memory after the registers were saved to the file at `c`. -/
def saved (f : Reg → Word) (c : Word) (rs : List Reg) (m : Memory) : Memory :=
  rs.foldl (fun m r => writeWord m (slotOf slot c r) (f r)) m

variable {slot}

theorem execAll_saveOps (base : Reg) (rs : List Reg) (s : Cpu) :
    execAll (saveOps slot base rs) s =
      some { s with memory := saved slot s.regs (s.regs base) rs s.memory } := by
  induction rs generalizing s with
  | nil => rfl
  | cons r rs ih => exact ih _

theorem execAll_loadOps {base : Reg} {rs : List Reg} (fresh : base ∉ rs) (s : Cpu) :
    execAll (loadOps slot base rs) s =
      some { s with
        regs := fun r =>
          if r ∈ rs then readWord s.memory (slotOf slot (s.regs base) r) else s.regs r } := by
  induction rs generalizing s with
  | nil => simp [loadOps, execAll]
  | cons q rs ih =>
      obtain ⟨other, fresh⟩ : base ≠ q ∧ base ∉ rs := by simpa using fresh
      have rest := ih fresh (s.set q (readWord s.memory (slotOf slot (s.regs base) q)))
      refine rest.trans ?_
      congr 2
      funext r
      have baseKept : (s.set q (readWord s.memory (slotOf slot (s.regs base) q))).regs base =
          s.regs base := Function.update_of_ne other _ _
      rw [baseKept]
      by_cases inRest : r ∈ rs
      · simp [inRest, Cpu.set]
      · by_cases isHead : r = q
        · subst isHead
          simp [inRest, Cpu.set]
        · simp [inRest, isHead, Cpu.set]

/-- The file lies below 2^64 and its slots do not overlap. -/
structure Slots (slot : Reg → Nat) (size : Nat) (c : Word) : Prop where
  inside : ∀ r, slot r + 8 ≤ size
  apart : ∀ r q, r ≠ q → Apart (slot r) 8 (slot q) 8
  fits : c.toNat + size ≤ 2 ^ 64

variable {size : Nat} {c : Word} {f : Reg → Word} {rs : List Reg} {m : Memory}

theorem Slots.toNat (slots : Slots slot size c) (r : Reg) :
    (slotOf slot c r).toNat = c.toNat + slot r := by
  have inside := slots.inside r
  have fits := slots.fits
  exact toNat_offset (by omega)

theorem Slots.slot_apart (slots : Slots slot size c) {r q : Reg} (other : r ≠ q) :
    Apart (slotOf slot c r).toNat 8 (slotOf slot c q).toNat 8 := by
  have apart := slots.apart r q other
  rw [slots.toNat, slots.toNat]
  unfold Apart at apart ⊢
  omega

theorem Slots.saved_other (slots : Slots slot size c) {r : Reg} (other : r ∉ rs) :
    readWord (saved slot f c rs m) (slotOf slot c r) = readWord m (slotOf slot c r) := by
  induction rs generalizing m with
  | nil => rfl
  | cons q rs ih =>
      obtain ⟨apart, other⟩ : r ≠ q ∧ r ∉ rs := by simpa using other
      exact (ih other).trans (readWord_writeWord_apart (slots.slot_apart (Ne.symm apart)))

theorem Slots.saved_same (slots : Slots slot size c) {r : Reg} (member : r ∈ rs) :
    readWord (saved slot f c rs m) (slotOf slot c r) = f r := by
  induction rs generalizing m with
  | nil => cases member
  | cons q rs ih =>
      by_cases again : r ∈ rs
      · exact ih again
      · have isHead : r = q := (List.mem_cons.mp member).resolve_right again
        subst isHead
        exact (slots.saved_other again).trans readWord_writeWord_same

theorem Slots.saved_outside (slots : Slots slot size c) {x : Nat}
    (outside : x < c.toNat ∨ c.toNat + size ≤ x) : saved slot f c rs m x = m x := by
  induction rs generalizing m with
  | nil => rfl
  | cons q rs ih =>
      have inside := slots.inside q
      refine ih.trans (writeWord_outside ?_)
      rw [slots.toNat]
      omega

end RegisterFile

end Csc457.Lib.X86
