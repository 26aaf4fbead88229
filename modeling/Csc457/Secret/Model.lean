import Mathlib.Data.List.Basic
import Mathlib.Data.UInt
import Mathlib.Tactic.Ring

/-!
# The secret device

The handlers of secret.c.  The outcomes of getnucred and of the safe copies come
from outside and are arguments; a safe copy that fails may have moved some bytes
first.  The bytes themselves are of any type with a zero: the driver moves them
and clears them and never looks at one.

`uid_t` is a short, `int` and the words of `u64_t` and `iov_size` have 32 bits.
-/

set_option autoImplicit false

namespace Csc457.Secret

abbrev Uid := BitVec 16

/-- `secret_owner` where there is no owner. -/
def noOwner : Uid := -1

/-- `SECRET_SIZE` -/
def secretSize : Nat := 8192

structure U64 where
  lo : BitVec 32
  hi : BitVec 32
  deriving DecidableEq

/-- `call` is what a kernel or library call returned when it failed. -/
inductive Status where
  | ok
  | eacces
  | enospc
  | enoent
  | einval
  | enotty
  | call (code : Int)
  deriving DecidableEq

/-- `COUNT` of a DEV_OPEN: its `R_BIT`, its `W_BIT` and whatever other bits it has. -/
structure Mode where
  rBit : Bool
  wBit : Bool
  otherBits : Nat
  deriving DecidableEq

/-- `mode == (R_BIT | W_BIT)` -/
def Mode.isReadWrite (mode : Mode) : Bool := mode.rBit && mode.wBit && mode.otherBits == 0

/-- How a safe copy ends: what it returns and, where it fails, the bytes it moved. -/
structure SafeCopy where
  status : Status
  copied : Nat
  deriving DecidableEq

def SafeCopy.moved (copy : SafeCopy) (bytes : Nat) : Nat :=
  if copy.status = .ok then bytes else min copy.copied bytes

inductive Opcode where
  | devGatherS
  | devScatterS
  | other (code : Int)
  deriving DecidableEq

inductive Ioctl where
  | ssgrant
  | other (code : Int)
  deriving DecidableEq

structure Driver (β : Type) where
  secretBuffer : Fin secretSize → β
  secretLength : Int
  secretOwner : Uid
  readOpenCount : Int

section Handlers
variable {β : Type}

/-- `memset(secret_buffer, 0, SECRET_SIZE)` and the rest of a reset. -/
def Driver.reset [Zero β] (d : Driver β) : Driver β :=
  { d with secretBuffer := fun _ => 0, secretLength := 0, secretOwner := noOwner }

def Driver.fresh [Zero β] : Driver β :=
  { secretBuffer := fun _ => 0, secretLength := 0, secretOwner := noOwner, readOpenCount := 0 }

/-- `if (mode & R_BIT) read_open_count++;` -/
def Driver.countOpen (d : Driver β) (mode : Mode) : Driver β :=
  if mode.rBit then { d with readOpenCount := d.readOpenCount + 1 } else d

def secretOpen (d : Driver β) (mode : Mode) (caller : Uid) (getnucred : Status) :
    Status × Driver β :=
  if getnucred ≠ .ok then (getnucred, d)
  -- no owner, so take ownership; the other checks are skipped
  else if d.secretOwner = noOwner then
    (.ok, { d with secretOwner := caller }.countOpen mode)
  else if caller ≠ d.secretOwner ∧ mode.rBit then (.eacces, d)
  else if mode.isReadWrite then (.eacces, d)
  else if mode.wBit ∧ 0 < d.secretLength then (.enospc, d)
  else (.ok, d.countOpen mode)

def secretClose [Zero β] (d : Driver β) (caller : Uid) (getnucred : Status) : Status × Driver β :=
  if getnucred ≠ .ok then (getnucred, d)
  else if caller = d.secretOwner ∧ 0 < d.readOpenCount then
    let d := { d with readOpenCount := d.readOpenCount - 1 }
    (.ok, if d.readOpenCount = 0 then d.reset else d)
  else (.ok, d)

structure Transfer (β : Type) where
  status : Status
  iovSize : BitVec 32
  /-- what sys_safecopyto put at `iov_addr` -/
  delivered : List β
  driver : Driver β

/-- The byte at `secret_buffer + i`; past the buffer lies other data. -/
def Driver.byteAt (outside : Nat → β) (d : Driver β) (i : Nat) : β :=
  if h : i < secretSize then d.secretBuffer ⟨i, h⟩ else outside i

def Driver.readOut (outside : Nat → β) (d : Driver β) (start count : Nat) : List β :=
  (List.range count).map fun k => d.byteAt outside (start + k)

/-- The buffer after the first `count` bytes of the caller's data came in. -/
def copyIn [Zero β] (buffer : Fin secretSize → β) (data : List β) (count : Nat) :
    Fin secretSize → β :=
  fun i => if (i : Nat) < count then data.getD i 0 else buffer i

/-- `secret_length - position.lo` is computed and compared unsigned, and an `int`
takes the result. -/
def bytesToRead (d : Driver β) (position : U64) (iovSize : BitVec 32) : Int :=
  let left := BitVec.ofInt 32 d.secretLength - position.lo
  if left < iovSize then left.toInt else iovSize.toInt

def bytesToWrite (iovSize : BitVec 32) : Int :=
  if secretSize < iovSize.toNat then secretSize else iovSize.toInt

/-- `data` are the bytes at `iov_addr`, which only a write reads. -/
def secretTransfer [Zero β] (outside : Nat → β) (d : Driver β) (opcode : Opcode)
    (position : U64) (iovSize : BitVec 32) (data : List β) (copy : SafeCopy) : Transfer β :=
  match opcode with
  | .devGatherS =>
      let bytes := bytesToRead d position iovSize
      if bytes ≤ 0 then ⟨.ok, iovSize, [], d⟩
      else
        let delivered := d.readOut outside position.lo.toNat (copy.moved bytes.toNat)
        if copy.status ≠ .ok then ⟨copy.status, iovSize, delivered, d⟩
        else ⟨.ok, iovSize - BitVec.ofInt 32 bytes, delivered, d⟩
  | .devScatterS =>
      if 0 < d.secretLength then ⟨.enospc, iovSize, [], d⟩
      else
        let bytes := bytesToWrite iovSize
        let d := { d with
          secretBuffer := copyIn d.secretBuffer data (copy.moved bytes.toNat) }
        if copy.status ≠ .ok then ⟨copy.status, iovSize, [], d⟩
        else ⟨.ok, iovSize, [], { d with secretLength := bytes }⟩
  | .other _ => ⟨.einval, iovSize, [], d⟩

/-- The safe copy of an SSGRANT fetches `new_owner`. -/
def secretIoctl (d : Driver β) (request : Ioctl) (newOwner : Uid) (copy : SafeCopy) :
    Status × Driver β :=
  match request with
  | .ssgrant =>
      if d.secretOwner = noOwner then (.enoent, d)
      else if copy.status ≠ .ok then (copy.status, d)
      else (.ok, { d with secretOwner := newOwner })
  | .other _ => (.enotty, d)

/-! ## The handlers case by case -/

@[simp] theorem countOpen_secretBuffer (d : Driver β) (mode : Mode) :
    (d.countOpen mode).secretBuffer = d.secretBuffer := by
  unfold Driver.countOpen
  split <;> rfl

@[simp] theorem countOpen_secretLength (d : Driver β) (mode : Mode) :
    (d.countOpen mode).secretLength = d.secretLength := by
  unfold Driver.countOpen
  split <;> rfl

@[simp] theorem countOpen_secretOwner (d : Driver β) (mode : Mode) :
    (d.countOpen mode).secretOwner = d.secretOwner := by
  unfold Driver.countOpen
  split <;> rfl

@[simp] theorem countOpen_readOpenCount (d : Driver β) (mode : Mode) :
    (d.countOpen mode).readOpenCount = d.readOpenCount + mode.rBit.toNat := by
  unfold Driver.countOpen
  cases mode.rBit <;> simp

theorem secretOpen_cases (d : Driver β) (mode : Mode) (caller : Uid) (getnucred : Status) :
    (∃ status, status ≠ .ok ∧ secretOpen d mode caller getnucred = (status, d)) ∨
    (d.secretOwner = noOwner ∧ secretOpen d mode caller getnucred =
      (.ok, { d with secretOwner := caller }.countOpen mode)) ∨
    (d.secretOwner ≠ noOwner ∧ (mode.rBit = true → caller = d.secretOwner) ∧
      mode.isReadWrite = false ∧ (mode.wBit = true → d.secretLength ≤ 0) ∧
      secretOpen d mode caller getnucred = (.ok, d.countOpen mode)) := by
  unfold secretOpen
  split
  · next failed => exact .inl ⟨getnucred, failed, rfl⟩
  · split
    · next unowned => exact .inr (.inl ⟨unowned, rfl⟩)
    · next owned =>
        split
        · exact .inl ⟨.eacces, by decide, rfl⟩
        · next entitled =>
            split
            · exact .inl ⟨.eacces, by decide, rfl⟩
            · next notBoth =>
                split
                · exact .inl ⟨.enospc, by decide, rfl⟩
                · next room =>
                    refine .inr (.inr ⟨owned, ?_, by simpa using notBoth, ?_, rfl⟩)
                    · intro reads
                      by_contra other
                      exact entitled ⟨other, reads⟩
                    · intro writes
                      by_contra full
                      exact room ⟨writes, by omega⟩

/-- A close that takes a descriptor off the count. -/
def Counts (d : Driver β) (caller : Uid) (getnucred : Status) : Prop :=
  getnucred = .ok ∧ caller = d.secretOwner ∧ 0 < d.readOpenCount

/-- A close that erases the secret. -/
def Resets (d : Driver β) (caller : Uid) (getnucred : Status) : Prop :=
  Counts d caller getnucred ∧ d.readOpenCount = 1

instance (d : Driver β) (caller : Uid) (getnucred : Status) :
    Decidable (Counts d caller getnucred) :=
  inferInstanceAs (Decidable (getnucred = .ok ∧ caller = d.secretOwner ∧ 0 < d.readOpenCount))

instance (d : Driver β) (caller : Uid) (getnucred : Status) :
    Decidable (Resets d caller getnucred) :=
  inferInstanceAs (Decidable (Counts d caller getnucred ∧ d.readOpenCount = 1))

theorem secretClose_cases [Zero β] (d : Driver β) (caller : Uid) (getnucred : Status) :
    (¬ Counts d caller getnucred ∧ (secretClose d caller getnucred).2 = d) ∨
    (Counts d caller getnucred ∧ d.readOpenCount ≠ 1 ∧ (secretClose d caller getnucred).2 =
      { d with readOpenCount := d.readOpenCount - 1 }) ∨
    (Resets d caller getnucred ∧ (secretClose d caller getnucred).2 = Driver.fresh) := by
  unfold secretClose
  split
  · next failed => exact .inl ⟨fun counts => failed counts.1, rfl⟩
  · next known =>
      have known : getnucred = .ok := by simpa using known
      split
      · next met =>
          have counts : Counts d caller getnucred := ⟨known, met.1, met.2⟩
          by_cases last : d.readOpenCount = 1
          · exact .inr (.inr ⟨⟨counts, last⟩, by simp [last, Driver.reset, Driver.fresh]⟩)
          · have others : ¬ d.readOpenCount - 1 = 0 := by omega
            exact .inr (.inl ⟨counts, last, by simp [others]⟩)
      · next unmet => exact .inl ⟨fun counts => unmet counts.2, rfl⟩

@[simp] theorem secretTransfer_gather_driver [Zero β] (outside : Nat → β) (d : Driver β)
    (position : U64) (iovSize : BitVec 32) (data : List β) (copy : SafeCopy) :
    (secretTransfer outside d .devGatherS position iovSize data copy).driver = d := by
  simp only [secretTransfer]
  split
  · rfl
  · split <;> rfl

theorem secretTransfer_scatter_cases [Zero β] (outside : Nat → β) (d : Driver β)
    (position : U64) (iovSize : BitVec 32) (data : List β) (copy : SafeCopy) :
    (0 < d.secretLength ∧
      secretTransfer outside d .devScatterS position iovSize data copy =
        ⟨.enospc, iovSize, [], d⟩) ∨
    (d.secretLength ≤ 0 ∧ copy.status ≠ .ok ∧
      secretTransfer outside d .devScatterS position iovSize data copy =
        ⟨copy.status, iovSize, [], { d with
          secretBuffer := copyIn d.secretBuffer data
            (copy.moved (bytesToWrite iovSize).toNat) }⟩) ∨
    (d.secretLength ≤ 0 ∧ copy.status = .ok ∧
      secretTransfer outside d .devScatterS position iovSize data copy =
        ⟨.ok, iovSize, [], { d with
          secretBuffer := copyIn d.secretBuffer data (bytesToWrite iovSize).toNat
          secretLength := bytesToWrite iovSize }⟩) := by
  by_cases stored : 0 < d.secretLength
  · exact .inl ⟨stored, by simp [secretTransfer, stored]⟩
  · by_cases copied : copy.status = .ok
    · exact .inr (.inr ⟨by omega, copied, by simp [secretTransfer, stored, copied, SafeCopy.moved]⟩)
    · exact .inr (.inl ⟨by omega, copied, by simp [secretTransfer, stored, copied]⟩)

theorem secretIoctl_cases (d : Driver β) (request : Ioctl) (newOwner : Uid) (copy : SafeCopy) :
    (∃ status, status ≠ .ok ∧ secretIoctl d request newOwner copy = (status, d)) ∨
    (request = .ssgrant ∧ d.secretOwner ≠ noOwner ∧ copy.status = .ok ∧
      secretIoctl d request newOwner copy = (.ok, { d with secretOwner := newOwner })) := by
  cases request with
  | other code => exact .inl ⟨.enotty, by decide, rfl⟩
  | ssgrant =>
      unfold secretIoctl
      by_cases unowned : d.secretOwner = noOwner
      · exact .inl ⟨.enoent, by decide, by simp [unowned]⟩
      · by_cases copied : copy.status = .ok
        · exact .inr ⟨rfl, unowned, copied, by simp [unowned, copied]⟩
        · exact .inl ⟨copy.status, copied, by simp [unowned, copied]⟩

theorem bytesToWrite_eq (iovSize : BitVec 32) :
    bytesToWrite iovSize = (min iovSize.toNat secretSize : Nat) := by
  have size : secretSize = 8192 := rfl
  unfold bytesToWrite
  split
  · next long => omega
  · next short =>
      rw [BitVec.toInt_eq_toNat_of_lt (by omega)]
      omega

theorem bytesToRead_eq {d : Driver β} {position : U64} {length : Nat}
    (isLength : d.secretLength = length) (bound : length ≤ secretSize)
    (inside : position.lo.toNat ≤ length) (iovSize : BitVec 32) :
    bytesToRead d position iovSize =
      (min iovSize.toNat (length - position.lo.toNat) : Nat) := by
  have size : secretSize = 8192 := rfl
  have left : (BitVec.ofInt 32 d.secretLength - position.lo).toNat =
      length - position.lo.toNat := by
    rw [isLength, BitVec.ofInt_natCast, BitVec.toNat_sub, BitVec.toNat_ofNat]
    have low := position.lo.isLt
    omega
  unfold bytesToRead
  simp only [BitVec.lt_def, left]
  split
  · next fewer =>
      rw [BitVec.toInt_eq_toNat_of_lt (by omega)]
      omega
  · next enough =>
      rw [BitVec.toInt_eq_toNat_of_lt (by omega)]
      omega

end Handlers

end Csc457.Secret
