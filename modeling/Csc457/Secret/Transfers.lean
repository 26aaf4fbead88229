import Csc457.Secret.Accounting

/-!
# One transfer

Which bytes a read delivers and which memory it touches, and what a transfer tells its
caller.  The number of bytes left is taken from the low word of the position only, in 32
bits.
-/

set_option autoImplicit false

namespace Csc457.Secret

open Csc457.Lib.Transition

section Transfers
variable {β : Type} [Zero β] {outside : Nat → β} {d : Driver β} {position : U64}
  {iovSize : BitVec 32}

/-- The position the file system means. -/
def U64.toNat (position : U64) : Nat := position.hi.toNat * 2 ^ 32 + position.lo.toNat

/-- The offsets from secret_buffer that a read hands to sys_safecopyto. -/
def touched (d : Driver β) (position : U64) (iovSize : BitVec 32) : List Nat :=
  List.range' position.lo.toNat (bytesToRead d position iovSize).toNat

/-- The offsets a read asks for, as far as there is a secret. -/
def wanted (d : Driver β) (position : U64) (iovSize : BitVec 32) : List Nat :=
  List.range' position.toNat
    (min (position.toNat + iovSize.toNat) d.secretLength.toNat - position.toNat)

structure ReadsInside (outside : Nat → β) (d : Driver β) (position : U64)
    (iovSize : BitVec 32) : Prop where
  delivers : ∀ data copy, copy.status = .ok →
    (secretTransfer outside d .devGatherS position iovSize data copy).delivered =
      (wanted d position iovSize).map (d.byteAt outside)
  inside : ∀ i ∈ touched d position iovSize, (i : Int) < d.secretLength

/-- `secret_length - position.lo` in 32 bits. -/
def remaining (d : Driver β) (position : U64) : Nat :=
  ((d.secretLength - position.lo.toNat) % 2 ^ 32).toNat

/-- The read is of bytes that are there, or it comes out as a read of none. -/
def InSecret (d : Driver β) (position : U64) (iovSize : BitVec 32) : Prop :=
  position.toNat < d.secretLength ∨ iovSize.toNat = 0 ∨ remaining d position = 0 ∨
    (2 ^ 31 ≤ iovSize.toNat ∧ 2 ^ 31 ≤ remaining d position)

instance (d : Driver β) (position : U64) (iovSize : BitVec 32) :
    Decidable (InSecret d position iovSize) :=
  inferInstanceAs (Decidable (_ ∨ _ ∨ _ ∨ _))

omit [Zero β] in
theorem toNat_remaining :
    (BitVec.ofInt 32 d.secretLength - position.lo).toNat = remaining d position := by
  have low := position.lo.isLt
  unfold remaining
  rw [BitVec.toNat_sub, BitVec.toNat_ofInt]
  omega

omit [Zero β] in
theorem bytesToRead_toInt :
    bytesToRead d position iovSize =
      (BitVec.ofNat 32 (min (remaining d position) iovSize.toNat)).toInt := by
  unfold bytesToRead
  simp only [BitVec.lt_def, toNat_remaining]
  split
  · next fewer =>
      rw [Nat.min_eq_left (Nat.le_of_lt fewer), ← toNat_remaining, BitVec.ofNat_toNat,
        BitVec.setWidth_eq]
  · next enough =>
      rw [Nat.min_eq_right (Nat.le_of_not_lt enough), BitVec.ofNat_toNat, BitVec.setWidth_eq]

theorem gather_delivered (data : List β) (copy : SafeCopy) (copied : copy.status = .ok) :
    (secretTransfer outside d .devGatherS position iovSize data copy).delivered =
      (touched d position iovSize).map (d.byteAt outside) := by
  unfold touched
  simp only [secretTransfer]
  split
  · next none => simp [Int.toNat_of_nonpos none]
  · simp [copied, SafeCopy.moved, Driver.readOut, List.range'_eq_map_range]

omit [Zero β] in
theorem bytesToRead_toNat :
    (bytesToRead d position iovSize).toNat =
      if min (remaining d position) iovSize.toNat < 2 ^ 31
      then min (remaining d position) iovSize.toNat else 0 := by
  have size := iovSize.isLt
  rw [bytesToRead_toInt]
  generalize isLesser : min (remaining d position) iovSize.toNat = lesser
  have bound : lesser < 2 ^ 32 := by omega
  have word : (BitVec.ofNat 32 lesser).toNat = lesser := by
    rw [BitVec.toNat_ofNat, Nat.mod_eq_of_lt bound]
  rw [BitVec.toInt_eq_toNat_cond, word]
  split <;> split <;> omega

omit [Zero β] in
theorem remaining_of_le (range : InRange d)
    (before : (position.lo.toNat : Int) ≤ d.secretLength) :
    remaining d position = d.secretLength.toNat - position.lo.toNat := by
  obtain ⟨nonneg, bounded, _⟩ := range
  have size : secretSize = 8192 := rfl
  unfold remaining
  omega

omit [Zero β] in
theorem remaining_of_lt (range : InRange d)
    (after : d.secretLength < (position.lo.toNat : Int)) : 0 < remaining d position := by
  obtain ⟨nonneg, _, _⟩ := range
  have low := position.lo.isLt
  unfold remaining
  omega

omit [Zero β] in
theorem touched_of_le (range : InRange d)
    (before : (position.lo.toNat : Int) ≤ d.secretLength) :
    touched d position iovSize = List.range' position.lo.toNat
      (min iovSize.toNat (d.secretLength.toNat - position.lo.toNat)) := by
  obtain ⟨nonneg, bounded, _⟩ := range
  have isLength : d.secretLength = (d.secretLength.toNat : Int) := by omega
  have inside : position.lo.toNat ≤ d.secretLength.toNat := by omega
  unfold touched
  rw [bytesToRead_eq isLength (by omega) inside, Int.toNat_natCast]

theorem readsInside_iff (data : List β) :
    ReadsInside outside d position iovSize ↔
      (touched d position iovSize).map (d.byteAt outside) =
          (wanted d position iovSize).map (d.byteAt outside) ∧
        ∀ i ∈ touched d position iovSize, (i : Int) < d.secretLength := by
  constructor
  · rintro ⟨delivers, inside⟩
    have delivered := delivers data ⟨.ok, 0⟩ rfl
    rw [gather_delivered data _ rfl] at delivered
    exact ⟨delivered, inside⟩
  · rintro ⟨same, inside⟩
    exact ⟨fun data copy copied => (gather_delivered data copy copied).trans same, inside⟩

/-- From a low word in the secret a read touches only the secret, and delivers what is asked
for unless the high word says something else. -/
theorem readsInside_before (range : InRange d)
    (before : (position.lo.toNat : Int) ≤ d.secretLength) :
    ReadsInside outside d position iovSize ↔ InSecret d position iovSize := by
  have nonneg := range.nonneg
  have left := remaining_of_le range before
  have low : touched d position iovSize = _ := touched_of_le range before
  have inside : ∀ i ∈ touched d position iovSize, (i : Int) < d.secretLength := by
    intro i member
    rw [low, List.mem_range'_1] at member
    omega
  rw [readsInside_iff [], and_iff_left inside, low]
  by_cases near : position.hi.toNat = 0
  · have same : position.toNat = position.lo.toNat := by simp [U64.toNat, near]
    have count : min (position.toNat + iovSize.toNat) d.secretLength.toNat - position.toNat =
        min iovSize.toNat (d.secretLength.toNat - position.lo.toNat) := by omega
    refine iff_of_true (by rw [wanted, count, same]) ?_
    unfold InSecret
    omega
  · have bounded : d.secretLength ≤ 8192 := range.bounded
    have far : 2 ^ 32 ≤ position.toNat := by
      unfold U64.toNat
      omega
    have none : wanted d position iovSize = [] := by
      rw [wanted, List.range'_eq_nil_iff]
      omega
    rw [none, List.map_nil, List.map_eq_nil_iff, List.range'_eq_nil_iff]
    unfold InSecret
    omega

theorem readsInside_past (range : InRange d)
    (past : d.secretLength < (position.lo.toNat : Int)) :
    ReadsInside outside d position iovSize ↔ InSecret d position iovSize := by
  have left : 0 < remaining d position := remaining_of_lt range past
  have behind : position.lo.toNat ≤ position.toNat := Nat.le_add_left _ _
  have none : wanted d position iovSize = [] := by
    rw [wanted, List.range'_eq_nil_iff]
    omega
  have count : (bytesToRead d position iovSize).toNat = _ := bytesToRead_toNat
  have empty : touched d position iovSize = [] ↔ (bytesToRead d position iovSize).toNat = 0 :=
    List.range'_eq_nil_iff
  rw [readsInside_iff [], none, List.map_nil, List.map_eq_nil_iff]
  unfold InSecret
  constructor
  · rintro ⟨nothing, _⟩
    rw [empty, count] at nothing
    split at nothing <;> omega
  · intro fits
    have nothing : touched d position iovSize = [] := by
      rw [empty, count]
      split <;> omega
    exact ⟨nothing, by simp [nothing]⟩

/-- A read keeps to the secret when it starts in it, and otherwise only when the sizes make
it a read of no bytes. -/
theorem reads_inside_iff {w : World β} (reached : Reachable outside w) :
    ReadsInside outside w.driver position iovSize ↔ InSecret w.driver position iovSize := by
  have range := reached.inRange
  by_cases before : (position.lo.toNat : Int) ≤ w.driver.secretLength
  · exact readsInside_before range before
  · exact readsInside_past range (by omega)

/-! ## What the caller is told -/

def bytesCopied (d : Driver β) (opcode : Opcode) (position : U64) (iovSize : BitVec 32)
    (copy : SafeCopy) : Nat :=
  match opcode with
  | .devGatherS => copy.moved (bytesToRead d position iovSize).toNat
  | .devScatterS =>
      if 0 < d.secretLength then 0 else copy.moved (bytesToWrite iovSize).toNat
  | .other _ => 0

/-- After OK `iov_size` is less by the bytes copied.  After an error the caller's and the
driver's counts are what they were. -/
structure Accounts (d : Driver β) (iovSize : BitVec 32) (bytes : Nat) (t : Transfer β) :
    Prop where
  lowered : t.status = .ok → t.iovSize.toNat + bytes = iovSize.toNat
  iovSize : t.status ≠ .ok → t.iovSize = iovSize
  secretLength : t.status ≠ .ok → t.driver.secretLength = d.secretLength
  secretOwner : t.status ≠ .ok → t.driver.secretOwner = d.secretOwner
  readOpenCount : t.status ≠ .ok → t.driver.readOpenCount = d.readOpenCount

omit [Zero β] in
theorem accounts_of_error {status : Status} (failed : status ≠ .ok) (bytes : Nat)
    (delivered : List β) (buffer : Fin secretSize → β) :
    Accounts d iovSize bytes ⟨status, iovSize, delivered, { d with secretBuffer := buffer }⟩ :=
  ⟨fun succeeded => absurd succeeded failed, fun _ => rfl, fun _ => rfl, fun _ => rfl,
    fun _ => rfl⟩

omit [Zero β] in
theorem bytesToRead_le : (bytesToRead d position iovSize).toNat ≤ iovSize.toNat := by
  rw [bytesToRead_toNat]
  split
  · exact Nat.min_le_right _ _
  · exact Nat.zero_le _

theorem gather_accounts (data : List β) (copy : SafeCopy) :
    Accounts d iovSize (bytesCopied d .devGatherS position iovSize copy)
      (secretTransfer outside d .devGatherS position iovSize data copy) := by
  have fits : (bytesToRead d position iovSize).toNat ≤ iovSize.toNat := bytesToRead_le
  have size := iovSize.isLt
  simp only [secretTransfer, bytesCopied]
  split
  · next none =>
      have empty : (bytesToRead d position iovSize).toNat = 0 := Int.toNat_of_nonpos none
      refine ⟨fun _ => ?_, fun _ => rfl, fun _ => rfl, fun _ => rfl, fun _ => rfl⟩
      simp [empty, SafeCopy.moved]
  · next some =>
      split
      · next failed => exact accounts_of_error failed _ _ d.secretBuffer
      · next copied =>
          have copied : copy.status = .ok := by simpa using copied
          refine ⟨fun _ => ?_, fun unequal => absurd rfl unequal, fun _ => rfl, fun _ => rfl,
            fun _ => rfl⟩
          have positive : 0 ≤ bytesToRead d position iovSize := by omega
          obtain ⟨bytes, isBytes⟩ := Int.eq_ofNat_of_zero_le positive
          rw [isBytes, Int.toNat_natCast] at fits ⊢
          rw [BitVec.ofInt_natCast, BitVec.toNat_sub, BitVec.toNat_ofNat, SafeCopy.moved,
            if_pos copied]
          omega

/-- The bytes of a write are never taken off `iov_size`: the caller is told that none of them
was written. -/
theorem scatter_accounts_iff (data : List β) (copy : SafeCopy) :
    Accounts d iovSize (bytesCopied d .devScatterS position iovSize copy)
        (secretTransfer outside d .devScatterS position iovSize data copy) ↔
      ¬ (d.secretLength ≤ 0 ∧ copy.status = .ok ∧ 0 < iovSize.toNat) := by
  have size : 0 < secretSize := by decide
  obtain ⟨held, result⟩ | ⟨empty, failed, result⟩ | ⟨empty, copied, result⟩ :=
    secretTransfer_scatter_cases outside d position iovSize data copy
  · rw [result]
    exact iff_of_true (accounts_of_error (by decide) _ _ d.secretBuffer) (by omega)
  · rw [result]
    exact iff_of_true (accounts_of_error failed _ _ _) (fun written => failed written.2.1)
  · have bytes : bytesCopied d .devScatterS position iovSize copy =
        min iovSize.toNat secretSize := by
      simp only [bytesCopied, if_neg (Int.not_lt.mpr empty), SafeCopy.moved, if_pos copied,
        bytesToWrite_eq, Int.toNat_natCast]
    rw [result, bytes]
    constructor
    · rintro ⟨lowered, _⟩ ⟨_, _, some⟩
      have lowered : iovSize.toNat + min iovSize.toNat secretSize = iovSize.toNat := lowered rfl
      omega
    · intro none
      refine ⟨fun _ => ?_, fun _ => rfl, fun unequal => absurd rfl unequal, fun _ => rfl,
        fun _ => rfl⟩
      have zero : iovSize.toNat = 0 := by
        by_contra some
        exact none ⟨empty, copied, by omega⟩
      simp [zero]

/-- A transfer keeps its caller's count unless it is a write that stores something. -/
theorem transfer_accounts_iff (outside : Nat → β) (d : Driver β) (opcode : Opcode)
    (position : U64) (iovSize : BitVec 32) (data : List β) (copy : SafeCopy) :
    Accounts d iovSize (bytesCopied d opcode position iovSize copy)
        (secretTransfer outside d opcode position iovSize data copy) ↔
      ¬ (opcode = .devScatterS ∧ d.secretLength ≤ 0 ∧ copy.status = .ok ∧
        0 < iovSize.toNat) := by
  cases opcode with
  | devGatherS => exact iff_of_true (gather_accounts data copy) (fun write => by cases write.1)
  | devScatterS => simpa using scatter_accounts_iff data copy
  | other code =>
      exact iff_of_true (accounts_of_error (by decide) _ _ d.secretBuffer)
        (fun write => by cases write.1)

end Transfers

/-- The owner writes three bytes and opens the device to read them. -/
def writesThree : List (Request UInt8) :=
  [.devOpen 10 .ok writeOnly, .devWrite 10 0 origin [83, 69, 67] copied,
    .devOpen 10 .ok readOnly]

def threeBytes : World UInt8 := writesThree.foldl (fun w r => (serve nothing w r).2) World.start

theorem threeBytes_reachable : Reachable nothing threeBytes :=
  Reach.exec (.init rfl) (playable_exec writesThree (w := World.start) (by decide))

/-- It reads on from the second byte, with room for more than there is. -/
theorem reads_inside_iff_threeBytes : ReadsInside nothing threeBytes.driver ⟨1, 0⟩ 5 :=
  (reads_inside_iff threeBytes_reachable).mpr (by decide)

/-- It reads a byte past the end of the three. -/
theorem reads_outside :
    Reachable nothing threeBytes ∧ ¬ ReadsInside nothing threeBytes.driver ⟨4, 0⟩ 1 := by
  refine ⟨threeBytes_reachable, fun inside => ?_⟩
  have member : 4 ∈ touched threeBytes.driver ⟨4, 0⟩ 1 := by decide
  exact absurd (inside.inside 4 member) (by decide)

/-- The write of the three bytes. -/
theorem transfer_miscounts :
    let t := secretTransfer nothing Driver.fresh .devScatterS origin 3 [83, 69, 67] copied
    t.status = .ok ∧ t.driver.secretLength = 3 ∧
      ¬ Accounts Driver.fresh 3 (bytesCopied (Driver.fresh : Driver UInt8) .devScatterS origin 3
        copied) t := by
  refine ⟨rfl, rfl, fun accounts => ?_⟩
  exact absurd (accounts.lowered rfl) (by decide)

end Csc457.Secret
