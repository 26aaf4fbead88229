import Csc457.Secret.Model
import Csc457.Lib.Transition

/-!
# Runs of requests

The file system keeps the open descriptors of the device and forwards to the
driver one request at a time: reads only on descriptors opened with R_BIT and
writes only on descriptors opened with W_BIT.  Requests come from processes of
any uid, and the position of a read is whatever the file system passes.  The
descriptor of a close is gone whatever the driver answers.
-/

set_option autoImplicit false

namespace Csc457.Secret

open Csc457.Lib.Transition

structure Descriptor where
  mode : Mode
  opener : Uid
  deriving DecidableEq

def Descriptor.reads (d : Descriptor) : Bool := d.mode.rBit

def Descriptor.writes (d : Descriptor) : Bool := d.mode.wBit

structure World (β : Type) where
  driver : Driver β
  descriptors : List Descriptor

inductive Request (β : Type) where
  | devOpen (caller : Uid) (getnucred : Status) (mode : Mode)
  | devClose (caller : Uid) (getnucred : Status) (fd : Nat)
  | devRead (caller : Uid) (fd : Nat) (position : U64) (size : BitVec 32) (copy : SafeCopy)
  | devWrite (caller : Uid) (fd : Nat) (position : U64) (data : List β) (copy : SafeCopy)
  | devIoctl (caller : Uid) (fd : Nat) (request : Ioctl) (newOwner : Uid) (copy : SafeCopy)

/-- What the caller gets: the status, `COUNT` less what is left of `iov_size`, and
the bytes in its buffer. -/
structure Reply (β : Type) where
  status : Status
  count : BitVec 32
  delivered : List β

section Serving
variable {β : Type} [Zero β] (outside : Nat → β)

def World.start : World β := { driver := Driver.fresh, descriptors := [] }

def Transfer.reply (t : Transfer β) (size : BitVec 32) : Reply β :=
  { status := t.status, count := size - t.iovSize, delivered := t.delivered }

def statusOnly (status : Status) : Reply β := { status := status, count := 0, delivered := [] }

def serve (w : World β) : Request β → Reply β × World β
  | .devOpen caller getnucred mode =>
      let (status, driver) := secretOpen w.driver mode caller getnucred
      (statusOnly status,
        { driver := driver
          descriptors :=
            if status = .ok then w.descriptors ++ [⟨mode, caller⟩] else w.descriptors })
  | .devClose caller getnucred fd =>
      let (status, driver) := secretClose w.driver caller getnucred
      (statusOnly status, { driver := driver, descriptors := w.descriptors.eraseIdx fd })
  | .devRead _ _ position size copy =>
      let t := secretTransfer outside w.driver .devGatherS position size [] copy
      (t.reply size, { w with driver := t.driver })
  | .devWrite _ _ position data copy =>
      let size := BitVec.ofNat 32 data.length
      let t := secretTransfer outside w.driver .devScatterS position size data copy
      (t.reply size, { w with driver := t.driver })
  | .devIoctl _ _ request newOwner copy =>
      let (status, driver) := secretIoctl w.driver request newOwner copy
      (statusOnly status, { w with driver := driver })

def Forwarded (w : World β) : Request β → Prop
  | .devOpen _ _ _ => True
  | .devClose _ _ fd => fd < w.descriptors.length
  | .devRead _ fd _ _ _ => w.descriptors[fd]?.any Descriptor.reads = true
  | .devWrite _ fd _ data _ =>
      w.descriptors[fd]?.any Descriptor.writes = true ∧ data.length < 2 ^ 32
  | .devIoctl _ fd _ _ _ => fd < w.descriptors.length

instance (w : World β) : (r : Request β) → Decidable (Forwarded w r)
  | .devOpen _ _ _ => inferInstanceAs (Decidable True)
  | .devClose _ _ fd => inferInstanceAs (Decidable (fd < w.descriptors.length))
  | .devRead _ fd _ _ _ =>
      inferInstanceAs (Decidable (w.descriptors[fd]?.any Descriptor.reads = true))
  | .devWrite _ fd _ data _ => inferInstanceAs
      (Decidable (w.descriptors[fd]?.any Descriptor.writes = true ∧ data.length < 2 ^ 32))
  | .devIoctl _ fd _ _ _ => inferInstanceAs (Decidable (fd < w.descriptors.length))

def Served (w : World β) (r : Request β) (w' : World β) : Prop :=
  Forwarded w r ∧ w' = (serve outside w r).2

abbrev Reachable (w : World β) : Prop := Reach (· = World.start) (Served outside) w

/-! ## What a request can do -/

variable {outside} {w w' : World β} {r : Request β}

def stored (data : List β) : Nat := min data.length secretSize

omit [Zero β] in
theorem bytesToWrite_data {data : List β} (bound : data.length < 2 ^ 32) :
    bytesToWrite (BitVec.ofNat 32 data.length) = stored data := by
  rw [bytesToWrite_eq, BitVec.toNat_ofNat, Nat.mod_eq_of_lt bound]
  rfl

/-- A request changes nothing, or it is an open that succeeds, a close, a write
into the empty device or a grant that succeeds. -/
theorem Served.cases (next : Served outside w r w') :
    w' = w ∨
    (∃ caller getnucred mode driver, r = .devOpen caller getnucred mode ∧
      (w.driver.secretOwner = noOwner ∧ driver = { w.driver with secretOwner := caller } ∨
        w.driver.secretOwner ≠ noOwner ∧ (mode.rBit = true → caller = w.driver.secretOwner) ∧
          driver = w.driver) ∧
      w' = { driver := driver.countOpen mode
             descriptors := w.descriptors ++ [⟨mode, caller⟩] }) ∨
    (∃ caller getnucred fd, r = .devClose caller getnucred fd ∧ fd < w.descriptors.length ∧
      w'.descriptors = w.descriptors.eraseIdx fd ∧
      (¬ Counts w.driver caller getnucred ∧ w'.driver = w.driver ∨
        Counts w.driver caller getnucred ∧ w.driver.readOpenCount ≠ 1 ∧
          w'.driver = { w.driver with readOpenCount := w.driver.readOpenCount - 1 } ∨
        Resets w.driver caller getnucred ∧ w'.driver = Driver.fresh)) ∨
    (∃ caller fd position data copy, r = .devWrite caller fd position data copy ∧
      w.driver.secretLength ≤ 0 ∧
      w' = { w with driver := { w.driver with
        secretBuffer := copyIn w.driver.secretBuffer data (copy.moved (stored data))
        secretLength := if copy.status = .ok then (stored data : Int)
          else w.driver.secretLength } }) ∨
    (∃ caller fd newOwner copy, r = .devIoctl caller fd .ssgrant newOwner copy ∧
      w.driver.secretOwner ≠ noOwner ∧ copy.status = .ok ∧
      w' = { w with driver := { w.driver with secretOwner := newOwner } }) := by
  obtain ⟨forwarded, rfl⟩ := next
  cases r with
  | devOpen caller getnucred mode =>
      rcases secretOpen_cases w.driver mode caller getnucred with
        ⟨status, refused, result⟩ | ⟨unowned, result⟩ | ⟨owned, entitled, _, _, result⟩
      · refine .inl ?_
        simp only [serve, result]
        rw [if_neg refused]
      · refine .inr (.inl ⟨_, _, _, _, rfl, .inl ⟨unowned, rfl⟩, ?_⟩)
        simp [serve, result]
      · refine .inr (.inl ⟨_, _, _, _, rfl, .inr ⟨owned, entitled, rfl⟩, ?_⟩)
        simp [serve, result]
  | devClose caller getnucred fd =>
      exact .inr (.inr (.inl ⟨_, _, _, rfl, forwarded, rfl,
        secretClose_cases w.driver caller getnucred⟩))
  | devRead caller fd position size copy => exact .inl (by simp [serve])
  | devWrite caller fd position data copy =>
      rcases secretTransfer_scatter_cases outside w.driver position
          (BitVec.ofNat 32 data.length) data copy with
        ⟨_, result⟩ | ⟨empty, failed, result⟩ | ⟨empty, copied, result⟩
      · exact .inl (by simp [serve, result])
      · refine .inr (.inr (.inr (.inl ⟨_, _, _, _, _, rfl, empty, ?_⟩)))
        simp only [serve, result, bytesToWrite_data forwarded.2]
        simp [failed]
      · refine .inr (.inr (.inr (.inl ⟨_, _, _, _, _, rfl, empty, ?_⟩)))
        simp only [serve, result, bytesToWrite_data forwarded.2]
        simp [copied, SafeCopy.moved]
  | devIoctl caller fd request newOwner copy =>
      rcases secretIoctl_cases w.driver request newOwner copy with
        ⟨status, _, result⟩ | ⟨rfl, owned, copied, result⟩
      · exact .inl (by simp [serve, result])
      · refine .inr (.inr (.inr (.inr ⟨_, _, _, _, rfl, owned, copied, ?_⟩)))
        simp [serve, result]

def SameSecret (before after : Driver β) : Prop :=
  after.secretLength = before.secretLength ∧ after.secretBuffer = before.secretBuffer

theorem devRead_world (caller : Uid) (fd : Nat) (position : U64) (size : BitVec 32)
    (copy : SafeCopy) :
    (serve outside w (.devRead caller fd position size copy)).2 = w := by
  simp [serve]

omit [Zero β] in
theorem secretOpen_sameSecret (d : Driver β) (mode : Mode) (caller : Uid)
    (getnucred : Status) : SameSecret d (secretOpen d mode caller getnucred).2 := by
  rcases secretOpen_cases d mode caller getnucred with
    ⟨status, _, result⟩ | ⟨_, result⟩ | ⟨_, _, _, _, result⟩
  · rw [result]
    exact ⟨rfl, rfl⟩
  · rw [result]
    exact ⟨by simp, by simp⟩
  · rw [result]
    exact ⟨by simp, by simp⟩

omit [Zero β] in
theorem secretIoctl_sameSecret (d : Driver β) (request : Ioctl) (newOwner : Uid)
    (copy : SafeCopy) : SameSecret d (secretIoctl d request newOwner copy).2 := by
  rcases secretIoctl_cases d request newOwner copy with
    ⟨status, _, result⟩ | ⟨_, _, _, result⟩
  · rw [result]
    exact ⟨rfl, rfl⟩
  · rw [result]
    exact ⟨rfl, rfl⟩

theorem secretClose_sameSecret (d : Driver β) (caller : Uid) (getnucred : Status)
    (keeps : ¬ Resets d caller getnucred) :
    SameSecret d (secretClose d caller getnucred).2 := by
  rcases secretClose_cases d caller getnucred with
    ⟨_, result⟩ | ⟨_, _, result⟩ | ⟨resets, _⟩
  · rw [result]
    exact ⟨rfl, rfl⟩
  · rw [result]
    exact ⟨rfl, rfl⟩
  · exact absurd resets keeps

structure InRange (d : Driver β) : Prop where
  nonneg : 0 ≤ d.secretLength
  bounded : d.secretLength ≤ secretSize
  counted : 0 ≤ d.readOpenCount

theorem inRange_fresh : InRange (Driver.fresh : Driver β) :=
  ⟨le_refl _, by simp [Driver.fresh], le_refl _⟩

theorem InRange.served (range : InRange w.driver) (next : Served outside w r w') :
    InRange w'.driver := by
  obtain ⟨nonneg, bounded, counted⟩ := range
  obtain rfl | ⟨caller, getnucred, mode, driver, rfl, origin, rfl⟩ |
    ⟨caller, getnucred, fd, rfl, _, _, closed⟩ | ⟨caller, fd, position, data, copy, rfl, _, rfl⟩ |
    ⟨caller, fd, newOwner, copy, rfl, _, _, rfl⟩ := next.cases
  · exact ⟨nonneg, bounded, counted⟩
  · obtain ⟨_, rfl⟩ | ⟨_, _, rfl⟩ := origin
    · exact ⟨by simpa using nonneg, by simpa using bounded, by simp; omega⟩
    · exact ⟨by simpa using nonneg, by simpa using bounded, by simp; omega⟩
  · obtain ⟨_, same⟩ | ⟨counts, _, changed⟩ | ⟨_, erased⟩ := closed
    · rw [same]
      exact ⟨nonneg, bounded, counted⟩
    · rw [changed]
      obtain ⟨_, _, positive⟩ := counts
      exact ⟨nonneg, bounded, by simp; omega⟩
    · rw [erased]
      exact inRange_fresh
  · have fits : stored data ≤ secretSize := Nat.min_le_right _ _
    refine ⟨?_, ?_, counted⟩ <;> simp only <;> split <;> omega
  · exact ⟨nonneg, bounded, counted⟩

theorem Reachable.inRange (reached : Reachable outside w) : InRange w.driver := by
  refine Reach.invariant (I := fun w => InRange w.driver) ?_ ?_ reached
  · rintro w rfl
    exact inRange_fresh
  · intro w r w' range next
    exact range.served next

end Serving

end Csc457.Secret
