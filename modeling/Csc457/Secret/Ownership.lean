import Csc457.Secret.Confidential

/-!
# Who wrote the secret

A stored secret belongs to somebody: the device has an owner, every stored byte was
written by the uid that owned the device at that moment, and nobody has the device
open for both reading and writing.  The driver refuses the mode R_BIT | W_BIT to
everyone but the process that takes an unowned device, asks no writer for its uid,
and takes any uid as a new owner, the one that stands for no owner included.
-/

set_option autoImplicit false

namespace Csc457.Secret

open Csc457.Lib.Transition

/-- The world and who owned the device when the last write was accepted. -/
structure Credited where
  world : World Tagged
  ownerThen : Uid

def Credited.start : Credited := { world := World.start, ownerThen := noOwner }

section Crediting
variable (memory : Nat → UInt8)

def credit (s : Credited) (r : Request Tagged) : Credited :=
  let served := serve (unwritten memory) s.world r
  match r with
  | .devWrite _ _ _ _ _ =>
      { world := served.2
        ownerThen :=
          if served.1.status = .ok then s.world.driver.secretOwner else s.ownerThen }
  | _ => { s with world := served.2 }

def Credits (s : Credited) (r : Request Tagged) (s' : Credited) : Prop :=
  Forwarded s.world r ∧ Signed r ∧ s' = credit memory s r

end Crediting

def Descriptor.bothWays (d : Descriptor) : Bool := d.reads && d.writes

structure OwnerInvariant (s : Credited) : Prop where
  nonneg : 0 ≤ s.world.driver.secretLength
  bounded : s.world.driver.secretLength ≤ secretSize
  owned : 0 < s.world.driver.secretLength → s.world.driver.secretOwner ≠ noOwner
  byOwner : ∀ i : Fin secretSize, (i : Int) < s.world.driver.secretLength →
    (s.world.driver.secretBuffer i).writer = some s.ownerThen
  oneWay : ∀ d ∈ s.world.descriptors, d.bothWays = false

/-- What the driver does not check: the mode of whoever opens an unowned device, or a
mode of R_BIT, W_BIT and more of the owner of an empty one; the uid of a writer; the
uid a stored secret is granted to. -/
def Proper (w : World Tagged) : Request Tagged → Prop
  | .devOpen caller getnucred mode =>
      getnucred = .ok → mode.rBit = true → mode.wBit = true →
        w.driver.secretOwner ≠ noOwner ∧
          (mode.otherBits = 0 ∨ caller ≠ w.driver.secretOwner ∨ 0 < w.driver.secretLength)
  | .devWrite caller _ _ data copy =>
      w.driver.secretLength ≤ 0 → copy.status = .ok → 0 < stored data →
        caller = w.driver.secretOwner ∧ w.driver.secretOwner ≠ noOwner
  | .devIoctl _ _ .ssgrant newOwner copy =>
      0 < w.driver.secretLength → copy.status = .ok → newOwner ≠ noOwner
  | _ => True

instance (w : World Tagged) : (r : Request Tagged) → Decidable (Proper w r)
  | .devOpen caller getnucred mode => inferInstanceAs (Decidable
      (getnucred = .ok → mode.rBit = true → mode.wBit = true →
        w.driver.secretOwner ≠ noOwner ∧
          (mode.otherBits = 0 ∨ caller ≠ w.driver.secretOwner ∨ 0 < w.driver.secretLength)))
  | .devWrite caller _ _ data copy => inferInstanceAs (Decidable
      (w.driver.secretLength ≤ 0 → copy.status = .ok → 0 < stored data →
        caller = w.driver.secretOwner ∧ w.driver.secretOwner ≠ noOwner))
  | .devIoctl _ _ .ssgrant newOwner copy => inferInstanceAs (Decidable
      (0 < w.driver.secretLength → copy.status = .ok → newOwner ≠ noOwner))
  | .devIoctl _ _ (.other _) _ _ | .devClose _ _ _ | .devRead _ _ _ _ _ =>
      inferInstanceAs (Decidable True)

variable {memory : Nat → UInt8} {s s' : Credited} {r : Request Tagged}

theorem credit_world (s : Credited) (r : Request Tagged) :
    (credit memory s r).world = (serve (unwritten memory) s.world r).2 := by
  cases r <;> rfl

theorem Credits.served (next : Credits memory s r s') :
    Served (unwritten memory) s.world r s'.world := by
  obtain ⟨forwarded, _, rfl⟩ := next
  exact ⟨forwarded, credit_world s r⟩

theorem secretOpen_accepts_iff {β : Type} (d : Driver β) (mode : Mode) (caller : Uid)
    (getnucred : Status) :
    (secretOpen d mode caller getnucred).1 = .ok ↔ getnucred = .ok ∧
      (d.secretOwner = noOwner ∨ (mode.rBit = true → caller = d.secretOwner) ∧
        mode.isReadWrite = false ∧ (mode.wBit = true → d.secretLength ≤ 0)) := by
  unfold secretOpen
  by_cases known : getnucred = .ok
  · by_cases unowned : d.secretOwner = noOwner
    · simp [known, unowned]
    · by_cases stranger : caller ≠ d.secretOwner ∧ mode.rBit = true
      · simp [known, unowned, stranger]
      · have entitled : mode.rBit = true → caller = d.secretOwner := by
          intro reads
          by_contra other
          exact stranger ⟨other, reads⟩
        by_cases both : mode.isReadWrite = true
        · simp [known, unowned, stranger, both]
        · by_cases full : mode.wBit = true ∧ 0 < d.secretLength
          · simp [known, unowned, stranger, both, full]
          · have room : mode.wBit = true → d.secretLength ≤ 0 := by
              intro writes
              by_contra long
              exact full ⟨writes, by omega⟩
            simpa [known, unowned, stranger, both, full] using ⟨entitled, room⟩
  · simp [known]

/-- A descriptor for both ways is given out exactly where the open is not proper. -/
theorem opens_oneWay_iff (w : World Tagged) (caller : Uid) (getnucred : Status) (mode : Mode) :
    ((secretOpen w.driver mode caller getnucred).1 = .ok →
        (Descriptor.mk mode caller).bothWays = false) ↔
      Proper w (.devOpen caller getnucred mode) := by
  rw [secretOpen_accepts_iff]
  obtain ⟨rBit, wBit, otherBits⟩ := mode
  simp only [Descriptor.bothWays, Descriptor.reads, Descriptor.writes, Proper, Mode.isReadWrite]
  cases rBit <;> cases wBit <;> simp
  grind

theorem copyIn_stored {buffer : Fin secretSize → Tagged} {data : List Tagged} {caller : Uid}
    (signed : ∀ b ∈ data, b.writer = some caller) {i : Fin secretSize}
    (inside : (i : Int) < (stored data : Int)) :
    (copyIn buffer data (stored data) i).writer = some caller := by
  have short : stored data ≤ data.length := Nat.min_le_left _ _
  have bound : (i : Nat) < data.length := by omega
  unfold copyIn
  rw [if_pos (by omega), List.getD_eq_getElem?_getD, List.getElem?_eq_getElem bound,
    Option.getD_some]
  exact signed _ (List.getElem_mem bound)

theorem OwnerInvariant.start : OwnerInvariant Credited.start where
  nonneg := le_refl _
  bounded := by simp [Credited.start, World.start, Driver.fresh]
  owned := fun stored => absurd stored (by simp [Credited.start, World.start, Driver.fresh])
  byOwner := fun i inside => by
    simp only [Credited.start, World.start, Driver.fresh] at inside
    omega
  oneWay := by
    intro d member
    cases member

section Steps
variable {t : Credited}

theorem OwnerInvariant.of_secret (invariant : OwnerInvariant s)
    (length : t.world.driver.secretLength = s.world.driver.secretLength)
    (owned : 0 < s.world.driver.secretLength → t.world.driver.secretOwner ≠ noOwner)
    (buffer : 0 < s.world.driver.secretLength →
      t.world.driver.secretBuffer = s.world.driver.secretBuffer)
    (writer : t.ownerThen = s.ownerThen)
    (oneWay : ∀ d ∈ t.world.descriptors, d.bothWays = false) : OwnerInvariant t where
  nonneg := by rw [length]; exact invariant.nonneg
  bounded := by rw [length]; exact invariant.bounded
  owned := by rw [length]; exact owned
  byOwner := by
    intro i inside
    rw [length] at inside
    rw [buffer (by omega), writer]
    exact invariant.byOwner i inside
  oneWay := oneWay

theorem OwnerInvariant.open_iff (invariant : OwnerInvariant s) {caller : Uid}
    {getnucred : Status} {mode : Mode} :
    OwnerInvariant (credit memory s (.devOpen caller getnucred mode)) ↔
      Proper s.world (.devOpen caller getnucred mode) := by
  rw [← opens_oneWay_iff]
  have same := secretOpen_sameSecret s.world.driver mode caller getnucred
  constructor
  · intro after accepted
    have member : Descriptor.mk mode caller ∈
        (credit memory s (.devOpen caller getnucred mode)).world.descriptors := by
      simp [credit, serve, accepted]
    exact after.oneWay _ member
  · intro oneWay
    apply invariant.of_secret (t := credit memory s (.devOpen caller getnucred mode)) same.1 _
      (fun _ => same.2) rfl
    · intro d member
      simp only [credit, serve] at member
      split at member
      · next accepted =>
          rcases List.mem_append.mp member with old | new
          · exact invariant.oneWay d old
          · rw [List.mem_singleton.mp new]
            exact oneWay accepted
      · exact invariant.oneWay d member
    · intro stored
      have owned := invariant.owned stored
      change (secretOpen s.world.driver mode caller getnucred).2.secretOwner ≠ noOwner
      rcases secretOpen_cases s.world.driver mode caller getnucred with
        ⟨status, _, result⟩ | ⟨unowned, _⟩ | ⟨_, _, _, _, result⟩
      · rwa [result]
      · exact absurd unowned owned
      · rwa [result, countOpen_secretOwner]

theorem OwnerInvariant.close (invariant : OwnerInvariant s) (caller : Uid)
    (getnucred : Status) (fd : Nat) :
    OwnerInvariant (credit memory s (.devClose caller getnucred fd)) := by
  have oneWay : ∀ d ∈ s.world.descriptors.eraseIdx fd, d.bothWays = false :=
    fun d member => invariant.oneWay d (List.mem_of_mem_eraseIdx member)
  by_cases resets : Resets s.world.driver caller getnucred
  · obtain ⟨uncounted, _⟩ | ⟨_, others, _⟩ | ⟨_, erased⟩ :=
      secretClose_cases s.world.driver caller getnucred
    · exact absurd resets.1 uncounted
    · exact absurd resets.2 others
    · have fresh : (credit memory s (.devClose caller getnucred fd)).world.driver =
          Driver.fresh := erased
      have start := OwnerInvariant.start
      refine ⟨?_, ?_, ?_, ?_, oneWay⟩
      · rw [fresh]
        exact start.nonneg
      · rw [fresh]
        exact start.bounded
      · rw [fresh]
        exact start.owned
      · intro i inside
        rw [fresh] at inside
        simp only [Driver.fresh] at inside
        omega
  · have same := secretClose_sameSecret s.world.driver caller getnucred resets
    apply invariant.of_secret (t := credit memory s (.devClose caller getnucred fd)) same.1 _
      (fun _ => same.2) rfl oneWay
    intro stored
    have owned := invariant.owned stored
    change (secretClose s.world.driver caller getnucred).2.secretOwner ≠ noOwner
    obtain ⟨_, result⟩ | ⟨_, _, result⟩ | ⟨erases, _⟩ :=
      secretClose_cases s.world.driver caller getnucred
    · rwa [result]
    · rwa [result]
    · exact absurd erases resets

theorem OwnerInvariant.write_iff (invariant : OwnerInvariant s) {caller : Uid} {fd : Nat}
    {position : U64} {data : List Tagged} {copy : SafeCopy}
    (forwarded : Forwarded s.world (.devWrite caller fd position data copy))
    (signed : Signed (.devWrite caller fd position data copy)) :
    OwnerInvariant (credit memory s (.devWrite caller fd position data copy)) ↔
      Proper s.world (.devWrite caller fd position data copy) := by
  have fits : stored data ≤ secretSize := Nat.min_le_right _ _
  rcases secretTransfer_scatter_cases (unwritten memory) s.world.driver position
      (BitVec.ofNat 32 data.length) data copy with
    ⟨full, result⟩ | ⟨empty, failed, result⟩ | ⟨empty, copied, result⟩
  · have same : credit memory s (.devWrite caller fd position data copy) = s := by
      simp [credit, serve, result, Transfer.reply]
    rw [same]
    exact iff_of_true invariant fun empty => absurd full (by omega)
  · refine iff_of_true ?_ fun _ ok => absurd ok failed
    have none : ¬ 0 < s.world.driver.secretLength := by omega
    apply invariant.of_secret (t := credit memory s (.devWrite caller fd position data copy))
    · simp [credit, serve, result]
    · exact fun stored => absurd stored none
    · exact fun stored => absurd stored none
    · simp [credit, serve, result, Transfer.reply, failed]
    · exact invariant.oneWay
  · rw [bytesToWrite_data forwarded.2, Int.toNat_natCast] at result
    have after : credit memory s (.devWrite caller fd position data copy) =
        { world := { s.world with driver := { s.world.driver with
            secretBuffer := copyIn s.world.driver.secretBuffer data (stored data)
            secretLength := stored data } }
          ownerThen := s.world.driver.secretOwner } := by
      simp [credit, serve, result, Transfer.reply]
    rw [after]
    constructor
    · intro invariant _ _ positive
      have writer := invariant.byOwner ⟨0, by omega⟩ (by simpa using positive)
      rw [copyIn_stored signed (by simpa using positive)] at writer
      exact ⟨Option.some.inj writer, invariant.owned (by simpa using positive)⟩
    · intro proper
      refine ⟨by simp, by simpa using fits, ?_, ?_, invariant.oneWay⟩
      · intro positive
        exact (proper empty copied (by simpa using positive)).2
      · intro i inside
        rw [copyIn_stored signed inside]
        have positive : 0 < stored data := by
          simp only at inside
          omega
        exact congrArg some (proper empty copied positive).1

theorem OwnerInvariant.ioctl_iff (invariant : OwnerInvariant s) {caller : Uid} {fd : Nat}
    {request : Ioctl} {newOwner : Uid} {copy : SafeCopy} :
    OwnerInvariant (credit memory s (.devIoctl caller fd request newOwner copy)) ↔
      Proper s.world (.devIoctl caller fd request newOwner copy) := by
  cases request with
  | other code => exact iff_of_true invariant trivial
  | ssgrant =>
      have same := secretIoctl_sameSecret s.world.driver .ssgrant newOwner copy
      have owner : (credit memory s
          (.devIoctl caller fd .ssgrant newOwner copy)).world.driver.secretOwner =
            if s.world.driver.secretOwner ≠ noOwner ∧ copy.status = .ok then newOwner
            else s.world.driver.secretOwner := by
        by_cases owned : s.world.driver.secretOwner = noOwner
        · simp [credit, serve, secretIoctl, owned]
        · by_cases copied : copy.status = .ok
          · simp [credit, serve, secretIoctl, owned, copied]
          · simp [credit, serve, secretIoctl, owned, copied]
      constructor
      · intro after stored copied
        have owned := after.owned (by rw [← same.1] at stored; exact stored)
        rwa [owner, if_pos ⟨invariant.owned stored, copied⟩] at owned
      · intro proper
        apply invariant.of_secret
          (t := credit memory s (.devIoctl caller fd .ssgrant newOwner copy)) same.1 _
          (fun _ => same.2) rfl invariant.oneWay
        intro stored
        rw [owner]
        split
        · next granted => exact proper stored granted.2
        · exact invariant.owned stored

end Steps

/-! ## Runs -/

/-- From a proper state, a request leads to a proper one exactly where it is proper. -/
theorem OwnerInvariant.step_iff (invariant : OwnerInvariant s)
    (next : Credits memory s r s') : OwnerInvariant s' ↔ Proper s.world r := by
  obtain ⟨forwarded, signed, rfl⟩ := next
  cases r with
  | devOpen caller getnucred mode => exact invariant.open_iff
  | devClose caller getnucred fd => exact iff_of_true (invariant.close caller getnucred fd) trivial
  | devRead caller fd position size copy =>
      have same : credit memory s (.devRead caller fd position size copy) = s := by
        simp [credit, serve]
      rw [same]
      exact iff_of_true invariant trivial
  | devWrite caller fd position data copy => exact invariant.write_iff forwarded signed
  | devIoctl caller fd request newOwner copy => exact invariant.ioctl_iff

/-- The secret is its owner's and nobody has the device open for both ways along
exactly those runs whose requests are all proper. -/
theorem owner_invariant_iff {run : List (Credited × Request Tagged)}
    (exec : Exec (Credits memory) Credited.start run s) :
    AllStates OwnerInvariant run s ↔ AllSteps (fun v r => Proper v.world r) run :=
  exec.allStates_iff_guarded (I := OwnerInvariant) (C := fun v r => Proper v.world r)
    (fun _ invariant => invariant)
    (fun _ _ _ before proper next => (before.step_iff next).mpr proper)
    (fun _ _ _ before improper next after => improper ((before.step_iff next).mp after))
    OwnerInvariant.start

def Creditable (s : Credited) (r : Request Tagged) : Prop := Forwarded s.world r ∧ Signed r

instance (s : Credited) (r : Request Tagged) : Decidable (Creditable s r) :=
  inferInstanceAs (Decidable (Forwarded s.world r ∧ Signed r))

theorem credited_exec (labels : List (Request Tagged)) {s : Credited}
    (playable : Playable Creditable (credit untouched) s labels) :
    Exec (Credits untouched) s (played (credit untouched) s labels)
      (labels.foldl (credit untouched) s) :=
  playable.exec fun _ _ allowed => ⟨allowed.1, allowed.2, rfl⟩

theorem owner_invariant_iff_readsOwn :
    AllStates OwnerInvariant (played (credit untouched) Credited.start readsOwn)
      (readsOwn.foldl (credit untouched) Credited.start) :=
  (owner_invariant_iff (credited_exec readsOwn (by decide))).mpr
    (by unfold AllSteps; decide)

/-- User 10 opens the unowned device for both reading and writing. -/
def opensBothWays : List (Request Tagged) := [.devOpen 10 .ok ⟨true, true, 0⟩]

theorem owner_invariant_broken :
    ∃ run s, Exec (Credits untouched) Credited.start run s ∧
      ¬ AllStates OwnerInvariant run s := by
  refine ⟨_, _, credited_exec opensBothWays (by decide), ?_⟩
  rintro ⟨_, last⟩
  exact absurd (last.oneWay ⟨⟨true, true, 0⟩, 10⟩ (by decide)) (by decide)

end Csc457.Secret
