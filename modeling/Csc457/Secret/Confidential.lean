import Csc457.Secret.Accounting

/-!
# Who reads the secret

Each byte carries the uid of the process that wrote it; the driver moves the bytes
without looking at them.  A grant is the owner's where the caller's uid is
secret_owner at that moment.

The driver checks who opens the device and nothing after: whoever has a descriptor
may grant, write and go on reading.  Where every grant comes from the owner, every
write finds the device in the hands of those who may read it, and every descriptor
is read by the uid that opened it, no byte reaches a uid that neither wrote it nor
was named by the owner.
-/

set_option autoImplicit false

namespace Csc457.Secret

open Csc457.Lib.Transition

structure Tagged where
  byte : UInt8
  writer : Option Uid
  deriving DecidableEq

instance : Zero Tagged := ⟨⟨0, none⟩⟩

/-- The data behind the buffer, which no client wrote. -/
def unwritten (memory : Nat → UInt8) : Nat → Tagged := fun i => ⟨memory i, none⟩

/-- The world and the uids that grants of the owner have named. -/
structure Watched where
  world : World Tagged
  granted : List Uid

def Watched.start : Watched := { world := World.start, granted := [] }

/-- A process may read what its own uid wrote and, once named, everything. -/
def MayRead (s : Watched) (writer reader : Uid) : Prop := reader = writer ∨ reader ∈ s.granted

instance (s : Watched) (writer reader : Uid) : Decidable (MayRead s writer reader) :=
  inferInstanceAs (Decidable (reader = writer ∨ reader ∈ s.granted))

/-- `Written s u` where a byte of `u` is in the buffer. -/
def Written (s : Watched) (u : Uid) : Prop :=
  ∃ i, (s.world.driver.secretBuffer i).writer = some u

section Watching
variable (memory : Nat → UInt8)

def watch (s : Watched) (r : Request Tagged) : Watched :=
  let served := serve (unwritten memory) s.world r
  match r with
  | .devIoctl caller _ .ssgrant newOwner _ =>
      { world := served.2
        granted :=
          if caller = s.world.driver.secretOwner ∧ served.1.status = .ok then
            newOwner :: s.granted
          else s.granted }
  | _ => { s with world := served.2 }

/-- The bytes of a write carry the uid of its caller. -/
def Signed : Request Tagged → Prop
  | .devWrite caller _ _ data _ => ∀ b ∈ data, b.writer = some caller
  | _ => True

def Watches (s : Watched) (r : Request Tagged) (s' : Watched) : Prop :=
  Forwarded s.world r ∧ Signed r ∧ s' = watch memory s r

/-- A read delivers bytes of another uid only to one that the owner has named. -/
def Confidential (s : Watched) : Request Tagged → Prop
  | .devRead caller fd position size copy =>
      ∀ b ∈ (serve (unwritten memory) s.world
          (.devRead caller fd position size copy)).1.delivered,
        ∀ u, b.writer = some u → u ≠ caller → caller ∈ s.granted
  | _ => True

end Watching

/-- What the driver leaves to its clients. -/
def Discreet (s : Watched) : Request Tagged → Prop
  | .devRead caller fd _ _ _ =>
      ∀ d, s.world.descriptors[fd]? = some d → caller = d.opener
  | .devWrite caller _ _ data copy =>
      s.world.driver.secretLength ≤ 0 → 0 < copy.moved (stored data) →
        s.world.driver.secretOwner ≠ noOwner ∧
        MayRead s caller s.world.driver.secretOwner ∧
        ∀ d ∈ s.world.descriptors, d.reads = true → MayRead s caller d.opener
  | .devIoctl caller _ .ssgrant newOwner copy =>
      s.world.driver.secretOwner ≠ noOwner → copy.status = .ok → ∀ u, Written s u →
        newOwner ≠ noOwner ∧
        (caller = s.world.driver.secretOwner ∨ MayRead s u newOwner)
  | _ => True

/-- Whoever can get at the bytes in the buffer may read them. -/
structure Guarded (s : Watched) : Prop where
  owned : ∀ u, Written s u → s.world.driver.secretOwner ≠ noOwner
  owner : ∀ u, Written s u → MayRead s u s.world.driver.secretOwner
  readers : ∀ u, Written s u → ∀ d ∈ s.world.descriptors, d.reads = true → MayRead s u d.opener

variable {memory : Nat → UInt8} {s s' : Watched} {r : Request Tagged}

theorem watch_world (s : Watched) (r : Request Tagged) :
    (watch memory s r).world = (serve (unwritten memory) s.world r).2 := by
  cases r with
  | devIoctl caller fd request newOwner copy => cases request <;> rfl
  | _ => rfl

theorem watch_granted (s : Watched) (r : Request Tagged) {v : Uid} (named : v ∈ s.granted) :
    v ∈ (watch memory s r).granted := by
  cases r with
  | devIoctl caller fd request newOwner copy =>
      cases request with
      | ssgrant =>
          simp only [watch]
          split
          · exact List.mem_cons_of_mem _ named
          · exact named
      | other code => exact named
  | _ => exact named

theorem Watches.served (next : Watches memory s r s') :
    Served (unwritten memory) s.world r s'.world := by
  obtain ⟨forwarded, _, rfl⟩ := next
  exact ⟨forwarded, watch_world s r⟩

theorem watched_grant {caller newOwner : Uid} {fd : Nat} {copy : SafeCopy}
    (owned : s.world.driver.secretOwner ≠ noOwner) (copied : copy.status = .ok)
    (byOwner : caller = s.world.driver.secretOwner) :
    newOwner ∈ (watch memory s (.devIoctl caller fd .ssgrant newOwner copy)).granted := by
  have accepted : (serve (unwritten memory) s.world
      (.devIoctl caller fd .ssgrant newOwner copy)).1.status = .ok := by
    simp [serve, secretIoctl, owned, copied, statusOnly]
  simp only [watch]
  rw [if_pos ⟨byOwner, accepted⟩]
  exact List.mem_cons_self

theorem copyIn_writer {buffer : Fin secretSize → Tagged} {data : List Tagged} {caller u : Uid}
    {count : Nat} {i : Fin secretSize} (signed : ∀ b ∈ data, b.writer = some caller)
    (bound : count ≤ data.length) (written : (copyIn buffer data count i).writer = some u) :
    (buffer i).writer = some u ∨ (u = caller ∧ 0 < count) := by
  unfold copyIn at written
  split at written
  · next inside =>
      have member : data.getD i 0 ∈ data := by
        rw [List.getD_eq_getElem?_getD, List.getElem?_eq_getElem (by omega), Option.getD_some]
        exact List.getElem_mem _
      rw [signed _ member] at written
      exact .inr ⟨(Option.some.inj written).symm, by omega⟩
  · exact .inl written

theorem moved_le (copy : SafeCopy) (bytes : Nat) : copy.moved bytes ≤ bytes := by
  unfold SafeCopy.moved
  split
  · exact le_refl _
  · exact Nat.min_le_right _ _

/-! ## The invariant -/

/-- Where no new byte came in and whoever owns the device or has a read descriptor
may read the old ones, the state stays guarded. -/
theorem Guarded.of_kept {t : Watched} (kept : ∀ u, Written t u → Written s u)
    (owned : ∀ u, Written s u → t.world.driver.secretOwner ≠ noOwner)
    (owner : ∀ u, Written s u → MayRead t u t.world.driver.secretOwner)
    (readers : ∀ u, Written s u →
      ∀ d ∈ t.world.descriptors, d.reads = true → MayRead t u d.opener) : Guarded t :=
  ⟨fun u written => owned u (kept u written), fun u written => owner u (kept u written),
    fun u written => readers u (kept u written)⟩

theorem Guarded.of_nothing_written (none : ∀ u, ¬ Written s u) : Guarded s :=
  ⟨fun u written => absurd written (none u), fun u written => absurd written (none u),
    fun u written => absurd written (none u)⟩

theorem Guarded.start : Guarded Watched.start := by
  apply Guarded.of_nothing_written
  rintro u ⟨i, written⟩
  cases written

section Steps
variable {t : Watched} {caller : Uid}

theorem Guarded.shrink (guarded : Guarded s) (named : ∀ v ∈ s.granted, v ∈ t.granted)
    (buffer : t.world.driver.secretBuffer = s.world.driver.secretBuffer)
    (owner : t.world.driver.secretOwner = s.world.driver.secretOwner)
    (descriptors : ∀ d ∈ t.world.descriptors, d ∈ s.world.descriptors) : Guarded t := by
  apply Guarded.of_kept (s := s)
  · rintro u ⟨i, written⟩
    rw [buffer] at written
    exact ⟨i, written⟩
  · rw [owner]
    exact guarded.owned
  · intro u written
    rw [owner]
    exact (guarded.owner u written).imp_right (named _)
  · intro u written d member reads
    exact (guarded.readers u written d (descriptors d member) reads).imp_right (named _)

theorem Guarded.opened (guarded : Guarded s) (named : ∀ v ∈ s.granted, v ∈ t.granted)
    {mode : Mode} {driver : Driver Tagged}
    (origin : s.world.driver.secretOwner = noOwner ∧
        driver = { s.world.driver with secretOwner := caller } ∨
      s.world.driver.secretOwner ≠ noOwner ∧
        (mode.rBit = true → caller = s.world.driver.secretOwner) ∧ driver = s.world.driver)
    (opened : t.world = { driver := driver.countOpen mode
                          descriptors := s.world.descriptors ++ [⟨mode, caller⟩] }) :
    Guarded t := by
  have buffer : driver.secretBuffer = s.world.driver.secretBuffer := by
    obtain ⟨_, rfl⟩ | ⟨_, _, rfl⟩ := origin <;> rfl
  have kept : ∀ u, Written s u → driver.secretOwner = s.world.driver.secretOwner ∧
      (mode.rBit = true → caller = s.world.driver.secretOwner) := by
    intro u written
    obtain ⟨unowned, _⟩ | ⟨_, entitled, rfl⟩ := origin
    · exact absurd unowned (guarded.owned u written)
    · exact ⟨rfl, entitled⟩
  apply Guarded.of_kept (s := s)
  · rintro u ⟨i, written⟩
    rw [opened, countOpen_secretBuffer, buffer] at written
    exact ⟨i, written⟩
  · intro u written
    rw [opened, countOpen_secretOwner, (kept u written).1]
    exact guarded.owned u written
  · intro u written
    rw [opened, countOpen_secretOwner, (kept u written).1]
    exact (guarded.owner u written).imp_right (named _)
  · intro u written d member reads
    rw [opened] at member
    rcases List.mem_append.mp member with old | new
    · exact (guarded.readers u written d old reads).imp_right (named _)
    · rw [List.mem_singleton.mp new] at reads ⊢
      change MayRead t u caller
      rw [(kept u written).2 reads]
      exact (guarded.owner u written).imp_right (named _)

theorem Guarded.wrote (guarded : Guarded s) (named : ∀ v ∈ s.granted, v ∈ t.granted)
    {data : List Tagged} {count : Nat} (signed : ∀ b ∈ data, b.writer = some caller)
    (bound : count ≤ data.length)
    (buffer : t.world.driver.secretBuffer = copyIn s.world.driver.secretBuffer data count)
    (owner : t.world.driver.secretOwner = s.world.driver.secretOwner)
    (descriptors : t.world.descriptors = s.world.descriptors)
    (mine : 0 < count → s.world.driver.secretOwner ≠ noOwner ∧
      MayRead s caller s.world.driver.secretOwner ∧
      ∀ d ∈ s.world.descriptors, d.reads = true → MayRead s caller d.opener) : Guarded t := by
  have writers : ∀ u, Written t u → Written s u ∨ (u = caller ∧ 0 < count) := by
    rintro u ⟨i, written⟩
    rw [buffer] at written
    rcases copyIn_writer signed bound written with old | new
    · exact .inl ⟨i, old⟩
    · exact .inr new
  refine ⟨?_, ?_, ?_⟩
  · intro u written
    rw [owner]
    rcases writers u written with old | ⟨rfl, moved⟩
    · exact guarded.owned u old
    · exact (mine moved).1
  · intro u written
    rw [owner]
    rcases writers u written with old | ⟨rfl, moved⟩
    · exact (guarded.owner u old).imp_right (named _)
    · exact (mine moved).2.1.imp_right (named _)
  · intro u written d member reads
    rw [descriptors] at member
    rcases writers u written with old | ⟨rfl, moved⟩
    · exact (guarded.readers u old d member reads).imp_right (named _)
    · exact ((mine moved).2.2 d member reads).imp_right (named _)

end Steps

theorem Guarded.watched (guarded : Guarded s) (next : Watches memory s r s')
    (discreet : Discreet s r) : Guarded s' := by
  have served := next.served
  obtain ⟨_, signed, rfl⟩ := next
  have named : ∀ v ∈ s.granted, v ∈ (watch memory s r).granted :=
    fun v => watch_granted s r
  obtain same | ⟨caller, getnucred, mode, driver, rfl, origin, opened⟩ |
    ⟨caller, getnucred, fd, rfl, _, fewer, closed⟩ |
    ⟨caller, fd, position, data, copy, rfl, empty, wrote⟩ |
    ⟨caller, fd, newOwner, copy, rfl, owned, copied, granted⟩ := served.cases
  · apply guarded.shrink named
    · rw [same]
    · rw [same]
    · rw [same]
      exact fun d member => member
  · exact guarded.opened named origin opened
  · have remaining : ∀ d ∈ (watch memory s (.devClose caller getnucred fd)).world.descriptors,
        d ∈ s.world.descriptors := by
      intro d member
      rw [fewer] at member
      exact List.mem_of_mem_eraseIdx member
    obtain ⟨_, same⟩ | ⟨_, _, counted⟩ | ⟨_, erased⟩ := closed
    · exact guarded.shrink named (congrArg Driver.secretBuffer same)
        (congrArg Driver.secretOwner same) remaining
    · apply guarded.shrink named _ _ remaining
      · rw [counted]
      · rw [counted]
    · apply Guarded.of_nothing_written
      rintro u ⟨i, written⟩
      rw [erased] at written
      cases written
  · have bound : copy.moved (stored data) ≤ data.length :=
      (moved_le copy _).trans (Nat.min_le_left _ _)
    exact guarded.wrote named signed bound (by rw [wrote]) (by rw [wrote]) (by rw [wrote])
      (discreet empty)
  · apply Guarded.of_kept (s := s)
    · rintro u ⟨i, written⟩
      rw [granted] at written
      exact ⟨i, written⟩
    · intro u written
      rw [granted]
      exact (discreet owned copied u written).1
    · intro u written
      rw [granted]
      rcases (discreet owned copied u written).2 with byOwner | allowed
      · exact .inr (watched_grant owned copied byOwner)
      · exact allowed.imp_right (named _)
    · intro u written d member reads
      rw [granted] at member
      exact (guarded.readers u written d member reads).imp_right (named _)

theorem delivered_from {β : Type} [Zero β] {outside : Nat → β} {d : Driver β} {position : U64}
    {size : BitVec 32} {copy : SafeCopy} {b : β}
    (member : b ∈ (secretTransfer outside d .devGatherS position size [] copy).delivered) :
    (∃ i, b = d.secretBuffer i) ∨ ∃ i, b = outside i := by
  have fromByte : ∃ k, b = d.byteAt outside k := by
    simp only [secretTransfer] at member
    split at member
    · cases member
    · split at member
      · obtain ⟨k, _, rfl⟩ := List.mem_map.mp member
        exact ⟨_, rfl⟩
      · obtain ⟨k, _, rfl⟩ := List.mem_map.mp member
        exact ⟨_, rfl⟩
  obtain ⟨k, rfl⟩ := fromByte
  unfold Driver.byteAt
  split
  · exact .inl ⟨_, rfl⟩
  · exact .inr ⟨k, rfl⟩

theorem Guarded.confidential (guarded : Guarded s) (next : Watches memory s r s')
    (discreet : Discreet s r) : Confidential memory s r := by
  obtain ⟨forwarded, _, _⟩ := next
  cases r with
  | devRead caller fd position size copy =>
      intro b member u writtenBy other
      rcases delivered_from member with ⟨i, rfl⟩ | ⟨i, rfl⟩
      · obtain ⟨d, found, reads⟩ := Option.any_eq_true _ _ |>.mp forwarded
        have caller_eq : caller = d.opener := discreet d found
        have may := guarded.readers u ⟨i, writtenBy⟩ d (List.mem_of_getElem? found) reads
        rw [← caller_eq] at may
        exact may.resolve_left fun same => other same.symm
      · cases writtenBy
  | _ => exact trivial

/-- Along every run whose steps are all discreet, a read delivers the bytes of
another uid only to one that an owner has named. -/
theorem confidential_of_discreet {run : List (Watched × Request Tagged)}
    (exec : Exec (Watches memory) Watched.start run s) (discreet : AllSteps Discreet run) :
    AllSteps (Confidential memory) run := by
  have guarded : AllStates Guarded run s := exec.guarded_invariant (C := Discreet)
    (fun _ _ _ before guard next => before.watched next guard) Guarded.start discreet
  intro x member
  obtain ⟨t, next⟩ := exec.is_step x member
  exact (guarded.1 x member).confidential next (discreet x member)

/-! ## Runs -/

def untouched : Nat → UInt8 := fun _ => 0

def Allowed (s : Watched) (r : Request Tagged) : Prop := Forwarded s.world r ∧ Signed r

instance : (r : Request Tagged) → Decidable (Signed r)
  | .devWrite caller _ _ data _ =>
      inferInstanceAs (Decidable (∀ b ∈ data, b.writer = some caller))
  | .devOpen _ _ _ | .devClose _ _ _ | .devRead _ _ _ _ _ | .devIoctl _ _ _ _ _ =>
      inferInstanceAs (Decidable True)

instance (s : Watched) (r : Request Tagged) : Decidable (Allowed s r) :=
  inferInstanceAs (Decidable (Forwarded s.world r ∧ Signed r))

theorem allowed_exec (labels : List (Request Tagged)) {s : Watched}
    (playable : Playable Allowed (watch untouched) s labels) :
    Exec (Watches untouched) s (played (watch untouched) s labels)
      (labels.foldl (watch untouched) s) :=
  playable.exec fun _ _ allowed => ⟨allowed.1, allowed.2, rfl⟩

/-- The owner writes its secret and reads it back. -/
def readsOwn : List (Request Tagged) :=
  [.devOpen 10 .ok writeOnly, .devWrite 10 0 origin [⟨83, some 10⟩] copied,
    .devOpen 10 .ok readOnly, .devRead 10 1 origin 1 copied]

theorem confidential_readsOwn :
    AllSteps (Confidential untouched) (played (watch untouched) Watched.start readsOwn) := by
  apply confidential_of_discreet (allowed_exec readsOwn (by decide))
  refine allSteps_cons.mpr ⟨trivial, allSteps_cons.mpr ⟨?_, allSteps_cons.mpr ⟨trivial,
    allSteps_cons.mpr ⟨?_, allSteps_nil⟩⟩⟩⟩
  · exact fun _ _ => ⟨by decide, .inl (by decide), by decide⟩
  · intro d found
    cases found
    rfl

/-- User 11 opens the empty device for writing, waits for the owner's secret and
grants it to itself. -/
def grantsItself : List (Request Tagged) :=
  [.devOpen 10 .ok writeOnly, .devOpen 11 .ok writeOnly,
    .devWrite 10 0 origin [⟨83, some 10⟩] copied, .devIoctl 11 1 .ssgrant 11 copied,
    .devOpen 11 .ok readOnly, .devRead 11 2 origin 1 copied]

theorem secret_leaked :
    ∃ run s, Exec (Watches untouched) Watched.start run s ∧
      ¬ AllSteps (Confidential untouched) run := by
  refine ⟨_, _, allowed_exec grantsItself (by decide), ?_⟩
  intro confidential
  have member : (_, _) ∈ played (watch untouched) Watched.start grantsItself :=
    List.mem_of_getElem? (i := 5) rfl
  have named := confidential _ member ⟨83, some 10⟩ (by decide) 10 rfl (by decide)
  exact absurd named (by decide)

end Csc457.Secret
