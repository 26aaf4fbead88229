import Csc457.Secret.Accounting

/-!
# Writing once, reading in chunks

A session follows, beside the driver and the descriptors, the data of the last
accepted write since the secret was last erased, and what each reader has
received since.  A reader starts from position 0 and reads on from where its last
read ended; any number of them take turns with each other and with every other
request, reads at positions of no reader included.
-/

set_option autoImplicit false

namespace Csc457.Secret

open Function
open Csc457.Lib.Transition

variable {β : Type}

structure Session (β : Type) where
  world : World β
  secret : List β
  received : Nat → List β

inductive Op (β : Type) where
  | request (r : Request β)
  | readOn (reader : Nat) (caller : Uid) (fd : Nat) (size : BitVec 32) (copy : SafeCopy)

def positionAfter (count : Nat) : U64 :=
  ⟨BitVec.ofNat 32 count, BitVec.ofNat 32 (count / 2 ^ 32)⟩

def Op.toRequest (s : Session β) : Op β → Request β
  | .request r => r
  | .readOn reader caller fd size copy =>
      .devRead caller fd (positionAfter (s.received reader).length) size copy

section Received
variable {data got : List β}

theorem received_length (received : got <+: data.take secretSize) :
    got.length ≤ stored data := by
  simpa [stored, Nat.min_comm] using received.length_le

theorem received_nil (received : got <+: data.take secretSize) (empty : stored data = 0) :
    got = [] := by
  have bound := received_length received
  exact List.length_eq_zero_iff.mp (by omega)

theorem received_append (received : got <+: data.take secretSize) (count : Nat) :
    got ++ ((data.take secretSize).drop got.length).take count <+: data.take secretSize := by
  have taken : got = (data.take secretSize).take got.length :=
    List.prefix_iff_eq_take.mp received
  have joined : got ++ ((data.take secretSize).drop got.length).take count =
      (data.take secretSize).take (got.length + count) := by
    rw [List.take_add, ← taken]
  rw [joined]
  exact List.take_prefix _ _

theorem positionAfter_lo (received : got <+: data.take secretSize) :
    (positionAfter got.length).lo.toNat = got.length := by
  have bound := received_length received
  have fits : stored data ≤ secretSize := Nat.min_le_right _ _
  have secretBound : secretSize = 8192 := rfl
  simp only [positionAfter, BitVec.toNat_ofNat]
  omega

end Received

section Sessions
variable [Zero β] (outside : Nat → β)

def Session.start : Session β :=
  { world := World.start, secret := [], received := fun _ => [] }

def perform (s : Session β) (op : Op β) : Session β :=
  let served := serve outside s.world (op.toRequest s)
  match op with
  | .readOn reader _ _ _ _ =>
      { s with
        world := served.2
        received :=
          if served.1.status = .ok then
            update s.received reader (s.received reader ++ served.1.delivered)
          else s.received }
  | .request (.devWrite _ _ _ data _) =>
      { s with world := served.2, secret := if served.1.status = .ok then data else s.secret }
  | .request (.devClose caller getnucred _) =>
      -- the readers of an erased secret are done; others start from position 0
      if Resets s.world.driver caller getnucred then
        { world := served.2, secret := [], received := fun _ => [] }
      else { s with world := served.2 }
  | .request _ => { s with world := served.2 }

def Performs (s : Session β) (op : Op β) (s' : Session β) : Prop :=
  Forwarded s.world (op.toRequest s) ∧ s' = perform outside s op

def NonErasing (s : Session β) : Op β → Prop
  | .request (.devClose caller getnucred _) => ¬ Resets s.world.driver caller getnucred
  | _ => True

/-- What readers and writers get while the data is stored. -/
structure Serves (data : List β) (s : Session β) : Prop where
  received : ∀ reader, s.received reader <+: data.take secretSize
  reads : ∀ reader caller fd size copy, copy.status = .ok →
    let reply := (serve outside s.world (Op.toRequest s (.readOn reader caller fd size copy))).1
    reply.status = .ok ∧
    s.received reader ++ reply.delivered <+: data.take secretSize ∧
    reply.delivered.length =
      min size.toNat (min data.length secretSize - (s.received reader).length) ∧
    reply.count.toNat = reply.delivered.length
  refuses : data ≠ [] → ∀ caller fd position other copy,
    let result := serve outside s.world (.devWrite caller fd position other copy)
    result.1.status = .enospc ∧ result.2 = s.world

/-- The driver holds the stored part of the data. -/
structure Holds (d : Driver β) (data : List β) : Prop where
  length : d.secretLength = stored data
  bytes : ∀ i : Fin secretSize, (i : Nat) < stored data → d.secretBuffer i = data.getD i 0

variable {outside} {d : Driver β} {data : List β}

theorem Holds.fresh : Holds (Driver.fresh : Driver β) [] :=
  ⟨rfl, fun _ inside => absurd inside (Nat.not_lt_zero _)⟩

theorem Holds.same {d' : Driver β} (holds : Holds d data) (same : SameSecret d d') :
    Holds d' data :=
  ⟨same.1.trans holds.length, fun i inside => (congrFun same.2 i).trans (holds.bytes i inside)⟩

theorem Holds.readOut (holds : Holds d data) {start count : Nat}
    (inside : start + count ≤ stored data) :
    d.readOut outside start count = ((data.take secretSize).drop start).take count := by
  have bound : stored data ≤ data.length := Nat.min_le_left _ _
  have size : stored data ≤ secretSize := Nat.min_le_right _ _
  apply List.ext_getElem
  · simp only [Driver.readOut, List.length_map, List.length_range, List.length_take,
      List.length_drop]
    unfold stored at inside
    omega
  · intro k left _
    simp only [Driver.readOut, List.length_map, List.length_range] at left
    simp only [Driver.readOut, List.getElem_map, List.getElem_range, List.getElem_take,
      List.getElem_drop, Driver.byteAt]
    rw [dif_pos (by omega), holds.bytes _ (by simp only; omega)]
    simp only [List.getD_eq_getElem?_getD]
    rw [List.getElem?_eq_getElem (by omega), Option.getD_some]

/-- A read inside the secret delivers the next bytes, as many as it asked for or as
there are. -/
theorem Holds.transfer_gather (holds : Holds d data) {position : U64}
    (inside : position.lo.toNat ≤ stored data) (size : BitVec 32) (copy : SafeCopy)
    (copied : copy.status = .ok) :
    secretTransfer outside d .devGatherS position size [] copy =
      ⟨.ok, size - BitVec.ofNat 32 (min size.toNat (stored data - position.lo.toNat)),
        ((data.take secretSize).drop position.lo.toNat).take
          (min size.toNat (stored data - position.lo.toNat)), d⟩ := by
  have bytes := bytesToRead_eq holds.length (Nat.min_le_right _ _) inside size
  have within : position.lo.toNat + min size.toNat (stored data - position.lo.toNat) ≤
      stored data := by omega
  have out : d.readOut outside _ _ = _ := holds.readOut within
  generalize min size.toNat (stored data - position.lo.toNat) = count at *
  simp only [secretTransfer, bytes]
  by_cases none : count = 0
  · subst none
    simp
  · have some : ¬ (count : Int) ≤ 0 := by omega
    have moved : copy.moved count = count := if_pos copied
    rw [if_neg some, if_neg (by simp [copied]), Int.toNat_natCast, moved, out,
      BitVec.ofInt_natCast]

theorem Holds.delivered_prefix (holds : Holds d data) {got : List β}
    (received : got <+: data.take secretSize) (size : BitVec 32) (copy : SafeCopy) :
    let t := secretTransfer outside d .devGatherS (positionAfter got.length) size [] copy
    t.status = .ok → got ++ t.delivered <+: data.take secretSize := by
  intro t succeeded
  have low := positionAfter_lo received
  by_cases copied : copy.status = .ok
  · have result : t = _ := holds.transfer_gather
      (by rw [low]; exact received_length received) size copy copied
    rw [result, low]
    exact received_append received _
  · have empty : t.delivered = [] := by
      simp only [t, secretTransfer] at succeeded ⊢
      split
      · rfl
      · next some =>
          rw [if_neg some, if_pos copied] at succeeded
          exact absurd succeeded copied
    rw [empty, List.append_nil]
    exact received

/-! ## Sessions -/

structure Tracks (s : Session β) : Prop where
  holds : Holds s.world.driver s.secret
  received : ∀ reader, s.received reader <+: s.secret.take secretSize

theorem Tracks.start : Tracks (Session.start : Session β) :=
  ⟨Holds.fresh, fun _ => List.prefix_rfl⟩

variable {s s' : Session β} {op : Op β}

theorem Holds.stored_zero (holds : Holds d data) (empty : d.secretLength ≤ 0) :
    stored data = 0 := by
  have length := holds.length
  omega

variable (outside) in
theorem holds_write (holds : Holds d data) (position : U64) {new : List β}
    (bound : new.length < 2 ^ 32) (copy : SafeCopy) :
    let t := secretTransfer outside d .devScatterS position (BitVec.ofNat 32 new.length) new copy
    (t.status = .ok ∧ stored data = 0 ∧ Holds t.driver new) ∨
    (t.status ≠ .ok ∧ Holds t.driver data) := by
  intro t
  rcases secretTransfer_scatter_cases outside d position (BitVec.ofNat 32 new.length) new copy with
    ⟨_, result⟩ | ⟨empty, failed, result⟩ | ⟨empty, _, result⟩
  · refine .inr ?_
    simp only [t, result]
    exact ⟨by decide, holds⟩
  · refine .inr ?_
    have none := holds.stored_zero empty
    simp only [t, result]
    exact ⟨failed, holds.length, fun i inside => absurd inside (by omega)⟩
  · refine .inl ⟨by simp only [t, result], holds.stored_zero empty, ?_⟩
    simp only [t, result, bytesToWrite_data bound]
    refine ⟨rfl, fun i inside => ?_⟩
    simp only [copyIn, Int.toNat_natCast]
    rw [if_pos inside]

theorem Tracks.readOn (tracks : Tracks s) (reader : Nat) (caller : Uid) (fd : Nat)
    (size : BitVec 32) (copy : SafeCopy) :
    Tracks (perform outside s (.readOn reader caller fd size copy)) := by
  constructor
  · change Holds (serve outside s.world (.devRead caller fd _ size copy)).2.driver s.secret
    rw [devRead_world]
    exact tracks.holds
  · intro other
    change (if _ then update s.received reader _ else s.received) other <+: _
    split
    · next succeeded =>
        by_cases own : other = reader
        · subst own
          rw [update_self]
          exact tracks.holds.delivered_prefix (tracks.received other) size copy succeeded
        · rw [update_of_ne own]
          exact tracks.received other
    · exact tracks.received other

theorem Tracks.closed (tracks : Tracks s) (caller : Uid) (getnucred : Status) (fd : Nat) :
    Tracks (perform outside s (.request (.devClose caller getnucred fd))) := by
  by_cases resets : Resets s.world.driver caller getnucred
  · have erased : (secretClose s.world.driver caller getnucred).2 = Driver.fresh := by
      rcases secretClose_cases s.world.driver caller getnucred with
        ⟨uncounted, _⟩ | ⟨_, others, _⟩ | ⟨_, erased⟩
      · exact absurd resets.1 uncounted
      · exact absurd resets.2 others
      · exact erased
    simp only [perform, if_pos resets]
    constructor
    · change Holds (secretClose s.world.driver caller getnucred).2 []
      rw [erased]
      exact Holds.fresh
    · intro reader
      exact List.prefix_rfl
  · simp only [perform, if_neg resets]
    exact ⟨tracks.holds.same (secretClose_sameSecret _ _ _ resets), tracks.received⟩

theorem Tracks.wrote (tracks : Tracks s) (caller : Uid) (fd : Nat) (position : U64)
    {data : List β} (bound : data.length < 2 ^ 32) (copy : SafeCopy) :
    Tracks (perform outside s (.request (.devWrite caller fd position data copy))) := by
  generalize performed : perform outside s (.request (.devWrite caller fd position data copy)) = t
  rcases holds_write outside tracks.holds position bound copy with
    ⟨accepted, empty, new⟩ | ⟨refused, same⟩
  · have secret : t.secret = data := by
      rw [← performed]
      exact if_pos accepted
    subst performed
    constructor
    · rw [secret]
      exact new
    · intro reader
      change s.received reader <+: _
      rw [received_nil (tracks.received reader) empty]
      exact List.nil_prefix
  · have secret : t.secret = s.secret := by
      rw [← performed]
      exact if_neg refused
    subst performed
    constructor
    · rw [secret]
      exact same
    · intro reader
      rw [secret]
      exact tracks.received reader

theorem Tracks.performed (tracks : Tracks s) (next : Performs outside s op s') : Tracks s' := by
  obtain ⟨forwarded, rfl⟩ := next
  cases op with
  | readOn reader caller fd size copy => exact tracks.readOn reader caller fd size copy
  | request r =>
      cases r with
      | devRead caller fd position size copy =>
          refine ⟨?_, tracks.received⟩
          change Holds (serve outside s.world (.devRead caller fd _ size copy)).2.driver s.secret
          rw [devRead_world]
          exact tracks.holds
      | devOpen caller getnucred mode =>
          exact ⟨tracks.holds.same (secretOpen_sameSecret _ _ _ _), tracks.received⟩
      | devIoctl caller fd request newOwner copy =>
          exact ⟨tracks.holds.same (secretIoctl_sameSecret _ _ _ _), tracks.received⟩
      | devClose caller getnucred fd => exact tracks.closed caller getnucred fd
      | devWrite caller fd position data copy =>
          exact tracks.wrote caller fd position forwarded.2 copy

theorem Tracks.serves (tracks : Tracks s) : Serves outside s.secret s := by
  obtain ⟨holds, received⟩ := tracks
  refine ⟨received, ?_, ?_⟩
  · intro reader caller fd size copy copied reply
    have low := positionAfter_lo (received reader)
    have bound := received_length (received reader)
    have isReply : reply = Transfer.reply
        (secretTransfer outside s.world.driver .devGatherS
          (positionAfter (s.received reader).length) size [] copy) size := rfl
    rw [holds.transfer_gather (by rw [low]; exact bound) size copy copied, low] at isReply
    have length : reply.delivered.length =
        min size.toNat (stored s.secret - (s.received reader).length) := by
      rw [isReply]
      simp only [Transfer.reply, List.length_take, List.length_drop]
      unfold stored
      omega
    refine ⟨by rw [isReply]; rfl, ?_, length, ?_⟩
    · rw [isReply]
      exact received_append (received reader) _
    · rw [length, isReply]
      simp only [Transfer.reply]
      have fits := size.isLt
      rw [BitVec.toNat_sub, BitVec.toNat_sub, BitVec.toNat_ofNat]
      omega
  · intro nonempty caller fd position other copy result
    have full : 0 < s.world.driver.secretLength := by
      have length := holds.length
      have positive := List.length_pos_iff.mpr nonempty
      have secretBound : secretSize = 8192 := rfl
      unfold stored at length
      omega
    simp [result, serve, secretTransfer, full, Transfer.reply]

theorem Tracks.secret_kept (tracks : Tracks s) (nonempty : s.secret ≠ [])
    (next : Performs outside s op s') (keeps : NonErasing s op) : s'.secret = s.secret := by
  obtain ⟨_, rfl⟩ := next
  cases op with
  | readOn reader caller fd size copy => rfl
  | request r =>
      cases r with
      | devClose caller getnucred fd => simp only [perform, if_neg keeps]
      | devWrite caller fd position other copy =>
          have serves : Serves outside s.secret s := tracks.serves
          have refused := serves.refuses nonempty caller fd position other copy
          apply if_neg
          change (serve outside s.world (.devWrite caller fd position other copy)).1.status ≠ .ok
          rw [refused.1]
          decide
      | _ => rfl

theorem Tracks.reached (reached : Reach (· = Session.start) (Performs outside) s) :
    Tracks s := by
  refine Reach.invariant ?_ (fun _ _ _ before next => before.performed next) reached
  rintro s rfl
  exact Tracks.start

/-- For every accepted write and every session after it: until the secret is
erased each reader receives the stored bytes in order, in chunks that are as long
as they can be, and no write is accepted; ever after, each reader receives the
bytes of whatever write is stored. -/
theorem secret_read_in_chunks
    (reached : Reach (· = Session.start) (Performs outside) s) (data : List β)
    (nonempty : data ≠ []) (caller : Uid) (fd : Nat) (position : U64) (copy : SafeCopy)
    (forwarded : Forwarded s.world (.devWrite caller fd position data copy))
    (accepted : (serve outside s.world (.devWrite caller fd position data copy)).1.status = .ok)
    (run : List (Session β × Op β))
    (exec : Exec (Performs outside)
      (perform outside s (.request (.devWrite caller fd position data copy))) run s') :
    (AllSteps NonErasing run →
      AllStates (fun u => u.secret = data ∧ Serves outside data u) run s') ∧
    AllStates (fun u => Serves outside u.secret u) run s' := by
  have tracks : Tracks s := Tracks.reached reached
  have writes : Performs outside s (.request (.devWrite caller fd position data copy)) _ :=
    ⟨forwarded, rfl⟩
  have written := tracks.performed writes
  have secret : (perform outside s (.request (.devWrite caller fd position data copy))).secret =
      data := if_pos accepted
  generalize perform outside s (.request (.devWrite caller fd position data copy)) = s₁ at *
  constructor
  · intro keeps
    have inside : AllStates (fun u => Tracks u ∧ u.secret = data) run s' := by
      refine exec.guarded_invariant ?_ ⟨written, secret⟩ keeps
      rintro u op u' ⟨before, same⟩ keep next
      refine ⟨before.performed next, ?_⟩
      rw [before.secret_kept (by rw [same]; exact nonempty) next keep, same]
    have serves : ∀ u, Tracks u ∧ u.secret = data → u.secret = data ∧ Serves outside data u := by
      rintro u ⟨before, same⟩
      refine ⟨same, ?_⟩
      rw [← same]
      exact before.serves
    exact ⟨fun x member => serves x.1 (inside.1 x member), serves s' inside.2⟩
  · have inside : AllStates Tracks run s' :=
      exec.invariant (fun _ _ _ before next => before.performed next) written
    exact ⟨fun x member => (inside.1 x member).serves, inside.2.serves⟩

end Sessions

instance (s : Session β) : (op : Op β) → Decidable (NonErasing s op)
  | .request (.devClose caller getnucred _) =>
      inferInstanceAs (Decidable (¬ Resets s.world.driver caller getnucred))
  | .request (.devOpen _ _ _) => inferInstanceAs (Decidable True)
  | .request (.devRead _ _ _ _ _) => inferInstanceAs (Decidable True)
  | .request (.devWrite _ _ _ _ _) => inferInstanceAs (Decidable True)
  | .request (.devIoctl _ _ _ _ _) => inferInstanceAs (Decidable True)
  | .readOn _ _ _ _ _ => inferInstanceAs (Decidable True)

def fiveBytes : List UInt8 := [83, 69, 67, 82, 69]

/-- A secret of five bytes is read by two readers in turn, while a second write is tried, the
secret is granted away and a descriptor is closed. -/
def twoReaders : List (Op UInt8) :=
  [.request (.devOpen 10 .ok readOnly), .readOn 0 10 1 2 copied,
    .request (.devOpen 10 .ok readOnly), .readOn 1 10 2 3 copied,
    .request (.devWrite 10 0 origin [1, 2] copied), .readOn 0 10 1 8 copied,
    .request (.devIoctl 10 1 .ssgrant 11 copied), .readOn 1 10 2 1 copied,
    .request (.devClose 11 .ok 1), .readOn 1 10 1 4 copied, .readOn 1 10 1 4 copied]

theorem secret_read_in_chunks_twoReaders :
    let written := perform nothing
      (perform nothing Session.start (.request (.devOpen 10 .ok writeOnly)))
      (.request (.devWrite 10 0 origin fiveBytes copied))
    AllStates (fun u => u.secret = fiveBytes ∧ Serves nothing fiveBytes u)
        (played (perform nothing) written twoReaders)
        (twoReaders.foldl (perform nothing) written) ∧
      (twoReaders.foldl (perform nothing) written).received 0 = fiveBytes ∧
      (twoReaders.foldl (perform nothing) written).received 1 = fiveBytes := by
  intro written
  have opened : Performs nothing Session.start (.request (.devOpen 10 .ok writeOnly)) _ :=
    ⟨trivial, rfl⟩
  have playable : Playable (fun s op => Forwarded s.world (op.toRequest s)) (perform nothing)
      written twoReaders := by decide +kernel
  have keeps : ∀ x ∈ played (perform nothing) written twoReaders, NonErasing x.1 x.2 := by
    decide +kernel
  have chunks := (secret_read_in_chunks (Reach.step (.init rfl) opened) fiveBytes (by decide) 10 0
    origin copied (by decide) (by decide) _
    (playable.exec fun _ _ forwarded => ⟨forwarded, rfl⟩)).1 keeps
  exact ⟨chunks, by decide +kernel, by decide +kernel⟩

end Csc457.Secret
