import Csc457.Minls.Model
import Csc457.Lib.KeyedList
import Mathlib.Data.List.TakeWhile

/-!
# The root directory

What a directory of a MINIX file system holds, and what of it list_directory prints.  An
entry is known by its slot: the entries of the file in order, 64 bytes each, over the
zones, where a zone number 0 is a hole.  The loops visit the first block of each direct
zone.
-/

set_option autoImplicit false

namespace Csc457.Minls

open Csc457.Lib.ByteMemory Csc457.Lib.KeyedList

section FileSystem
variable (img : Image) (p : BitVec 32) (sb : Superblock)

def zoneBytes : Nat := sb.blocksize.toNat * 2 ^ sb.logZoneSize.toInt.toNat

def zoneStart (zone : BitVec 32) : Nat := p.toNat + zone.toNat * zoneBytes sb

/-- Number `i` in the first block of a zone of zone numbers. -/
def indirectZone (table : BitVec 32) (i : Nat) : BitVec 32 :=
  if table = 0 then 0 else u32 img.bytes (zoneStart p sb table + 4 * i)

/-- Zone `i` of a file: the direct ones, then the indirect and the doubly indirect ones. -/
def fileZone (inode : Inode) (i : Nat) : BitVec 32 :=
  let perBlock := sb.blocksize.toNat / 4
  if direct : i < directZones then inode.zone ⟨i, direct⟩
  else if i - directZones < perBlock then
    indirectZone img p sb inode.indirect (i - directZones)
  else
    let excess := i - directZones - perBlock
    indirectZone img p sb (indirectZone img p sb inode.twoIndirect (excess / perBlock))
      (excess % perBlock)

structure DirEntry where
  name : List UInt8
  inode : BitVec 32
  deriving DecidableEq

/-- A deleted entry has inode 0.  A name ends at its first NUL or after 60 bytes. -/
def entryAt (place : Nat) : Option DirEntry :=
  if entryInode img.bytes place = 0 then none
  else some ⟨(entryName img.bytes place).takeWhile (· ≠ 0), entryInode img.bytes place⟩

/-- The entry in slot `k` of a directory. -/
def dirSlot (inode : Inode) (k : Nat) : Option DirEntry :=
  let position := dirEntryBytes * k
  let zone := fileZone img p sb inode (position / zoneBytes sb)
  if zone = 0 then none else entryAt img (zoneStart p sb zone + position % zoneBytes sb)

def rootOffset : Nat :=
  p.toNat + (2 + sb.iBlocks.toInt.toNat + sb.zBlocks.toInt.toNat) * sb.blocksize.toNat

def rootInode : Inode := inodeAt img.bytes (rootOffset p sb)

/-- The slots in the first `size` bytes. -/
def rootSlots : Nat := (rootInode img p sb).size.toNat / dirEntryBytes

def rootDirectory : List (Nat × DirEntry) :=
  entries id (dirSlot img p sb (rootInode img p sb)) (List.range (rootSlots img p sb))

/-- What a valid image promises: the fields make sense, and the root inode and the zones it
names are in the file. -/
structure Valid : Prop where
  blocksize : 0 < sb.blocksize.toNat
  entriesFit : dirEntryBytes ∣ sb.blocksize.toNat
  iBlocks : 0 ≤ sb.iBlocks.toInt
  zBlocks : 0 ≤ sb.zBlocks.toInt
  logZoneSize : 0 ≤ sb.logZoneSize.toInt
  rootInside : rootOffset p sb + inodeBytes ≤ img.length
  directory : (rootInode img p sb).mode &&& minixFileTypeMask = minixDirType
  zonesInside : ∀ i, (rootInode img p sb).zone i ≠ 0 →
    zoneStart p sb ((rootInode img p sb).zone i) + sb.blocksize.toNat ≤ img.length

end FileSystem

/-! ## The listing -/

def slotsPerBlock (sb : Superblock) : Nat := sb.blocksize.toNat / dirEntryBytes

def slotsPerZone (sb : Superblock) : Nat := zoneBytes sb / dirEntryBytes

/-- Slot `j` of zone `i` stands for this slot of the directory. -/
def Event.slot (sb : Superblock) : Event → Option (Nat × DirEntry)
  | .entry i j name inode => some (i * slotsPerZone sb + j, ⟨name, inode⟩)
  | _ => none

def listed (sb : Superblock) (events : List Event) : List (Nat × DirEntry) :=
  events.filterMap (Event.slot sb)

/-- The root inode is shown and then its directory. -/
def ListsRoot (env : Environment) (img : Image) (p : BitVec 32) (sb : Superblock) : Prop :=
  ∃ events, (listDirectory env img sb p).2 =
      .out "Using partition offset %u\n" [p.toNat] ::
        (printInode (rootInode img p sb) ++ .out "/:\n" [] :: events) ∧
    listed sb events = rootDirectory img p sb

/-- The place list_directory reads slot `j` of direct zone `i` from. -/
def readPlace (img : Image) (p : BitVec 32) (sb : Superblock) (i : Fin directZones) (j : Nat) :
    Nat :=
  (zoneOffset p sb ((rootInode img p sb).zone i)).toNat + j * dirEntryBytes

/-- The image is one that list_directory can list. -/
structure Listable (env : Environment) (img : Image) (p : BitVec 32) (sb : Superblock) :
    Prop where
  /-- The 32-bit offset leads to the root inode, or to one that shows the same. -/
  root : printInode (inodeAt img.bytes (rootInodeOffset p sb).toNat) =
    printInode (rootInode img p sb)
  /-- Every entry is in the first block of one of the direct zones. -/
  inFirstBlocks : ∀ k < rootSlots img p sb, dirSlot img p sb (rootInode img p sb) k ≠ none →
    k / slotsPerZone sb < directZones ∧ k % slotsPerZone sb < slotsPerBlock sb
  /-- Behind the size there is no entry in these blocks. -/
  withinSize : ∀ i j, (rootInode img p sb).zone i ≠ 0 → j < slotsPerBlock sb →
    entryAt img (readPlace img p sb i j) ≠ none → i * slotsPerZone sb + j < rootSlots img p sb
  /-- A name that fills its bytes has a NUL behind it on the stack. -/
  terminated : ∀ i j, (rootInode img p sb).zone i ≠ 0 → j < slotsPerBlock sb →
    entryAt img (readPlace img p sb i j) ≠ none →
    0 ∈ entryName img.bytes (readPlace img p sb i j) ∨ env.behind i j = []
  /-- The 32-bit offset of a zone leads to its entries. -/
  place : ∀ i j, (rootInode img p sb).zone i ≠ 0 → j < slotsPerBlock sb →
    i * slotsPerZone sb + j < rootSlots img p sb →
    entryAt img (readPlace img p sb i j) =
      entryAt img (zoneStart p sb ((rootInode img p sb).zone i) + j * dirEntryBytes)

section Reads
variable {env : Environment} {img : Image} {sb : Superblock} {place : Nat}

theorem Image.available_of_inside {offset count : Nat} (inside : offset + count ≤ img.length) :
    img.available offset count = count := by
  unfold available
  omega

theorem Image.readInto_inside {offset count i : Nat} (inside : offset + count ≤ img.length)
    (small : i < count) (buffer : Memory) :
    img.readInto offset count buffer i = img.bytes (offset + i) := by
  rw [readInto, available_of_inside inside, if_pos small]

theorem entryInode_readInto (inside : place + dirEntryBytes ≤ img.length) (entry : Memory) :
    entryInode (img.readInto place dirEntryBytes entry) 0 = entryInode img.bytes place := by
  unfold entryInode u32
  congr 1
  apply loadBytes_of_eq
  intro i small
  rw [Nat.zero_add]
  exact Image.readInto_inside inside (Nat.lt_of_lt_of_le small (by decide)) entry

theorem entryName_readInto (inside : place + dirEntryBytes ≤ img.length) (entry : Memory) :
    entryName (img.readInto place dirEntryBytes entry) 0 = entryName img.bytes place := by
  apply List.map_congr_left
  intro i member
  have small : i < 60 := List.mem_range.mp member
  have within : 0 + 4 + i < dirEntryBytes := by
    unfold dirEntryBytes
    omega
  rw [Image.readInto_inside inside within entry]
  congr 1
  omega

def shownEntry (env : Environment) (img : Image) (i j place : Nat) : Option DirEntry :=
  if entryInode img.bytes place = 0 then none
  else some ⟨shownName (entryName img.bytes place) (env.behind i j), entryInode img.bytes place⟩

/-- The line printed for slot `j` of zone `i`, where the slot was read from a place. -/
def slotEvent (env : Environment) (img : Image) (i j place : Nat) : Option Event :=
  if entryInode img.bytes place = 0 then none
  else some (.entry i j (shownName (entryName img.bytes place) (env.behind i j))
    (entryInode img.bytes place))

theorem listSlots_events {i offset left j : Nat}
    (inside : ∀ k, j ≤ k → k < j + left →
      offset + k * dirEntryBytes + dirEntryBytes ≤ img.length) (entry : Memory) :
    (listSlots env img i offset left j entry).1 =
      (List.range' j left).filterMap fun j =>
        slotEvent env img i j (offset + j * dirEntryBytes) := by
  induction left generalizing j entry with
  | zero => rfl
  | succ left ih =>
      have rest := ih (j := j + 1) (fun k low high => inside k (by omega) (by omega))
        (img.readInto (offset + j * dirEntryBytes) dirEntryBytes entry)
      have here := inside j (Nat.le_refl j) (by omega)
      have inode := entryInode_readInto here entry
      have name := entryName_readInto here entry
      rw [List.range'_succ]
      unfold listSlots
      simp only [inode, name, List.filterMap_cons]
      by_cases deleted : entryInode img.bytes (offset + j * dirEntryBytes) = 0
      · simp only [slotEvent, if_pos deleted]
        exact rest
      · simp only [slotEvent, if_neg deleted]
        exact congrArg _ rest

theorem listZones_events {p : BitVec 32} {inode : Inode} {zones : List (Fin directZones)}
    (inside : ∀ i ∈ zones, inode.zone i ≠ 0 → ∀ j < slotsPerBlock sb,
      (zoneOffset p sb (inode.zone i)).toNat + j * dirEntryBytes + dirEntryBytes ≤ img.length)
    (entry : Memory) :
    (listZones env img p sb inode zones entry).1 =
      zones.flatMap fun i =>
        if inode.zone i = 0 then [.out "Inode zone %d is empty\n" [i.val]]
        else (List.range (slotsPerBlock sb)).filterMap fun j =>
          slotEvent env img i j ((zoneOffset p sb (inode.zone i)).toNat + j * dirEntryBytes) := by
  induction zones generalizing entry with
  | nil => rfl
  | cons i zones ih =>
      have rest := ih fun i member => inside i (List.mem_cons_of_mem _ member)
      rw [List.flatMap_cons]
      unfold listZones
      by_cases hole : inode.zone i = 0
      · rw [if_pos hole, if_pos hole, List.singleton_append]
        exact congrArg _ (rest entry)
      · rw [if_neg hole, if_neg hole]
        have within := inside i (List.mem_cons_self) hole
        simp only
        rw [rest, List.range_eq_range',
          ← listSlots_events (fun j _ small => within j (by omega)) entry]
        rfl

theorem listed_slots (i offset : Nat) (slots : List Nat) :
    listed sb (slots.filterMap fun j => slotEvent env img i j (offset + j * dirEntryBytes)) =
      entries (fun j => i * slotsPerZone sb + j)
        (fun j => shownEntry env img i j (offset + j * dirEntryBytes)) slots := by
  unfold listed entries
  rw [List.filterMap_filterMap]
  congr 1
  funext j
  unfold slotEvent shownEntry
  by_cases deleted : entryInode img.bytes (offset + j * dirEntryBytes) = 0
  · simp only [if_pos deleted, Option.bind_none, Option.map_none]
  · simp only [if_neg deleted, Option.bind_some, Option.map_some, Event.slot]

theorem listed_listZones {p : BitVec 32} {inode : Inode} {zones : List (Fin directZones)}
    (inside : ∀ i ∈ zones, inode.zone i ≠ 0 → ∀ j < slotsPerBlock sb,
      (zoneOffset p sb (inode.zone i)).toNat + j * dirEntryBytes + dirEntryBytes ≤ img.length)
    (entry : Memory) :
    listed sb (listZones env img p sb inode zones entry).1 =
      zones.flatMap fun i =>
        if inode.zone i = 0 then []
        else entries (fun j => i * slotsPerZone sb + j)
          (fun j => shownEntry env img i j
            ((zoneOffset p sb (inode.zone i)).toNat + j * dirEntryBytes))
          (List.range (slotsPerBlock sb)) := by
  rw [listZones_events inside, listed, List.filterMap_flatMap]
  congr 1
  funext i
  split
  · rfl
  · exact listed_slots _ _ _

end Reads

section Offsets
variable {img : Image} {p : BitVec 32} {sb : Superblock}

theorem toNat_of_nonneg {x : BitVec 16} (nonneg : 0 ≤ x.toInt) : x.toInt.toNat = x.toNat := by
  rw [BitVec.toInt_eq_toNat_cond] at nonneg ⊢
  split at nonneg <;> omega

theorem toNat_signExtend_nonneg {x : BitVec 16} (nonneg : 0 ≤ x.toInt) :
    (x.signExtend 32).toNat = x.toInt.toNat := by
  have size := x.isLt
  rw [BitVec.signExtend, BitVec.toNat_ofInt]
  rw [BitVec.toInt_eq_toNat_cond] at nonneg ⊢
  split at nonneg <;> omega

theorem toNat_blocksize : (sb.blocksize.setWidth 32).toNat = sb.blocksize.toNat := by
  rw [BitVec.toNat_setWidth]
  exact Nat.mod_eq_of_lt (Nat.lt_of_lt_of_le sb.blocksize.isLt (by decide))

/-- The offset of the root inode is taken mod 2^32, like that of the partition. -/
theorem toNat_rootInodeOffset_mod {start : Nat} (isStart : p.toNat = start % 2 ^ 32)
    (iBlocks : 0 ≤ sb.iBlocks.toInt) (zBlocks : 0 ≤ sb.zBlocks.toInt) :
    (rootInodeOffset p sb).toNat =
      (start + (2 + sb.iBlocks.toInt.toNat + sb.zBlocks.toInt.toNat) * sb.blocksize.toNat) %
        2 ^ 32 := by
  unfold rootInodeOffset
  simp only [BitVec.toNat_add, BitVec.toNat_mul, toNat_signExtend_nonneg iBlocks,
    toNat_signExtend_nonneg zBlocks, toNat_blocksize, isStart]
  simp [Nat.add_mod, Nat.mul_mod]

theorem toNat_rootInodeOffset (valid : Valid img p sb) :
    (rootInodeOffset p sb).toNat = rootOffset p sb % 2 ^ 32 :=
  toNat_rootInodeOffset_mod (Nat.mod_eq_of_lt p.isLt).symm valid.iBlocks valid.zBlocks

theorem toNat_zoneSize :
    (zoneSize sb).toNat = sb.blocksize.toNat * 2 ^ (sb.logZoneSize.toNat % 32) % 2 ^ 32 := by
  unfold zoneSize
  rw [BitVec.toNat_shiftLeft, toNat_blocksize, Nat.shiftLeft_eq]

theorem toNat_zoneOffset (zone : BitVec 32) :
    (zoneOffset p sb zone).toNat = (p.toNat + zone.toNat * (zoneSize sb).toNat) % 2 ^ 32 := by
  unfold zoneOffset
  rw [BitVec.toNat_add, BitVec.toNat_mul, Nat.add_mod_mod]

theorem toNat_zoneSize_le (valid : Valid img p sb) : (zoneSize sb).toNat ≤ zoneBytes sb := by
  rw [toNat_zoneSize, zoneBytes, toNat_of_nonneg valid.logZoneSize]
  refine (Nat.mod_le _ _).trans (Nat.mul_le_mul_left _ ?_)
  exact Nat.pow_le_pow_right (by decide) (Nat.mod_le _ _)

theorem toNat_zoneOffset_le (valid : Valid img p sb) (zone : BitVec 32) :
    (zoneOffset p sb zone).toNat ≤ zoneStart p sb zone := by
  rw [toNat_zoneOffset, zoneStart]
  refine (Nat.mod_le _ _).trans (Nat.add_le_add_left ?_ _)
  exact Nat.mul_le_mul_left _ (toNat_zoneSize_le valid)

/-- What a zone number adds is less than 2^32 only if the shift is by less than 32. -/
theorem mul_zoneSize {zone : BitVec 32} (logZoneSize : 0 ≤ sb.logZoneSize.toInt)
    (low : zone.toNat * zoneBytes sb < 2 ^ 32) :
    zone.toNat * (zoneSize sb).toNat % 2 ^ 32 = zone.toNat * zoneBytes sb := by
  have shifted : zoneBytes sb = sb.blocksize.toNat * 2 ^ sb.logZoneSize.toNat := by
    rw [zoneBytes, toNat_of_nonneg logZoneSize]
  rw [toNat_zoneSize, Nat.mul_mod_mod, shifted, ← Nat.mul_assoc, ← Nat.mul_assoc]
  rw [shifted, ← Nat.mul_assoc] at low
  by_cases none : zone.toNat * sb.blocksize.toNat = 0
  · simp [none]
  · have power : 2 ^ sb.logZoneSize.toNat < 2 ^ 32 :=
      Nat.lt_of_le_of_lt (Nat.le_mul_of_pos_left _ (Nat.pos_of_ne_zero none)) low
    rw [Nat.mod_eq_of_lt ((Nat.pow_lt_pow_iff_right (by decide)).mp power),
      Nat.mod_eq_of_lt low]

theorem zoneOffset_exact_iff {start : Nat} (isStart : p.toNat = start % 2 ^ 32)
    (logZoneSize : 0 ≤ sb.logZoneSize.toInt) (zone : BitVec 32) :
    (zoneOffset p sb zone).toNat = start + zone.toNat * zoneBytes sb ↔
      start + zone.toNat * zoneBytes sb < 2 ^ 32 := by
  constructor
  · intro exact
    rw [← exact]
    exact (zoneOffset p sb zone).isLt
  · intro low
    rw [toNat_zoneOffset, isStart, Nat.mod_add_mod, ← Nat.add_mod_mod,
      mul_zoneSize logZoneSize (by omega)]
    exact Nat.mod_eq_of_lt low

theorem toNat_zoneOffset_low (valid : Valid img p sb) {zone : BitVec 32}
    (low : zoneStart p sb zone < 2 ^ 32) :
    (zoneOffset p sb zone).toNat = zoneStart p sb zone :=
  (zoneOffset_exact_iff (Nat.mod_eq_of_lt p.isLt).symm valid.logZoneSize zone).mpr low

end Offsets

section Slots
variable {env : Environment} {img : Image} {p : BitVec 32} {sb : Superblock}

theorem slotsPerBlock_bytes (valid : Valid img p sb) :
    slotsPerBlock sb * dirEntryBytes = sb.blocksize.toNat :=
  Nat.div_mul_cancel valid.entriesFit

theorem slotsPerZone_eq (valid : Valid img p sb) :
    slotsPerZone sb = slotsPerBlock sb * 2 ^ sb.logZoneSize.toInt.toNat := by
  unfold slotsPerZone zoneBytes
  rw [← slotsPerBlock_bytes valid, Nat.mul_right_comm]
  exact Nat.mul_div_cancel _ (by decide)

theorem zoneBytes_eq (valid : Valid img p sb) :
    zoneBytes sb = dirEntryBytes * slotsPerZone sb := by
  rw [slotsPerZone_eq valid, zoneBytes, ← slotsPerBlock_bytes valid]
  ring

theorem slotsPerBlock_le (valid : Valid img p sb) : slotsPerBlock sb ≤ slotsPerZone sb := by
  rw [slotsPerZone_eq valid]
  exact Nat.le_mul_of_pos_right _ (Nat.two_pow_pos _)

theorem slot_split (valid : Valid img p sb) {i j : Nat} (first : j < slotsPerBlock sb) :
    (i * slotsPerZone sb + j) / slotsPerZone sb = i ∧
      (i * slotsPerZone sb + j) % slotsPerZone sb = j := by
  have inZone : j < slotsPerZone sb := Nat.lt_of_lt_of_le first (slotsPerBlock_le valid)
  rw [Nat.mul_comm]
  constructor
  · rw [Nat.mul_add_div (by omega), Nat.div_eq_of_lt inZone, Nat.add_zero]
  · rw [Nat.mul_add_mod, Nat.mod_eq_of_lt inZone]

theorem dirSlot_first (valid : Valid img p sb) (inode : Inode) (i : Fin directZones) {j : Nat}
    (first : j < slotsPerBlock sb) :
    dirSlot img p sb inode (i * slotsPerZone sb + j) =
      if inode.zone i = 0 then none
      else entryAt img (zoneStart p sb (inode.zone i) + j * dirEntryBytes) := by
  obtain ⟨isZone, isSlot⟩ := slot_split valid (i := i) first
  have zone : dirEntryBytes * (i * slotsPerZone sb + j) / zoneBytes sb = i := by
    rw [zoneBytes_eq valid, Nat.mul_div_mul_left _ _ (by decide), isZone]
  have rest : dirEntryBytes * (i * slotsPerZone sb + j) % zoneBytes sb = j * dirEntryBytes := by
    rw [zoneBytes_eq valid, Nat.mul_mod_mul_left, isSlot, Nat.mul_comm]
  have direct : fileZone img p sb inode i = inode.zone i := by
    unfold fileZone
    rw [dif_pos i.isLt]
  unfold dirSlot
  simp only [zone, rest, direct]

theorem dirSlot_name {inode : Inode} {k : Nat} {e : DirEntry}
    (isEntry : dirSlot img p sb inode k = some e) : e.name.length ≤ 60 := by
  unfold dirSlot entryAt at isEntry
  simp only at isEntry
  split at isEntry
  · cases isEntry
  · split at isEntry
    · cases isEntry
    · obtain rfl := Option.some.inj isEntry
      refine (List.takeWhile_sublist _).length_le.trans ?_
      simp [entryName]

theorem shownName_eq {name behind : List UInt8} (ends : 0 ∈ name ∨ behind = []) :
    shownName name behind = name.takeWhile (· ≠ 0) := by
  unfold shownName
  split
  · rfl
  · next full =>
      obtain nul | rfl := ends
      · exact absurd nul full
      · rw [List.append_nil, List.takeWhile_eq_self_iff.mpr]
        intro c member
        exact decide_eq_true fun zero => full (zero ▸ member)

theorem shownEntry_none {i j place : Nat} :
    shownEntry env img i j place = none ↔ entryAt img place = none := by
  unfold shownEntry entryAt
  split <;> simp

theorem shownEntry_some (env : Environment) (i j : Nat) {place : Nat}
    (present : entryAt img place ≠ none) :
    ∃ e, shownEntry env img i j place = some e :=
  Option.ne_none_iff_exists'.mp fun none => present (shownEntry_none.mp none)

theorem entryAt_present {i j place : Nat} {e : DirEntry}
    (isShown : shownEntry env img i j place = some e) : entryAt img place ≠ none := by
  intro none
  rw [shownEntry_none.mpr none] at isShown
  cases isShown

theorem shownEntry_eq {i j place : Nat}
    (ends : 0 ∈ entryName img.bytes place ∨ env.behind i j = []) :
    shownEntry env img i j place = entryAt img place := by
  unfold shownEntry entryAt
  rw [shownName_eq ends]

end Slots

/-! ## What is printed and what is there -/

section Listing
variable (env : Environment) (img : Image) (p : BitVec 32) (sb : Superblock)

/-- The entries of the first blocks of the direct zones, as they are printed. -/
def visited : List (Nat × DirEntry) :=
  (List.finRange directZones).flatMap fun i =>
    if (rootInode img p sb).zone i = 0 then []
    else entries (fun j => i * slotsPerZone sb + j)
      (fun j => shownEntry env img i j (readPlace img p sb i j)) (List.range (slotsPerBlock sb))

variable {env img p sb}

theorem listed_root (valid : Valid img p sb) (inode : Inode)
    (same : inode.zone = (rootInode img p sb).zone) :
    listed sb (listZones env img p sb inode (List.finRange directZones) env.entry).1 =
      visited env img p sb := by
  rw [listed_listZones, same]
  · rfl
  · rw [same]
    intro i _ used j first
    have inFile := valid.zonesInside i used
    have before := toNat_zoneOffset_le valid ((rootInode img p sb).zone i)
    have inBlock : (j + 1) * dirEntryBytes ≤ slotsPerBlock sb * dirEntryBytes :=
      Nat.mul_le_mul_right _ first
    rw [slotsPerBlock_bytes valid, Nat.succ_mul] at inBlock
    omega

theorem mem_visited {k : Nat} {e : DirEntry} :
    (k, e) ∈ visited env img p sb ↔ ∃ i j, (rootInode img p sb).zone i ≠ 0 ∧
      j < slotsPerBlock sb ∧ i * slotsPerZone sb + j = k ∧
      shownEntry env img i j (readPlace img p sb i j) = some e := by
  unfold visited
  rw [List.mem_flatMap]
  constructor
  · rintro ⟨i, _, member⟩
    split at member
    · cases member
    · next used =>
        obtain ⟨j, small, isSlot, isEntry⟩ := mem_entries.mp member
        exact ⟨i, j, used, List.mem_range.mp small, isSlot, isEntry⟩
  · rintro ⟨i, j, used, small, isSlot, isEntry⟩
    refine ⟨i, List.mem_finRange i, ?_⟩
    rw [if_neg used]
    exact mem_entries.mpr ⟨j, List.mem_range.mpr small, isSlot, isEntry⟩

theorem increasing_visited (valid : Valid img p sb) : Increasing (visited env img p sb) := by
  apply increasing_flatMap
  · intro i _
    split
    · exact List.Pairwise.nil
    · apply increasing_entries
      refine List.pairwise_lt_range.imp ?_
      intro a b less
      exact Nat.add_lt_add_left less _
  · refine (List.pairwise_lt_finRange _).imp ?_
    rintro i i' less ⟨k, e⟩ here ⟨k', e'⟩ there
    have inBlock : k < (i + 1) * slotsPerZone sb := by
      split at here
      · cases here
      · obtain ⟨j, small, isSlot, _⟩ := mem_entries.mp here
        have fits := slotsPerBlock_le valid
        rw [List.mem_range] at small
        rw [Nat.succ_mul]
        omega
    have after : i' * slotsPerZone sb ≤ k' := by
      split at there
      · cases there
      · obtain ⟨j, _, isSlot, _⟩ := mem_entries.mp there
        omega
    have blocks : (i + 1) * slotsPerZone sb ≤ i' * slotsPerZone sb := Nat.mul_le_mul_right _ less
    exact Nat.lt_of_lt_of_le inBlock (blocks.trans after)

theorem increasing_rootDirectory : Increasing (rootDirectory img p sb) :=
  increasing_entries List.pairwise_lt_range

theorem mem_rootDirectory {k : Nat} {e : DirEntry} :
    (k, e) ∈ rootDirectory img p sb ↔
      k < rootSlots img p sb ∧ dirSlot img p sb (rootInode img p sb) k = some e := by
  unfold rootDirectory
  rw [mem_entries]
  constructor
  · rintro ⟨_, small, rfl, isEntry⟩
    exact ⟨List.mem_range.mp small, isEntry⟩
  · rintro ⟨small, isEntry⟩
    exact ⟨k, List.mem_range.mpr small, rfl, isEntry⟩

/-- Where the blocks are as the condition says, each entry printed is one of the directory. -/
theorem visited_eq_of_listable (valid : Valid img p sb) (listable : Listable env img p sb) :
    visited env img p sb = rootDirectory img p sb := by
  refine (Increasing.eq_iff (increasing_visited valid) increasing_rootDirectory).mpr ?_
  rintro ⟨k, e⟩
  rw [mem_visited, mem_rootDirectory]
  constructor
  · rintro ⟨i, j, used, first, rfl, isShown⟩
    have present := entryAt_present isShown
    have small := listable.withinSize i j used first present
    rw [shownEntry_eq (listable.terminated i j used first present),
      listable.place i j used first small] at isShown
    rw [dirSlot_first valid _ i first, if_neg used]
    exact ⟨small, isShown⟩
  · rintro ⟨small, isEntry⟩
    obtain ⟨direct, first⟩ := listable.inFirstBlocks k small (by simp [isEntry])
    let i : Fin directZones := ⟨k / slotsPerZone sb, direct⟩
    have isSlot : i * slotsPerZone sb + k % slotsPerZone sb = k := Nat.div_add_mod' _ _
    rw [← isSlot, dirSlot_first valid _ i first] at isEntry
    split at isEntry
    · cases isEntry
    · next used =>
        have isShown : entryAt img (readPlace img p sb i (k % slotsPerZone sb)) = some e :=
          (listable.place i _ used first (by rwa [isSlot])).trans isEntry
        refine ⟨i, k % slotsPerZone sb, used, first, isSlot, ?_⟩
        rw [shownEntry_eq (listable.terminated i _ used first (by simp [isShown])), isShown]

theorem dirSlot_of_visited (same : visited env img p sb = rootDirectory img p sb)
    {i : Fin directZones} {j : Nat} (used : (rootInode img p sb).zone i ≠ 0)
    (first : j < slotsPerBlock sb) (present : entryAt img (readPlace img p sb i j) ≠ none) :
    i * slotsPerZone sb + j < rootSlots img p sb ∧
      dirSlot img p sb (rootInode img p sb) (i * slotsPerZone sb + j) =
        shownEntry env img i j (readPlace img p sb i j) := by
  obtain ⟨e, isShown⟩ := shownEntry_some env i j present
  have member : (i * slotsPerZone sb + j, e) ∈ rootDirectory img p sb :=
    same ▸ mem_visited.mpr ⟨i, j, used, first, rfl, isShown⟩
  obtain ⟨small, isEntry⟩ := mem_rootDirectory.mp member
  exact ⟨small, isEntry.trans isShown.symm⟩

theorem visited_of_dirSlot (valid : Valid img p sb)
    (same : visited env img p sb = rootDirectory img p sb) {k : Nat}
    (small : k < rootSlots img p sb) (present : dirSlot img p sb (rootInode img p sb) k ≠ none) :
    ∃ i : Fin directZones, k / slotsPerZone sb = i ∧ k % slotsPerZone sb < slotsPerBlock sb ∧
      entryAt img (readPlace img p sb i (k % slotsPerZone sb)) ≠ none := by
  obtain ⟨e, isEntry⟩ := Option.ne_none_iff_exists'.mp present
  have member : (k, e) ∈ visited env img p sb := same ▸ mem_rootDirectory.mpr ⟨small, isEntry⟩
  obtain ⟨i, j, _, first, rfl, isShown⟩ := mem_visited.mp member
  obtain ⟨isZone, isSlot⟩ := slot_split valid (i := i) first
  rw [isZone, isSlot]
  exact ⟨i, rfl, first, entryAt_present isShown⟩

theorem ends_of_shown {inode : Inode} {i j k place : Nat}
    (present : entryAt img place ≠ none)
    (same : dirSlot img p sb inode k = shownEntry env img i j place) :
    0 ∈ entryName img.bytes place ∨ env.behind i j = [] := by
  by_contra unended
  obtain ⟨full, longer⟩ := not_or.mp unended
  obtain ⟨e, isShown⟩ := shownEntry_some env i j present
  have short := dirSlot_name (same.trans isShown)
  unfold shownEntry shownName at isShown
  rw [if_neg full] at isShown
  split at isShown
  · cases isShown
  · obtain rfl := Option.some.inj isShown
    have extra := List.length_pos_iff.mpr longer
    simp only [List.length_append, entryName, List.length_map, List.length_range] at short
    omega

theorem listable_of_visited (valid : Valid img p sb)
    (root : printInode (inodeAt img.bytes (rootInodeOffset p sb).toNat) =
      printInode (rootInode img p sb))
    (same : visited env img p sb = rootDirectory img p sb) : Listable env img p sb where
  root := root
  inFirstBlocks k small present := by
    obtain ⟨i, isZone, first, _⟩ := visited_of_dirSlot valid same small present
    exact ⟨isZone ▸ i.isLt, first⟩
  withinSize i j used first present := (dirSlot_of_visited same used first present).1
  terminated i j used first present :=
    ends_of_shown present (dirSlot_of_visited same used first present).2
  place i j used first small := by
    by_cases present : entryAt img (readPlace img p sb i j) = none
    · rw [present, eq_comm]
      by_contra there
      have isEntry : dirSlot img p sb (rootInode img p sb) (i * slotsPerZone sb + j) ≠ none := by
        rwa [dirSlot_first valid _ i first, if_neg used]
      obtain ⟨i', isZone, _, seen⟩ := visited_of_dirSlot valid same small isEntry
      obtain ⟨isZone', isSlot⟩ := slot_split valid (i := i) first
      obtain rfl : i = i' := Fin.ext (isZone'.symm.trans isZone)
      rw [isSlot] at seen
      exact seen present
    · obtain ⟨_, isEntry⟩ := dirSlot_of_visited same used first present
      rw [shownEntry_eq (ends_of_shown present isEntry), dirSlot_first valid _ i first,
        if_neg used] at isEntry
      exact isEntry.symm

theorem printInode_inj {a b : Inode} (same : printInode a = printInode b) :
    a.mode = b.mode ∧ a.zone = b.zone := by
  obtain ⟨front, _⟩ := List.append_inj same (by simp)
  obtain ⟨fields, zones⟩ := List.append_inj front (by simp)
  refine ⟨?_, ?_⟩
  · simp only [List.cons.injEq, Event.out.injEq, Int.natCast_inj] at fields
    exact BitVec.eq_of_toNat_eq fields.2.2.2.2.1.2.1
  · funext i
    have here := List.map_inj_left.mp zones i (List.mem_finRange i)
    simp only [Event.out.injEq, List.cons.injEq, Int.natCast_inj] at here
    exact BitVec.eq_of_toNat_eq here.2.1

/-- The output is the offset and the inode found there, and then the listing or an error. -/
theorem listDirectory_events (valid : Valid img p sb) :
    (listDirectory env img sb p).2 =
      .out "Using partition offset %u\n" [p.toNat] ::
        (printInode (inodeAt img.bytes (rootInodeOffset p sb).toNat) ++
          if (inodeAt img.bytes (rootInodeOffset p sb).toNat).mode &&& minixFileTypeMask ≠
              minixDirType then
            [.err "Error: Root inode is not a directory!\n" []]
          else .out "/:\n" [] ::
            (listZones env img p sb (inodeAt img.bytes (rootInodeOffset p sb).toNat)
              (List.finRange directZones) env.entry).1) := by
  have inside : (rootInodeOffset p sb).toNat + inodeBytes ≤ img.length := by
    have before := Nat.mod_le (rootOffset p sb) (2 ^ 32)
    have inFile := valid.rootInside
    rw [toNat_rootInodeOffset valid]
    omega
  unfold listDirectory
  rw [if_neg (not_not_intro (Image.available_of_inside inside))]
  simp only
  split <;> rfl

theorem listable_of_listsRoot (valid : Valid img p sb) (lists : ListsRoot env img p sb) :
    Listable env img p sb := by
  obtain ⟨events, output, isListed⟩ := lists
  rw [listDirectory_events valid] at output
  obtain ⟨shown, rest⟩ := List.append_inj (List.cons.inj output).2 (by simp [printInode])
  obtain ⟨mode, zone⟩ := printInode_inj shown
  rw [mode, if_neg (not_not_intro valid.directory)] at rest
  obtain rfl := (List.cons.inj rest).2
  rw [listed_root valid _ zone] at isListed
  exact listable_of_visited valid shown isListed

theorem listsRoot_of_listable (valid : Valid img p sb) (listable : Listable env img p sb) :
    ListsRoot env img p sb := by
  obtain ⟨mode, zone⟩ := printInode_inj listable.root
  refine ⟨_, ?_, (listed_root valid _ zone).trans (visited_eq_of_listable valid listable)⟩
  rw [listDirectory_events valid, mode, if_neg (not_not_intro valid.directory), listable.root]

/-- list_directory lists the root directory of a valid image exactly when the directory keeps
to the first blocks of its direct zones, nothing stale is left there, its names end, and no
offset is changed by its 32 bits. -/
theorem lists_root_iff (valid : Valid img p sb) :
    ListsRoot env img p sb ↔ Listable env img p sb :=
  ⟨listable_of_listsRoot valid, listsRoot_of_listable valid⟩

theorem listable_of_low (valid : Valid img p sb) (rootLow : rootOffset p sb < 2 ^ 32)
    (zonesLow : ∀ i, (rootInode img p sb).zone i ≠ 0 →
      zoneStart p sb ((rootInode img p sb).zone i) < 2 ^ 32)
    (inFirstBlocks : ∀ k < rootSlots img p sb, dirSlot img p sb (rootInode img p sb) k ≠ none →
      k / slotsPerZone sb < directZones ∧ k % slotsPerZone sb < slotsPerBlock sb)
    (withinSize : ∀ i j, (rootInode img p sb).zone i ≠ 0 → j < slotsPerBlock sb →
      entryAt img (readPlace img p sb i j) ≠ none →
      i * slotsPerZone sb + j < rootSlots img p sb)
    (terminated : ∀ i j, (rootInode img p sb).zone i ≠ 0 → j < slotsPerBlock sb →
      entryAt img (readPlace img p sb i j) ≠ none →
      0 ∈ entryName img.bytes (readPlace img p sb i j) ∨ env.behind i j = []) :
    Listable env img p sb where
  root := by rw [toNat_rootInodeOffset valid, Nat.mod_eq_of_lt rootLow, rootInode]
  inFirstBlocks := inFirstBlocks
  withinSize := withinSize
  terminated := terminated
  place i j used _ _ := by rw [readPlace, toNat_zoneOffset_low valid (zonesLow i used)]

end Listing

/-- Sixteen blocks of 1024 bytes, with `2 ^ log` of them in a zone: the superblock, a block for
each bitmap and two blocks of inodes, of which the root inode has the first data zone. -/
def smallDisk (log firstdata : UInt8) (more : List (Nat × UInt8)) : Image where
  length := 16384
  bytes := sparse ([(1024, 32), (1030, 1), (1032, 1), (1034, firstdata), (1036, log),
    (1044, 16 >>> log), (1048, 0x5A), (1049, 0x4D), (1053, 4), (3072, 3), (4097, 0x41), (4098, 2),
    (4120, firstdata)] ++ more)

def smallSuperblock (img : Image) : Superblock := superblock fun i => img.bytes (1024 + i)

/-- The entries "." and "..". -/
def oneBlock : Image :=
  smallDisk 0 6 [(2048, 3), (4104, 128), (6144, 1), (6148, 0x2E), (6208, 1), (6212, 0x2E),
    (6213, 0x2E)]

/-- The same in zones of two blocks, and in the second block the entry "a" of the empty file with
inode 2. -/
def twoBlocks : Image :=
  smallDisk 1 3 [(2048, 7), (4104, 64), (4105, 4), (4161, 0x81), (4162, 1), (6144, 1),
    (6148, 0x2E), (6208, 1), (6212, 0x2E), (6213, 0x2E), (7168, 2), (7172, 0x61)]

theorem oneBlock_valid : Valid oneBlock 0 (smallSuperblock oneBlock) where
  blocksize := by decide
  entriesFit := by decide
  iBlocks := by decide
  zBlocks := by decide
  logZoneSize := by decide
  rootInside := by decide
  directory := by decide
  zonesInside := by decide

theorem twoBlocks_valid : Valid twoBlocks 0 (smallSuperblock twoBlocks) where
  blocksize := by decide
  entriesFit := by decide
  iBlocks := by decide
  zBlocks := by decide
  logZoneSize := by decide
  rootInside := by decide
  directory := by decide
  zonesInside := by decide

theorem oneBlock_entries : ∀ j < slotsPerBlock (smallSuperblock oneBlock),
    entryAt oneBlock (readPlace oneBlock 0 (smallSuperblock oneBlock) 0 j) ≠ none →
      j < 2 ∧ 0 ∈ entryName oneBlock.bytes
        (readPlace oneBlock 0 (smallSuperblock oneBlock) 0 j) := by
  decide

theorem oneBlock_listable : Listable quiet oneBlock 0 (smallSuperblock oneBlock) := by
  have zone : ∀ i, (rootInode oneBlock 0 (smallSuperblock oneBlock)).zone i ≠ 0 → i = 0 := by
    decide
  refine listable_of_low oneBlock_valid (by decide) (by decide) (by decide) ?_ ?_
  · intro i j used first present
    obtain rfl := zone i used
    have small := (oneBlock_entries j first present).1
    have slots : rootSlots oneBlock 0 (smallSuperblock oneBlock) = 2 := by decide
    rw [slots]
    simpa using small
  · intro i j used first present
    obtain rfl := zone i used
    exact Or.inl (oneBlock_entries j first present).2

theorem lists_root_iff_oneBlock : ListsRoot quiet oneBlock 0 (smallSuperblock oneBlock) :=
  (lists_root_iff oneBlock_valid).mpr oneBlock_listable

/-- The entry in the second block is not printed. -/
theorem lists_root_incomplete :
    Valid twoBlocks 0 (smallSuperblock twoBlocks) ∧
      ¬ ListsRoot quiet twoBlocks 0 (smallSuperblock twoBlocks) := by
  refine ⟨twoBlocks_valid, fun lists => ?_⟩
  have first := (listable_of_listsRoot twoBlocks_valid lists).inFirstBlocks 16 (by decide)
    (by decide)
  exact absurd first (by decide)

end Csc457.Minls
