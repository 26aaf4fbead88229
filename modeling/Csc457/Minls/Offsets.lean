import Csc457.Minls.Directory

/-!
# Offsets in the image

The offsets main and list_directory compute in 32 bits, against the places on the disk they
mean.  The first sector of an entry is counted from the start of the disk, in the table of a
partition as well; main adds that of a subpartition to that of the partition around it.
-/

set_option autoImplicit false

namespace Csc457.Minls

open Csc457.Lib.ByteMemory

/-- `partition_offset`, from the entries chosen in the tables. -/
def partitionOffsetOf (chosen : List PartitionEntry) : BitVec 32 :=
  chosen.foldl (fun offset entry => offset + entry.lFirst * sectorSize) 0

/-- `superblock_offset` -/
def superblockOffset (partitionOffset : BitVec 32) : Nat :=
  (partitionOffset + BitVec.ofNat 32 bootBlockSize).toNat

/-- `zone_offset + j * sizeof(struct dir_entry)`, where the sum has 64 bits. -/
def entryOffset (partitionOffset : BitVec 32) (sb : Superblock) (zone : BitVec 32) (j : Nat) :
    Nat :=
  (zoneOffset partitionOffset sb zone).toNat + j * dirEntryBytes

/-- The entries main takes the offset of the partition from. -/
def chosenEntries (env : Environment) (img : Image) (options : Options) (partitions : Table)
    (tableExists : Bool) : List PartitionEntry :=
  if options.part = -1 then []
  else match env.index .partition partitions options.part with
    | none => []
    | some chosen =>
        if options.subpart = -1 then [chosen]
        else
          let (_, _, subpartitions, _) :=
            readPartitionTable img emptyTable tableExists (chosen.lFirst * sectorSize)
          chosen :: (env.index .subpartition subpartitions options.subpart).toList

theorem selectPartition_offset {env : Environment} {img : Image} {options : Options}
    {partitions : Table} {tableExists : Bool} {offset : BitVec 32}
    (selected : (selectPartition env img options partitions tableExists).2 = .ok offset) :
    offset = partitionOffsetOf (chosenEntries env img options partitions tableExists) := by
  unfold selectPartition at selected
  unfold chosenEntries
  by_cases whole : options.part = -1
  · rw [if_pos whole] at selected ⊢
    exact (Except.ok.inj selected).symm
  · rw [if_neg whole] at selected ⊢
    cases found : env.index .partition partitions options.part with
    | none =>
        rw [found] at selected
        cases selected
    | some chosen =>
        simp only [found] at selected ⊢
        by_cases other : chosen.type ≠ minixPartitionType
        · rw [if_pos other] at selected
          cases selected
        · rw [if_neg other] at selected
          by_cases noSub : options.subpart = -1
          · rw [if_pos noSub] at selected ⊢
            have isOffset := Except.ok.inj selected
            simp [partitionOffsetOf, isOffset]
          · rw [if_neg noSub] at selected ⊢
            split at selected
            · cases selected
            · next inner isInner =>
                have isOffset := Except.ok.inj selected
                simp [isInner, partitionOffsetOf, isOffset]

/-! ## The places on the disk -/

def PartitionEntry.start (entry : PartitionEntry) : Nat := entry.lFirst.toNat * sectorSize.toNat

/-- The byte the file system starts at: that of the innermost entry, or of the disk. -/
def startOf (chosen : List PartitionEntry) : Nat := (chosen.getLast?.map PartitionEntry.start).getD 0

def addedTo (chosen : List PartitionEntry) : Nat := (chosen.dropLast.map PartitionEntry.start).sum

def inodeTableBytes (sb : Superblock) : Nat :=
  (2 + sb.iBlocks.toInt.toNat + sb.zBlocks.toInt.toNat) * sb.blocksize.toNat

structure Superblock.NonNegative (sb : Superblock) : Prop where
  iBlocks : 0 ≤ sb.iBlocks.toInt
  zBlocks : 0 ≤ sb.zBlocks.toInt
  logZoneSize : 0 ≤ sb.logZoneSize.toInt

/-- Every offset is the one that is meant. -/
structure OffsetsExact (chosen : List PartitionEntry) (sb : Superblock) (inode : Inode) :
    Prop where
  superblock : superblockOffset (partitionOffsetOf chosen) = startOf chosen + bootBlockSize
  inodeTable : (rootInodeOffset (partitionOffsetOf chosen) sb).toNat =
    startOf chosen + inodeTableBytes sb
  zone : ∀ i, inode.zone i ≠ 0 → (zoneOffset (partitionOffsetOf chosen) sb (inode.zone i)).toNat =
    startOf chosen + (inode.zone i).toNat * zoneBytes sb
  entry : ∀ i j, inode.zone i ≠ 0 → j < slotsPerBlock sb →
    entryOffset (partitionOffsetOf chosen) sb (inode.zone i) j =
      startOf chosen + (inode.zone i).toNat * zoneBytes sb + j * dirEntryBytes

/-- The superblock, the inode table and the zones start below 4 GiB. -/
structure Below4G (chosen : List PartitionEntry) (sb : Superblock) (inode : Inode) : Prop where
  superblock : startOf chosen + bootBlockSize < 2 ^ 32
  inodeTable : startOf chosen + inodeTableBytes sb < 2 ^ 32
  zone : ∀ i, inode.zone i ≠ 0 →
    startOf chosen + (inode.zone i).toNat * zoneBytes sb < 2 ^ 32

/-- No first sector is added to that of the innermost entry, but multiples of 4 GiB. -/
def Unshifted (chosen : List PartitionEntry) : Prop := addedTo chosen % 2 ^ 32 = 0

section Exact
variable {chosen : List PartitionEntry} {sb : Superblock} {inode : Inode}

theorem sum_start (chosen : List PartitionEntry) :
    (chosen.map PartitionEntry.start).sum = addedTo chosen + startOf chosen := by
  rcases List.eq_nil_or_concat chosen with rfl | ⟨enclosing, entry, rfl⟩
  · rfl
  · simp [addedTo, startOf]

theorem toNat_foldl_sectors (chosen : List PartitionEntry) (offset : BitVec 32) :
    (chosen.foldl (fun offset entry => offset + entry.lFirst * sectorSize) offset).toNat =
      (offset.toNat + (chosen.map PartitionEntry.start).sum) % 2 ^ 32 := by
  induction chosen generalizing offset with
  | nil => exact (Nat.mod_eq_of_lt offset.isLt).symm
  | cons entry chosen ih =>
      have more : ((entry :: chosen).map PartitionEntry.start).sum =
          entry.lFirst.toNat * sectorSize.toNat + (chosen.map PartitionEntry.start).sum := by
        simp [PartitionEntry.start]
      rw [List.foldl_cons, ih, more, BitVec.toNat_add, BitVec.toNat_mul, Nat.mod_add_mod,
        ← Nat.add_assoc, Nat.add_assoc, Nat.add_comm offset.toNat, Nat.add_assoc,
        Nat.mod_add_mod]
      congr 1
      omega

theorem toNat_partitionOffsetOf (chosen : List PartitionEntry) :
    (partitionOffsetOf chosen).toNat = (addedTo chosen + startOf chosen) % 2 ^ 32 := by
  rw [partitionOffsetOf, toNat_foldl_sectors, sum_start]
  simp

theorem Unshifted.toNat (unshifted : Unshifted chosen) :
    (partitionOffsetOf chosen).toNat = startOf chosen % 2 ^ 32 := by
  unfold Unshifted at unshifted
  rw [toNat_partitionOffsetOf, Nat.add_mod, unshifted, Nat.zero_add, Nat.mod_mod]

theorem superblockOffset_exact_iff :
    superblockOffset (partitionOffsetOf chosen) = startOf chosen + bootBlockSize ↔
      Unshifted chosen ∧ startOf chosen + bootBlockSize < 2 ^ 32 := by
  have offset : superblockOffset (partitionOffsetOf chosen) =
      (addedTo chosen + (startOf chosen + bootBlockSize)) % 2 ^ 32 := by
    rw [superblockOffset, BitVec.toNat_add, toNat_partitionOffsetOf, Nat.mod_add_mod,
      BitVec.toNat_ofNat, Nat.add_mod_mod, Nat.add_assoc]
  rw [offset, Unshifted]
  constructor
  · intro exact
    have low := Nat.mod_lt (addedTo chosen + (startOf chosen + bootBlockSize))
      (show 0 < 2 ^ 32 by decide)
    rw [exact] at low
    exact ⟨by omega, low⟩
  · rintro ⟨unshifted, low⟩
    omega

theorem rootInodeOffset_exact_iff (unshifted : Unshifted chosen) (iBlocks : 0 ≤ sb.iBlocks.toInt)
    (zBlocks : 0 ≤ sb.zBlocks.toInt) :
    (rootInodeOffset (partitionOffsetOf chosen) sb).toNat = startOf chosen + inodeTableBytes sb ↔
      startOf chosen + inodeTableBytes sb < 2 ^ 32 := by
  have offset : (rootInodeOffset (partitionOffsetOf chosen) sb).toNat =
      (startOf chosen + inodeTableBytes sb) % 2 ^ 32 :=
    toNat_rootInodeOffset_mod unshifted.toNat iBlocks zBlocks
  rw [offset]
  exact Nat.mod_eq_iff_lt (by decide)

/-- minls reads where it means to when nothing is added to the start of the file system and what
it reads starts below 4 GiB, and in no other case. -/
theorem offsets_exact_iff (nonneg : sb.NonNegative) :
    OffsetsExact chosen sb inode ↔ Unshifted chosen ∧ Below4G chosen sb inode := by
  have zone : ∀ i, Unshifted chosen →
      ((zoneOffset (partitionOffsetOf chosen) sb (inode.zone i)).toNat =
        startOf chosen + (inode.zone i).toNat * zoneBytes sb ↔
          startOf chosen + (inode.zone i).toNat * zoneBytes sb < 2 ^ 32) :=
    fun i unshifted => zoneOffset_exact_iff unshifted.toNat nonneg.logZoneSize (inode.zone i)
  constructor
  · intro exact
    obtain ⟨unshifted, superblock⟩ := superblockOffset_exact_iff.mp exact.superblock
    refine ⟨unshifted, superblock, ?_, fun i used => (zone i unshifted).mp (exact.zone i used)⟩
    exact (rootInodeOffset_exact_iff unshifted nonneg.iBlocks nonneg.zBlocks).mp exact.inodeTable
  · rintro ⟨unshifted, low⟩
    refine ⟨superblockOffset_exact_iff.mpr ⟨unshifted, low.superblock⟩, ?_,
      fun i used => (zone i unshifted).mpr (low.zone i used), fun i j used _ => ?_⟩
    · exact (rootInodeOffset_exact_iff unshifted nonneg.iBlocks nonneg.zBlocks).mpr low.inodeTable
    · rw [entryOffset, (zone i unshifted).mpr (low.zone i used)]

end Exact

/-- The superblock and the root inode of the image with one block. -/
theorem offsets_exact_iff_oneBlock :
    OffsetsExact [⟨minixPartitionType, 63⟩] (smallSuperblock oneBlock)
      (rootInode oneBlock 0 (smallSuperblock oneBlock)) := by
  refine (offsets_exact_iff ⟨by decide, by decide, by decide⟩).mpr ⟨rfl, by decide, by decide, ?_⟩
  decide

/-- A partition from 4 GiB on is looked for at the start of the disk, and a subpartition behind
its end. -/
theorem offsets_wrap :
    (smallSuperblock oneBlock).NonNegative ∧
      superblockOffset (partitionOffsetOf [⟨minixPartitionType, 0x800000⟩]) = 1024 ∧
      ¬ OffsetsExact [⟨minixPartitionType, 0x800000⟩] (smallSuperblock oneBlock)
        (rootInode oneBlock 0 (smallSuperblock oneBlock)) ∧
      superblockOffset (partitionOffsetOf
        [⟨minixPartitionType, 1881⟩, ⟨minixPartitionType, 1883⟩]) = 1928192 ∧
      startOf [⟨minixPartitionType, 1881⟩, ⟨minixPartitionType, 1883⟩] + bootBlockSize = 965120 ∧
      ¬ OffsetsExact [⟨minixPartitionType, 1881⟩, ⟨minixPartitionType, 1883⟩]
        (smallSuperblock oneBlock) (rootInode oneBlock 0 (smallSuperblock oneBlock)) := by
  refine ⟨⟨by decide, by decide, by decide⟩, by decide, fun exact => ?_, by decide, by decide,
    fun exact => ?_⟩
  · exact absurd exact.superblock (by decide)
  · exact absurd exact.superblock (by decide)

end Csc457.Minls
