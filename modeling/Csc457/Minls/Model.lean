import Csc457.Lib.ByteMemory
import Mathlib.Data.UInt
import Mathlib.Data.List.FinRange

/-!
# minls

The functions of minls.c over an image file.  What they print and which reads they make is
a list of events.  What C leaves open is in `Environment`: uninitialised variables, what an
index outside a table reads, and the bytes behind `entry` on the stack.

Unsigned and int arithmetic is in 32 bits, an int that overflows wraps, and a shift uses the
low five bits of its count, as the compiled program does.
-/

set_option autoImplicit false

namespace Csc457.Minls

open Csc457.Lib.ByteMemory

def partitionTableOffset : Nat := 0x1BE
def minixPartitionType : UInt8 := 0x81
def validByte510 : UInt8 := 0x55
def validByte511 : UInt8 := 0xAA
def numPartitions : Nat := 4
def sectorSize : BitVec 32 := 512
def minixMagicNum : BitVec 16 := 0x4D5A
abbrev directZones : Nat := 7
def bootBlockSize : Nat := 1024
def minixFileTypeMask : BitVec 16 := 0o170000
def minixDirType : BitVec 16 := 0o040000

def u16 (b : Memory) (offset : Nat) : BitVec 16 := BitVec.ofNat 16 (loadBytes b offset 2)

def u32 (b : Memory) (offset : Nat) : BitVec 32 := BitVec.ofNat 32 (loadBytes b offset 4)

structure Superblock where
  ninodes : BitVec 32
  iBlocks : BitVec 16
  zBlocks : BitVec 16
  firstdata : BitVec 16
  logZoneSize : BitVec 16
  zones : BitVec 32
  magic : BitVec 16
  blocksize : BitVec 16
  deriving DecidableEq

/-- `sizeof(struct superblock)`, which is packed. -/
def superblockBytes : Nat := 31

def superblock (b : Memory) : Superblock where
  ninodes := u32 b 0
  iBlocks := u16 b 6
  zBlocks := u16 b 8
  firstdata := u16 b 10
  logZoneSize := u16 b 12
  zones := u32 b 20
  magic := u16 b 24
  blocksize := u16 b 28

structure PartitionEntry where
  type : UInt8
  lFirst : BitVec 32
  deriving DecidableEq

/-- `sizeof(struct partition_entry)` -/
def partitionEntryBytes : Nat := 16

def partitionEntry (b : Memory) (offset : Nat) : PartitionEntry :=
  ⟨b (offset + 4), u32 b (offset + 8)⟩

structure Inode where
  mode : BitVec 16
  links : BitVec 16
  uid : BitVec 16
  gid : BitVec 16
  size : BitVec 32
  zone : Fin directZones → BitVec 32
  indirect : BitVec 32
  twoIndirect : BitVec 32

/-- `sizeof(struct inode)` -/
def inodeBytes : Nat := 64

def inodeAt (b : Memory) (offset : Nat) : Inode where
  mode := u16 b offset
  links := u16 b (offset + 2)
  uid := u16 b (offset + 4)
  gid := u16 b (offset + 6)
  size := u32 b (offset + 8)
  zone i := u32 b (offset + 24 + 4 * i)
  indirect := u32 b (offset + 52)
  twoIndirect := u32 b (offset + 56)

/-- `sizeof(struct dir_entry)`: a word and `name[60]`. -/
def dirEntryBytes : Nat := 64

def entryInode (b : Memory) (offset : Nat) : BitVec 32 := u32 b offset

def entryName (b : Memory) (offset : Nat) : List UInt8 :=
  (List.range 60).map fun i => b (offset + 4 + i)

/-! ## The image and what C leaves open -/

structure Image where
  length : Nat
  bytes : Memory

/-- What pread, or read after lseek, returns. -/
def Image.available (img : Image) (offset count : Nat) : Nat := min count (img.length - offset)

def Image.readInto (img : Image) (offset count : Nat) (buffer : Memory) : Memory := fun i =>
  if i < img.available offset count then img.bytes (offset + i) else buffer i

abbrev Arg := List Char

/-- The places of main that index a partition table. -/
inductive Access where
  | partition
  | subpartition
  | verboseSubpartition
  deriving DecidableEq

structure Environment where
  /-- `open(path, O_RDONLY)` -/
  files : Arg → Option Image
  /-- An index outside the table; `none` is a fault. -/
  beside : Access → Int → Option PartitionEntry
  /-- `sb` of main before it is read. -/
  superblock : Memory
  /-- `entry` of list_directory before it is read. -/
  entry : Memory
  /-- The bytes behind `entry`, up to a NUL, when slot `j` of zone `i` is printed. -/
  behind : Nat → Nat → List UInt8

inductive Event where
  | opened (path : Arg)
  | tableRead (offset : Nat)
  | superblockRead (offset : Nat)
  | usage
  | out (format : String) (values : List Int)
  | err (format : String) (values : List Int)
  | perror (text : String)
  /-- `"  %s (inode %u)\n"` for slot `j` of zone `i`. -/
  | entry (i j : Nat) (name : List UInt8) (inode : BitVec 32)
  deriving DecidableEq

inductive Exit where
  | success
  | failure
  | fault
  deriving DecidableEq

abbrev Table := Fin numPartitions → PartitionEntry

def emptyTable : Table := fun _ => ⟨0, 0⟩

def tableAt (img : Image) (offset : Nat) : Table := fun i =>
  partitionEntry img.bytes (offset + partitionTableOffset + partitionEntryBytes * i)

/-- The table and `partition_table_exists` are left alone by a read that fails. -/
def readPartitionTable (img : Image) (partitions : Table) (tableExists : Bool)
    (baseOffset : BitVec 32) : Int × List Event × Table × Bool :=
  let offset := baseOffset.toNat
  if img.available offset bootBlockSize ≠ bootBlockSize then
    (-1, [.tableRead offset, .perror "Error reading partition table"], partitions, tableExists)
  else if img.bytes (offset + 510) ≠ validByte510 ∨ img.bytes (offset + 511) ≠ validByte511 then
    (-1, [.tableRead offset, .err "No valid partition table found.\n" []], partitions, tableExists)
  else (0, [.tableRead offset], tableAt img offset, true)

def readSuperblock (img : Image) (sb : Memory) (partitionOffset : BitVec 32) :
    Int × List Event × Memory :=
  let offset := (partitionOffset + BitVec.ofNat 32 bootBlockSize).toNat
  let sb := img.readInto offset superblockBytes sb
  if img.available offset superblockBytes ≠ superblockBytes then
    (-1, [.superblockRead offset, .perror "Error reading superblock"], sb)
  else (0, [.superblockRead offset], sb)

def printInode (inode : Inode) : List Event :=
  [.out "Inode info:\n" [],
    .out "  Links: %u\n" [inode.links.toNat],
    .out "  UID: %u\n" [inode.uid.toNat],
    .out "  GID: %u\n" [inode.gid.toNat],
    .out "  Mode: 0x%X\n" [inode.mode.toNat],
    .out "  Size: %u bytes\n" [inode.size.toNat],
    .out "  Zones: [" []] ++
  (List.finRange directZones).map (fun i => .out " %u" [(inode.zone i).toNat]) ++
  [.out " ]\n" []]

/-- `partition_offset + (2 + i_blocks + z_blocks) * blocksize` -/
def rootInodeOffset (partitionOffset : BitVec 32) (sb : Superblock) : BitVec 32 :=
  partitionOffset +
    (2 + sb.iBlocks.signExtend 32 + sb.zBlocks.signExtend 32) * sb.blocksize.setWidth 32

/-- `blocksize << log_zone_size` -/
def zoneSize (sb : Superblock) : BitVec 32 :=
  sb.blocksize.setWidth 32 <<< (sb.logZoneSize.toNat % 32)

def zoneOffset (partitionOffset : BitVec 32) (sb : Superblock) (zone : BitVec 32) : BitVec 32 :=
  partitionOffset + zone * zoneSize sb

/-- What `%s` prints of the name: it runs on where the name fills its 60 bytes. -/
def shownName (name behind : List UInt8) : List UInt8 :=
  if 0 ∈ name then name.takeWhile (· ≠ 0) else name ++ behind

/-- The loop over `j`, with `left` turns to go; `entry` keeps what a read does not reach. -/
def listSlots (env : Environment) (img : Image) (i offset : Nat) :
    Nat → Nat → Memory → List Event × Memory
  | 0, _, entry => ([], entry)
  | left + 1, j, entry =>
      let entry := img.readInto (offset + j * dirEntryBytes) dirEntryBytes entry
      let (events, last) := listSlots env img i offset left (j + 1) entry
      if entryInode entry 0 = 0 then (events, last)
      else
        (.entry i j (shownName (entryName entry 0) (env.behind i j)) (entryInode entry 0) :: events,
          last)

/-- The loop over the zones `i`. -/
def listZones (env : Environment) (img : Image) (partitionOffset : BitVec 32) (sb : Superblock)
    (inode : Inode) : List (Fin directZones) → Memory → List Event × Memory
  | [], entry => ([], entry)
  | i :: rest, entry =>
      if inode.zone i = 0 then
        let (events, last) := listZones env img partitionOffset sb inode rest entry
        (.out "Inode zone %d is empty\n" [i.val] :: events, last)
      else
        let offset := (zoneOffset partitionOffset sb (inode.zone i)).toNat
        let (here, entry) :=
          listSlots env img i offset (sb.blocksize.toNat / dirEntryBytes) 0 entry
        let (events, last) := listZones env img partitionOffset sb inode rest entry
        (here ++ events, last)

def listDirectory (env : Environment) (img : Image) (sb : Superblock)
    (partitionOffset : BitVec 32) : Int × List Event :=
  let offset := (rootInodeOffset partitionOffset sb).toNat
  let start := Event.out "Using partition offset %u\n" [partitionOffset.toNat]
  if img.available offset inodeBytes ≠ inodeBytes then (-1, [start, .perror "Error reading inode"])
  else
    let inode := inodeAt img.bytes offset
    if inode.mode &&& minixFileTypeMask ≠ minixDirType then
      (-1, start :: printInode inode ++ [.err "Error: Root inode is not a directory!\n" []])
    else
      (0, start :: printInode inode ++ .out "/:\n" [] ::
        (listZones env img partitionOffset sb inode (List.finRange directZones) env.entry).1)

/-! ## main -/

structure Options where
  verbose : Bool
  part : Int
  subpart : Int
  deriving DecidableEq

def isSpace (c : Char) : Bool := c = ' ' ∨ '\t' ≤ c ∧ c ≤ '\r'

def leadingNumber (s : List Char) : Nat :=
  (s.takeWhile Char.isDigit).foldl (fun value c => 10 * value + (c.toNat - '0'.toNat)) 0

/-- `(int) strtol(s, NULL, 10)`: strtol stops at the ends of long. -/
def atoi (s : List Char) : Int :=
  let value : Int := match s.dropWhile isSpace with
    | '-' :: digits => -leadingNumber digits
    | '+' :: digits => leadingNumber digits
    | digits => leadingNumber digits
  (BitVec.ofInt 32 (max (-2 ^ 63) (min (2 ^ 63 - 1) value))).toInt

/-- The loop over the arguments; `none` is an option without its value. -/
def parseArguments : List Arg → Options → Option Options
  | [], options => some options
  | arg :: rest, options =>
      if arg = ['-', 'v'] then parseArguments rest { options with verbose := true }
      else if arg = ['-', 'p'] then
        match rest with
        | [] => none
        | value :: rest => parseArguments rest { options with part := atoi value }
      else if arg = ['-', 's'] then
        match rest with
        | [] => none
        | value :: rest => parseArguments rest { options with subpart := atoi value }
      else parseArguments rest options

/-- `table[i]` -/
def Environment.index (env : Environment) (access : Access) (table : Table) (i : Int) :
    Option PartitionEntry :=
  if inside : 0 ≤ i ∧ i < numPartitions then some (table ⟨i.toNat, by omega⟩)
  else env.beside access i

/-- The offset of the partition, or how main ends here. -/
def selectPartition (env : Environment) (img : Image) (options : Options) (partitions : Table)
    (tableExists : Bool) : List Event × Except Exit (BitVec 32) :=
  if options.part = -1 then ([], .ok 0)
  else match env.index .partition partitions options.part with
    | none => ([], .error .fault)
    | some chosen =>
        let offset := chosen.lFirst * sectorSize
        let shown := if options.verbose then
            [.out "Using partition %d at offset %u bytes\n" [options.part, offset.toNat]]
          else []
        if chosen.type ≠ minixPartitionType then
          (shown ++ [.err "Partition %d is not a Minix partition\n" [options.part]],
            .error .failure)
        else if options.subpart = -1 then (shown, .ok offset)
        else
          -- what read_partition_table returns is not looked at
          let (_, events, subpartitions, _) := readPartitionTable img emptyTable tableExists offset
          match env.index .subpartition subpartitions options.subpart with
          | none => (shown ++ events, .error .fault)
          | some chosen => (shown ++ events, .ok (offset + chosen.lFirst * sectorSize))

/-- The offset main computes for the subpartition and only prints. -/
def showSubpartition (env : Environment) (options : Options) (partitions : Table) :
    List Event × Except Exit Unit :=
  if options.subpart = -1 then ([], .ok ())
  else match env.index .verboseSubpartition partitions options.subpart with
    | none => ([], .error .fault)
    | some chosen =>
        (if options.verbose then
            [.out "Using subpartition %d at offset %u bytes\n"
              [options.subpart, (chosen.lFirst * sectorSize).toNat]]
          else [], .ok ())

def showFileSystem (env : Environment) (img : Image) (partitionOffset : BitVec 32) :
    List Event × Exit :=
  let (_, events, buffer) := readSuperblock img env.superblock partitionOffset
  let sb := superblock buffer
  if sb.magic ≠ minixMagicNum then
    (events ++ [.err "Invalid Minix filesystem (magic number: 0x%04X)\n"
      [(sb.magic.signExtend 32).toNat]], .failure)
  else
    (events ++
      [.out "Superblock Contents:\n" [],
        .out "Number of inodes: %u\n" [sb.ninodes.toNat],
        .out "Number of zones: %u\n" [sb.zones.toNat],
        .out "Block size: %u\n" [sb.blocksize.toNat],
        .out "First data zone: %u\n" [sb.firstdata.toNat],
        .out "Filesystem magic: 0x%04X\n" [(sb.magic.signExtend 32).toNat]] ++
      (listDirectory env img sb partitionOffset).2, .success)

/-- main after the partition is selected. -/
def showPartition (env : Environment) (img : Image) (options : Options) (partitions : Table)
    (partitionOffset : BitVec 32) : List Event × Exit :=
  match showSubpartition env options partitions with
  | (shown, .error exit) => (shown, exit)
  | (shown, .ok ()) =>
      let run := showFileSystem env img partitionOffset
      (shown ++ run.1, run.2)

def showImage (env : Environment) (img : Image) (options : Options) : List Event × Exit :=
  let (_, table, partitions, tableExists) := readPartitionTable img emptyTable false 0
  if tableExists = false ∧ (options.part ≠ -1 ∨ options.subpart ≠ -1) then
    (table ++ [.err "No partition table found but partition or subpartition specified\n" []],
      .failure)
  else match selectPartition env img options partitions tableExists with
    | (events, .error exit) => (table ++ events, exit)
    | (events, .ok partitionOffset) =>
        let run := showPartition env img options partitions partitionOffset
        (table ++ events ++ run.1, run.2)

/-- `args` are the arguments after `argv[0]`. -/
def main (env : Environment) (args : List Arg) : List Event × Exit :=
  match parseArguments args ⟨false, -1, -1⟩, args.getLast? with
  | none, _ => ([.usage], .failure)
  | _, none => ([.usage], .failure)
  | some options, some imagefile =>
      match env.files imagefile with
      | none => ([.opened imagefile, .perror "Error opening image file"], .failure)
      | some img =>
          let run := showImage env img options
          (.opened imagefile :: run.1, run.2)

/-- No file opens, what is not initialised is zero, and a NUL follows `entry`. -/
def quiet : Environment where
  files _ := none
  beside _ _ := none
  superblock _ := 0
  entry _ := 0
  behind _ _ := []

end Csc457.Minls
