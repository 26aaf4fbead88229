import Csc457.Minls.CommandLine
import Csc457.Minls.Offsets

/-!
# Images that are cut short

Which reads of the file system an image serves in full, and what main prints of the
superblock, the root inode and the directory entries.  What a read does not reach keeps what
the variable held before.
-/

set_option autoImplicit false

namespace Csc457.Minls

open Csc457.Lib.ByteMemory

section Reads
variable (img : Image) (p : BitVec 32)

def superblockAt : Superblock := superblock fun i => img.bytes (superblockOffset p + i)

def inodePlace : Nat := (rootInodeOffset p (superblockAt img p)).toNat

def foundInode : Inode := inodeAt img.bytes (inodePlace img p)

/-- Where slot `j` of zone `i` is read. -/
def slotPlace (i : Fin directZones) (j : Nat) : Nat :=
  entryOffset p (superblockAt img p) ((foundInode img p).zone i) j

def SuperblockWhole : Prop := superblockOffset p + superblockBytes ≤ img.length

/-- The superblock was read and is one, so list_directory reads the root inode. -/
def ReadsInode : Prop := SuperblockWhole img p ∧ (superblockAt img p).magic = minixMagicNum

def InodeWhole : Prop := inodePlace img p + inodeBytes ≤ img.length

/-- The root inode was read and is a directory. -/
def ReadsDirectory : Prop :=
  ReadsInode img p ∧ InodeWhole img p ∧
    (foundInode img p).mode &&& minixFileTypeMask = minixDirType

/-- list_directory reads slot `j` of zone `i`. -/
def ReadsSlot (i : Fin directZones) (j : Nat) : Prop :=
  ReadsDirectory img p ∧ (foundInode img p).zone i ≠ 0 ∧ j < slotsPerBlock (superblockAt img p)

def SlotWhole (i : Fin directZones) (j : Nat) : Prop :=
  slotPlace img p i j + dirEntryBytes ≤ img.length

def CutShort : Prop :=
  ¬ SuperblockWhole img p ∨ (ReadsInode img p ∧ ¬ InodeWhole img p) ∨
    ∃ i j, ReadsSlot img p i j ∧ ¬ SlotWhole img p i j

end Reads

/-- The formats of the fields of the superblock and of the root inode. -/
def fieldFormats : List String :=
  ["Number of inodes: %u\n", "Number of zones: %u\n", "Block size: %u\n",
    "First data zone: %u\n", "Filesystem magic: 0x%04X\n", "  Links: %u\n", "  UID: %u\n",
    "  GID: %u\n", "  Mode: 0x%X\n", "  Size: %u bytes\n", " %u", "Inode zone %d is empty\n",
    "Invalid Minix filesystem (magic number: 0x%04X)\n"]

/-- It prints a field of the superblock, of the root inode or of a directory entry. -/
def Event.shows : Event → Bool
  | .out format _ => format ∈ fieldFormats
  | .err format _ => format ∈ fieldFormats
  | .entry _ _ _ _ => true
  | _ => false

def superblockLines (sb : Superblock) : List Event :=
  [.out "Superblock Contents:\n" [],
    .out "Number of inodes: %u\n" [sb.ninodes.toNat],
    .out "Number of zones: %u\n" [sb.zones.toNat],
    .out "Block size: %u\n" [sb.blocksize.toNat],
    .out "First data zone: %u\n" [sb.firstdata.toNat],
    .out "Filesystem magic: 0x%04X\n" [(sb.magic.signExtend 32).toNat]]

def magicLine (sb : Superblock) : Event :=
  .err "Invalid Minix filesystem (magic number: 0x%04X)\n" [(sb.magic.signExtend 32).toNat]

/-- A line whose fields are bytes of the image, from a read that was served in full. -/
inductive Backed (img : Image) (p : BitVec 32) : Event → Prop where
  | superblock {e : Event} (whole : SuperblockWhole img p)
      (line : e ∈ magicLine (superblockAt img p) :: superblockLines (superblockAt img p)) :
      Backed img p e
  | inode {e : Event} (reads : ReadsInode img p) (whole : InodeWhole img p)
      (line : e ∈ printInode (foundInode img p)) : Backed img p e
  | hole {i : Fin directZones} (reads : ReadsInode img p) (whole : InodeWhole img p)
      (empty : (foundInode img p).zone i = 0) :
      Backed img p (.out "Inode zone %d is empty\n" [i.val])
  | entry {i : Fin directZones} {j : Nat} {d : DirEntry} (reads : ReadsSlot img p i j)
      (whole : SlotWhole img p i j) (there : entryAt img (slotPlace img p i j) = some d) :
      Backed img p (.entry i j d.name d.inode)

def Opens (env : Environment) (args : List Arg) (img : Image) : Prop :=
  ∃ file, args.getLast? = some file ∧ env.files file = some img

/-- The fields that are printed are backed, a read that is cut short is reported after the
superblock was read, and the run is the same whatever memory was left uninitialised. -/
structure NothingInvented (env : Environment) (args : List Arg) : Prop where
  backed : ∀ e ∈ (main env args).1, e.shows = true → ∃ img p, Opens env args img ∧
    .superblockRead (superblockOffset p) ∈ (main env args).1 ∧ Backed img p e
  reported : ∀ img p before after, Opens env args img →
    (main env args).1 = before ++ .superblockRead (superblockOffset p) :: after →
    CutShort img p → ∃ e ∈ after, e.reports = true
  determined : ∀ env', env'.files = env.files → env'.beside = env.beside →
    main env' args = main env args

/-! ## Up to the superblock -/

/-- What main prints before it reads the superblock, and the offset of the partition. -/
def untilSuperblock (env : Environment) (img : Image) (options : Options) :
    List Event × Except Exit (BitVec 32) :=
  let (_, table, partitions, tableExists) := readPartitionTable img emptyTable false 0
  if tableExists = false ∧ (options.part ≠ -1 ∨ options.subpart ≠ -1) then
    (table ++ [.err "No partition table found but partition or subpartition specified\n" []],
      .error .failure)
  else match selectPartition env img options partitions tableExists with
    | (events, .error exit) => (table ++ events, .error exit)
    | (events, .ok partitionOffset) => match showSubpartition env options partitions with
      | (shown, .error exit) => (table ++ events ++ shown, .error exit)
      | (shown, .ok ()) => (table ++ events ++ shown, .ok partitionOffset)

/-- With these arguments main reads a superblock in the image. -/
def Reaches (env : Environment) (args : List Arg) (img : Image) (p : BitVec 32) : Prop :=
  ∃ call, mainCall args = some call ∧ env.files call.imagefile = some img ∧
    (untilSuperblock env img call.options).2 = .ok p

/-- The image serves what main reads of the file system, but for the root inode, and the
names in it end. -/
structure ServesReads (img : Image) (p : BitVec 32) : Prop where
  superblock : SuperblockWhole img p
  slots : ∀ i j, ReadsSlot img p i j → SlotWhole img p i j
  names : ∀ i j, ReadsSlot img p i j → entryInode img.bytes (slotPlace img p i j) ≠ 0 →
    0 ∈ entryName img.bytes (slotPlace img p i j)

section Until
variable {env env' : Environment} {img : Image} {options : Options} {args : List Arg}

theorem showImage_untilSuperblock (env : Environment) (img : Image) (options : Options) :
    showImage env img options = match untilSuperblock env img options with
      | (events, .error exit) => (events, exit)
      | (events, .ok p) =>
          (events ++ (showFileSystem env img p).1, (showFileSystem env img p).2) := by
  unfold showImage untilSuperblock showPartition
  obtain ⟨_, table, partitions, tableExists⟩ := readPartitionTable img emptyTable false 0
  simp only
  split
  · rfl
  · obtain ⟨events, exit | p⟩ := selectPartition env img options partitions tableExists
    · rfl
    · obtain ⟨shown, exit | _⟩ := showSubpartition env options partitions
      · simp
      · simp

theorem untilSuperblock_congr (same : env'.beside = env.beside) :
    untilSuperblock env' img options = untilSuperblock env img options := by
  have index : env'.index = env.index := by
    funext access table i
    unfold Environment.index
    rw [same]
  unfold untilSuperblock selectPartition showSubpartition
  rw [index]

/-- It neither prints a field nor reads a superblock. -/
def Event.Quiet (e : Event) : Prop := e.shows = false ∧ ∀ offset, e ≠ .superblockRead offset

theorem readPartitionTable_quiet (img : Image) (partitions : Table) (tableExists : Bool)
    (baseOffset : BitVec 32) :
    ∀ e ∈ (readPartitionTable img partitions tableExists baseOffset).2.1, e.Quiet := by
  unfold readPartitionTable
  simp only
  split
  · simp [Event.Quiet, Event.shows]
  · split
    · simp [Event.Quiet, Event.shows, fieldFormats]
    · simp [Event.Quiet, Event.shows]

theorem selectPartition_quiet (env : Environment) (img : Image) (options : Options)
    (partitions : Table) (tableExists : Bool) :
    ∀ e ∈ (selectPartition env img options partitions tableExists).1, e.Quiet := by
  unfold selectPartition
  split
  · simp
  · split
    · simp
    · next chosen _ =>
        have shown : ∀ e ∈ (if options.verbose then
            [Event.out "Using partition %d at offset %u bytes\n"
              [options.part, (chosen.lFirst * sectorSize).toNat]] else []), e.Quiet := by
          split <;> simp [Event.Quiet, Event.shows, fieldFormats]
        have table := readPartitionTable_quiet img emptyTable tableExists
          (chosen.lFirst * sectorSize)
        dsimp only
        generalize (if options.verbose then
            [Event.out "Using partition %d at offset %u bytes\n"
              [options.part, (chosen.lFirst * sectorSize).toNat]] else []) = lines at shown ⊢
        have both := List.forall_mem_append.mpr ⟨shown, table⟩
        split
        · refine List.forall_mem_append.mpr ⟨shown, List.forall_mem_singleton.mpr ?_⟩
          simp [Event.Quiet, Event.shows, fieldFormats]
        · split
          · exact shown
          · split
            · exact both
            · exact both

theorem showSubpartition_quiet (env : Environment) (options : Options) (partitions : Table) :
    ∀ e ∈ (showSubpartition env options partitions).1, e.Quiet := by
  unfold showSubpartition
  split
  · simp
  · split
    · simp
    · split <;> simp [Event.Quiet, Event.shows, fieldFormats]

theorem untilSuperblock_quiet (env : Environment) (img : Image) (options : Options) :
    ∀ e ∈ (untilSuperblock env img options).1, e.Quiet := by
  have table := readPartitionTable_quiet img emptyTable false 0
  unfold untilSuperblock
  generalize readPartitionTable img emptyTable false 0 = result at table
  obtain ⟨_, lines, partitions, tableExists⟩ := result
  dsimp only at table ⊢
  split
  · refine List.forall_mem_append.mpr ⟨table, List.forall_mem_singleton.mpr ?_⟩
    simp [Event.Quiet, Event.shows, fieldFormats]
  · have select := selectPartition_quiet env img options partitions tableExists
    have sub := showSubpartition_quiet env options partitions
    split
    · next events exit selected =>
        rw [selected] at select
        exact List.forall_mem_append.mpr ⟨table, select⟩
    · next events p selected =>
        rw [selected] at select
        have all : ∀ e ∈ lines ++ events ++ (showSubpartition env options partitions).1,
            e.Quiet :=
          List.forall_mem_append.mpr ⟨List.forall_mem_append.mpr ⟨table, select⟩, sub⟩
        split
        · next shown exit isShown => rwa [isShown] at all
        · next shown isShown => rwa [isShown] at all

theorem main_congr (files : env'.files = env.files) (beside : env'.beside = env.beside)
    (same : ∀ img p, Reaches env args img p →
      showFileSystem env' img p = showFileSystem env img p) :
    main env' args = main env args := by
  rw [main_mainCall, main_mainCall, files]
  cases isCall : mainCall args with
  | none => rfl
  | some call =>
      simp only
      cases isImage : env.files call.imagefile with
      | none => rfl
      | some img =>
          have image : showImage env' img call.options = showImage env img call.options := by
            rw [showImage_untilSuperblock, showImage_untilSuperblock, untilSuperblock_congr beside]
            cases isUntil : untilSuperblock env img call.options with
            | mk events result =>
                cases result with
                | error exit => rfl
                | ok p =>
                    have reaches : Reaches env args img p :=
                      ⟨call, isCall, isImage, by rw [isUntil]⟩
                    simp only [same img p reaches]
          simp only [image]

/-- Where main reads a superblock, its output is that of the file system after lines that
are quiet. -/
theorem main_reaches {p : BitVec 32} (reaches : Reaches env args img p) :
    ∃ before, (∀ e ∈ before, e.Quiet) ∧
      (main env args).1 = before ++ (showFileSystem env img p).1 := by
  obtain ⟨call, isCall, isImage, isOffset⟩ := reaches
  have quiet := untilSuperblock_quiet env img call.options
  rw [main_mainCall, isCall]
  simp only [isImage, showImage_untilSuperblock]
  generalize untilSuperblock env img call.options = found at isOffset quiet
  obtain ⟨events, exit | p'⟩ := found
  · cases isOffset
  · obtain rfl := Except.ok.inj isOffset
    refine ⟨.opened call.imagefile :: events, List.forall_mem_cons.mpr ⟨?_, quiet⟩, rfl⟩
    simp [Event.Quiet, Event.shows]

theorem main_quiet (none : ∀ img p, ¬ Reaches env args img p) :
    ∀ e ∈ (main env args).1, e.Quiet := by
  rw [main_mainCall]
  cases isCall : mainCall args with
  | none => simp [Event.Quiet, Event.shows]
  | some call =>
      simp only
      cases isImage : env.files call.imagefile with
      | none => simp [Event.Quiet, Event.shows]
      | some img =>
          simp only [showImage_untilSuperblock]
          have quiet := untilSuperblock_quiet env img call.options
          cases isUntil : untilSuperblock env img call.options with
          | mk events result =>
              rw [isUntil] at quiet
              cases result with
              | ok p => exact absurd ⟨call, isCall, isImage, by rw [isUntil]⟩ (none img p)
              | error exit =>
                  refine List.forall_mem_cons.mpr ⟨?_, quiet⟩
                  simp [Event.Quiet, Event.shows]

theorem Reaches.opens {p : BitVec 32} (reaches : Reaches env args img p) :
    Opens env args img := by
  obtain ⟨call, isCall, isImage, _⟩ := reaches
  exact ⟨call.imagefile, (mainCall_last isCall).1, isImage⟩

theorem Opens.unique {img' : Image} (opens : Opens env args img) (opens' : Opens env args img') :
    img = img' := by
  obtain ⟨file, isFile, isImage⟩ := opens
  obtain ⟨file', isFile', isImage'⟩ := opens'
  obtain rfl := Option.some.inj (isFile.symm.trans isFile')
  exact Option.some.inj (isImage.symm.trans isImage')

end Until

section FileSystem
variable {env env' : Environment} {img : Image} {p : BitVec 32}

theorem u16_congr {b b' : Memory} {offset : Nat}
    (same : ∀ i < 2, b' (offset + i) = b (offset + i)) : u16 b' offset = u16 b offset := by
  rw [u16, u16, loadBytes_of_eq same]

theorem u32_congr {b b' : Memory} {offset : Nat}
    (same : ∀ i < 4, b' (offset + i) = b (offset + i)) : u32 b' offset = u32 b offset := by
  rw [u32, u32, loadBytes_of_eq same]

theorem superblock_congr {b b' : Memory} (same : ∀ i < superblockBytes, b' i = b i) :
    superblock b' = superblock b := by
  have half : ∀ offset, offset + 2 ≤ superblockBytes → u16 b' offset = u16 b offset :=
    fun offset fits => u16_congr fun i small => same _ (by omega)
  have word : ∀ offset, offset + 4 ≤ superblockBytes → u32 b' offset = u32 b offset :=
    fun offset fits => u32_congr fun i small => same _ (by omega)
  unfold superblock
  rw [word 0 (by decide), half 6 (by decide), half 8 (by decide), half 10 (by decide),
    half 12 (by decide), word 20 (by decide), half 24 (by decide), half 28 (by decide)]

theorem readSuperblock_whole (whole : SuperblockWhole img p) (buffer : Memory) :
    (readSuperblock img buffer p).2.1 = [.superblockRead (superblockOffset p)] ∧
      superblock (readSuperblock img buffer p).2.2 = superblockAt img p := by
  have full : img.available (superblockOffset p) superblockBytes = superblockBytes :=
    Image.available_of_inside whole
  have buffer' : superblock (img.readInto (superblockOffset p) superblockBytes buffer) =
      superblockAt img p :=
    superblock_congr fun i small => Image.readInto_inside whole small buffer
  have run : readSuperblock img buffer p = (0, [.superblockRead (superblockOffset p)],
      img.readInto (superblockOffset p) superblockBytes buffer) := by
    unfold readSuperblock
    exact if_neg (not_not_intro full)
  simp only [run, buffer', and_self]

theorem showFileSystem_whole (whole : SuperblockWhole img p) :
    showFileSystem env img p =
      if (superblockAt img p).magic ≠ minixMagicNum then
        ([.superblockRead (superblockOffset p), magicLine (superblockAt img p)], .failure)
      else
        (.superblockRead (superblockOffset p) :: superblockLines (superblockAt img p) ++
          (listDirectory env img (superblockAt img p) p).2, .success) := by
  obtain ⟨events, isSuperblock⟩ := readSuperblock_whole whole env.superblock
  unfold showFileSystem
  simp only [events, isSuperblock]
  rfl

/-- Where the inode is cut short, list_directory says so and does nothing else. -/
theorem listDirectory_cut (cut : ¬ InodeWhole img p) :
    (listDirectory env img (superblockAt img p) p).2 =
      [.out "Using partition offset %u\n" [p.toNat], .perror "Error reading inode"] := by
  have short : img.available (rootInodeOffset p (superblockAt img p)).toNat inodeBytes ≠
      inodeBytes := by
    have some : 0 < inodeBytes := by decide
    unfold InodeWhole inodePlace at cut
    unfold Image.available
    omega
  unfold listDirectory
  simp only
  rw [if_pos short]

theorem listDirectory_whole (whole : InodeWhole img p) :
    (listDirectory env img (superblockAt img p) p).2 =
      .out "Using partition offset %u\n" [p.toNat] :: (printInode (foundInode img p) ++
        if (foundInode img p).mode &&& minixFileTypeMask ≠ minixDirType then
          [.err "Error: Root inode is not a directory!\n" []]
        else .out "/:\n" [] ::
          (listZones env img p (superblockAt img p) (foundInode img p)
            (List.finRange directZones) env.entry).1) := by
  have full : img.available (rootInodeOffset p (superblockAt img p)).toNat inodeBytes =
      inodeBytes := Image.available_of_inside whole
  unfold listDirectory
  simp only
  rw [if_neg (not_not_intro full)]
  unfold foundInode inodePlace
  split <;> rfl

/-- A line of the listing, which neither reports an error nor reads a superblock. -/
def Event.IsLine (e : Event) : Prop := e.reports = false ∧ ∀ offset, e ≠ .superblockRead offset

theorem isLine_out (format : String) (values : List Int) : (Event.out format values).IsLine :=
  ⟨rfl, fun _ same => by cases same⟩

theorem superblockLines_lines (sb : Superblock) : ∀ e ∈ superblockLines sb, e.IsLine := by
  simp [superblockLines, isLine_out]

theorem printInode_out {inode : Inode} {e : Event} (member : e ∈ printInode inode) :
    ∃ format values, e = .out format values := by
  unfold printInode at member
  rw [List.mem_append, List.mem_append, List.mem_map] at member
  obtain (front | ⟨i, _, rfl⟩) | last := member
  · simp only [List.mem_cons, List.not_mem_nil, or_false] at front
    obtain rfl | rfl | rfl | rfl | rfl | rfl | rfl := front <;> exact ⟨_, _, rfl⟩
  · exact ⟨_, _, rfl⟩
  · exact ⟨_, _, List.mem_singleton.mp last⟩

theorem listSlots_lines (env : Environment) (img : Image) (i offset left j : Nat)
    (entry : Memory) : ∀ e ∈ (listSlots env img i offset left j entry).1, e.IsLine := by
  induction left generalizing j entry with
  | zero => simp [listSlots]
  | succ left ih =>
      unfold listSlots
      simp only
      split
      · exact ih _ _
      · refine List.forall_mem_cons.mpr ⟨⟨rfl, fun _ same => ?_⟩, ih _ _⟩
        cases same

theorem listZones_lines (env : Environment) (img : Image) (p : BitVec 32) (sb : Superblock)
    (inode : Inode) (zones : List (Fin directZones)) (entry : Memory) :
    ∀ e ∈ (listZones env img p sb inode zones entry).1, e.IsLine := by
  induction zones generalizing entry with
  | nil => simp [listZones]
  | cons i zones ih =>
      unfold listZones
      split
      · exact List.forall_mem_cons.mpr ⟨isLine_out _ _, ih _⟩
      · exact List.forall_mem_append.mpr ⟨listSlots_lines _ _ _ _ _ _ _, ih _⟩

theorem listDirectory_reads (env : Environment) (img : Image) (sb : Superblock) (p : BitVec 32)
    (offset : Nat) : .superblockRead offset ∉ (listDirectory env img sb p).2 := by
  have fields : ∀ inode, Event.superblockRead offset ∉ printInode inode := by
    intro inode member
    obtain ⟨_, _, same⟩ := printInode_out member
    cases same
  unfold listDirectory
  simp only
  split
  · simp
  · split
    · simp [fields]
    · have lines := listZones_lines env img p sb (inodeAt img.bytes (rootInodeOffset p sb).toNat)
        (List.finRange directZones) env.entry
      simpa [fields] using fun member => (lines _ member).2 offset rfl

theorem showFileSystem_first (env : Environment) (img : Image) (p : BitVec 32) :
    ∃ rest, (showFileSystem env img p).1 = .superblockRead (superblockOffset p) :: rest ∧
      ∀ offset, .superblockRead offset ∉ rest := by
  obtain ⟨reports, isFirst, others⟩ := readSuperblock_event img env.superblock p
  unfold showFileSystem
  generalize readSuperblock img env.superblock p = result at isFirst
  obtain ⟨status, events, buffer⟩ := result
  cases isFirst
  simp only
  split
  · refine ⟨_, rfl, fun offset member => ?_⟩
    obtain report | member := List.mem_append.mp member
    · exact others offset report
    · cases List.mem_singleton.mp member
  · refine ⟨_, rfl, fun offset member => ?_⟩
    obtain member | listed := List.mem_append.mp member
    · obtain report | line := List.mem_append.mp member
      · exact others offset report
      · exact (superblockLines_lines _ _ line).2 offset rfl
    · exact listDirectory_reads env img _ p offset listed

theorem showFileSystem_shows (env : Environment) (img : Image) (p : BitVec 32) :
    ∃ e ∈ (showFileSystem env img p).1, e.shows = true := by
  unfold showFileSystem
  simp only
  split
  · refine ⟨_, List.mem_append_right _ (List.mem_singleton_self _), ?_⟩
    simp [Event.shows, fieldFormats]
  · refine ⟨.out "Number of inodes: %u\n" _, List.mem_append_left _ (List.mem_append_right _
      (List.mem_cons_of_mem _ List.mem_cons_self)), ?_⟩
    simp [Event.shows, fieldFormats]

theorem Backed.whole {e : Event} (backed : Backed img p e) : SuperblockWhole img p := by
  cases backed with
  | superblock whole _ => exact whole
  | inode reads _ _ => exact reads.1
  | hole reads _ _ => exact reads.1
  | entry reads _ _ => exact reads.1.1.1

theorem listZones_served (slots : ∀ i j, ReadsSlot img p i j → SlotWhole img p i j)
    (reads : ReadsDirectory img p) (entry : Memory) :
    (listZones env img p (superblockAt img p) (foundInode img p) (List.finRange directZones)
        entry).1 =
      (List.finRange directZones).flatMap fun i =>
        if (foundInode img p).zone i = 0 then [.out "Inode zone %d is empty\n" [i.val]]
        else (List.range (slotsPerBlock (superblockAt img p))).filterMap fun j =>
          slotEvent env img i j (slotPlace img p i j) :=
  listZones_events (fun i _ used j first => slots i j ⟨reads, used, first⟩) entry

theorem showFileSystem_directory (reads : ReadsDirectory img p) :
    (showFileSystem env img p).1 =
      .superblockRead (superblockOffset p) :: superblockLines (superblockAt img p) ++
        .out "Using partition offset %u\n" [p.toNat] :: (printInode (foundInode img p) ++
          .out "/:\n" [] :: (listZones env img p (superblockAt img p) (foundInode img p)
            (List.finRange directZones) env.entry).1) := by
  obtain ⟨⟨whole, isMagic⟩, inodeWhole, isDirectory⟩ := reads
  rw [showFileSystem_whole whole, if_neg (not_not_intro isMagic), listDirectory_whole inodeWhole,
    if_neg (not_not_intro isDirectory)]

theorem showFileSystem_silent (env : Environment) (reads : ReadsDirectory img p) :
    ∀ e ∈ (showFileSystem env img p).1, e.reports = false := by
  rw [showFileSystem_directory reads]
  intro e member
  simp only [List.mem_append, List.mem_cons] at member
  obtain (rfl | line) | rfl | line | rfl | line := member
  · rfl
  · exact (superblockLines_lines _ e line).1
  · rfl
  · obtain ⟨_, _, rfl⟩ := printInode_out line
    rfl
  · rfl
  · exact (listZones_lines _ _ _ _ _ _ _ e line).1

theorem mem_slotEvent {i : Fin directZones} {j : Nat} {e : Event}
    (isSlot : slotEvent env img i j (slotPlace img p i j) = some e)
    (ends : entryInode img.bytes (slotPlace img p i j) ≠ 0 →
      0 ∈ entryName img.bytes (slotPlace img p i j)) :
    ∃ d, entryAt img (slotPlace img p i j) = some d ∧ e = .entry i j d.name d.inode := by
  unfold slotEvent at isSlot
  unfold entryAt
  split at isSlot
  · cases isSlot
  · next present =>
      obtain rfl := Option.some.inj isSlot
      rw [if_neg present]
      exact ⟨_, rfl, by rw [shownName_eq (Or.inl (ends present))]⟩

theorem showFileSystem_backed (serves : ServesReads img p) :
    ∀ e ∈ (showFileSystem env img p).1, e.shows = true → Backed img p e := by
  rw [showFileSystem_whole serves.superblock]
  intro e member shows
  split at member
  · obtain rfl | member := List.mem_cons.mp member
    · cases shows
    · obtain rfl := List.mem_singleton.mp member
      exact .superblock serves.superblock List.mem_cons_self
  · next isMagic =>
      have reads : ReadsInode img p := ⟨serves.superblock, not_not.mp isMagic⟩
      rw [List.mem_append, List.mem_cons] at member
      obtain (rfl | line) | line := member
      · cases shows
      · exact .superblock serves.superblock (List.mem_cons_of_mem _ line)
      by_cases whole : InodeWhole img p
      · rw [listDirectory_whole whole, List.mem_cons, List.mem_append] at line
        obtain rfl | line | line := line
        · simp [Event.shows, fieldFormats] at shows
        · exact .inode reads whole line
        split at line
        · obtain rfl := List.mem_singleton.mp line
          simp [Event.shows, fieldFormats] at shows
        · next isDirectory =>
            have directory : ReadsDirectory img p := ⟨reads, whole, not_not.mp isDirectory⟩
            rw [listZones_served serves.slots directory, List.mem_cons, List.mem_flatMap] at line
            obtain rfl | ⟨i, _, line⟩ := line
            · simp [Event.shows, fieldFormats] at shows
            split at line
            · next empty =>
                obtain rfl := List.mem_singleton.mp line
                exact .hole reads whole empty
            · next used =>
                obtain ⟨j, first, isSlot⟩ := List.mem_filterMap.mp line
                have slot : ReadsSlot img p i j := ⟨directory, used, List.mem_range.mp first⟩
                obtain ⟨d, there, rfl⟩ := mem_slotEvent isSlot (serves.names i j slot)
                exact .entry slot (serves.slots i j slot) there
      · rw [listDirectory_cut whole] at line
        simp only [List.mem_cons, List.not_mem_nil, or_false] at line
        obtain rfl | rfl := line
        · simp [Event.shows, fieldFormats] at shows
        · cases shows

theorem slotEvent_determined (serves : ServesReads img p) {i : Fin directZones} {j : Nat}
    (reads : ReadsSlot img p i j) (env env' : Environment) :
    slotEvent env' img i j (slotPlace img p i j) = slotEvent env img i j (slotPlace img p i j) := by
  unfold slotEvent
  split
  · rfl
  · next present =>
      have ends := serves.names i j reads present
      rw [shownName_eq (Or.inl ends), shownName_eq (Or.inl ends)]

theorem listZones_determined (serves : ServesReads img p) (directory : ReadsDirectory img p)
    (env env' : Environment) (entry entry' : Memory) :
    (listZones env' img p (superblockAt img p) (foundInode img p) (List.finRange directZones)
        entry').1 =
      (listZones env img p (superblockAt img p) (foundInode img p) (List.finRange directZones)
        entry).1 := by
  rw [listZones_served serves.slots directory, listZones_served serves.slots directory]
  congr 1
  funext i
  split
  · rfl
  · next used =>
      apply List.filterMap_congr
      intro j first
      exact slotEvent_determined serves ⟨directory, used, List.mem_range.mp first⟩ env env'

theorem showFileSystem_determined (serves : ServesReads img p) (env env' : Environment) :
    showFileSystem env' img p = showFileSystem env img p := by
  rw [showFileSystem_whole serves.superblock, showFileSystem_whole serves.superblock]
  split
  · rfl
  · next isMagic =>
      have same : (listDirectory env' img (superblockAt img p) p).2 =
          (listDirectory env img (superblockAt img p) p).2 := by
        by_cases whole : InodeWhole img p
        · rw [listDirectory_whole whole, listDirectory_whole whole]
          split
          · rfl
          · next isDirectory =>
              have directory : ReadsDirectory img p :=
                ⟨⟨serves.superblock, not_not.mp isMagic⟩, whole, not_not.mp isDirectory⟩
              rw [listZones_determined serves directory env env' env.entry env'.entry]
        · rw [listDirectory_cut whole, listDirectory_cut whole]
      rw [same]

theorem mem_showFileSystem_entry (slots : ∀ i j, ReadsSlot img p i j → SlotWhole img p i j)
    (reads : ReadsDirectory img p) {i : Fin directZones} {j : Nat} {name : List UInt8}
    {inode : BitVec 32} :
    .entry i j name inode ∈ (showFileSystem env img p).1 ↔ ReadsSlot img p i j ∧
      slotEvent env img i j (slotPlace img p i j) = some (.entry i j name inode) := by
  rw [showFileSystem_directory reads, listZones_served slots reads]
  have fields : .entry i j name inode ∉ printInode (foundInode img p) := by
    intro member
    obtain ⟨_, _, same⟩ := printInode_out member
    cases same
  have lines : .entry i j name inode ∉ superblockLines (superblockAt img p) := by
    simp [superblockLines]
  simp only [List.cons_append, List.mem_cons, List.mem_append, lines, fields, reduceCtorEq,
    false_or, List.mem_flatMap, List.mem_finRange, true_and]
  constructor
  · rintro ⟨i', member⟩
    split at member
    · obtain same := List.mem_singleton.mp member
      cases same
    · next used =>
        obtain ⟨j', first, isSlot⟩ := List.mem_filterMap.mp member
        have place : i' = i ∧ j' = j := by
          have shape := isSlot
          unfold slotEvent at shape
          split at shape
          · cases shape
          · obtain ⟨sameZone, rfl, _⟩ := Event.entry.inj (Option.some.inj shape)
            exact ⟨Fin.ext sameZone, rfl⟩
        obtain ⟨rfl, rfl⟩ := place
        exact ⟨⟨reads, used, List.mem_range.mp first⟩, isSlot⟩
  · rintro ⟨⟨_, used, first⟩, isSlot⟩
    refine ⟨i, ?_⟩
    rw [if_neg used]
    exact List.mem_filterMap.mpr ⟨j, List.mem_range.mpr first, isSlot⟩

end FileSystem

/-! ## The whole run -/

section Run
variable {env : Environment} {args : List Arg} {img : Image} {p : BitVec 32}

theorem superblockOffset_inj {p' : BitVec 32}
    (same : superblockOffset p = superblockOffset p') : p = p' :=
  (BitVec.add_left_inj _).mp (BitVec.eq_of_toNat_eq same)

/-- The superblock is read at one place, and what comes after is the file system's. -/
theorem main_split {p' : BitVec 32} {before after : List Event} (reaches : Reaches env args img p)
    (output : (main env args).1 = before ++ .superblockRead (superblockOffset p') :: after) :
    p' = p ∧ (showFileSystem env img p).1 = .superblockRead (superblockOffset p) :: after := by
  obtain ⟨lines, quiet, isOutput⟩ := main_reaches reaches
  obtain ⟨rest, isRest, others⟩ := showFileSystem_first env img p
  rw [isOutput, isRest] at output
  have notBefore : .superblockRead (superblockOffset p') ∉ lines :=
    fun member => (quiet _ member).2 _ rfl
  obtain ⟨_, same, rfl⟩ :=
    (List.append_cons_inj_of_notMem notBefore (others _)).mp output
  exact ⟨(superblockOffset_inj (Event.superblockRead.inj same)).symm, isRest⟩

theorem main_reads (reaches : Reaches env args img p) :
    ∃ before after,
      (main env args).1 = before ++ .superblockRead (superblockOffset p) :: after := by
  obtain ⟨lines, _, isOutput⟩ := main_reaches reaches
  obtain ⟨rest, isRest, _⟩ := showFileSystem_first env img p
  exact ⟨lines, rest, by rw [isOutput, isRest]⟩

theorem reaches_of_read {before after : List Event} {offset : Nat} (opens : Opens env args img)
    (output : (main env args).1 = before ++ .superblockRead offset :: after) :
    ∃ p, Reaches env args img p := by
  by_contra none
  have unreached : ∀ img' p, ¬ Reaches env args img' p := by
    intro img' p reaches
    obtain rfl := opens.unique reaches.opens
    exact none ⟨p, reaches⟩
  have member : .superblockRead offset ∈ (main env args).1 := by simp [output]
  exact (main_quiet unreached _ member).2 offset rfl

theorem nothingInvented_of_serves (serves : ∀ img p, Reaches env args img p → ServesReads img p) :
    NothingInvented env args where
  backed e member shows := by
    by_cases reached : ∃ img p, Reaches env args img p
    · obtain ⟨img, p, reaches⟩ := reached
      obtain ⟨lines, quiet, output⟩ := main_reaches reaches
      obtain ⟨before, after, reads⟩ := main_reads reaches
      refine ⟨img, p, reaches.opens, by simp [reads], ?_⟩
      rw [output] at member
      obtain member | member := List.mem_append.mp member
      · rw [(quiet e member).1] at shows
        cases shows
      · exact showFileSystem_backed (serves img p reaches) e member shows
    · simp only [not_exists] at reached
      rw [(main_quiet reached e member).1] at shows
      cases shows
  reported img p before after opens output cut := by
    obtain ⟨p', reaches⟩ := reaches_of_read opens output
    obtain ⟨rfl, isRest⟩ := main_split reaches output
    have served := serves img p reaches
    obtain cut | ⟨reads, cut⟩ | ⟨i, j, slot, cut⟩ := cut
    · exact absurd served.superblock cut
    · rw [showFileSystem_whole reads.1, if_neg (not_not_intro reads.2),
        listDirectory_cut cut] at isRest
      obtain ⟨_, rfl⟩ := List.cons.inj isRest
      exact ⟨.perror "Error reading inode", by simp, rfl⟩
    · exact absurd (served.slots i j slot) cut
  determined env' files beside :=
    main_congr files beside fun img p reaches =>
      showFileSystem_determined (serves img p reaches) env env'

/-- The memory behind `entry` holds this text. -/
def withBehind (env : Environment) (text : List UInt8) : Environment :=
  { env with behind := fun _ _ => text }

theorem Reaches.congr {env' : Environment} (reaches : Reaches env args img p)
    (files : env'.files = env.files) (beside : env'.beside = env.beside) :
    Reaches env' args img p := by
  obtain ⟨call, isCall, isImage, isOffset⟩ := reaches
  exact ⟨call, isCall, by rw [files, isImage], by rw [untilSuperblock_congr beside, isOffset]⟩

/-- A run that does not depend on the memory behind `entry` shows names that end. -/
theorem names_of_determined (nothing : NothingInvented env args)
    (reaches : Reaches env args img p) (slots : ∀ i j, ReadsSlot img p i j → SlotWhole img p i j)
    {i : Fin directZones} {j : Nat} (reads : ReadsSlot img p i j)
    (present : entryInode img.bytes (slotPlace img p i j) ≠ 0) :
    0 ∈ entryName img.bytes (slotPlace img p i j) := by
  by_contra full
  have shown : ∀ text, slotEvent (withBehind env text) img i j (slotPlace img p i j) =
      some (.entry i j (entryName img.bytes (slotPlace img p i j) ++ text)
        (entryInode img.bytes (slotPlace img p i j))) := by
    intro text
    unfold slotEvent shownName
    rw [if_neg present, if_neg full, withBehind]
  have same : main (withBehind env [1]) args = main (withBehind env []) args :=
    (nothing.determined (withBehind env [1]) rfl rfl).trans
      (nothing.determined (withBehind env []) rfl rfl).symm
  have reaches₀ : Reaches (withBehind env []) args img p := reaches.congr rfl rfl
  have reaches₁ : Reaches (withBehind env [1]) args img p := reaches.congr rfl rfl
  obtain ⟨before, after, output⟩ := main_reads reaches₀
  obtain ⟨_, isRest₀⟩ := main_split reaches₀ output
  obtain ⟨_, isRest₁⟩ := main_split reaches₁ ((congrArg Prod.fst same).trans output)
  have member := (mem_showFileSystem_entry slots reads.1).mpr ⟨reads, shown []⟩
  rw [isRest₀, ← isRest₁, mem_showFileSystem_entry slots reads.1, shown [1]] at member
  obtain ⟨_, _, longer, _⟩ := Event.entry.inj (Option.some.inj member.2)
  exact absurd (congrArg List.length longer) (by simp)

theorem serves_of_nothingInvented (nothing : NothingInvented env args)
    (reaches : Reaches env args img p) : ServesReads img p := by
  obtain ⟨lines, quiet, output⟩ := main_reaches reaches
  obtain ⟨before, after, reads⟩ := main_reads reaches
  have slots : ∀ i j, ReadsSlot img p i j → SlotWhole img p i j := by
    intro i j slot
    by_contra cut
    obtain ⟨e, member, reports⟩ := nothing.reported img p before after reaches.opens reads
      (Or.inr (Or.inr ⟨i, j, slot, cut⟩))
    have isRest := (main_split reaches reads).2
    have silent := showFileSystem_silent env slot.1 e
    rw [isRest] at silent
    rw [silent (List.mem_cons_of_mem _ member)] at reports
    cases reports
  refine ⟨?_, slots, fun i j slot present => names_of_determined nothing reaches slots slot present⟩
  obtain ⟨e, member, shows⟩ := showFileSystem_shows env img p
  obtain ⟨img', p', opens, isRead, backed⟩ :=
    nothing.backed e (output ▸ List.mem_append_right _ member) shows
  obtain rfl := opens.unique reaches.opens
  obtain ⟨before', after', split⟩ := List.append_of_mem isRead
  obtain rfl := (main_split reaches split).1
  exact backed.whole

/-- minls invents nothing where the superblock and the slots of the root directory are whole
and the names in them end. -/
theorem nothing_invented_iff (env : Environment) (args : List Arg) :
    NothingInvented env args ↔ ∀ img p, Reaches env args img p → ServesReads img p :=
  ⟨fun nothing _ _ reaches => serves_of_nothingInvented nothing reaches,
    nothingInvented_of_serves⟩

end Run

def emptyFile : Environment := { quiet with files := fun _ => some ⟨0, fun _ => 0⟩ }

/-- Of an empty file a magic number is printed. -/
theorem empty_file_invented :
    magicLine (superblock emptyFile.superblock) ∈ (main emptyFile [['d']]).1 ∧
      ¬ NothingInvented emptyFile [['d']] := by
  refine ⟨by decide, fun nothing => ?_⟩
  have reaches : Reaches emptyFile [['d']] ⟨0, fun _ => 0⟩ 0 :=
    ⟨⟨⟨false, -1, -1⟩, ['d'], ['d']⟩, rfl, rfl, rfl⟩
  have whole : superblockOffset 0 + superblockBytes ≤ 0 :=
    (serves_of_nothingInvented nothing reaches).superblock
  exact absurd whole (by decide)

end Csc457.Minls
