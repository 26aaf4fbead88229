import Csc457.Minls.Model

/-!
# Selecting a partition

Which requests for a partition or a subpartition are in order, and which of the others main
refuses before it takes anything for a file system.
-/

set_option autoImplicit false

namespace Csc457.Minls

open Csc457.Lib.ByteMemory

/-- The values given with -p and with -s, the last ones where there are more. -/
structure Request where
  part : Option Int
  subpart : Option Int

def requested : List Arg → Request → Option Request
  | [], request => some request
  | arg :: rest, request =>
      if arg = ['-', 'p'] then
        match rest with
        | [] => none
        | value :: rest => requested rest { request with part := some (atoi value) }
      else if arg = ['-', 's'] then
        match rest with
        | [] => none
        | value :: rest => requested rest { request with subpart := some (atoi value) }
      else requested rest request

/-- main has -1 for an option that is not given. -/
def Request.options (verbose : Bool) (request : Request) : Options :=
  ⟨verbose, request.part.getD (-1), request.subpart.getD (-1)⟩

theorem parseArguments_other {arg : Arg} (notPart : arg ≠ ['-', 'p'])
    (notSubpart : arg ≠ ['-', 's']) (rest : List Arg) (options : Options) :
    parseArguments (arg :: rest) options = parseArguments rest
      (if arg = ['-', 'v'] then { options with verbose := true } else options) := by
  by_cases flag : arg = ['-', 'v']
  · cases rest <;> simp [parseArguments, flag]
  · cases rest <;> simp [parseArguments, flag, notPart, notSubpart]

theorem parseArguments_requested (args : List Arg) (verbose : Bool) (request : Request) :
    ∃ verbose', parseArguments args (request.options verbose) =
      (requested args request).map (Request.options verbose') := by
  fun_induction requested args request generalizing verbose with
  | case1 request => exact ⟨verbose, rfl⟩
  | case2 request => exact ⟨verbose, by simp [parseArguments]⟩
  | case3 request value rest ih =>
      obtain ⟨verbose', same⟩ := ih verbose
      exact ⟨verbose', by simpa [parseArguments, Request.options] using same⟩
  | case4 request _ => exact ⟨verbose, by simp [parseArguments]⟩
  | case5 request value rest _ ih =>
      obtain ⟨verbose', same⟩ := ih verbose
      exact ⟨verbose', by simpa [parseArguments, Request.options] using same⟩
  | case6 arg rest request notPart notSubpart ih =>
      rw [parseArguments_other notPart notSubpart]
      split
      · exact ih true
      · exact ih verbose

/-- A table can be read in full at the offset, and is signed. -/
def TableSigned (img : Image) (offset : Nat) : Prop :=
  offset + bootBlockSize ≤ img.length ∧ img.bytes (offset + 510) = validByte510 ∧
    img.bytes (offset + 511) = validByte511

instance (img : Image) (offset : Nat) : Decidable (TableSigned img offset) :=
  inferInstanceAs (Decidable (_ ∧ _ ∧ _))

/-- Entry `i` of the table at the offset is there, and of the MINIX type. -/
def Selects (img : Image) (offset : BitVec 32) (i : Int) (chosen : PartitionEntry) : Prop :=
  TableSigned img offset.toNat ∧ chosen.type = minixPartitionType ∧
    ∃ k : Fin numPartitions, i = k ∧ tableAt img offset.toNat k = chosen

/-- A subpartition is asked for in a partition only. -/
def Request.Allowed (img : Image) (request : Request) : Prop :=
  match request.part, request.subpart with
  | none, none => True
  | none, some _ => False
  | some i, none => ∃ chosen, Selects img 0 i chosen
  | some i, some j => ∃ chosen, Selects img 0 i chosen ∧
      ∃ inner, Selects img (chosen.lFirst * sectorSize) j inner

def Event.reports : Event → Bool
  | .usage => true
  | .err _ _ => true
  | .perror _ => true
  | _ => false

def Event.interprets : Event → Bool
  | .superblockRead _ => true
  | .entry _ _ _ _ => true
  | _ => false

/-- main reports an error and exits, and read no superblock and no directory. -/
structure Refused (run : List Event × Exit) : Prop where
  exit : run.2 = .failure
  reported : ∃ e ∈ run.1, e.reports = true
  nothing : ∀ e ∈ run.1, e.interprets = false

/-- Where the image can be opened, the request is in order or main refuses it. -/
def Validates (env : Environment) (args : List Arg) : Prop :=
  (∃ request file img, requested args ⟨none, none⟩ = some request ∧
      args.getLast? = some file ∧ env.files file = some img ∧ request.Allowed img) ∨
    Refused (main env args)

/-- The two checks of main: without a table no index other than -1 is taken, and with one
the entry of the partition, wherever the index leads, has the MINIX type. -/
def Caught (env : Environment) (img : Image) (options : Options) : Prop :=
  (¬ TableSigned img 0 ∧ (options.part ≠ -1 ∨ options.subpart ≠ -1)) ∨
    (TableSigned img 0 ∧ options.part ≠ -1 ∧
      ∃ chosen, env.index .partition (tableAt img 0) options.part = some chosen ∧
        chosen.type ≠ minixPartitionType)

/-! ## main refuses what it catches -/

section Refusals
variable {env : Environment} {img : Image} {options : Options}

theorem readPartitionTable_cases (img : Image) (partitions : Table) (tableExists : Bool)
    (baseOffset : BitVec 32) :
    ∃ code events, (∀ e ∈ events, e.interprets = false) ∧
      ((TableSigned img baseOffset.toNat ∧
          readPartitionTable img partitions tableExists baseOffset =
            (code, events, tableAt img baseOffset.toNat, true)) ∨
        (¬ TableSigned img baseOffset.toNat ∧
          readPartitionTable img partitions tableExists baseOffset =
            (code, events, partitions, tableExists))) := by
  unfold readPartitionTable TableSigned Image.available
  simp only
  split
  · next short =>
      refine ⟨_, _, ?_, Or.inr ⟨fun signed => short ?_, rfl⟩⟩
      · simp [Event.interprets]
      · omega
  · next full =>
      split
      · next unsigned =>
          refine ⟨_, _, ?_, Or.inr ⟨?_, rfl⟩⟩
          · simp [Event.interprets]
          · rintro ⟨_, low, high⟩
            exact unsigned.elim (· low) (· high)
      · next isSigned =>
          obtain ⟨low, high⟩ := not_or.mp isSigned
          refine ⟨_, _, ?_, Or.inl ⟨⟨?_, by simpa using low, by simpa using high⟩, rfl⟩⟩
          · simp [Event.interprets]
          · have : 0 < bootBlockSize := by decide
            omega

/-- main that goes on to the superblock, or ends in a fault, has refused nothing. -/
theorem not_refused_fault {events : List Event} : ¬ Refused (events, .fault) := by
  rintro ⟨exit, _, _⟩
  cases exit

theorem not_refused_read {events : List Event} {exit : Exit} {offset : Nat}
    (read : .superblockRead offset ∈ events) : ¬ Refused (events, exit) := by
  rintro ⟨_, _, nothing⟩
  cases nothing _ read

theorem readSuperblock_event (img : Image) (buffer : Memory) (partitionOffset : BitVec 32) :
    ∃ reports, (readSuperblock img buffer partitionOffset).2.1 =
        .superblockRead (partitionOffset + BitVec.ofNat 32 bootBlockSize).toNat :: reports ∧
      ∀ offset, .superblockRead offset ∉ reports := by
  unfold readSuperblock
  simp only
  split
  · exact ⟨_, rfl, by simp⟩
  · exact ⟨_, rfl, by simp⟩

theorem showFileSystem_reads (env : Environment) (img : Image) (partitionOffset : BitVec 32) :
    ∃ offset, .superblockRead offset ∈ (showFileSystem env img partitionOffset).1 := by
  obtain ⟨reports, isFirst, _⟩ := readSuperblock_event img env.superblock partitionOffset
  refine ⟨(partitionOffset + BitVec.ofNat 32 bootBlockSize).toNat, ?_⟩
  unfold showFileSystem
  simp only [isFirst]
  split
  · exact List.mem_cons_self
  · exact List.mem_cons_self

theorem Refused.ofErr {events : List Event} {format : String} {values : List Int}
    (nothing : ∀ e ∈ events, e.interprets = false) :
    Refused (events ++ [.err format values], .failure) where
  exit := rfl
  reported := ⟨.err format values, by simp, rfl⟩
  nothing e member := by
    obtain before | last := List.mem_append.mp member
    · exact nothing e before
    · obtain rfl := List.mem_singleton.mp last
      rfl

theorem showSubpartition_cases (env : Environment) (options : Options) (partitions : Table) :
    ∃ shown, showSubpartition env options partitions = (shown, .error .fault) ∨
      showSubpartition env options partitions = (shown, .ok ()) := by
  unfold showSubpartition
  split
  · exact ⟨_, Or.inr rfl⟩
  · split
    · exact ⟨_, Or.inl rfl⟩
    · exact ⟨_, Or.inr rfl⟩

/-- selectPartition refuses a partition that is not of the MINIX type, and nothing else. -/
theorem selectPartition_cases (env : Environment) (img : Image) (options : Options)
    (partitions : Table) (tableExists : Bool) :
    (options.part ≠ -1 ∧ ∃ chosen, env.index .partition partitions options.part = some chosen ∧
      chosen.type ≠ minixPartitionType ∧
      ∃ shown format values, (∀ e ∈ shown, e.interprets = false) ∧
        selectPartition env img options partitions tableExists =
          (shown ++ [.err format values], .error .failure)) ∨
    ((options.part ≠ -1 → ∀ chosen, env.index .partition partitions options.part = some chosen →
        chosen.type = minixPartitionType) ∧
      ∃ events,
        selectPartition env img options partitions tableExists = (events, .error .fault) ∨
        ∃ offset,
          selectPartition env img options partitions tableExists = (events, .ok offset)) := by
  unfold selectPartition
  by_cases given : options.part = -1
  · rw [if_pos given]
    exact Or.inr ⟨fun other => absurd given other, _, Or.inr ⟨_, rfl⟩⟩
  rw [if_neg given]
  cases found : env.index .partition partitions options.part with
  | none =>
      refine Or.inr ⟨?_, _, Or.inl rfl⟩
      intro _ chosen isChosen
      cases isChosen
  | some chosen =>
      by_cases isMinix : chosen.type = minixPartitionType
      · refine Or.inr ⟨fun _ other isOther => Option.some.inj isOther ▸ isMinix, ?_⟩
        simp only [isMinix, ne_eq, not_true_eq_false, if_false]
        by_cases whole : options.subpart = -1
        · rw [if_pos whole]
          exact ⟨_, Or.inr ⟨_, rfl⟩⟩
        · rw [if_neg whole]
          split
          · exact ⟨_, Or.inl rfl⟩
          · exact ⟨_, Or.inr ⟨_, rfl⟩⟩
      · refine Or.inl ⟨given, chosen, rfl, isMinix, ?_⟩
        simp only [if_pos isMinix]
        refine ⟨_, _, _, ?_, rfl⟩
        cases options.verbose <;> simp [Event.interprets]

theorem not_refused_showPartition (before : List Event) (partitions : Table)
    (offset : BitVec 32) :
    ¬ Refused (before ++ (showPartition env img options partitions offset).1,
      (showPartition env img options partitions offset).2) := by
  unfold showPartition
  obtain ⟨shown, fault | goesOn⟩ := showSubpartition_cases env options partitions
  · rw [fault]
    exact not_refused_fault
  · rw [goesOn]
    obtain ⟨place, read⟩ := showFileSystem_reads env img offset
    exact not_refused_read (List.mem_append_right _ (List.mem_append_right _ read))

theorem refused_showImage_iff :
    Refused (showImage env img options) ↔ Caught env img options := by
  obtain ⟨code, table, nothing, ⟨isSigned, result⟩ | ⟨unsigned, result⟩⟩ :=
    readPartitionTable_cases img emptyTable false 0
  · rw [show (0 : BitVec 32).toNat = 0 from rfl] at isSigned result
    have caught : Caught env img options ↔ options.part ≠ -1 ∧
        ∃ chosen, env.index .partition (tableAt img 0) options.part = some chosen ∧
          chosen.type ≠ minixPartitionType := by
      unfold Caught
      constructor
      · rintro (⟨unsigned, _⟩ | ⟨_, rest⟩)
        · exact absurd isSigned unsigned
        · exact rest
      · exact fun rest => Or.inr ⟨isSigned, rest⟩
    unfold showImage
    simp only [result, caught]
    obtain ⟨given, chosen, found, other, shown, format, values, shownNothing, selected⟩ |
      ⟨isMinix, events, fault | ⟨offset, selected⟩⟩ :=
      selectPartition_cases env img options (tableAt img 0) true
    · simp only [selected, ← List.append_assoc]
      refine iff_of_true (Refused.ofErr ?_) ⟨given, chosen, found, other⟩
      intro e member
      obtain before | here := List.mem_append.mp member
      · exact nothing e before
      · exact shownNothing e here
    · simp only [fault]
      refine iff_of_false not_refused_fault ?_
      rintro ⟨given, chosen, found, other⟩
      exact other (isMinix given chosen found)
    · simp only [selected]
      refine iff_of_false (not_refused_showPartition (table ++ events) (tableAt img 0) offset) ?_
      rintro ⟨given, chosen, found, other⟩
      exact other (isMinix given chosen found)
  · have caught : Caught env img options ↔ options.part ≠ -1 ∨ options.subpart ≠ -1 := by
      unfold Caught
      constructor
      · rintro (⟨_, given⟩ | ⟨isSigned, _⟩)
        · exact given
        · exact absurd isSigned unsigned
      · exact fun given => Or.inl ⟨unsigned, given⟩
    unfold showImage
    simp only [result, caught, true_and]
    by_cases given : options.part ≠ -1 ∨ options.subpart ≠ -1
    · rw [if_pos given]
      exact iff_of_true (Refused.ofErr nothing) given
    · rw [if_neg given]
      refine iff_of_false ?_ given
      obtain ⟨none, _⟩ := not_or.mp given
      have whole : selectPartition env img options emptyTable false = ([], .ok 0) := by
        unfold selectPartition
        rw [if_pos (not_not.mp none)]
      simp only [whole]
      exact not_refused_showPartition (table ++ []) emptyTable 0

theorem refused_opened {path : Arg} {run : List Event × Exit} :
    Refused (.opened path :: run.1, run.2) ↔ Refused run := by
  constructor
  · rintro ⟨exit, ⟨e, member, reports⟩, nothing⟩
    refine ⟨exit, ⟨e, ?_, reports⟩, fun e member => nothing e (List.mem_cons_of_mem _ member)⟩
    obtain rfl | member := List.mem_cons.mp member
    · cases reports
    · exact member
  · rintro ⟨exit, ⟨e, member, reports⟩, nothing⟩
    refine ⟨exit, ⟨e, List.mem_cons_of_mem _ member, reports⟩, ?_⟩
    intro e member
    obtain rfl | member := List.mem_cons.mp member
    · rfl
    · exact nothing e member

theorem refused_usage : Refused ([.usage], .failure) :=
  ⟨rfl, ⟨.usage, by simp, rfl⟩, by simp [Event.interprets]⟩

theorem refused_main_early {env : Environment} {args : List Arg}
    (early : ∀ request file img, requested args ⟨none, none⟩ = some request →
      args.getLast? = some file → env.files file ≠ some img) : Refused (main env args) := by
  obtain ⟨verbose, parsed⟩ := parseArguments_requested args false ⟨none, none⟩
  change parseArguments args ⟨false, -1, -1⟩ = _ at parsed
  unfold main
  rw [parsed]
  cases isRequest : requested args ⟨none, none⟩ with
  | none => exact refused_usage
  | some request =>
      cases isFile : args.getLast? with
      | none => exact refused_usage
      | some file =>
          cases isImage : env.files file with
          | none =>
              simp only [Option.map_some, isImage]
              exact ⟨rfl, ⟨.perror "Error opening image file", by simp, rfl⟩,
                by simp [Event.interprets]⟩
          | some img => exact absurd isImage (early request file img isRequest isFile)

theorem refused_main_iff {env : Environment} {args : List Arg} {request : Request} {file : Arg}
    {img : Image} (isRequest : requested args ⟨none, none⟩ = some request)
    (isFile : args.getLast? = some file) (isImage : env.files file = some img) :
    Refused (main env args) ↔ Caught env img (request.options false) := by
  obtain ⟨verbose, parsed⟩ := parseArguments_requested args false ⟨none, none⟩
  change parseArguments args ⟨false, -1, -1⟩ = _ at parsed
  have same : Caught env img (request.options verbose) ↔
      Caught env img (request.options false) := Iff.rfl
  unfold main
  rw [parsed, isRequest, isFile]
  simp only [Option.map_some, isImage]
  rw [refused_opened, refused_showImage_iff, same]

/-- main validates a request for a partition if it is in order or one of the two checks
catches it. -/
theorem validates_iff (env : Environment) (args : List Arg) :
    Validates env args ↔ ∀ request file img, requested args ⟨none, none⟩ = some request →
      args.getLast? = some file → env.files file = some img →
      request.Allowed img ∨ Caught env img (request.options false) := by
  constructor
  · intro validates request file img isRequest isFile isImage
    obtain ⟨request', file', img', isRequest', isFile', isImage', allowed⟩ | refused := validates
    · obtain rfl := Option.some.inj (isRequest.symm.trans isRequest')
      obtain rfl := Option.some.inj (isFile.symm.trans isFile')
      obtain rfl := Option.some.inj (isImage.symm.trans isImage')
      exact Or.inl allowed
    · exact Or.inr ((refused_main_iff isRequest isFile isImage).mp refused)
  · intro checked
    by_cases early : ∀ request file img, requested args ⟨none, none⟩ = some request →
        args.getLast? = some file → env.files file ≠ some img
    · exact Or.inr (refused_main_early early)
    · simp only [not_forall, not_not] at early
      obtain ⟨request, file, img, isRequest, isFile, isImage⟩ := early
      obtain allowed | caught := checked request file img isRequest isFile isImage
      · exact Or.inl ⟨request, file, img, isRequest, isFile, isImage, allowed⟩
      · exact Or.inr ((refused_main_iff isRequest isFile isImage).mpr caught)

end Refusals

/-- The disk has a signed table, whose entry 0 is a MINIX partition from sector 2 on.  In the
partition the table is not signed. -/
def brokenDisk : Image where
  length := 8192
  bytes := sparse [(450, 0x81), (454, 2), (510, 0x55), (511, 0xAA)]

def withDisk : Environment := { quiet with files := fun _ => some brokenDisk }

/-- `-p 0 -s 0 disk` -/
def unsignedSubpartition : List Arg := [['-', 'p'], ['0'], ['-', 's'], ['0'], ['d']]

theorem selection_not_validated : ¬ Validates withDisk unsignedSubpartition := by
  have isRequest : requested unsignedSubpartition ⟨none, none⟩ = some ⟨some 0, some 0⟩ := rfl
  rintro (⟨request, file, img, isRequest', isFile, isImage, allowed⟩ | refused)
  · obtain rfl := Option.some.inj (isRequest.symm.trans isRequest')
    obtain rfl := Option.some.inj isImage
    obtain ⟨chosen, ⟨_, _, k, isFirst, rfl⟩, inner, isSigned, _⟩ := allowed
    obtain rfl : k = ⟨0, by decide⟩ := Fin.ext (by simpa using isFirst.symm)
    exact absurd isSigned (by decide)
  · obtain ⟨unsigned, _⟩ | ⟨_, _, chosen, found, other⟩ :=
      (refused_main_iff isRequest rfl rfl).mp refused
    · exact unsigned (by decide)
    · obtain rfl := Option.some.inj found
      exact other (by decide)

end Csc457.Minls
