import Csc457.Lib.Processes

/-!
# ls | sort -r > outfile

pipeit.c: main, its two children and the pipe between them, in any order of running and
with any of the calls refused.  ls and sort are programs of the system: ls writes the names
in the directory to its standard output, sort writes what it read to the end of its standard
input, sorted, to its standard output.
-/

set_option autoImplicit false

namespace Csc457.Lab1

open Function
open Csc457.Lib.Processes Csc457.Lib.Transition

def stdin : Nat := 0

def stdout : Nat := 1

def stderr : Nat := 2

def exitSuccess : Nat := 0

def exitFailure : Nat := 1

def bytes (text : String) : List UInt8 := text.toList.map fun c => c.toNat.toUInt8

/-- `printf(text); exit(status)`: exit flushes stdout. -/
def printfExit (text : String) (status : Nat) : Prog :=
  .write stdout (bytes text) fun _ => .exit status

def child1 (readFd writeFd : Nat) : Prog :=
  -- close read side
  .close readFd <|
  -- redirect stdout to pipe
  .dup2 writeFd stdout <|
  -- close write side
  .close writeFd <|
  .exec "ls" ["ls"] <|
  printfExit "execlp failed\n" exitFailure

def child2 (readFd writeFd : Nat) : Prog :=
  -- close write side
  .close writeFd <|
  -- replace stdin with pipe
  .dup2 readFd stdin <|
  .creat "outfile" fun
    | none => printfExit "open failed\n" exitFailure
    | some outfile =>
        -- redirect stdout to outfile
        .dup2 outfile stdout <|
        -- close read side
        .close readFd <|
        .exec "sort" ["sort", "-r"] <|
        printfExit "execlp failed\n" exitFailure

def parent (readFd writeFd pid1 pid2 : Nat) : Prog :=
  .close readFd <| .close writeFd <| .wait pid1 <| .wait pid2 <| .exit exitSuccess

def afterFork1 (readFd writeFd pid1 : Nat) : Prog :=
  .fork fun
    | none => printfExit "fork 2 failed\n" exitFailure
    | some pid2 => if pid2 = 0 then child2 readFd writeFd else parent readFd writeFd pid1 pid2

def afterPipe (readFd writeFd : Nat) : Prog :=
  .fork fun
    | none => printfExit "fork 1 failed\n" exitFailure
    | some pid1 => if pid1 = 0 then child1 readFd writeFd else afterFork1 readFd writeFd pid1

def main (argv : List String) : Prog :=
  if argv.length ≠ 1 then
    .write stderr (bytes ("Usage: " ++ argv.headD "(null)" ++ "\n")) fun _ => .exit 1
  else .pipe fun
    | none => printfExit "pipe creation failed\n" exitFailure
    | some (readFd, writeFd) => afterPipe readFd writeFd

/-! ## The system it runs on -/

structure Commands where
  /-- What ls prints, without or with outfile in the directory. -/
  listing : Bool → List UInt8
  /-- What `sort -r` makes of its input. -/
  sorted : List UInt8 → List UInt8

def Commands.ls (c : Commands) : Prog :=
  .look "outfile" fun there => .write stdout (c.listing there) fun whole =>
    .exit (if whole then 0 else 2)

def Commands.sort (c : Commands) : Prog :=
  .read stdin [] fun
    | none => .exit 2
    | some input => .write stdout (c.sorted input) fun whole => .exit (if whole then 0 else 2)

def Commands.installed (c : Commands) : String → List String → Prog
  | "ls", ["ls"] => c.ls
  | "sort", ["sort", "-r"] => c.sort
  | _, _ => .exit 127

structure Host where
  machine : Machine
  commands : Commands
  installed : machine.installed = commands.installed

/-- No descriptor of the shell is a pipe or outfile. -/
def Plain (fds : Table) : Prop :=
  ∀ fd d, fds fd = some d → d = .terminal ∨ ∃ path ≠ "outfile", d = .file path

structure Starts (W : World) (argv : List String) (fds : Table) : Prop where
  procs : W.procs = [.running fds (main argv)]
  pipes : W.pipes = []
  refused : W.refused = []
  plain : Plain fds

/-- Descriptors 0 and 1 are open. -/
def Usable (fds : Table) : Prop := fds stdin ≠ none ∧ fds stdout ≠ none

instance (fds : Table) : Decidable (Usable fds) := inferInstanceAs (Decidable (_ ∧ _))

structure Ends (m : Machine) (fds : Table) where
  readFd : Nat
  writeFd : Nat
  isRead : lowest m fds = some readFd
  isWrite : lowest m (update fds readFd (some (.readEnd 0))) = some writeFd

def HasRead (m : Machine) (fds : Table) : Prop := ∃ fd < m.descriptors, fds fd = some (.readEnd 0)

def HasWrite (m : Machine) (fds : Table) : Prop := ∃ fd < m.descriptors, fds fd = some (.writeEnd 0)

section Tables
variable {m : Machine} {fds : Table} (e : Ends m fds)

def Ends.both : Table :=
  update (update fds e.readFd (some (.readEnd 0))) e.writeFd (some (.writeEnd 0))

def Ends.bare : Table := update (update e.both e.readFd none) e.writeFd none

def Ends.lsTable : Table :=
  update (redirect m (update e.both e.readFd none) e.writeFd stdout) e.writeFd none

def Ends.openTable : Table := redirect m (update e.both e.writeFd none) e.readFd stdin

/-- The table sort is run with, where outfile was opened as `outfile`. -/
def Ends.sortTable (outfile : Nat) : Table :=
  update (redirect m (update e.openTable outfile (some (.file "outfile"))) outfile stdout)
    e.readFd none

theorem lowest_spec {fds : Table} {fd : Nat} (isLowest : lowest m fds = some fd) :
    fd < m.descriptors ∧ fds fd = none ∧ ∀ other < fd, fds other ≠ none := by
  obtain ⟨free, member, below⟩ := List.find?_range_eq_some.mp isLowest
  refine ⟨List.mem_range.mp member, Option.isNone_iff_eq_none.mp free, fun other low closed => ?_⟩
  have notFree := below other low
  rw [closed] at notFree
  cases notFree

theorem Ends.readFd_lt : e.readFd < e.writeFd := by
  obtain ⟨_, readFree, below⟩ := lowest_spec e.isRead
  obtain ⟨_, writeFree, _⟩ := lowest_spec e.isWrite
  have differ : e.writeFd ≠ e.readFd := by
    intro same
    rw [same, update_self] at writeFree
    cases writeFree
  rw [update_of_ne differ] at writeFree
  have notBelow : ¬ e.writeFd < e.readFd := fun low => below _ low writeFree
  omega

theorem Ends.writeFd_lt : e.writeFd < m.descriptors := (lowest_spec e.isWrite).1

theorem Ends.usable_iff : Usable fds ↔ 2 ≤ e.readFd := by
  obtain ⟨_, free, below⟩ := lowest_spec e.isRead
  unfold Usable stdin stdout
  constructor
  · rintro ⟨zero, one⟩
    have notZero : e.readFd ≠ 0 := fun same => zero (same ▸ free)
    have notOne : e.readFd ≠ 1 := fun same => one (same ▸ free)
    omega
  · intro two
    exact ⟨below 0 (by omega), below 1 (by omega)⟩

theorem Plain.ne {fds : Table} (plain : Plain fds) (fd pipe : Nat) :
    fds fd ≠ some (.readEnd pipe) ∧ fds fd ≠ some (.writeEnd pipe) ∧
      fds fd ≠ some (.file "outfile") := by
  refine ⟨fun isDesc => ?_, fun isDesc => ?_, fun isDesc => ?_⟩
  · obtain same | ⟨path, _, same⟩ := plain _ _ isDesc <;> cases same
  · obtain same | ⟨path, _, same⟩ := plain _ _ isDesc <;> cases same
  · obtain same | ⟨path, other, same⟩ := plain _ _ isDesc
    · cases same
    · exact other (Desc.file.inj same).symm

theorem Ends.both_apply (fd : Nat) : e.both fd =
    if fd = e.writeFd then some (.writeEnd 0)
    else if fd = e.readFd then some (.readEnd 0) else fds fd := by
  simp only [Ends.both, update_apply]

theorem Ends.bare_apply (fd : Nat) : e.bare fd =
    if fd = e.writeFd then none else if fd = e.readFd then none else fds fd := by
  simp only [Ends.bare, update_apply, e.both_apply]
  grind

theorem Ends.lsTable_apply (fd : Nat) : e.lsTable fd =
    if fd = e.writeFd then none
    else if fd = stdout then some (.writeEnd 0)
    else if fd = e.readFd then none else fds fd := by
  have less := e.readFd_lt
  have bound := e.writeFd_lt
  have isWrite : update e.both e.readFd none e.writeFd = some (.writeEnd 0) := by
    rw [update_of_ne (by omega), e.both_apply, if_pos rfl]
  have inside : stdout < m.descriptors := by unfold stdout; omega
  simp only [Ends.lsTable, redirect, isWrite, inside, Option.isSome_some, and_self, if_true,
    update_apply, e.both_apply]
  grind

theorem Ends.openTable_apply (fd : Nat) : e.openTable fd =
    if fd = stdin then some (.readEnd 0)
    else if fd = e.writeFd then none
    else if fd = e.readFd then some (.readEnd 0) else fds fd := by
  have less := e.readFd_lt
  have bound := e.writeFd_lt
  have isRead : update e.both e.writeFd none e.readFd = some (.readEnd 0) := by
    rw [update_of_ne (by omega), e.both_apply, if_neg (by omega), if_pos rfl]
  have inside : stdin < m.descriptors := by unfold stdin; omega
  simp only [Ends.openTable, redirect, isRead, inside, Option.isSome_some, and_self, if_true,
    update_apply, e.both_apply]
  grind

theorem Ends.sortTable_apply (outfile fd : Nat) : e.sortTable outfile fd =
    if fd = e.readFd then none
    else if fd = stdout then some (.file "outfile")
    else if fd = outfile then some (.file "outfile") else e.openTable fd := by
  have less := e.readFd_lt
  have bound := e.writeFd_lt
  have inside : stdout < m.descriptors := by unfold stdout; omega
  simp only [Ends.sortTable, redirect, update_self, inside, Option.isSome_some, and_self, if_true,
    update_apply]

/-! What the tables are used for. -/

section Plain
variable (plain : Plain fds)
include plain

theorem Ends.lsTable_noRead (fd : Nat) : e.lsTable fd ≠ some (.readEnd 0) := by
  have noPipe := (plain.ne fd 0).1
  rw [e.lsTable_apply]
  grind

theorem Ends.both_noFile (fd : Nat) :
    (∀ pipe, e.both fd = some (.writeEnd pipe) → pipe = 0) ∧
      e.both fd ≠ some (.file "outfile") := by
  have noPipe := plain.ne fd
  have noFile := (plain.ne fd 0).2.2
  rw [e.both_apply]
  grind

theorem Ends.bare_noEnds (fd : Nat) :
    e.bare fd ≠ some (.readEnd 0) ∧ e.bare fd ≠ some (.writeEnd 0) := by
  have noPipe := plain.ne fd 0
  rw [e.bare_apply]
  grind

theorem Ends.openTable_noWrite (fd pipe : Nat) :
    e.openTable fd ≠ some (.writeEnd pipe) ∧ e.openTable fd ≠ some (.file "outfile") := by
  have noPipe := plain.ne fd pipe
  rw [e.openTable_apply]
  grind

theorem Ends.sortTable_noWrite (outfile fd : Nat) :
    e.sortTable outfile fd ≠ some (.writeEnd 0) := by
  have noPipe := e.openTable_noWrite plain fd 0
  rw [e.sortTable_apply]
  grind

end Plain

theorem Ends.both_hasRead : HasRead m e.both := by
  have less := e.readFd_lt
  have bound := e.writeFd_lt
  refine ⟨e.readFd, by omega, ?_⟩
  rw [e.both_apply, if_neg (by omega), if_pos rfl]

theorem Ends.both_hasWrite : HasWrite m e.both :=
  ⟨e.writeFd, e.writeFd_lt, by rw [e.both_apply, if_pos rfl]⟩

theorem Ends.lsTable_stdout : e.lsTable stdout = some (.writeEnd 0) ∨
    e.lsTable stdout = none ∧ ¬ Usable fds := by
  have less := e.readFd_lt
  have usable := e.usable_iff
  rw [e.lsTable_apply]
  unfold stdout
  grind

/-- sort reads the pipe and writes outfile if 0 and 1 were open at the start, and has no
standard input or no standard output if they were not. -/
theorem Ends.sortTable_ends {outfile : Nat} (isOpen : lowest m e.openTable = some outfile) :
    (Usable fds → e.sortTable outfile stdin = some (.readEnd 0) ∧
        e.sortTable outfile stdout = some (.file "outfile")) ∧
      (¬ Usable fds → e.sortTable outfile stdin = none ∨ e.sortTable outfile stdout = none) ∧
      (e.sortTable outfile stdin = some (.readEnd 0) ∨ e.sortTable outfile stdin = none) ∧
      (e.sortTable outfile stdout = some (.file "outfile") ∨
        e.sortTable outfile stdout = none) := by
  have less := e.readFd_lt
  have free := (lowest_spec isOpen).2.1
  have usable := e.usable_iff
  simp only [e.sortTable_apply, e.openTable_apply] at free ⊢
  unfold stdin stdout at *
  grind

end Tables

end Csc457.Lab1
