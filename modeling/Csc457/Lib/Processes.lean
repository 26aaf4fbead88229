import Csc457.Lib.Transition
import Mathlib.Logic.Hydra
import Mathlib.Order.WellFounded
import Mathlib.Data.List.Basic
import Mathlib.Tactic.Abel

/-!
# Processes, descriptors and pipes

Processes that fork, move their descriptors about, replace themselves by other
programs and pass bytes through pipes.  A program is the tree of the system calls it
makes, with one branch for each answer; it has no loop but the ones that write all of
some bytes and read to the end of a file.

Whatever the order in which the processes run, a run of such programs ends, and a
process that cannot go on waits for a process, for bytes in a pipe that still has a
writer, or for room in a pipe that still has a reader.
-/

set_option autoImplicit false

namespace Csc457.Lib.Processes

open Function
open Csc457.Lib.Transition

inductive Desc where
  | readEnd (pipe : Nat)
  | writeEnd (pipe : Nat)
  /-- A file that is written at its end. -/
  | file (path : String)
  /-- Keeps what is written to it, and gives no input. -/
  | terminal
  deriving DecidableEq

inductive Prog where
  | exit (status : Nat)
  /-- The two descriptors, the read end first. -/
  | pipe (next : Option (Nat × Nat) → Prog)
  /-- 0 in the child. -/
  | fork (next : Option Nat → Prog)
  | close (fd : Nat) (next : Prog)
  | dup2 (fd target : Nat) (next : Prog)
  /-- Open for writing, created or cut to length 0. -/
  | creat (path : String) (next : Option Nat → Prog)
  /-- It goes on only if the call fails. -/
  | exec (file : String) (argv : List String) (next : Prog)
  /-- Whether there is such a file. -/
  | look (path : String) (next : Bool → Prog)
  /-- Write until all of it is written. -/
  | write (fd : Nat) (bytes : List UInt8) (next : Bool → Prog)
  /-- Read to the end; `got` was read so far. -/
  | read (fd : Nat) (got : List UInt8) (next : Option (List UInt8) → Prog)
  | wait (pid : Nat) (next : Prog)

abbrev Table := Nat → Option Desc

inductive Ending where
  | exited (status : Nat)
  /-- By SIGPIPE. -/
  | killed
  deriving DecidableEq

/-- A process that has ended has no descriptors. -/
inductive Proc where
  | running (fds : Table) (prog : Prog)
  | ended (how : Ending)

def Proc.table : Proc → Table
  | .running fds _ => fds
  | .ended _ => fun _ => none

def Proc.hasEnded : Proc → Bool
  | .running _ _ => false
  | .ended _ => true

/-- The calls that can be refused for want of a resource. -/
inductive Call where
  | pipe
  | fork
  | creat
  | exec
  deriving DecidableEq

structure World where
  /-- A process is known by its place. -/
  procs : List Proc
  /-- What is in each pipe. -/
  pipes : List (List UInt8)
  files : String → Option (List UInt8)
  screen : List UInt8
  /-- The calls that were refused, and the processes that made them. -/
  refused : List (Nat × Call)

/-- The limits of the system, and the programs that are there. -/
structure Machine where
  /-- A descriptor is less. -/
  descriptors : Nat
  /-- The bytes a pipe holds. -/
  capacity : Nat
  /-- A write of so many bytes or less is not split; 512 is the least there is. -/
  atomic : Nat
  atomic_ge : 512 ≤ atomic
  atomic_le : atomic ≤ capacity
  installed : String → List String → Prog

variable (m : Machine)

def lowest (fds : Table) : Option Nat := (List.range m.descriptors).find? fun fd => (fds fd).isNone

/-- `dup2` -/
def redirect (fds : Table) (fd target : Nat) : Table :=
  if (fds fd).isSome = true ∧ target < m.descriptors then update fds target (fds fd) else fds

def Proc.Holds (p : Proc) (d : Desc) : Prop := ∃ fd < m.descriptors, p.table fd = some d

instance (p : Proc) (d : Desc) : Decidable (p.Holds m d) :=
  inferInstanceAs (Decidable (∃ fd < _, _))

def World.Held (W : World) (d : Desc) : Prop := ∃ p ∈ W.procs, p.Holds m d

instance (W : World) (d : Desc) : Decidable (W.Held m d) :=
  inferInstanceAs (Decidable (∃ p ∈ _, _))

/-! ## Steps -/

def World.put (W : World) (pid : Nat) (p : Proc) : World :=
  { W with procs := W.procs.set pid p }

def World.refuse (W : World) (pid : Nat) (call : Call) : World :=
  { W with refused := W.refused ++ [(pid, call)] }

def World.inPipe (W : World) (pipe : Nat) : List UInt8 := W.pipes[pipe]?.getD []

def World.setPipe (W : World) (pipe : Nat) (bytes : List UInt8) : World :=
  { W with pipes := W.pipes.set pipe bytes }

/-- Of `left` bytes so many can go into a pipe that holds `held`. -/
def Machine.Takes (held left moved : Nat) : Prop :=
  0 < moved ∧ moved ≤ left ∧ held + moved ≤ m.capacity ∧ (left ≤ m.atomic → moved = left)

instance (held left moved : Nat) : Decidable (m.Takes held left moved) :=
  inferInstanceAs (Decidable (_ ∧ _ ∧ _ ∧ _))

/-- Does the call fail, and if not, how many bytes does it move. -/
inductive Choice where
  | refuse
  | go (bytes : Nat)
  deriving DecidableEq

/-- One system call of process `pid`, if it does not block. -/
def proceed (W : World) (pid : Nat) (fds : Table) : Prog → Choice → Option World
  | .exit status, .go _ => some (W.put pid (.ended (.exited status)))
  | .pipe next, .refuse => some ((W.refuse pid .pipe).put pid (.running fds (next none)))
  | .pipe next, .go _ => do
      let readFd ← lowest m fds
      let fds := update fds readFd (some (.readEnd W.pipes.length))
      let writeFd ← lowest m fds
      let fds := update fds writeFd (some (.writeEnd W.pipes.length))
      return { W.put pid (.running fds (next (some (readFd, writeFd)))) with
        pipes := W.pipes ++ [[]] }
  | .fork next, .refuse => some ((W.refuse pid .fork).put pid (.running fds (next none)))
  | .fork next, .go _ =>
      let W' := W.put pid (.running fds (next (some W.procs.length)))
      some { W' with procs := W'.procs ++ [.running fds (next (some 0))] }
  | .close fd next, .go _ => some (W.put pid (.running (update fds fd none) next))
  | .dup2 fd target next, .go _ => some (W.put pid (.running (redirect m fds fd target) next))
  | .creat _ next, .refuse => some ((W.refuse pid .creat).put pid (.running fds (next none)))
  | .creat path next, .go _ => do
      let fd ← lowest m fds
      return { W.put pid (.running (update fds fd (some (.file path))) (next (some fd))) with
        files := update W.files path (some []) }
  | .exec _ _ next, .refuse => some ((W.refuse pid .exec).put pid (.running fds next))
  | .exec file argv _, .go _ => some (W.put pid (.running fds (m.installed file argv)))
  | .look path next, .go _ => some (W.put pid (.running fds (next (W.files path).isSome)))
  | .write fd bytes next, .go moved =>
      let rest := Proc.running fds (.write fd (bytes.drop moved) next)
      if bytes = [] then some (W.put pid (.running fds (next true)))
      else match fds fd with
        | some (.writeEnd pipe) =>
            if ¬ W.Held m (.readEnd pipe) then some (W.put pid (.ended .killed))
            else if m.Takes (W.inPipe pipe).length bytes.length moved then
              some ((W.put pid rest).setPipe pipe (W.inPipe pipe ++ bytes.take moved))
            else none
        | some (.file path) =>
            if 0 < moved then
              some { W.put pid rest with
                files := update W.files path
                  (some ((W.files path).getD [] ++ bytes.take moved)) }
            else none
        | some .terminal =>
            if 0 < moved then
              some { W.put pid rest with screen := W.screen ++ bytes.take moved }
            else none
        | _ => some (W.put pid (.running fds (next false)))
  | .read fd got next, .go moved =>
      match fds fd with
      | some (.readEnd pipe) =>
          if W.inPipe pipe = [] then
            if W.Held m (.writeEnd pipe) then none
            else some (W.put pid (.running fds (next (some got))))
          else if 0 < moved then
            let got := got ++ (W.inPipe pipe).take moved
            some ((W.put pid (.running fds (.read fd got next))).setPipe pipe
              ((W.inPipe pipe).drop moved))
          else none
      | some .terminal => some (W.put pid (.running fds (next (some got))))
      | _ => some (W.put pid (.running fds (next none)))
  | .wait other next, .go _ =>
      if W.procs[other]?.all Proc.hasEnded then some (W.put pid (.running fds next)) else none
  | _, _ => none

def act (W : World) (pid : Nat) (choice : Choice) : Option World :=
  match W.procs[pid]? with
  | some (.running fds prog) => proceed m W pid fds prog choice
  | _ => none

def step (W : World) (label : Nat × Choice) (W' : World) : Prop := act m W label.1 label.2 = some W'

theorem step_iff {W W' : World} {label : Nat × Choice} : step m W label W' ↔
    ∃ fds prog, W.procs[label.1]? = some (.running fds prog) ∧
      proceed m W label.1 fds prog label.2 = some W' := by
  unfold step act
  split
  · next fds prog isProc =>
      constructor
      · exact fun next => ⟨fds, prog, isProc, next⟩
      · rintro ⟨fds', prog', isProc', next⟩
        obtain ⟨rfl, rfl⟩ := Proc.running.inj (Option.some.inj (isProc.symm.trans isProc'))
        exact next
  · next other =>
      constructor
      · intro none
        cases none
      · rintro ⟨fds, prog, isProc, _⟩
        exact absurd isProc (other fds prog)

def acts (W : World) (calls : List (Nat × Choice)) : Option World :=
  calls.foldlM (fun W label => act m W label.1 label.2) W

theorem acts_reach {init : World → Prop} {W W' : World} {calls : List (Nat × Choice)}
    (reached : Reach init (step m) W) (run : acts m W calls = some W') :
    Reach init (step m) W' := by
  induction calls generalizing W with
  | nil =>
      obtain rfl := Option.some.inj run
      exact reached
  | cons label rest ih =>
      rw [acts, List.foldlM_cons] at run
      obtain ⟨W₁, next, run⟩ := Option.bind_eq_some_iff.mp run
      exact ih (reached.step (a := label) next) run

inductive Blocked (W : World) (fds : Table) : Prog → Prop where
  | wait {other : Nat} {next : Prog} (running : W.procs[other]?.all Proc.hasEnded = false) :
      Blocked W fds (.wait other next)
  | empty {fd pipe : Nat} {got : List UInt8} {next : Option (List UInt8) → Prog}
      (isEnd : fds fd = some (.readEnd pipe)) (empty : W.inPipe pipe = [])
      (writer : W.Held m (.writeEnd pipe)) : Blocked W fds (.read fd got next)
  | full {fd pipe : Nat} {bytes : List UInt8} {next : Bool → Prog} (left : bytes ≠ [])
      (isEnd : fds fd = some (.writeEnd pipe)) (reader : W.Held m (.readEnd pipe))
      (full : ∀ moved, ¬ m.Takes (W.inPipe pipe).length bytes.length moved) :
      Blocked W fds (.write fd bytes next)

variable {m}

theorem Machine.takes_empty {left : Nat} (some : 0 < left) : ∃ moved, m.Takes 0 left moved := by
  have pos := m.atomic_ge
  have le := m.atomic_le
  by_cases small : left ≤ m.atomic
  · exact ⟨left, some, Nat.le_refl left, by omega, fun _ => rfl⟩
  · exact ⟨1, Nat.one_pos, some, by omega, fun isSmall => absurd isSmall small⟩

theorem acts_or_blocked {W : World} {pid : Nat} {fds : Table} {prog : Prog}
    (isProc : W.procs[pid]? = some (.running fds prog)) :
    Blocked m W fds prog ∨ ∃ choice, (act m W pid choice).isSome = true := by
  unfold act
  rw [isProc]
  cases prog with
  | exit status => exact .inr ⟨.go 0, rfl⟩
  | pipe next => exact .inr ⟨.refuse, rfl⟩
  | fork next => exact .inr ⟨.refuse, rfl⟩
  | close fd next => exact .inr ⟨.go 0, rfl⟩
  | dup2 fd target next => exact .inr ⟨.go 0, rfl⟩
  | creat path next => exact .inr ⟨.refuse, rfl⟩
  | exec file argv next => exact .inr ⟨.refuse, rfl⟩
  | look path next => exact .inr ⟨.go 0, rfl⟩
  | write fd bytes next =>
      by_cases none : bytes = []
      · exact .inr ⟨.go 0, by simp [proceed, none]⟩
      · cases isDesc : fds fd with
        | none => exact .inr ⟨.go 0, by simp [proceed, none, isDesc]⟩
        | some desc =>
            cases desc with
            | readEnd pipe => exact .inr ⟨.go 0, by simp [proceed, none, isDesc]⟩
            | file path => exact .inr ⟨.go 1, by simp [proceed, none, isDesc]⟩
            | terminal => exact .inr ⟨.go 1, by simp [proceed, none, isDesc]⟩
            | writeEnd pipe =>
                by_cases reader : W.Held m (.readEnd pipe)
                · by_cases room : ∃ moved, m.Takes (W.inPipe pipe).length bytes.length moved
                  · obtain ⟨moved, takes⟩ := room
                    exact .inr ⟨.go moved, by simp [proceed, none, isDesc, reader, takes]⟩
                  · exact .inl (.full none isDesc reader (not_exists.mp room))
                · exact .inr ⟨.go 0, by simp [proceed, none, isDesc, reader]⟩
  | read fd got next =>
      cases isDesc : fds fd with
      | none => exact .inr ⟨.go 0, by simp [proceed, isDesc]⟩
      | some desc =>
          cases desc with
          | writeEnd pipe => exact .inr ⟨.go 0, by simp [proceed, isDesc]⟩
          | file path => exact .inr ⟨.go 0, by simp [proceed, isDesc]⟩
          | terminal => exact .inr ⟨.go 0, by simp [proceed, isDesc]⟩
          | readEnd pipe =>
              by_cases empty : W.inPipe pipe = []
              · by_cases writer : W.Held m (.writeEnd pipe)
                · exact .inl (.empty isDesc empty writer)
                · exact .inr ⟨.go 0, by simp [proceed, isDesc, empty, writer]⟩
              · exact .inr ⟨.go 1, by simp [proceed, isDesc, empty]⟩
  | wait other next =>
      cases ended : W.procs[other]?.all Proc.hasEnded with
      | false => exact .inl (.wait ended)
      | true => exact .inr ⟨.go 0, by simp [proceed, ended]⟩

/-- From here to `last`, with table `T`, the program only closes and redirects descriptors,
and `P` holds of every table on the way. -/
inductive Straight (m : Machine) (P : Table → Prop) (T : Table) (last : Prog) :
    Table → Prog → Prop where
  | last (here : P T) : Straight m P T last T last
  | close {fds : Table} {fd : Nat} {next : Prog} (here : P fds)
      (rest : Straight m P T last (update fds fd none) next) :
      Straight m P T last fds (.close fd next)
  | dup2 {fds : Table} {fd target : Nat} {next : Prog} (here : P fds)
      (rest : Straight m P T last (redirect m fds fd target) next) :
      Straight m P T last fds (.dup2 fd target next)

section Straight
variable {P : Table → Prop} {T fds : Table} {last prog : Prog} {W W' : World} {pid : Nat}
  {choice : Choice}

theorem Straight.here (straight : Straight m P T last fds prog) : P fds := by
  cases straight with
  | last here => exact here
  | close here _ => exact here
  | dup2 here _ => exact here

theorem Straight.step (straight : Straight m P T last fds prog)
    (next : proceed m W pid fds prog choice = some W') :
    (fds = T ∧ prog = last) ∨ ∃ fds' prog', Straight m P T last fds' prog' ∧
      W' = W.put pid (.running fds' prog') := by
  cases straight with
  | last _ => exact .inl ⟨rfl, rfl⟩
  | close _ rest =>
      cases choice with
      | refuse => cases next
      | go moved => exact .inr ⟨_, _, rest, (Option.some.inj next).symm⟩
  | dup2 _ rest =>
      cases choice with
      | refuse => cases next
      | go moved => exact .inr ⟨_, _, rest, (Option.some.inj next).symm⟩

theorem Straight.not_blocked (straight : Straight m P T last fds prog)
    (free : ¬ Blocked m W T last) : ¬ Blocked m W fds prog := by
  cases straight with
  | last _ => exact free
  | close _ _ => exact fun blocked => by cases blocked
  | dup2 _ _ => exact fun blocked => by cases blocked

end Straight

/-! ## Every run ends -/

/-- The program without the data of the loop it is in. -/
def Prog.shape : Prog → Prog
  | .write fd _ next => .write fd [] next
  | .read fd _ next => .read fd [] next
  | prog => prog

inductive Next (m : Machine) : Prog → Prog → Prop where
  | pipe (next : Option (Nat × Nat) → Prog) (r : Option (Nat × Nat)) :
      Next m (next r).shape (.pipe next)
  | fork (next : Option Nat → Prog) (r : Option Nat) : Next m (next r).shape (.fork next)
  | close (fd : Nat) (next : Prog) : Next m next.shape (.close fd next)
  | dup2 (fd target : Nat) (next : Prog) : Next m next.shape (.dup2 fd target next)
  | creat (path : String) (next : Option Nat → Prog) (r : Option Nat) :
      Next m (next r).shape (.creat path next)
  | exec (file : String) (argv : List String) (next : Prog) :
      Next m (m.installed file argv).shape (.exec file argv next)
  | noExec (file : String) (argv : List String) (next : Prog) :
      Next m next.shape (.exec file argv next)
  | look (path : String) (next : Bool → Prog) (r : Bool) : Next m (next r).shape (.look path next)
  | write (fd : Nat) (next : Bool → Prog) (r : Bool) : Next m (next r).shape (.write fd [] next)
  | read (fd : Nat) (next : Option (List UInt8) → Prog) (r : Option (List UInt8)) :
      Next m (next r).shape (.read fd [] next)
  | wait (pid : Nat) (next : Prog) : Next m next.shape (.wait pid next)

def Prog.Keeps : Prog → Prop
  | .exit _ => True
  | .pipe next => ∀ r, (next r).Keeps
  | .fork next => ∀ r, (next r).Keeps
  | .close _ next => next.Keeps
  | .dup2 _ _ next => next.Keeps
  | .creat _ next => ∀ r, (next r).Keeps
  | .exec _ _ _ => False
  | .look _ next => ∀ r, (next r).Keeps
  | .write _ _ next => ∀ r, (next r).Keeps
  | .read _ _ next => ∀ r, (next r).Keeps
  | .wait _ next => next.Keeps

theorem acc_of_exec (prog : Prog)
    (exec : prog.Keeps ∨ ∀ file argv, Acc (Next m) (m.installed file argv).shape) :
    Acc (Next m) prog.shape := by
  induction prog with
  | exit status => exact .intro _ fun _ next => by cases next
  | pipe next ih =>
      refine .intro _ fun _ here => ?_
      cases here
      exact ih _ (exec.imp_left fun keeps => keeps _)
  | fork next ih =>
      refine .intro _ fun _ here => ?_
      cases here
      exact ih _ (exec.imp_left fun keeps => keeps _)
  | close fd next ih =>
      refine .intro _ fun _ here => ?_
      cases here
      exact ih (exec.imp_left id)
  | dup2 fd target next ih =>
      refine .intro _ fun _ here => ?_
      cases here
      exact ih (exec.imp_left id)
  | creat path next ih =>
      refine .intro _ fun _ here => ?_
      cases here
      exact ih _ (exec.imp_left fun keeps => keeps _)
  | exec file argv next ih =>
      have others := exec.resolve_left id
      refine .intro _ fun _ here => ?_
      cases here with
      | exec => exact others file argv
      | noExec => exact ih (.inr others)
  | look path next ih =>
      refine .intro _ fun _ here => ?_
      cases here
      exact ih _ (exec.imp_left fun keeps => keeps _)
  | write fd bytes next ih =>
      refine .intro _ fun _ here => ?_
      cases here
      exact ih _ (exec.imp_left fun keeps => keeps _)
  | read fd got next ih =>
      refine .intro _ fun _ here => ?_
      cases here
      exact ih _ (exec.imp_left fun keeps => keeps _)
  | wait pid next ih =>
      refine .intro _ fun _ here => ?_
      cases here
      exact ih (exec.imp_left id)

/-- Where the programs that are installed replace themselves by no other, every program
comes to its end. -/
theorem acc_next (keeps : ∀ file argv, (m.installed file argv).Keeps) (prog : Prog) :
    Acc (Next m) prog.shape :=
  acc_of_exec prog (.inr fun file argv => acc_of_exec _ (.inl (keeps file argv)))

def Proc.shape : Proc → Option Prog
  | .running _ prog => some prog.shape
  | .ended _ => none

def Proc.unsent : Proc → Nat
  | .running _ (.write _ bytes _) => bytes.length
  | _ => 0

def World.shapes (W : World) : Multiset Prog := (W.procs.filterMap Proc.shape : List Prog)

def World.unsent (W : World) : Nat := (W.procs.map Proc.unsent).sum

def World.inPipes (W : World) : Nat := (W.pipes.map List.length).sum

/-- What becomes of the programs in a step. -/
inductive Advance (m : Machine) (W W' : World) (pid : Nat) (prog : Prog) : Prop where
  | moves {p : Proc} (procs : W'.procs = W.procs.set pid p)
      (smaller : ∀ s ∈ p.shape, Next m s prog.shape) : Advance m W W' pid prog
  | forks {p child : Proc} (procs : W'.procs = W.procs.set pid p ++ [child])
      (smaller : ∀ s ∈ p.shape, Next m s prog.shape)
      (childSmaller : ∀ s ∈ child.shape, Next m s prog.shape) : Advance m W W' pid prog
  | sends {fds : Table} {fd : Nat} {bytes rest : List UInt8} {next : Bool → Prog}
      (isWrite : prog = .write fd bytes next)
      (procs : W'.procs = W.procs.set pid (.running fds (.write fd rest next)))
      (fewer : rest.length < bytes.length) : Advance m W W' pid prog
  | receives {fds : Table} {fd : Nat} {got got' : List UInt8}
      {next : Option (List UInt8) → Prog} (isRead : prog = .read fd got next)
      (procs : W'.procs = W.procs.set pid (.running fds (.read fd got' next)))
      (fewer : W'.inPipes < W.inPipes) : Advance m W W' pid prog

theorem set_split {α : Type} {l : List α} {i : Nat} {x : α} (isItem : l[i]? = some x) :
    ∃ A B, l = A ++ x :: B ∧ ∀ y, l.set i y = A ++ y :: B := by
  obtain ⟨low, rfl⟩ := List.getElem?_eq_some_iff.mp isItem
  refine ⟨l.take i, l.drop (i + 1), ?_, fun y => List.set_eq_take_append_cons_drop .. |>.trans ?_⟩
  · simp
  · rw [if_pos low]

theorem drop_fewer {bytes : List UInt8} {moved : Nat} (left : bytes ≠ []) (pos : 0 < moved) :
    (bytes.drop moved).length < bytes.length := by
  have some := List.length_pos_iff.mpr left
  rw [List.length_drop]
  omega

theorem inPipes_drop {W : World} {pipe moved : Nat} (some : W.inPipe pipe ≠ []) (pos : 0 < moved) :
    (W.setPipe pipe ((W.inPipe pipe).drop moved)).inPipes < W.inPipes := by
  cases isPipe : W.pipes[pipe]? with
  | none => exact absurd (by simp [World.inPipe, isPipe]) some
  | some bytes =>
      have content : W.inPipe pipe = bytes := by simp [World.inPipe, isPipe]
      rw [content] at some ⊢
      obtain ⟨A, B, split, set⟩ := set_split isPipe
      have fewer := drop_fewer some pos
      rw [World.inPipes, World.inPipes, World.setPipe, set, split]
      simp only [List.map_append, List.map_cons, List.sum_append, List.sum_cons]
      omega

theorem Advance.running {W W' : World} {pid : Nat} {fds : Table} {prog next : Prog}
    (procs : W'.procs = W.procs.set pid (.running fds next))
    (smaller : Next m next.shape prog.shape) : Advance m W W' pid prog :=
  .moves procs fun _ same => Option.mem_some.mp same ▸ smaller

theorem proceed_advances {W W' : World} {pid : Nat} {fds : Table} {prog : Prog} {choice : Choice}
    (next : proceed m W pid fds prog choice = some W') : Advance m W W' pid prog := by
  cases prog with
  | exit status =>
      cases choice with
      | refuse => cases next
      | go moved =>
          obtain rfl := Option.some.inj next
          exact .moves rfl fun _ none => by cases none
  | pipe after =>
      cases choice with
      | refuse =>
          obtain rfl := Option.some.inj next
          exact .running rfl (.pipe after none)
      | go moved =>
          obtain ⟨readFd, _, next⟩ := Option.bind_eq_some_iff.mp next
          obtain ⟨writeFd, _, next⟩ := Option.bind_eq_some_iff.mp next
          obtain rfl := Option.some.inj next
          exact .running rfl (.pipe after _)
  | fork after =>
      cases choice with
      | refuse =>
          obtain rfl := Option.some.inj next
          exact .running rfl (.fork after none)
      | go moved =>
          obtain rfl := Option.some.inj next
          exact .forks rfl (fun _ same => Option.mem_some.mp same ▸ .fork after _)
            fun _ same => Option.mem_some.mp same ▸ .fork after _
  | close fd after =>
      cases choice with
      | refuse => cases next
      | go moved =>
          obtain rfl := Option.some.inj next
          exact .running rfl (.close fd after)
  | dup2 fd target after =>
      cases choice with
      | refuse => cases next
      | go moved =>
          obtain rfl := Option.some.inj next
          exact .running rfl (.dup2 fd target after)
  | creat path after =>
      cases choice with
      | refuse =>
          obtain rfl := Option.some.inj next
          exact .running rfl (.creat path after none)
      | go moved =>
          obtain ⟨fd, _, next⟩ := Option.bind_eq_some_iff.mp next
          obtain rfl := Option.some.inj next
          exact .running rfl (.creat path after _)
  | exec file argv after =>
      cases choice with
      | refuse =>
          obtain rfl := Option.some.inj next
          exact .running rfl (.noExec file argv after)
      | go moved =>
          obtain rfl := Option.some.inj next
          exact .running rfl (.exec file argv after)
  | look path after =>
      cases choice with
      | refuse => cases next
      | go moved =>
          obtain rfl := Option.some.inj next
          exact .running rfl (.look path after _)
  | write fd bytes after =>
      cases choice with
      | refuse => cases next
      | go moved =>
          simp only [proceed] at next
          split at next
          · obtain rfl := Option.some.inj next
            exact .running rfl (.write fd after true)
          · next left =>
              split at next
              · split at next
                · obtain rfl := Option.some.inj next
                  exact .moves rfl fun _ none => by cases none
                · split at next
                  · next takes =>
                      obtain rfl := Option.some.inj next
                      exact .sends rfl rfl (drop_fewer left takes.1)
                  · cases next
              · split at next
                · next pos =>
                    obtain rfl := Option.some.inj next
                    exact .sends rfl rfl (drop_fewer left pos)
                · cases next
              · split at next
                · next pos =>
                    obtain rfl := Option.some.inj next
                    exact .sends rfl rfl (drop_fewer left pos)
                · cases next
              · obtain rfl := Option.some.inj next
                exact .running rfl (.write fd after false)
  | read fd got after =>
      cases choice with
      | refuse => cases next
      | go moved =>
          simp only [proceed] at next
          split at next
          · split at next
            · split at next
              · cases next
              · obtain rfl := Option.some.inj next
                exact .running rfl (.read fd after _)
            · next some =>
                split at next
                · next pos =>
                    obtain rfl := Option.some.inj next
                    exact .receives rfl rfl (inPipes_drop some pos)
                · cases next
          · obtain rfl := Option.some.inj next
            exact .running rfl (.read fd after _)
          · obtain rfl := Option.some.inj next
            exact .running rfl (.read fd after none)
  | wait other after =>
      cases choice with
      | refuse => cases next
      | go moved =>
          simp only [proceed] at next
          split at next
          · obtain rfl := Option.some.inj next
            exact .running rfl (.wait other after)
          · cases next

/-- The programs that are run, then the bytes that are left to write, then those in the
pipes. -/
def World.rank (W : World) : Multiset Prog × Nat × Nat := (W.shapes, W.unsent, W.inPipes)

def Less (m : Machine) : Multiset Prog × Nat × Nat → Multiset Prog × Nat × Nat → Prop :=
  Prod.Lex (Relation.CutExpand (Next m)) (Prod.Lex (· < ·) (· < ·))

theorem shapes_set {W : World} {pid : Nat} {fds : Table} {prog : Prog}
    (isProc : W.procs[pid]? = some (.running fds prog)) (p : Proc) :
    (((W.procs.set pid p).filterMap Proc.shape : List Prog) : Multiset Prog) + {prog.shape} =
      W.shapes + (p.shape.toList : Multiset Prog) := by
  obtain ⟨A, B, split, set⟩ := set_split isProc
  have old : (Proc.running fds prog).shape = some prog.shape := rfl
  rw [World.shapes, set, split, List.filterMap_append, List.filterMap_append, List.filterMap_cons,
    List.filterMap_cons, old]
  cases p.shape with
  | none =>
      simp only [Option.toList_none, Multiset.coe_nil, add_zero, ← Multiset.coe_add,
        ← Multiset.cons_coe, ← Multiset.singleton_add]
      abel
  | some shape =>
      simp only [Option.toList_some, ← Multiset.coe_add, ← Multiset.cons_coe,
        ← Multiset.singleton_add]
      abel

theorem Advance.less {W W' : World} {pid : Nat} {fds : Table} {prog : Prog}
    (isProc : W.procs[pid]? = some (.running fds prog)) (advance : Advance m W W' pid prog) :
    Less m W'.rank W.rank := by
  cases advance with
  | @moves p procs smaller =>
      refine .left _ _ ⟨(p.shape.toList : Multiset Prog), prog.shape, ?_, ?_⟩
      · exact fun s member => smaller s (Option.mem_toList.mp member)
      · rw [← shapes_set isProc p, World.shapes, procs]
  | @forks p child procs smaller childSmaller =>
      refine .left _ _
        ⟨((p.shape.toList ++ child.shape.toList : List Prog) : Multiset Prog), prog.shape, ?_, ?_⟩
      · intro s member
        rcases List.mem_append.mp (Multiset.mem_coe.mp member) with member | member
        · exact smaller s (Option.mem_toList.mp member)
        · exact childSmaller s (Option.mem_toList.mp member)
      · have child' : [child].filterMap Proc.shape = child.shape.toList := by
          cases here : child.shape <;> simp [here]
        rw [← Multiset.coe_add, ← add_assoc, ← shapes_set isProc p, World.shapes, procs,
          List.filterMap_append, child', ← Multiset.coe_add]
        abel
  | @sends fds' fd bytes rest next isWrite procs fewer =>
      subst isWrite
      obtain ⟨A, B, split, set⟩ := set_split isProc
      rw [set] at procs
      have shapes : W'.shapes = W.shapes := by
        simp [World.shapes, procs, split, Proc.shape, Prog.shape]
      have unsent : W'.unsent < W.unsent := by
        simp [World.unsent, procs, split, Proc.unsent, fewer]
      rw [World.rank, World.rank, shapes]
      exact .right _ (.left _ _ unsent)
  | @receives fds' fd got got' next isRead procs fewer =>
      subst isRead
      obtain ⟨A, B, split, set⟩ := set_split isProc
      rw [set] at procs
      have shapes : W'.shapes = W.shapes := by
        simp [World.shapes, procs, split, Proc.shape, Prog.shape]
      have unsent : W'.unsent = W.unsent := by
        simp [World.unsent, procs, split, Proc.unsent]
      rw [World.rank, World.rank, shapes, unsent]
      exact .right _ (.right _ fewer)

theorem next_wellFounded (keeps : ∀ file argv, (m.installed file argv).Keeps) :
    WellFounded (Next m) := by
  refine ⟨fun prog => .intro _ fun s here => ?_⟩
  have isShape : ∃ next, s = Prog.shape next := by cases here <;> exact ⟨_, rfl⟩
  obtain ⟨next, rfl⟩ := isShape
  exact acc_next keeps next

/-- Whatever the processes do, and in whatever order, they do it only so often. -/
theorem step_wellFounded (keeps : ∀ file argv, (m.installed file argv).Keeps) :
    WellFounded fun W' W => ∃ label, step m W label W' := by
  have less : WellFounded (Less m) :=
    (next_wellFounded keeps).cutExpand.prod_lex (Nat.lt_wfRel.wf.prod_lex Nat.lt_wfRel.wf)
  refine Subrelation.wf ?_ (InvImage.wf World.rank less)
  rintro W' W ⟨label, next⟩
  obtain ⟨fds, prog, isProc, next⟩ := (step_iff m).mp next
  exact (proceed_advances next).less isProc

end Csc457.Lib.Processes
