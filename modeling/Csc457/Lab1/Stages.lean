import Csc457.Lab1.Pipeit

/-!
# What each process of pipeit has done so far

Child 1 on its way to ls and as ls, child 2 on its way to sort and as sort, and the parent,
each with the part of the world that is its own, and what one call of each changes there.
-/

set_option autoImplicit false

namespace Csc457.Lab1

open Function
open Csc457.Lib.Processes Csc457.Lib.Transition

section Stages
variable (h : Host) {fds : Table} (e : Ends h.machine fds) (W₀ : World)
  (refused : List (Nat × Call))

/-- What child 1 writes: the listing, or that there is none. -/
def Text (text : List UInt8) : Prop :=
  ∃ there, ((W₀.files "outfile").isSome = true → there = true) ∧
    text = if (1, .exec) ∈ refused then bytes "execlp failed\n" else h.commands.listing there

/-- Child 1, with the text it writes and what is left of it. -/
inductive Child1At : Proc → Option (List UInt8 × List UInt8) → Prop where
  | setup {table : Table} {prog : Prog} (granted : (1, .exec) ∉ refused)
      (line : Straight h.machine (fun table => Usable fds → HasWrite h.machine table) e.lsTable
        (.exec "ls" ["ls"] (printfExit "execlp failed\n" exitFailure)) table prog) :
      Child1At (.running table prog) none
  | looking (granted : (1, .exec) ∉ refused) : Child1At (.running e.lsTable h.commands.ls) none
  | sending {text rest : List UInt8} {next : Bool → Prog} (isText : Text h W₀ refused text)
      (last : ∀ whole, ∃ status, next whole = .exit status) :
      Child1At (.running e.lsTable (.write stdout rest next)) (some (text, rest))
  | leaving {text rest : List UInt8} {status : Nat} (isText : Text h W₀ refused text)
      (all : Usable fds → rest = []) :
      Child1At (.running e.lsTable (.exit status)) (some (text, rest))
  | ended {text rest : List UInt8} {how : Ending} (isText : Text h W₀ refused text)
      (all : Usable fds → how ≠ .killed → rest = []) :
      Child1At (.ended how) (some (text, rest))

inductive Got where
  | reading (got : List UInt8)
  | whole (input : List UInt8)
  /-- outfile could not be opened, or sort not be run. -/
  | failed

inductive Output : Got → List UInt8 → Prop where
  | sorted (input : List UInt8) (granted : ∀ call, (2, call) ∉ refused) :
      Output (.whole input) (h.commands.sorted input)
  | message (isOpen : (2, .creat) ∉ refused) (isRefused : (2, .exec) ∈ refused) :
      Output .failed (bytes "execlp failed\n")

/-- Child 2, with the contents of outfile. -/
inductive Child2At : Option (List UInt8) → Proc → Got → Prop where
  | setup {table : Table} {prog : Prog} (granted : ∀ call, (2, call) ∉ refused)
      (line : Straight h.machine (HasRead h.machine) e.openTable
        (.creat "outfile" fun
          | none => printfExit "open failed\n" exitFailure
          | some outfile =>
              .dup2 outfile stdout <| .close e.readFd <| .exec "sort" ["sort", "-r"] <|
                printfExit "execlp failed\n" exitFailure) table prog) :
      Child2At (W₀.files "outfile") (.running table prog) (.reading [])
  | failing {rest : List UInt8} (isRefused : (2, .creat) ∈ refused) :
      Child2At (W₀.files "outfile")
        (.running e.openTable (.write stdout rest fun _ => .exit exitFailure)) .failed
  | giving (isRefused : (2, .creat) ∈ refused) :
      Child2At (W₀.files "outfile") (.running e.openTable (.exit exitFailure)) .failed
  | given {how : Ending} (isRefused : (2, .creat) ∈ refused) :
      Child2At (W₀.files "outfile") (.ended how) .failed
  | opened {outfile : Nat} {table : Table} {prog : Prog} (granted : ∀ call, (2, call) ∉ refused)
      (isOpen : lowest h.machine e.openTable = some outfile)
      (line : Straight h.machine (fun table => Usable fds → HasRead h.machine table)
        (e.sortTable outfile)
        (.exec "sort" ["sort", "-r"] (printfExit "execlp failed\n" exitFailure)) table prog) :
      Child2At (some []) (.running table prog) (.reading [])
  | reading {outfile : Nat} {got : List UInt8} (granted : ∀ call, (2, call) ∉ refused)
      (isOpen : lowest h.machine e.openTable = some outfile) :
      Child2At (some []) (.running (e.sortTable outfile) (.read stdin got fun
        | none => .exit 2
        | some input => .write stdout (h.commands.sorted input) fun whole =>
            .exit (if whole then 0 else 2))) (.reading got)
  | writing {outfile : Nat} {got : Got} {text done rest : List UInt8} {next : Bool → Prog}
      (isOpen : lowest h.machine e.openTable = some outfile)
      (isOutput : Output h refused got text)
      (last : ∀ whole, ∃ status, next whole = .exit status) (whole : done ++ rest = text)
      (none : ¬ Usable fds → got ≠ .failed → done = [] ∧ e.sortTable outfile stdout = none) :
      Child2At (some done) (.running (e.sortTable outfile) (.write stdout rest next)) got
  | leaving {outfile : Nat} {got : Got} {text done : List UInt8} {status : Nat}
      (isOpen : lowest h.machine e.openTable = some outfile)
      (isOutput : Output h refused got text) (result : Usable fds → done = text)
      (none : ¬ Usable fds → got ≠ .failed → done = []) :
      Child2At (some done) (.running (e.sortTable outfile) (.exit status)) got
  | ended {got : Got} {text done : List UInt8} {how : Ending}
      (isOutput : Output h refused got text) (result : Usable fds → done = text)
      (none : ¬ Usable fds → got ≠ .failed → done = []) : Child2At (some done) (.ended how) got

inductive ParentAt (c1 c2 : Proc) : Proc → Prop where
  | closing {table : Table} {prog : Prog}
      (line : Straight h.machine (fun _ => True) e.bare
        (.wait 1 <| .wait 2 <| .exit exitSuccess) table prog) : ParentAt c1 c2 (.running table prog)
  | waiting (first : c1.hasEnded = true) :
      ParentAt c1 c2 (.running e.bare (.wait 2 <| .exit exitSuccess))
  | leaving (first : c1.hasEnded = true) (second : c2.hasEnded = true) :
      ParentAt c1 c2 (.running e.bare (.exit exitSuccess))
  | ended (first : c1.hasEnded = true) (second : c2.hasEnded = true) :
      ParentAt c1 c2 (.ended (.exited exitSuccess))

/-- The parent after a fork that was refused, with what is in the pipe. -/
inductive FailedAt : List UInt8 → Proc → Prop where
  | failing {pipe rest : List UInt8}
      (room : e.both stdout = some (.writeEnd 0) → pipe.length + rest.length ≤ 512) :
      FailedAt pipe (.running e.both (.write stdout rest fun _ => .exit exitFailure))
  | leaving {pipe : List UInt8} : FailedAt pipe (.running e.both (.exit exitFailure))
  | ended {pipe : List UInt8} : FailedAt pipe (.ended (.exited exitFailure))

end Stages

/-- What one step of child 1 does to its text and to the pipe. -/
inductive Sends : Option (List UInt8 × List UInt8) → List UInt8 →
    Option (List UInt8 × List UInt8) → List UInt8 → Prop where
  | quiet (s : Option (List UInt8 × List UInt8)) (pipe : List UInt8) : Sends s pipe s pipe
  | chooses (text pipe : List UInt8) : Sends none pipe (some (text, text)) pipe
  | sends (text sent rest pipe : List UInt8) :
      Sends (some (text, sent ++ rest)) pipe (some (text, rest)) (pipe ++ sent)

/-- What one step of child 2 does to what it has got and to the pipe. -/
inductive Gets : Got → List UInt8 → Got → List UInt8 → Prop where
  | quiet (got : Got) (pipe : List UInt8) : Gets got pipe got pipe
  | gets (got taken rest : List UInt8) :
      Gets (.reading got) (taken ++ rest) (.reading (got ++ taken)) rest
  | ends (got pipe : List UInt8) : Gets (.reading got) pipe (.whole got) pipe
  | fails (got pipe : List UInt8) : Gets (.reading got) pipe .failed pipe

def Flow (s : Option (List UInt8 × List UInt8)) (pipe got : List UInt8) : Prop :=
  match s with
  | none => got = [] ∧ pipe = []
  | some (text, rest) => got ++ pipe ++ rest = text

def Got.Flows (s : Option (List UInt8 × List UInt8)) (pipe : List UInt8) : Got → Prop
  | .reading got => Flow s pipe got
  | .whole input => Flow s pipe input
  | .failed => True

theorem Gets.was_reading {got got' : Got} {pipe pipe' input : List UInt8}
    (gets : Gets got pipe got' pipe') (isReading : got' = .reading input) :
    ∃ input', got = .reading input' := by
  cases gets with
  | quiet => exact ⟨input, isReading⟩
  | gets got => exact ⟨got, rfl⟩
  | ends => cases isReading
  | fails => cases isReading

theorem Gets.was_whole {got got' : Got} {pipe pipe' input : List UInt8}
    (gets : Gets got pipe got' pipe') (isWhole : got' = .whole input) :
    pipe' = pipe ∧ (got = .whole input ∨ got = .reading input) := by
  cases gets with
  | quiet => exact ⟨rfl, .inl isWhole⟩
  | gets => cases isWhole
  | ends got => exact ⟨rfl, .inr (by rw [Got.whole.inj isWhole])⟩
  | fails => cases isWhole

theorem Flow.sends {s s' : Option (List UInt8 × List UInt8)} {pipe pipe' got : List UInt8}
    (flow : Flow s pipe got) (sends : Sends s pipe s' pipe') : Flow s' pipe' got := by
  cases sends with
  | quiet => exact flow
  | chooses text =>
      obtain ⟨rfl, rfl⟩ := flow
      rfl
  | sends text sent rest =>
      have whole : got ++ pipe ++ (sent ++ rest) = text := flow
      simpa [Flow] using whole

theorem Got.Flows.sends {s s' : Option (List UInt8 × List UInt8)} {pipe pipe' : List UInt8}
    {got : Got} (flows : got.Flows s pipe) (sends : Sends s pipe s' pipe') :
    got.Flows s' pipe' := by
  cases got with
  | reading got => exact Flow.sends flows sends
  | whole input => exact Flow.sends flows sends
  | failed => trivial

theorem Got.Flows.gets {s : Option (List UInt8 × List UInt8)} {pipe pipe' : List UInt8}
    {got got' : Got} (flows : got.Flows s pipe) (gets : Gets got pipe got' pipe') :
    got'.Flows s pipe' := by
  cases gets with
  | quiet => exact flows
  | gets got taken rest =>
      cases s with
      | none => simpa [Got.Flows, Flow, and_assoc] using flows
      | some s => simpa [Got.Flows, Flow] using flows
  | ends => exact flows
  | fails => trivial

/-! ## One step of each -/

section Steps
variable {h : Host} {fds : Table} {e : Ends h.machine fds} {W₀ W W' : World}
  {table : Table} {prog : Prog} {choice : Choice} {pipe : List UInt8}

/-- The calls refused in a step were those of one process. -/
def Of (pid : Nat) (refused refused' : List (Nat × Call)) : Prop :=
  ∀ other call, other ≠ pid → ((other, call) ∈ refused' ↔ (other, call) ∈ refused)

theorem Of.refl (pid : Nat) (refused : List (Nat × Call)) : Of pid refused refused :=
  fun _ _ _ => Iff.rfl

theorem Of.append (pid : Nat) (refused : List (Nat × Call)) (call : Call) :
    Of pid refused (refused ++ [(pid, call)]) := by
  intro other call' differ
  simp [differ]

theorem Child1At.mono {refused refused' : List (Nat × Call)} {p : Proc}
    {s : Option (List UInt8 × List UInt8)} {pid : Nat} (other : 1 ≠ pid)
    (same : Of pid refused refused') (here : Child1At h e W₀ refused p s) :
    Child1At h e W₀ refused' p s := by
  have same := same 1 .exec other
  have text : ∀ {text}, Text h W₀ refused text → Text h W₀ refused' text := fun isText => by
    simpa only [Text, same] using isText
  cases here with
  | setup granted line => exact .setup (mt same.mp granted) line
  | looking granted => exact .looking (mt same.mp granted)
  | sending isText last => exact .sending (text isText) last
  | leaving isText all => exact .leaving (text isText) all
  | ended isText all => exact .ended (text isText) all

theorem Child2At.mono {refused refused' : List (Nat × Call)} {file : Option (List UInt8)}
    {p : Proc} {got : Got} {pid : Nat} (other : 2 ≠ pid) (same : Of pid refused refused')
    (here : Child2At h e W₀ refused file p got) : Child2At h e W₀ refused' file p got := by
  have same := fun call => same 2 call other
  have output : ∀ {got text}, Output h refused got text → Output h refused' got text := by
    intro got text isOutput
    cases isOutput with
    | sorted input granted => exact .sorted input fun call => mt (same call).mp (granted call)
    | message isOpen isRefused =>
        exact .message (mt (same _).mp isOpen) ((same _).mpr isRefused)
  cases here with
  | setup granted line => exact .setup (fun call => mt (same call).mp (granted call)) line
  | failing isRefused => exact .failing ((same _).mpr isRefused)
  | giving isRefused => exact .giving ((same _).mpr isRefused)
  | given isRefused => exact .given ((same _).mpr isRefused)
  | opened granted isOpen line =>
      exact .opened (fun call => mt (same call).mp (granted call)) isOpen line
  | reading granted isOpen => exact .reading (fun call => mt (same call).mp (granted call)) isOpen
  | writing isOpen isOutput last whole none =>
      exact .writing isOpen (output isOutput) last whole none
  | leaving isOpen isOutput result none => exact .leaving isOpen (output isOutput) result none
  | ended isOutput result none => exact .ended (output isOutput) result none

theorem Host.installed_ls : h.machine.installed "ls" ["ls"] = h.commands.ls := by
  rw [h.installed]
  rfl

theorem Host.installed_sort : h.machine.installed "sort" ["sort", "-r"] = h.commands.sort := by
  rw [h.installed]
  rfl

structure Child1Moves (e : Ends h.machine fds) (W₀ W W' : World)
    (s : Option (List UInt8 × List UInt8)) (pipe : List UInt8) (p : Proc)
    (s' : Option (List UInt8 × List UInt8)) (pipe' : List UInt8) : Prop where
  procs : W'.procs = W.procs.set 1 p
  pipes : W'.pipes = [pipe']
  files : W'.files = W.files
  refused : Of 1 W.refused W'.refused
  here : Child1At h e W₀ W'.refused p s'
  sends : Sends s pipe s' pipe'
  unread : p = .ended .killed → ¬ W.Held h.machine (.readEnd 0)
  mute : e.lsTable stdout = none → pipe' = pipe

theorem Child1At.step {s : Option (List UInt8 × List UInt8)}
    (here : Child1At h e W₀ W.refused (.running table prog) s) (pipes : W.pipes = [pipe])
    (kept : (W₀.files "outfile").isSome = true → (W.files "outfile").isSome = true)
    (next : proceed h.machine W 1 table prog choice = some W') :
    ∃ p s' pipe', Child1Moves e W₀ W W' s pipe p s' pipe' := by
  have put : ∀ {table' : Table} {prog' : Prog} {s' : Option (List UInt8 × List UInt8)},
      Child1At h e W₀ W.refused (.running table' prog') s' → Sends s pipe s' pipe →
      ∃ p s' pipe', Child1Moves e W₀ W (W.put 1 (.running table' prog')) s pipe p s' pipe' :=
    fun here sends => ⟨_, _, pipe, rfl, pipes, rfl, Of.refl _ _, here, sends,
      by rintro ⟨⟩, fun _ => rfl⟩
  have content : W.inPipe 0 = pipe := by simp [World.inPipe, pipes]
  cases here with
  | setup granted line =>
      obtain ⟨rfl, rfl⟩ | ⟨table', prog', line', rfl⟩ := line.step next
      · cases choice with
        | refuse =>
            obtain rfl := Option.some.inj next
            have message : Text h W₀ (W.refused ++ [(1, .exec)]) (bytes "execlp failed\n") :=
              ⟨true, fun _ => rfl, by simp⟩
            exact ⟨_, _, pipe, rfl, pipes, rfl, Of.append _ _ _, .sending message
              fun _ => ⟨_, rfl⟩, .chooses _ _, by rintro ⟨⟩, fun _ => rfl⟩
        | go moved =>
            obtain rfl := Option.some.inj next
            rw [Host.installed_ls]
            exact put (.looking granted) (.quiet _ _)
      · exact put (.setup granted line') (.quiet _ _)
  | looking granted =>
      cases choice with
      | refuse => cases next
      | go moved =>
          obtain rfl := Option.some.inj next
          have listing : Text h W₀ W.refused
              (h.commands.listing (W.files "outfile").isSome) := ⟨_, kept, by rw [if_neg granted]⟩
          exact put (.sending listing fun _ => ⟨_, rfl⟩) (.chooses _ _)
  | @sending text rest after isText last =>
      cases choice with
      | refuse => cases next
      | go moved =>
          simp only [proceed] at next
          split at next
          · next empty =>
              obtain rfl := Option.some.inj next
              obtain ⟨status, isExit⟩ := last true
              rw [isExit]
              exact put (.leaving isText fun _ => empty) (.quiet _ _)
          · obtain isEnd | ⟨isNone, unusable⟩ := e.lsTable_stdout
            · rw [isEnd] at next
              simp only [content] at next
              split at next
              · next unread =>
                  obtain rfl := Option.some.inj next
                  exact ⟨_, _, pipe, rfl, pipes, rfl, Of.refl _ _,
                    .ended isText fun _ notKilled => absurd rfl notKilled, .quiet _ _,
                    fun _ => unread, fun _ => rfl⟩
              · split at next
                · obtain rfl := Option.some.inj next
                  have sends := Sends.sends text (rest.take moved) (rest.drop moved) pipe
                  rw [List.take_append_drop] at sends
                  exact ⟨_, _, _, rfl, by simp [World.setPipe, World.put, pipes], rfl,
                    Of.refl _ _, .sending isText last, sends,
                    by rintro ⟨⟩, fun mute => by rw [isEnd] at mute; cases mute⟩
                · cases next
            · rw [isNone] at next
              obtain rfl := Option.some.inj next
              obtain ⟨status, isExit⟩ := last false
              rw [isExit]
              exact put (.leaving isText fun usable => absurd usable unusable) (.quiet _ _)
  | leaving isText all =>
      cases choice with
      | refuse => cases next
      | go moved =>
          obtain rfl := Option.some.inj next
          exact ⟨_, _, pipe, rfl, pipes, rfl, Of.refl _ _,
            .ended isText fun usable _ => all usable, .quiet _ _, by rintro ⟨⟩,
            fun _ => rfl⟩

structure Child2Moves (e : Ends h.machine fds) (W₀ W W' : World) (file : Option (List UInt8))
    (got : Got) (pipe : List UInt8) (file' : Option (List UInt8)) (p : Proc) (got' : Got)
    (pipe' : List UInt8) : Prop where
  procs : W'.procs = W.procs.set 2 p
  pipes : W'.pipes = [pipe']
  refused : Of 2 W.refused W'.refused
  isFile : W'.files "outfile" = file'
  kept : file.isSome = true → file'.isSome = true
  here : Child2At h e W₀ W'.refused file' p got'
  gets : Gets got pipe got' pipe'
  /-- The end of the pipe comes when it is empty and has no writer. -/
  atEnd : Usable fds → ∀ input input', got = .reading input → got' = .whole input' →
    pipe = [] ∧ ¬ W.Held h.machine (.writeEnd 0)

theorem opened_line {outfile : Nat} (isOpen : lowest h.machine e.openTable = some outfile) :
    Straight h.machine (fun table => Usable fds → HasRead h.machine table) (e.sortTable outfile)
      (.exec "sort" ["sort", "-r"] (printfExit "execlp failed\n" exitFailure))
      (update e.openTable outfile (some (.file "outfile")))
      (.dup2 outfile stdout <| .close e.readFd <| .exec "sort" ["sort", "-r"] <|
        printfExit "execlp failed\n" exitFailure) := by
  have bound := e.writeFd_lt
  have less := e.readFd_lt
  have free := (lowest_spec isOpen).2.1
  have isRead : e.openTable stdin = some (.readEnd 0) := by rw [e.openTable_apply, if_pos rfl]
  have other : stdin ≠ outfile := by
    intro same
    rw [← same, isRead] at free
    cases free
  have kept : update e.openTable outfile (some (.file "outfile")) stdin = some (.readEnd 0) := by
    rw [update_of_ne other, isRead]
  have inside : stdin < h.machine.descriptors := by unfold stdin; omega
  refine .dup2 (fun _ => ⟨stdin, inside, kept⟩) (.close (fun _ => ⟨stdin, inside, ?_⟩)
    (.last fun usable => ⟨stdin, inside, ((e.sortTable_ends isOpen).1 usable).1⟩))
  unfold redirect
  split
  · rw [update_of_ne (by decide), kept]
  · exact kept

theorem Child2At.step {file : Option (List UInt8)} {got : Got} (plain : Plain fds)
    (here : Child2At h e W₀ W.refused file (.running table prog) got)
    (isFile : W.files "outfile" = file) (pipes : W.pipes = [pipe])
    (next : proceed h.machine W 2 table prog choice = some W') :
    ∃ file' p got' pipe', Child2Moves e W₀ W W' file got pipe file' p got' pipe' := by
  have content : W.inPipe 0 = pipe := by simp [World.inPipe, pipes]
  have quiet : ∀ {p : Proc}, Child2At h e W₀ W.refused file p got →
      ∃ file' p' got' pipe', Child2Moves e W₀ W (W.put 2 p) file got pipe file' p' got' pipe' :=
    fun here => ⟨file, _, got, pipe, rfl, pipes, Of.refl _ _, isFile, id, here, .quiet _ _,
      fun _ _ _ isReading isWhole => by rw [isReading] at isWhole; cases isWhole⟩
  cases here with
  | setup granted line =>
      obtain ⟨rfl, rfl⟩ | ⟨table', prog', line', rfl⟩ := line.step next
      · cases choice with
        | refuse =>
            obtain rfl := Option.some.inj next
            exact ⟨_, _, .failed, pipe, rfl, pipes, Of.append _ _ _, isFile, id,
              .failing (by simp [World.refuse, World.put]), .fails _ _,
              fun _ _ _ _ isWhole => by cases isWhole⟩
        | go moved =>
            obtain ⟨outfile, isOpen, next⟩ := Option.bind_eq_some_iff.mp next
            obtain rfl := Option.some.inj next
            exact ⟨some [], _, .reading [], pipe, rfl, pipes, Of.refl _ _,
              by simp, fun _ => rfl, .opened granted isOpen (opened_line isOpen), .quiet _ _,
              fun _ _ _ _ isWhole => by cases isWhole⟩
      · exact quiet (.setup granted line')
  | @failing rest isRefused =>
      cases choice with
      | refuse => cases next
      | go moved =>
          simp only [proceed] at next
          have noEnd := e.openTable_noWrite plain stdout
          split at next
          · obtain rfl := Option.some.inj next
            exact quiet (.giving isRefused)
          · split at next
            · next pipe' isEnd => exact absurd isEnd (noEnd pipe').1
            · next path isDesc =>
                have other : "outfile" ≠ path := by
                  rintro rfl
                  exact (noEnd 0).2 isDesc
                split at next
                · obtain rfl := Option.some.inj next
                  exact ⟨_, _, .failed, pipe, rfl, pipes, Of.refl _ _,
                    by simp [other, isFile], id, .failing isRefused, .quiet _ _,
                    fun _ _ _ _ isWhole => by cases isWhole⟩
                · cases next
            · split at next
              · obtain rfl := Option.some.inj next
                exact ⟨_, _, .failed, pipe, rfl, pipes, Of.refl _ _, isFile, id,
                  .failing isRefused, .quiet _ _, fun _ _ _ _ isWhole => by cases isWhole⟩
              · cases next
            · obtain rfl := Option.some.inj next
              exact quiet (.giving isRefused)
  | giving isRefused =>
      cases choice with
      | refuse => cases next
      | go moved =>
          obtain rfl := Option.some.inj next
          exact quiet (.given isRefused)
  | opened granted isOpen line =>
      obtain ⟨rfl, rfl⟩ | ⟨table', prog', line', rfl⟩ := line.step next
      · cases choice with
        | refuse =>
            obtain rfl := Option.some.inj next
            exact ⟨some [], _, .failed, pipe, rfl, pipes, Of.append _ _ _, isFile, id,
              .writing isOpen
                (.message (by simp [World.refuse, World.put, granted])
                  (by simp [World.refuse, World.put]))
                (fun _ => ⟨_, rfl⟩) (List.nil_append _) fun _ whole => absurd rfl whole,
              .fails _ _,
              fun _ _ _ _ isWhole => by cases isWhole⟩
        | go moved =>
            obtain rfl := Option.some.inj next
            rw [Host.installed_sort]
            exact quiet (.reading granted isOpen)
      · exact quiet (.opened granted isOpen line')
  | @reading outfile got granted isOpen =>
      obtain ⟨usable, unusable, readEnd | noIn, _⟩ := e.sortTable_ends isOpen
      · cases choice with
        | refuse => cases next
        | go moved =>
            simp only [proceed, readEnd, content] at next
            split at next
            · next empty =>
                split at next
                · cases next
                · next noWriter =>
                    obtain rfl := Option.some.inj next
                    refine ⟨some [], _, .whole got, pipe, rfl, pipes, Of.refl _ _, isFile, id,
                      .writing isOpen (.sorted got granted) (fun _ => ⟨_, rfl⟩)
                        (List.nil_append _) ?_,
                      .ends _ _, fun _ _ _ _ _ => ⟨empty, noWriter⟩⟩
                    intro notUsable _
                    obtain noIn | noOut := unusable notUsable
                    · rw [readEnd] at noIn
                      cases noIn
                    · exact ⟨rfl, noOut⟩
            · split at next
              · obtain rfl := Option.some.inj next
                have gets := Gets.gets got (pipe.take moved) (pipe.drop moved)
                rw [List.take_append_drop] at gets
                exact ⟨some [], _, _, _, rfl, by simp [World.setPipe, World.put, pipes],
                  Of.refl _ _, isFile, id, .reading granted isOpen, gets,
                  fun _ _ _ _ isWhole => by cases isWhole⟩
              · cases next
      · cases choice with
        | refuse => cases next
        | go moved =>
            simp only [proceed, noIn] at next
            obtain rfl := Option.some.inj next
            have notUsable : ¬ Usable fds := by
              intro isUsable
              rw [(usable isUsable).1] at noIn
              cases noIn
            exact ⟨some [], _, .whole got, pipe, rfl, pipes, Of.refl _ _, isFile, id,
              .leaving isOpen (.sorted got granted) (fun isUsable => absurd isUsable notUsable)
                (fun _ _ => rfl), .ends _ _, fun isUsable => absurd isUsable notUsable⟩
  | @writing outfile got text done rest after isOpen isOutput last whole none =>
      cases choice with
      | refuse => cases next
      | go moved =>
          simp only [proceed] at next
          split at next
          · next empty =>
              obtain rfl := Option.some.inj next
              obtain ⟨status, isExit⟩ := last true
              rw [isExit]
              rw [empty, List.append_nil] at whole
              exact quiet (.leaving isOpen isOutput (fun _ => whole) fun notUsable isWhole =>
                (none notUsable isWhole).1)
          · obtain ⟨usable, _, _, isOut | noOut⟩ := e.sortTable_ends isOpen
            · rw [isOut] at next
              simp only at next
              split at next
              · obtain rfl := Option.some.inj next
                refine ⟨some (done ++ rest.take moved), _, got, pipe, rfl, pipes,
                  Of.refl _ _, by simp [isFile], fun _ => rfl,
                  .writing isOpen isOutput last (by simpa using whole) ?_, .quiet _ _,
                  fun _ _ _ isReading isWhole => by rw [isReading] at isWhole; cases isWhole⟩
                intro notUsable isWhole
                rw [(none notUsable isWhole).2] at isOut
                cases isOut
              · cases next
            · rw [noOut] at next
              obtain rfl := Option.some.inj next
              obtain ⟨status, isExit⟩ := last false
              rw [isExit]
              refine quiet (.leaving isOpen isOutput (fun isUsable => ?_) fun notUsable isWhole =>
                (none notUsable isWhole).1)
              rw [(usable isUsable).2] at noOut
              cases noOut
  | leaving isOpen isOutput result none =>
      cases choice with
      | refuse => cases next
      | go moved =>
          obtain rfl := Option.some.inj next
          exact quiet (.ended isOutput result none)

theorem ParentAt.step {p c1 c2 : Proc} (here : ParentAt h e c1 c2 (.running table prog))
    (procs : W.procs = [p, c1, c2]) (next : proceed h.machine W 0 table prog choice = some W') :
    ∃ p', ParentAt h e c1 c2 p' ∧ W' = W.put 0 p' := by
  cases here with
  | closing line =>
      obtain ⟨rfl, rfl⟩ | ⟨table', prog', line', rfl⟩ := line.step next
      · cases choice with
        | refuse => cases next
        | go moved =>
            simp only [proceed, procs] at next
            split at next
            · next first => exact ⟨_, .waiting first, (Option.some.inj next).symm⟩
            · cases next
      · exact ⟨_, .closing line', rfl⟩
  | waiting first =>
      cases choice with
      | refuse => cases next
      | go moved =>
          simp only [proceed, procs] at next
          split at next
          · next second => exact ⟨_, .leaving first second, (Option.some.inj next).symm⟩
          · cases next
  | leaving first second =>
      cases choice with
      | refuse => cases next
      | go moved => exact ⟨_, .ended first second, (Option.some.inj next).symm⟩

theorem ParentAt.child_runs {p c1 c2 c1' c2' : Proc} (here : ParentAt h e c1 c2 p)
    (runs : c1.hasEnded = false ∨ c1' = c1 ∧ c2.hasEnded = false) : ParentAt h e c1' c2' p := by
  cases here with
  | closing line => exact .closing line
  | waiting first =>
      obtain running | ⟨rfl, _⟩ := runs
      · rw [first] at running
        cases running
      · exact .waiting first
  | leaving first second =>
      obtain running | ⟨_, running⟩ := runs
      · rw [first] at running
        cases running
      · rw [second] at running
        cases running
  | ended first second =>
      obtain running | ⟨_, running⟩ := runs
      · rw [first] at running
        cases running
      · rw [second] at running
        cases running

theorem FailedAt.step {others : List Proc} (plain : Plain fds)
    (here : FailedAt h e pipe (.running table prog))
    (procs : W.procs = .running table prog :: others) (pipes : W.pipes = [pipe])
    (next : proceed h.machine W 0 table prog choice = some W') :
    ∃ p pipe', FailedAt h e pipe' p ∧ W'.procs = p :: others ∧ W'.pipes = [pipe'] ∧
      W'.refused = W.refused ∧ W'.files "outfile" = W.files "outfile" := by
  have content : W.inPipe 0 = pipe := by simp [World.inPipe, pipes]
  have put : ∀ p, (W.put 0 p).procs = p :: others := fun p => by simp [World.put, procs]
  cases here with
  | @failing rest room =>
      cases choice with
      | refuse => cases next
      | go moved =>
          simp only [proceed] at next
          split at next
          · obtain rfl := Option.some.inj next
            exact ⟨_, pipe, .leaving, put _, pipes, rfl, rfl⟩
          · split at next
            · next other isEnd =>
                obtain rfl := (e.both_noFile plain stdout).1 other isEnd
                have reader : W.Held h.machine (.readEnd 0) :=
                  ⟨.running e.both _, procs ▸ List.mem_cons_self, e.both_hasRead⟩
                simp only [content, reader, not_true_eq_false, if_false] at next
                split at next
                · obtain rfl := Option.some.inj next
                  refine ⟨_, pipe ++ rest.take moved, .failing fun isWrite => ?_, put _,
                    by simp [World.setPipe, World.put, pipes], rfl, rfl⟩
                  have fits := room isWrite
                  simp only [List.length_append, List.length_take, List.length_drop]
                  omega
                · cases next
            · next path isDesc =>
                have other : "outfile" ≠ path := by
                  rintro rfl
                  exact (e.both_noFile plain stdout).2 isDesc
                split at next
                · obtain rfl := Option.some.inj next
                  refine ⟨_, pipe, .failing fun isWrite => ?_, put _, pipes, rfl, by simp [other]⟩
                  rw [isDesc] at isWrite
                  cases isWrite
                · cases next
            · next isDesc =>
                split at next
                · obtain rfl := Option.some.inj next
                  refine ⟨_, pipe, .failing fun isWrite => ?_, put _, pipes, rfl, rfl⟩
                  rw [isDesc] at isWrite
                  cases isWrite
                · cases next
            · obtain rfl := Option.some.inj next
              exact ⟨_, pipe, .leaving, put _, pipes, rfl, rfl⟩
  | leaving =>
      cases choice with
      | refuse => cases next
      | go moved =>
          obtain rfl := Option.some.inj next
          exact ⟨_, pipe, .ended, put _, pipes, rfl, rfl⟩

end Steps

end Csc457.Lab1
