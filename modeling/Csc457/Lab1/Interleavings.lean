import Csc457.Lab1.Stages

/-!
# Every run of pipeit

The processes together, in any order: what holds in every reachable state, that no process
waits for ever, and what a run leaves behind.
-/

set_option autoImplicit false

namespace Csc457.Lab1

open Function
open Csc457.Lib.Processes Csc457.Lib.Transition

/-- The parent and both children, with outfile and the text on its way to it. -/
structure Together (h : Host) {fds : Table} (e : Ends h.machine fds) (W₀ W : World)
    (p c1 c2 : Proc) (s : Option (List UInt8 × List UInt8)) (pipe : List UInt8) (got : Got)
    (file : Option (List UInt8)) : Prop where
  granted : ∀ call, (0, call) ∉ W.refused
  procs : W.procs = [p, c1, c2]
  here : ParentAt h e c1 c2 p
  here1 : Child1At h e W₀ W.refused c1 s
  here2 : Child2At h e W₀ W.refused file c2 got
  pipes : W.pipes = [pipe]
  isFile : W.files "outfile" = file
  kept : (W₀.files "outfile").isSome = true → file.isSome = true
  flows : got.Flows s pipe
  alive : Usable fds → ∀ input, got = .reading input → c1 ≠ .ended .killed
  atEnd : Usable fds → ∀ input, got = .whole input → ∃ text status,
    s = some (text, []) ∧ pipe = [] ∧ c1 = .ended (.exited status)

inductive Inv (h : Host) (argv : List String) (fds : Table) (W₀ W : World) : Prop where
  | start (same : W = W₀) : Inv h argv fds W₀ W
  /-- The arguments were wrong, or the pipe was refused. -/
  | complaining {fd : Nat} {rest : List UInt8}
      (procs : W.procs = [.running fds (.write fd rest fun _ => .exit exitFailure)])
      (file : W.files "outfile" = W₀.files "outfile")
      (cause : argv.length ≠ 1 ∨ (0, .pipe) ∈ W.refused) : Inv h argv fds W₀ W
  | giving (procs : W.procs = [.running fds (.exit exitFailure)])
      (file : W.files "outfile" = W₀.files "outfile")
      (cause : argv.length ≠ 1 ∨ (0, .pipe) ∈ W.refused) : Inv h argv fds W₀ W
  | given (procs : W.procs = [.ended (.exited exitFailure)])
      (file : W.files "outfile" = W₀.files "outfile")
      (cause : argv.length ≠ 1 ∨ (0, .pipe) ∈ W.refused) : Inv h argv fds W₀ W
  | forking1 (e : Ends h.machine fds) (one : argv.length = 1)
      (refused : W.refused = [])
      (procs : W.procs = [.running e.both (afterPipe e.readFd e.writeFd)])
      (pipes : W.pipes = [[]]) (file : W.files "outfile" = W₀.files "outfile") :
      Inv h argv fds W₀ W
  | failed1 (e : Ends h.machine fds) {p : Proc} {pipe : List UInt8} (procs : W.procs = [p])
      (here : FailedAt h e pipe p) (pipes : W.pipes = [pipe])
      (file : W.files "outfile" = W₀.files "outfile") (cause : (0, .fork) ∈ W.refused) :
      Inv h argv fds W₀ W
  | forking2 (e : Ends h.machine fds) {c1 : Proc} {s : Option (List UInt8 × List UInt8)}
      {pipe : List UInt8} (one : argv.length = 1)
      (granted : ∀ pid call, pid ≠ 1 → (pid, call) ∉ W.refused)
      (procs : W.procs = [.running e.both (afterFork1 e.readFd e.writeFd 1), c1])
      (here1 : Child1At h e W₀ W.refused c1 s) (pipes : W.pipes = [pipe])
      (file : W.files "outfile" = W₀.files "outfile") (flow : Flow s pipe [])
      (alive : c1 ≠ .ended .killed) (mute : e.lsTable stdout = none → pipe = []) :
      Inv h argv fds W₀ W
  | failed2 (e : Ends h.machine fds) {p c1 : Proc} {s : Option (List UInt8 × List UInt8)}
      {pipe : List UInt8} (procs : W.procs = [p, c1]) (here : FailedAt h e pipe p)
      (here1 : Child1At h e W₀ W.refused c1 s) (pipes : W.pipes = [pipe])
      (file : W.files "outfile" = W₀.files "outfile") (cause : (0, .fork) ∈ W.refused) :
      Inv h argv fds W₀ W
  | three (e : Ends h.machine fds) {p c1 c2 : Proc} {s : Option (List UInt8 × List UInt8)}
      {pipe : List UInt8} {got : Got} {file : Option (List UInt8)} (one : argv.length = 1)
      (all : Together h e W₀ W p c1 c2 s pipe got file) : Inv h argv fds W₀ W

section Run
variable {h : Host} {argv : List String} {fds : Table} {W₀ W W' : World}

theorem child1_line (e : Ends h.machine fds) :
    Straight h.machine (fun table => Usable fds → HasWrite h.machine table) e.lsTable
      (.exec "ls" ["ls"] (printfExit "execlp failed\n" exitFailure)) e.both
      (child1 e.readFd e.writeFd) := by
  have less := e.readFd_lt
  have bound := e.writeFd_lt
  have isWrite : update e.both e.readFd none e.writeFd = some (.writeEnd 0) := by
    rw [update_of_ne (by omega), e.both_apply, if_pos rfl]
  have inside : stdout < h.machine.descriptors := by unfold stdout; omega
  have ends : ∀ table, Usable fds → (table = e.lsTable) → HasWrite h.machine table := by
    rintro table usable rfl
    obtain isEnd | ⟨_, unusable⟩ := e.lsTable_stdout
    · exact ⟨stdout, inside, isEnd⟩
    · exact absurd usable unusable
  refine .close (fun _ => e.both_hasWrite) (.dup2 (fun _ => ⟨e.writeFd, bound, isWrite⟩)
    (.close (fun _ => ⟨stdout, inside, ?_⟩) (.last fun usable => ends _ usable rfl)))
  rw [redirect, if_pos ⟨by rw [isWrite]; rfl, inside⟩, update_self, isWrite]

theorem child2_line (e : Ends h.machine fds) :
    Straight h.machine (HasRead h.machine) e.openTable
      (.creat "outfile" fun
        | none => printfExit "open failed\n" exitFailure
        | some outfile =>
            .dup2 outfile stdout <| .close e.readFd <| .exec "sort" ["sort", "-r"] <|
              printfExit "execlp failed\n" exitFailure) e.both (child2 e.readFd e.writeFd) := by
  have less := e.readFd_lt
  have bound := e.writeFd_lt
  have isRead : update e.both e.writeFd none e.readFd = some (.readEnd 0) := by
    rw [update_of_ne (by omega), e.both_apply, if_neg (by omega), if_pos rfl]
  refine .close e.both_hasRead (.dup2 ⟨e.readFd, by omega, isRead⟩
    (.last ⟨stdin, by unfold stdin; omega, ?_⟩))
  rw [e.openTable_apply, if_pos rfl]

theorem parent_line (e : Ends h.machine fds) :
    Straight h.machine (fun _ => True) e.bare (.wait 1 <| .wait 2 <| .exit exitSuccess) e.both
      (parent e.readFd e.writeFd 1 2) :=
  .close trivial (.close trivial (.last trivial))

theorem plain_write {fd : Nat} {rest : List UInt8} {choice : Choice} (plain : Plain fds)
    (procs : W.procs = [.running fds (.write fd rest fun _ => .exit exitFailure)])
    (next : proceed h.machine W 0 fds (.write fd rest fun _ => .exit exitFailure) choice =
      some W') :
    W'.refused = W.refused ∧ W'.files "outfile" = W.files "outfile" ∧
      ((∃ rest', W'.procs = [.running fds (.write fd rest' fun _ => .exit exitFailure)]) ∨
        W'.procs = [.running fds (.exit exitFailure)]) := by
  have put : ∀ p, (W.put 0 p).procs = [p] := fun p => by simp [World.put, procs]
  cases choice with
  | refuse => cases next
  | go moved =>
      simp only [proceed] at next
      split at next
      · obtain rfl := Option.some.inj next
        exact ⟨rfl, rfl, .inr (put _)⟩
      · split at next
        · next pipe isEnd => exact absurd isEnd (plain.ne fd pipe).2.1
        · next path isDesc =>
            have other : "outfile" ≠ path := by
              rintro rfl
              exact (plain.ne fd 0).2.2 isDesc
            split at next
            · obtain rfl := Option.some.inj next
              exact ⟨rfl, by simp [other], .inl ⟨_, put _⟩⟩
            · cases next
        · split at next
          · obtain rfl := Option.some.inj next
            exact ⟨rfl, rfl, .inl ⟨_, put _⟩⟩
          · cases next
        · obtain rfl := Option.some.inj next
          exact ⟨rfl, rfl, .inr (put _)⟩

theorem one_proc {pid : Nat} {p q : Proc} (procs : W.procs = [p])
    (isProc : W.procs[pid]? = some q) : pid = 0 ∧ q = p := by
  rw [procs] at isProc
  match pid, isProc with
  | 0, isProc => exact ⟨rfl, (Option.some.inj isProc).symm⟩

theorem two_procs {pid : Nat} {p c1 q : Proc} (procs : W.procs = [p, c1])
    (isProc : W.procs[pid]? = some q) : pid = 0 ∧ q = p ∨ pid = 1 ∧ q = c1 := by
  rw [procs] at isProc
  match pid, isProc with
  | 0, isProc => exact .inl ⟨rfl, (Option.some.inj isProc).symm⟩
  | 1, isProc => exact .inr ⟨rfl, (Option.some.inj isProc).symm⟩

theorem three_procs {pid : Nat} {p c1 c2 q : Proc} (procs : W.procs = [p, c1, c2])
    (isProc : W.procs[pid]? = some q) :
    pid = 0 ∧ q = p ∨ pid = 1 ∧ q = c1 ∨ pid = 2 ∧ q = c2 := by
  rw [procs] at isProc
  match pid, isProc with
  | 0, isProc => exact .inl ⟨rfl, (Option.some.inj isProc).symm⟩
  | 1, isProc => exact .inr (.inl ⟨rfl, (Option.some.inj isProc).symm⟩)
  | 2, isProc => exact .inr (.inr ⟨rfl, (Option.some.inj isProc).symm⟩)

theorem start_step (start : Starts W argv fds) {label : Nat × Choice}
    (next : step h.machine W label W') : Inv h argv fds W W' := by
  obtain ⟨table, prog, isProc, next⟩ := (step_iff _).mp next
  obtain ⟨pid, choice⟩ := label
  obtain ⟨rfl, same⟩ := one_proc start.procs isProc
  obtain ⟨rfl, rfl⟩ := Proc.running.inj same
  have put : ∀ p, (W.put 0 p).procs = [p] := fun p => by simp [World.put, start.procs]
  by_cases one : argv.length = 1
  · rw [main, if_neg (not_not.mpr one)] at next
    cases choice with
    | refuse =>
        obtain rfl := Option.some.inj next
        exact .complaining (put _) rfl (.inr (by simp [World.refuse, World.put]))
    | go moved =>
        obtain ⟨readFd, isRead, next⟩ := Option.bind_eq_some_iff.mp next
        obtain ⟨writeFd, isWrite, next⟩ := Option.bind_eq_some_iff.mp next
        obtain rfl := Option.some.inj next
        rw [start.pipes] at isWrite
        refine .forking1 ⟨readFd, writeFd, isRead, isWrite⟩ one start.refused ?_ ?_ rfl
        · simp [World.put, start.procs, start.pipes, Ends.both]
        · simp [start.pipes]
  · have isMain : main argv = .write stderr
        (bytes ("Usage: " ++ argv.headD "(null)" ++ "\n")) fun _ => .exit exitFailure := by
      simp [main, one, exitFailure]
    have procs := start.procs
    rw [isMain] at next procs
    obtain ⟨refused, file, ⟨rest, procs'⟩ | procs'⟩ := plain_write start.plain procs next
    · exact .complaining procs' file (.inl one)
    · exact .giving procs' file (.inl one)

/-- If child 1 has no standard output then it is the write end that had its number. -/
theorem FailedAt.other_pipe {e : Ends h.machine fds} {pipe pipe' : List UInt8} {p : Proc}
    (here : FailedAt h e pipe p) (mute : e.both stdout = some (.writeEnd 0) → pipe' = pipe) :
    FailedAt h e pipe' p := by
  cases here with
  | failing room => exact .failing fun isWrite => mute isWrite ▸ room isWrite
  | leaving => exact .leaving
  | ended => exact .ended

theorem lsTable_mute (plain : Plain fds) (e : Ends h.machine fds)
    (isWrite : e.both stdout = some (.writeEnd 0)) : e.lsTable stdout = none := by
  have noPipe := (plain.ne stdout 0).2.1
  rw [e.both_apply] at isWrite
  rw [e.lsTable_apply]
  grind

theorem child1_hasWrite {e : Ends h.machine fds} {refused : List (Nat × Call)} {table : Table}
    {prog : Prog} {s : Option (List UInt8 × List UInt8)} (usable : Usable fds)
    (here : Child1At h e W₀ refused (.running table prog) s) : HasWrite h.machine table := by
  have bound := e.writeFd_lt
  have less := e.readFd_lt
  have isEnd : HasWrite h.machine e.lsTable := by
    obtain isEnd | ⟨_, unusable⟩ := e.lsTable_stdout
    · exact ⟨stdout, by unfold stdout; omega, isEnd⟩
    · exact absurd usable unusable
  cases here with
  | setup _ line => exact line.here usable
  | looking _ => exact isEnd
  | sending _ _ => exact isEnd
  | leaving _ _ => exact isEnd

theorem child2_hasRead {e : Ends h.machine fds} {refused : List (Nat × Call)} {p : Proc}
    {file : Option (List UInt8)} {input : List UInt8} (usable : Usable fds)
    (here : Child2At h e W₀ refused file p (.reading input)) :
    ∃ table prog, p = .running table prog ∧ HasRead h.machine table := by
  have bound := e.writeFd_lt
  cases here with
  | setup _ line => exact ⟨_, _, rfl, line.here⟩
  | opened _ isOpen line => exact ⟨_, _, rfl, line.here usable⟩
  | reading _ isOpen =>
      exact ⟨_, _, rfl, stdin, by unfold stdin; omega, ((e.sortTable_ends isOpen).1 usable).1⟩
  | writing _ isOutput => cases isOutput
  | leaving _ isOutput => cases isOutput
  | ended isOutput => cases isOutput

theorem Together.step {e : Ends h.machine fds} {p c1 c2 : Proc}
    {s : Option (List UInt8 × List UInt8)} {pipe : List UInt8} {got : Got}
    {file : Option (List UInt8)} (plain : Plain fds)
    (all : Together h e W₀ W p c1 c2 s pipe got file) {label : Nat × Choice}
    (next : step h.machine W label W') :
    ∃ p' c1' c2' s' pipe' got' file', Together h e W₀ W' p' c1' c2' s' pipe' got' file' := by
  obtain ⟨table, prog, isProc, next⟩ := (step_iff _).mp next
  obtain ⟨pid, choice⟩ := label
  obtain ⟨granted, procs, here, here1, here2, pipes, isFile, kept, flows, alive, atEnd⟩ := all
  obtain ⟨rfl, rfl⟩ | ⟨rfl, rfl⟩ | ⟨rfl, rfl⟩ := three_procs procs isProc
  · obtain ⟨p', here', rfl⟩ := here.step procs next
    exact ⟨p', c1, c2, s, pipe, got, file, granted, by simp [World.put, procs], here', here1, here2,
      pipes, isFile, kept, flows, alive, atEnd⟩
  · obtain ⟨c1', s', pipe', moves⟩ := here1.step pipes (fun there => isFile ▸ kept there) next
    refine ⟨p, c1', c2, s', pipe', got, file,
      fun call => mt (moves.refused 0 call (by decide)).mp (granted call),
      by rw [moves.procs, procs]; rfl, here.child_runs (.inl rfl), moves.here,
      here2.mono (by decide) moves.refused, moves.pipes, by rw [moves.files, isFile], kept,
      flows.sends moves.sends, fun usable input isReading killed => ?_,
      fun usable input isWhole => ?_⟩
    · subst isReading
      obtain ⟨table2, prog2, rfl, hasRead⟩ := child2_hasRead usable here2
      refine moves.unread killed ⟨.running table2 prog2, ?_, hasRead⟩
      rw [procs]
      simp
    · obtain ⟨_, _, _, _, ended⟩ := atEnd usable input isWhole
      cases ended
  · obtain ⟨file', c2', got', pipe', moves⟩ := here2.step plain isFile pipes next
    refine ⟨p, c1, c2', s, pipe', got', file',
      fun call => mt (moves.refused 0 call (by decide)).mp (granted call),
      by rw [moves.procs, procs]; rfl, here.child_runs (.inr ⟨rfl, rfl⟩),
      here1.mono (by decide) moves.refused, moves.here, moves.pipes, moves.isFile,
      fun there => moves.kept (kept there), flows.gets moves.gets,
      fun usable input isReading => ?_, fun usable input isWhole => ?_⟩
    · obtain ⟨input', wasReading⟩ := moves.gets.was_reading isReading
      exact alive usable input' wasReading
    · obtain ⟨rfl, wasWhole | wasReading⟩ := moves.gets.was_whole isWhole
      · exact atEnd usable input wasWhole
      · obtain ⟨empty, noWriter⟩ := moves.atEnd usable input input wasReading isWhole
        cases c1 with
        | running table1 prog1 =>
            refine absurd ⟨.running table1 prog1, ?_, child1_hasWrite usable here1⟩ noWriter
            rw [procs]
            simp
        | ended how =>
            cases here1 with
            | @ended text rest _ _ all =>
                cases how with
                | exited status =>
                    exact ⟨text, status, by rw [all usable (by rintro ⟨⟩)], empty, rfl⟩
                | killed => exact absurd rfl (alive usable input wasReading)

theorem Inv.step (start : Starts W₀ argv fds) (inv : Inv h argv fds W₀ W) {label : Nat × Choice}
    (next : step h.machine W label W') : Inv h argv fds W₀ W' := by
  have plain := start.plain
  cases inv with
  | start same =>
      subst same
      exact start_step start next
  | complaining procs file cause =>
      obtain ⟨table, prog, isProc, next⟩ := (step_iff _).mp next
      obtain ⟨pid, choice⟩ := label
      obtain ⟨rfl, same⟩ := one_proc procs isProc
      obtain ⟨rfl, rfl⟩ := Proc.running.inj same
      obtain ⟨refused, file', ⟨rest, procs'⟩ | procs'⟩ := plain_write plain procs next
      · exact .complaining procs' (file'.trans file) (refused ▸ cause)
      · exact .giving procs' (file'.trans file) (refused ▸ cause)
  | giving procs file cause =>
      obtain ⟨table, prog, isProc, next⟩ := (step_iff _).mp next
      obtain ⟨pid, choice⟩ := label
      obtain ⟨rfl, same⟩ := one_proc procs isProc
      obtain ⟨rfl, rfl⟩ := Proc.running.inj same
      cases choice with
      | refuse => cases next
      | go moved =>
          obtain rfl := Option.some.inj next
          exact .given (by simp [World.put, procs]) file cause
  | given procs file cause =>
      obtain ⟨table, prog, isProc, next⟩ := (step_iff _).mp next
      obtain ⟨_, same⟩ := one_proc procs isProc
      cases same
  | forking1 e one refused procs pipes file =>
      obtain ⟨table, prog, isProc, next⟩ := (step_iff _).mp next
      obtain ⟨pid, choice⟩ := label
      obtain ⟨rfl, same⟩ := one_proc procs isProc
      obtain ⟨rfl, rfl⟩ := Proc.running.inj same
      cases choice with
      | refuse =>
          obtain rfl := Option.some.inj next
          exact .failed1 e (by simp [World.put, World.refuse, procs]; rfl)
            (.failing fun _ => by decide) pipes file (by simp [World.refuse, World.put])
      | go moved =>
          obtain rfl := Option.some.inj next
          exact .forking2 e one (by simp [World.put, refused]) (by simp [World.put, procs])
            (.setup (by simp [World.put, refused]) (child1_line e)) pipes file ⟨rfl, rfl⟩
            (by rintro ⟨⟩) fun _ => rfl
  | failed1 e procs here pipes file cause =>
      obtain ⟨table, prog, isProc, next⟩ := (step_iff _).mp next
      obtain ⟨pid, choice⟩ := label
      obtain ⟨rfl, rfl⟩ := one_proc procs isProc
      obtain ⟨p, pipe', here', procs', pipes', refused, file'⟩ := here.step plain procs pipes next
      exact .failed1 e procs' here' pipes' (file'.trans file) (refused ▸ cause)
  | @forking2 e c1 s pipe one granted procs here1 pipes file flow alive mute =>
      obtain ⟨table, prog, isProc, next⟩ := (step_iff _).mp next
      obtain ⟨pid, choice⟩ := label
      obtain ⟨rfl, same⟩ | ⟨rfl, rfl⟩ := two_procs procs isProc
      · obtain ⟨rfl, rfl⟩ := Proc.running.inj same
        cases choice with
        | refuse =>
            obtain rfl := Option.some.inj next
            have message : printfExit "fork 2 failed\n" exitFailure =
              .write stdout (bytes "fork 2 failed\n") fun _ => .exit exitFailure := rfl
            refine .failed2 e (p := .running e.both (printfExit "fork 2 failed\n" exitFailure))
              (by simp [World.put, World.refuse, procs])
              (message ▸ .failing fun isWrite => ?_) (here1.mono (by decide) (Of.append 0 _ .fork))
              pipes file (by simp [World.refuse, World.put])
            rw [mute (lsTable_mute plain e isWrite)]
            decide
        | go moved =>
            obtain rfl := Option.some.inj next
            exact .three e one
              { granted := fun call => granted 0 call (by decide)
                procs := by simp [World.put, procs]
                here := .closing (parent_line e)
                here1 := here1
                here2 := .setup (fun call => granted 2 call (by decide)) (child2_line e)
                pipes := pipes
                isFile := file
                kept := id
                flows := flow
                alive := fun _ _ _ => alive
                atEnd := fun _ _ isWhole => by cases isWhole }
      · obtain ⟨p, s', pipe', moves⟩ := here1.step pipes (fun there => file ▸ there) next
        have reader : W.Held h.machine (.readEnd 0) :=
          ⟨.running e.both _, procs ▸ List.mem_cons_self, e.both_hasRead⟩
        exact .forking2 e one
          (fun pid call other => mt (moves.refused pid call other).mp (granted pid call other))
          (by rw [moves.procs, procs]; rfl) moves.here moves.pipes
          (by rw [moves.files, file]) (flow.sends moves.sends)
          (fun killed => moves.unread killed reader)
          fun isNone => (moves.mute isNone).trans (mute isNone)
  | @failed2 e p c1 s pipe procs here here1 pipes file cause =>
      obtain ⟨table, prog, isProc, next⟩ := (step_iff _).mp next
      obtain ⟨pid, choice⟩ := label
      obtain ⟨rfl, rfl⟩ | ⟨rfl, rfl⟩ := two_procs procs isProc
      · obtain ⟨p', pipe', here', procs', pipes', refused, file'⟩ :=
          here.step plain procs pipes next
        exact .failed2 e procs' here' (refused ▸ here1) pipes' (file'.trans file) (refused ▸ cause)
      · obtain ⟨p', s', pipe', moves⟩ := here1.step pipes (fun there => file ▸ there) next
        exact .failed2 e (by rw [moves.procs, procs]; rfl)
          (here.other_pipe fun isWrite => moves.mute (lsTable_mute plain e isWrite)) moves.here
          moves.pipes (by rw [moves.files, file]) ((moves.refused 0 _ (by decide)).mpr cause)
  | three e one all =>
      obtain ⟨p', c1', c2', s', pipe', got', file', all'⟩ := all.step plain next
      exact .three e one all'

end Run

section Progress
variable {h : Host} {argv : List String} {fds : Table} {e : Ends h.machine fds} {W₀ W W' : World}
  {table : Table} {prog : Prog} {pipe : List UInt8} {refused : List (Nat × Call)}

theorem Child1At.blocked {s : Option (List UInt8 × List UInt8)} (plain : Plain fds)
    (here : Child1At h e W₀ refused (.running table prog) s)
    (blocked : Blocked h.machine W table prog) :
    W.inPipe 0 ≠ [] ∧ W.Held h.machine (.readEnd 0) ∧ ∀ fd, table fd ≠ some (.readEnd 0) := by
  cases here with
  | setup _ line => exact absurd blocked (line.not_blocked nofun)
  | looking _ => cases blocked
  | sending _ _ =>
      refine ⟨fun empty => ?_, ?_, e.lsTable_noRead plain⟩
      · cases blocked with
        | full left isEnd _ full =>
            obtain ⟨moved, takes⟩ := h.machine.takes_empty (List.length_pos_iff.mpr left)
            obtain isEnd' | ⟨isNone, _⟩ := e.lsTable_stdout
            · obtain ⟨rfl⟩ := Desc.writeEnd.inj (Option.some.inj (isEnd'.symm.trans isEnd))
              exact full moved (by rwa [empty])
            · rw [isNone] at isEnd
              cases isEnd
      · cases blocked with
        | full _ isEnd reader _ =>
            obtain isEnd' | ⟨isNone, _⟩ := e.lsTable_stdout
            · obtain ⟨rfl⟩ := Desc.writeEnd.inj (Option.some.inj (isEnd'.symm.trans isEnd))
              exact reader
            · rw [isNone] at isEnd
              cases isEnd
  | leaving _ _ => cases blocked

theorem Child2At.blocked {file : Option (List UInt8)} {got : Got} (plain : Plain fds)
    (here : Child2At h e W₀ refused file (.running table prog) got)
    (blocked : Blocked h.machine W table prog) :
    W.inPipe 0 = [] ∧ W.Held h.machine (.writeEnd 0) ∧ ∀ fd, table fd ≠ some (.writeEnd 0) := by
  cases here with
  | setup _ line => exact absurd blocked (line.not_blocked nofun)
  | failing _ =>
      cases blocked with
      | @full _ other _ _ _ isEnd => exact absurd isEnd (e.openTable_noWrite plain stdout other).1
  | giving _ => cases blocked
  | opened _ _ line => exact absurd blocked (line.not_blocked nofun)
  | @reading outfile _ _ isOpen =>
      cases blocked with
      | @empty _ other _ _ isEnd empty writer =>
          obtain ⟨_, _, isRead | noIn, _⟩ := e.sortTable_ends isOpen
          · obtain ⟨rfl⟩ := Desc.readEnd.inj (Option.some.inj (isRead.symm.trans isEnd))
            exact ⟨empty, writer, e.sortTable_noWrite plain outfile⟩
          · rw [noIn] at isEnd
            cases isEnd
  | writing isOpen _ _ _ _ =>
      cases blocked with
      | full _ isEnd =>
          obtain ⟨_, _, _, isOut | noOut⟩ := e.sortTable_ends isOpen
          · rw [isOut] at isEnd
            cases isEnd
          · rw [noOut] at isEnd
            cases isEnd
  | leaving _ _ _ _ => cases blocked

theorem ParentAt.blocked {c1 c2 : Proc} (plain : Plain fds)
    (here : ParentAt h e c1 c2 (.running table prog))
    (blocked : Blocked h.machine W table prog) :
    (∀ fd, table fd ≠ some (.readEnd 0) ∧ table fd ≠ some (.writeEnd 0)) ∧
      ∃ child, (child = 1 ∨ child = 2) ∧ W.procs[child]?.all Proc.hasEnded = false := by
  cases here with
  | closing line =>
      cases line with
      | last _ =>
          cases blocked with
          | wait running => exact ⟨e.bare_noEnds plain, 1, .inl rfl, running⟩
      | close _ _ => cases blocked
      | dup2 _ _ => cases blocked
  | waiting _ =>
      cases blocked with
      | wait running => exact ⟨e.bare_noEnds plain, 2, .inr rfl, running⟩
  | leaving _ _ => cases blocked

theorem FailedAt.not_blocked (plain : Plain fds) (here : FailedAt h e pipe (.running table prog))
    (pipes : W.pipes = [pipe]) : ¬ Blocked h.machine W table prog := by
  intro blocked
  cases here with
  | @failing rest room =>
      cases blocked with
      | @full _ other _ _ left isEnd reader full =>
          obtain rfl := (e.both_noFile plain stdout).1 other isEnd
          have fits := room isEnd
          have atomic := h.machine.atomic_ge
          have capacity := h.machine.atomic_le
          have some := List.length_pos_iff.mpr left
          have content : W.inPipe 0 = pipe := by simp [World.inPipe, pipes]
          exact full rest.length ⟨some, Nat.le_refl _, by rw [content]; omega, fun _ => rfl⟩
  | leaving => cases blocked

theorem plain_not_blocked {fd : Nat} {rest : List UInt8} {next : Bool → Prog}
    (plain : Plain fds) : ¬ Blocked h.machine W fds (.write fd rest next) := by
  intro blocked
  cases blocked with
  | full _ isEnd => exact (plain.ne _ _).2.1 isEnd

def Stuck (m : Machine) (W : World) : Prop := ∀ label W', ¬ step m W label W'

theorem Stuck.blocked {m : Machine} (stuck : Stuck m W) (pid : Nat)
    (isProc : W.procs[pid]? = some (.running table prog)) : Blocked m W table prog := by
  obtain blocked | ⟨choice, acts⟩ := acts_or_blocked (m := m) isProc
  · exact blocked
  · obtain ⟨W', next⟩ := Option.isSome_iff_exists.mp acts
    exact absurd next (stuck (pid, choice) W')

theorem held_running {m : Machine} {d : Desc} (held : W.Held m d) :
    ∃ (pid : Nat) (table : Table) (prog : Prog) (fd : Nat),
      W.procs[pid]? = some (.running table prog) ∧ table fd = some d := by
  obtain ⟨p, member, fd, _, isDesc⟩ := held
  obtain ⟨pid, isProc⟩ := List.mem_iff_getElem?.mp member
  cases p with
  | running table prog => exact ⟨pid, table, prog, fd, isProc, isDesc⟩
  | ended how => cases isDesc

theorem Together.progress {p c1 c2 : Proc} {s : Option (List UInt8 × List UInt8)} {got : Got}
    {file : Option (List UInt8)} (plain : Plain fds)
    (all : Together h e W₀ W p c1 c2 s pipe got file) (stuck : Stuck h.machine W) :
    ∀ p ∈ W.procs, p.hasEnded = true := by
  obtain ⟨_, procs, here, here1, here2, _, _, _, _, _, _⟩ := all
  have bare : ∀ table prog, p = .running table prog → ∀ fd,
      table fd ≠ some (.readEnd 0) ∧ table fd ≠ some (.writeEnd 0) := by
    rintro table prog rfl
    exact (here.blocked plain (stuck.blocked 0 (by rw [procs]; rfl))).1
  cases c2 with
  | running table2 prog2 =>
      obtain ⟨empty, held, noWrite⟩ :=
        here2.blocked plain (stuck.blocked 2 (by rw [procs]; rfl))
      obtain ⟨pid, table', prog', fd, isProc, isWrite⟩ := held_running held
      obtain ⟨_, same⟩ | ⟨_, same⟩ | ⟨_, same⟩ := three_procs procs isProc
      · exact absurd isWrite (bare _ _ same.symm fd).2
      · subst same
        exact absurd empty (here1.blocked plain (stuck.blocked 1 (by rw [procs]; rfl))).1
      · obtain ⟨rfl, rfl⟩ := Proc.running.inj same
        exact absurd isWrite (noWrite fd)
  | ended how2 =>
      cases c1 with
      | running table1 prog1 =>
          obtain ⟨_, held, noRead⟩ :=
            here1.blocked plain (stuck.blocked 1 (by rw [procs]; rfl))
          obtain ⟨pid, table', prog', fd, isProc, isRead⟩ := held_running held
          obtain ⟨_, same⟩ | ⟨_, same⟩ | ⟨_, same⟩ := three_procs procs isProc
          · exact absurd isRead (bare _ _ same.symm fd).1
          · obtain ⟨rfl, rfl⟩ := Proc.running.inj same
            exact absurd isRead (noRead fd)
          · cases same
      | ended how1 =>
          cases p with
          | running table prog =>
              obtain ⟨_, child, rfl | rfl, running⟩ :=
                here.blocked plain (stuck.blocked 0 (by rw [procs]; rfl))
              · simp [procs, Proc.hasEnded] at running
              · simp [procs, Proc.hasEnded] at running
          | ended how => simp [procs, Proc.hasEnded]

theorem Inv.progress (start : Starts W₀ argv fds) (inv : Inv h argv fds W₀ W)
    (stuck : Stuck h.machine W) : ∀ p ∈ W.procs, p.hasEnded = true := by
  have plain := start.plain
  cases inv with
  | start same =>
      subst same
      have blocked := stuck.blocked 0 (by rw [start.procs]; rfl)
      unfold main at blocked
      split at blocked
      · exact absurd blocked (plain_not_blocked plain)
      · cases blocked
  | complaining procs _ _ =>
      exact absurd (stuck.blocked 0 (by rw [procs]; rfl)) (plain_not_blocked plain)
  | giving procs _ _ => cases stuck.blocked 0 (by rw [procs]; rfl)
  | given procs _ _ => simp [procs, Proc.hasEnded]
  | forking1 e _ _ procs _ _ => cases stuck.blocked 0 (by rw [procs]; rfl)
  | @failed1 e p pipe procs here pipes _ _ =>
      cases p with
      | running table prog =>
          exact absurd (stuck.blocked 0 (by rw [procs]; rfl)) (here.not_blocked plain pipes)
      | ended how => simp [procs, Proc.hasEnded]
  | forking2 e _ _ procs _ _ _ _ _ _ => cases stuck.blocked 0 (by rw [procs]; rfl)
  | @failed2 e p c1 s pipe procs here here1 pipes _ _ =>
      cases p with
      | running table prog =>
          exact absurd (stuck.blocked 0 (by rw [procs]; rfl)) (here.not_blocked plain pipes)
      | ended how =>
          cases c1 with
          | running table prog =>
              obtain ⟨_, held, noRead⟩ :=
                here1.blocked plain (stuck.blocked 1 (by rw [procs]; rfl))
              obtain ⟨pid, table', prog', fd, isProc, isRead⟩ := held_running held
              obtain ⟨_, same⟩ | ⟨_, same⟩ := two_procs procs isProc
              · cases same
              · obtain ⟨rfl, rfl⟩ := Proc.running.inj same
                exact absurd isRead (noRead fd)
          | ended how' => simp [procs, Proc.hasEnded]
  | three e _ all => exact all.progress plain stuck

end Progress

/-! ## A small system

A directory with one other file, and a shell with some of the descriptors 0, 1 and 2. -/

/-- The lines of a text, without the byte that ends each. -/
def linesOf : List UInt8 → List (List UInt8)
  | [] => []
  | c :: rest =>
      if c = 10 then [] :: linesOf rest
      else match linesOf rest with
        | [] => [[c]]
        | line :: others => (c :: line) :: others

def smallCommands : Commands where
  listing := fun there => bytes (if there then "b\noutfile\n" else "b\n")
  sorted := fun input =>
    ((linesOf input).insertionSort (fun line line' => line' ≤ line)).flatMap (· ++ [10])

def smallHost : Host where
  machine :=
    { descriptors := 8
      capacity := 512
      atomic := 512
      atomic_ge := Nat.le_refl 512
      atomic_le := Nat.le_refl 512
      installed := smallCommands.installed }
  commands := smallCommands
  installed := rfl

def shell (opened : List Nat) : Table := fun fd => if fd ∈ opened then some .terminal else none

def shellWorld (opened : List Nat) : World where
  procs := [.running (shell opened) (main ["pipeit"])]
  pipes := []
  files := fun _ => none
  screen := []
  refused := []

theorem shellWorld_starts (opened : List Nat) :
    Starts (shellWorld opened) ["pipeit"] (shell opened) where
  procs := rfl
  pipes := rfl
  refused := rfl
  plain := by
    intro fd d isDesc
    unfold shell at isDesc
    split at isDesc
    · exact .inl (Option.some.inj isDesc).symm
    · cases isDesc

def after (opened : List Nat) (calls : List (Nat × Choice))
    (possible : (acts smallHost.machine (shellWorld opened) calls).isSome = true) : World :=
  (acts smallHost.machine (shellWorld opened) calls).get possible

theorem after_reached (opened : List Nat) (calls : List (Nat × Choice))
    (possible : (acts smallHost.machine (shellWorld opened) calls).isSome = true) :
    Reach (· = shellWorld opened) (step smallHost.machine) (after opened calls possible) :=
  acts_reach _ (.init rfl) (Option.some_get possible).symm

def turns (pid count : Nat) : List (Nat × Choice) := List.replicate count (pid, .go 10)

/-- Until main waits, child 1 is ls and child 2 reads as sort. -/
def setup : List (Nat × Choice) := turns 0 5 ++ turns 1 4 ++ turns 2 6

/-- ls lists outfile as well, and sort has all of it before main goes on. -/
def wholeRun : List (Nat × Choice) := setup ++ turns 1 4 ++ turns 2 5 ++ turns 0 3

/-! ## Every run -/

section Results
variable (h : Host) {argv : List String} {fds : Table} {W₀ W : World}

theorem inv_of_reach (start : Starts W₀ argv fds)
    (reached : Reach (· = W₀) (step h.machine) W) : Inv h argv fds W₀ W :=
  reached.invariant (fun _ same => .start same) fun _ _ _ inv next => inv.step start next

theorem installed_keeps (file : String) (argv : List String) :
    (h.machine.installed file argv).Keeps := by
  rw [h.installed]
  unfold Commands.installed
  split
  · exact fun _ _ => trivial
  · intro input
    cases input with
    | none => trivial
    | some input => exact fun _ => trivial
  · trivial

/-- However the processes take turns, and whatever the system refuses, they stop, and they
stop only when all have ended. -/
theorem pipeit_ends (start : Starts W₀ argv fds) :
    Acc (fun W' W => ∃ label, step h.machine W label W') W₀ ∧
      ∀ W, Reach (· = W₀) (step h.machine) W → Stuck h.machine W →
        ∀ p ∈ W.procs, p.hasEnded = true :=
  ⟨(step_wellFounded (installed_keeps h)).apply W₀,
    fun _ reached stuck => (inv_of_reach h start reached).progress start stuck⟩

/-- When main has ended then it has waited for two children, or it never had both and did
not touch outfile. -/
theorem Inv.exited {h : Host} (start : Starts W₀ argv fds) (inv : Inv h argv fds W₀ W)
    {how : Ending} (exited : W.procs.head? = some (.ended how)) :
    (how = .exited exitFailure ∧ W.files "outfile" = W₀.files "outfile" ∧
      (argv.length ≠ 1 ∨ (0, .pipe) ∈ W.refused ∨ (0, .fork) ∈ W.refused)) ∨
    (how = .exited exitSuccess ∧ argv.length = 1 ∧
      ∃ (e : Ends h.machine fds) (how1 how2 : Ending), ∃ s pipe got file,
      Together h e W₀ W (.ended how) (.ended how1) (.ended how2) s pipe got file) := by
  cases inv with
  | start same =>
      subst same
      rw [start.procs] at exited
      cases exited
  | complaining procs _ _ =>
      rw [procs] at exited
      cases exited
  | giving procs _ _ =>
      rw [procs] at exited
      cases exited
  | given procs file cause =>
      rw [procs] at exited
      cases exited
      exact .inl ⟨rfl, file, cause.imp_right .inl⟩
  | forking1 e _ _ procs _ _ =>
      rw [procs] at exited
      cases exited
  | failed1 e procs here _ file cause =>
      rw [procs] at exited
      cases exited
      cases here with
      | ended => exact .inl ⟨rfl, file, .inr (.inr cause)⟩
  | forking2 e _ _ procs _ _ _ _ _ _ =>
      rw [procs] at exited
      cases exited
  | failed2 e procs here _ _ file cause =>
      rw [procs] at exited
      cases exited
      cases here with
      | ended => exact .inl ⟨rfl, file, .inr (.inr cause)⟩
  | @three e p c1 c2 s pipe got file one all =>
      rw [all.procs] at exited
      cases exited
      cases all.here with
      | ended first second =>
          cases c1 with
          | running => cases first
          | ended how1 =>
              cases c2 with
              | running => cases second
              | ended how2 => exact .inr ⟨rfl, one, e, how1, how2, s, pipe, got, file, all⟩

theorem pipeit_ends_small :
    Acc (fun W' W => ∃ label, step smallHost.machine W label W') (shellWorld [0, 1, 2]) :=
  (pipeit_ends smallHost (shellWorld_starts [0, 1, 2])).1

/-- The exit status of main, which is 0 only when both children have ended. -/
theorem main_status (start : Starts W₀ argv fds) (reached : Reach (· = W₀) (step h.machine) W)
    {how : Ending} (exited : W.procs.head? = some (.ended how)) :
    how = .exited (if argv.length = 1 ∧ (0, .pipe) ∉ W.refused ∧ (0, .fork) ∉ W.refused
        then exitSuccess else exitFailure) ∧
      (how = .exited exitSuccess → ∀ p ∈ W.procs, p.hasEnded = true) := by
  obtain ⟨rfl, _, cause⟩ | ⟨rfl, one, e, how1, how2, s, pipe, got, file, all⟩ :=
    (inv_of_reach h start reached).exited start exited
  · refine ⟨?_, nofun⟩
    rw [if_neg]
    rintro ⟨one, noPipe, noFork⟩
    exact cause.elim (absurd one) fun refused => refused.elim noPipe noFork
  · refine ⟨by rw [if_pos ⟨one, all.granted _, all.granted _⟩], fun _ => ?_⟩
    simp [all.procs, Proc.hasEnded]

theorem main_status_small :
    (after [0, 1, 2] wholeRun (by decide)).procs.all Proc.hasEnded = true :=
  List.all_eq_true.mpr ((main_status smallHost (shellWorld_starts [0, 1, 2])
    (after_reached [0, 1, 2] wholeRun (by decide)) rfl).2 rfl)

/-- What outfile has in it when main has ended. -/
theorem outfile_of_run (start : Starts W₀ argv fds) (usable : Usable fds)
    (reached : Reach (· = W₀) (step h.machine) W) {how : Ending}
    (exited : W.procs.head? = some (.ended how)) :
    ∃ there, ((W₀.files "outfile").isSome = true → there = true) ∧
      W.files "outfile" =
        if argv.length ≠ 1 ∨ (0, .pipe) ∈ W.refused ∨ (0, .fork) ∈ W.refused ∨
            (2, .creat) ∈ W.refused then W₀.files "outfile"
        else if (2, .exec) ∈ W.refused then some (bytes "execlp failed\n")
        else some (h.commands.sorted (if (1, .exec) ∈ W.refused then bytes "execlp failed\n"
          else h.commands.listing there)) := by
  obtain ⟨_, file, cause⟩ | ⟨_, one, e, how1, how2, s, pipe, got, file, all⟩ :=
    (inv_of_reach h start reached).exited start exited
  · refine ⟨true, fun _ => rfl, ?_⟩
    rw [if_pos (cause.imp_right (Or.imp_right .inl)), file]
  · have granted := all.granted
    rw [all.isFile]
    cases all.here2 with
    | given isRefused =>
        refine ⟨true, fun _ => rfl, ?_⟩
        rw [if_pos (.inr (.inr (.inr isRefused)))]
    | ended isOutput result _ =>
        cases isOutput with
        | message opened isRefused =>
            refine ⟨true, fun _ => rfl, ?_⟩
            rw [if_neg (by simp [one, granted, opened]), if_pos isRefused, result usable]
        | sorted input granted2 =>
            obtain ⟨text, status, rfl, rfl, _⟩ := all.atEnd usable input rfl
            have whole : input = text := by simpa [Got.Flows, Flow] using all.flows
            cases all.here1 with
            | ended isText _ =>
                obtain ⟨there, wasThere, isText⟩ := isText
                refine ⟨there, wasThere, ?_⟩
                rw [if_neg (by simp [one, granted, granted2]), if_neg (granted2 _),
                  result usable, whole, isText]

theorem outfile_of_run_small : ∃ there,
    ((none : Option (List UInt8)).isSome = true → there = true) ∧
      (after [0, 1, 2] wholeRun (by decide)).files "outfile" =
        some (smallCommands.sorted (smallCommands.listing there)) :=
  outfile_of_run smallHost (shellWorld_starts [0, 1, 2]) (by decide)
    (after_reached [0, 1, 2] wholeRun (by decide)) rfl

/-- Where the shell had closed descriptor 0 or 1, outfile is left empty though main
reports success. -/
theorem outfile_empty (start : Starts W₀ argv fds) (closed : ¬ Usable fds)
    (reached : Reach (· = W₀) (step h.machine) W)
    (exited : W.procs.head? = some (.ended (.exited exitSuccess)))
    (granted : ∀ call, (2, call) ∉ W.refused) : W.files "outfile" = some [] := by
  obtain ⟨failed, _⟩ | ⟨_, one, e, how1, how2, s, pipe, got, file, all⟩ :=
    (inv_of_reach h start reached).exited start exited
  · cases failed
  · rw [all.isFile]
    cases all.here2 with
    | given isRefused => exact absurd isRefused (granted _)
    | ended isOutput _ none =>
        cases isOutput with
        | message _ isRefused => exact absurd isRefused (granted _)
        | sorted input _ => rw [none closed nofun]

/-- sort finds its standard output closed. -/
theorem outfile_empty_small :
    (after [0, 2] (setup ++ turns 1 4 ++ turns 2 4 ++ turns 0 3) (by decide)).files "outfile" =
      some [] :=
  outfile_empty smallHost (shellWorld_starts [0, 2]) (by decide) (after_reached _ _ _) rfl
    (by intro call; cases call <;> decide)

theorem Inv.second {h : Host} (start : Starts W₀ argv fds) (inv : Inv h argv fds W₀ W) {c1 : Proc}
    (second : W.procs[1]? = some c1) :
    (W.procs.length = 2 ∧ (c1 ≠ .ended .killed ∨ (0, .fork) ∈ W.refused)) ∨
      ∃ (e : Ends h.machine fds) (p c2 : Proc), ∃ s pipe got file,
        Together h e W₀ W p c1 c2 s pipe got file := by
  cases inv with
  | start same =>
      subst same
      rw [start.procs] at second
      cases second
  | complaining procs _ _ =>
      rw [procs] at second
      cases second
  | giving procs _ _ =>
      rw [procs] at second
      cases second
  | given procs _ _ =>
      rw [procs] at second
      cases second
  | forking1 e _ _ procs _ _ =>
      rw [procs] at second
      cases second
  | failed1 e procs _ _ _ _ =>
      rw [procs] at second
      cases second
  | forking2 e _ _ procs _ _ _ _ alive _ =>
      rw [procs] at second ⊢
      exact .inl ⟨rfl, .inl (Option.some.inj second ▸ alive)⟩
  | failed2 e procs _ _ _ _ cause =>
      rw [procs]
      exact .inl ⟨rfl, .inr cause⟩
  | three e _ all =>
      rw [all.procs] at second
      cases second
      exact .inr ⟨e, _, _, _, _, _, _, all⟩

def unwritten : Proc → List UInt8
  | .running _ (.write _ rest _) => rest
  | _ => []

/-- ls is killed by SIGPIPE only if sort was never run. -/
theorem ls_killed (start : Starts W₀ argv fds) (usable : Usable fds)
    (reached : Reach (· = W₀) (step h.machine) W)
    (killed : W.procs[1]? = some (.ended .killed)) :
    (0, .fork) ∈ W.refused ∨ (2, .creat) ∈ W.refused ∨ (2, .exec) ∈ W.refused := by
  obtain ⟨_, alive | isRefused⟩ | ⟨e, p, c2, s, pipe, got, file, all⟩ :=
    (inv_of_reach h start reached).second start killed
  · exact absurd rfl alive
  · exact .inl isRefused
  cases got with
  | reading input => exact absurd rfl (all.alive usable input rfl)
  | whole input =>
      obtain ⟨_, _, _, _, exited⟩ := all.atEnd usable input rfl
      cases exited
  | failed =>
      cases all.here2 with
      | failing isRefused => exact .inr (.inl isRefused)
      | giving isRefused => exact .inr (.inl isRefused)
      | given isRefused => exact .inr (.inl isRefused)
      | writing _ isOutput _ _ _ =>
          cases isOutput with
          | message _ isRefused => exact .inr (.inr isRefused)
      | leaving _ isOutput _ _ =>
          cases isOutput with
          | message _ isRefused => exact .inr (.inr isRefused)
      | ended isOutput _ _ =>
          cases isOutput with
          | message _ isRefused => exact .inr (.inr isRefused)

/-- sort could not be run, and ls writes when nobody reads any more. -/
def unreadRun : List (Nat × Choice) :=
  turns 0 5 ++ turns 2 5 ++ [(2, .refuse)] ++ turns 2 4 ++ turns 1 6

theorem ls_killed_small : (2, .exec) ∈ (after [0, 1, 2] unreadRun (by decide)).refused :=
  ((ls_killed smallHost (shellWorld_starts [0, 1, 2]) (by decide)
    (after_reached [0, 1, 2] unreadRun (by decide)) rfl).resolve_left (by decide)).resolve_left
    (by decide)

end Results

end Csc457.Lab1
