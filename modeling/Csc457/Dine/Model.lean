import Csc457.Lib.LockOrder
import Mathlib.Data.List.FinRange

/-!
# The dining philosophers

The threads of dine.c as straight-line code: dine has no branch that reads the
shared data, so that the statements a philosopher executes depend on its number
and on `cycles` alone.  Every store, every printf and every semaphore call is an
instruction of its own.  Semaphores never fail, and `start` is the moment main
has initialised them and created the threads.
-/

set_option autoImplicit false

namespace Csc457.Dine

open Function
open Csc457.Lib.LockOrder

variable {N : Nat}

inductive Lock (N : Nat) where
  | fork (f : Fin N)
  | updatePhilLock
  | printStatusLock
  deriving DecidableEq

/-- The texts `state` points to. -/
inductive Status where
  | change
  | eat
  | think
  deriving DecidableEq

def Status.text : Status → String
  | .change => "       "
  | .eat => "Eat    "
  | .think => "Think  "

/-- The flags `left_fork` and `right_fork`. -/
inductive Side where
  | left
  | right
  deriving DecidableEq

structure Philosopher (N : Nat) where
  state : Status
  forkRepresentation : Fin N → UInt8
  leftFork : Int
  rightFork : Int

def Philosopher.flag (p : Philosopher N) : Side → Int
  | .left => p.leftFork
  | .right => p.rightFork

def Philosopher.setFlag (p : Philosopher N) (side : Side) (value : Int) : Philosopher N :=
  match side with
  | .left => { p with leftFork := value }
  | .right => { p with rightFork := value }

/-- `"| %s %s "` with the representation and the state of a philosopher. -/
structure Cell (N : Nat) where
  forkRepresentation : Fin N → UInt8
  state : String

/-- The shared data and standard output: the lines ended so far, latest first,
and the cells printed since. -/
structure Memory (N : Nat) where
  philosophers : Fin N → Philosopher N
  printed : List (List (Cell N))
  line : List (Cell N)

inductive Act (N : Nat) where
  | setFlag (side : Side) (i : Fin N) (value : Int)
  | setState (i : Fin N) (state : Status)
  | represent (side : Side) (i : Fin N)
  | printf (i : Fin N)
  | newline
  | dawdle
  deriving DecidableEq

/-- `(i + 1) % NUM_PHILOSOPHERS` -/
def rightOf (i : Fin N) : Fin N := ⟨(i + 1) % N, Nat.mod_lt _ (Nat.zero_lt_of_lt i.isLt)⟩

/-- `(i + NUM_PHILOSOPHERS - 1) % NUM_PHILOSOPHERS` -/
def leftOf (i : Fin N) : Fin N := ⟨(i + N - 1) % N, Nat.mod_lt _ (Nat.zero_lt_of_lt i.isLt)⟩

/-- The fork on a side, its index in `forks` and in `fork_representation`. -/
def forkOn (i : Fin N) : Side → Fin N
  | .left => i
  | .right => rightOf i

/-- `'0' + fork` where the flag is set, `'-'` where it is not. -/
def forkChar (flag : Int) (fork : Fin N) : UInt8 :=
  if flag ≠ 0 then UInt8.ofNat (48 + fork) else 45

/-- One half of update_fork_representation. -/
def updateForkRepresentation (side : Side) (i : Fin N) (p : Philosopher N) : Philosopher N :=
  { p with
    forkRepresentation :=
      update p.forkRepresentation (forkOn i side) (forkChar (p.flag side) (forkOn i side)) }

def Memory.modify (m : Memory N) (i : Fin N) (f : Philosopher N → Philosopher N) : Memory N :=
  { m with philosophers := update m.philosophers i (f (m.philosophers i)) }

def effect : Act N → Memory N → Memory N
  | .setFlag side i value, m => m.modify i fun p => p.setFlag side value
  | .setState i state, m => m.modify i fun p => { p with state := state }
  | .represent side i, m => m.modify i (updateForkRepresentation side i)
  | .printf i, m =>
      let p := m.philosophers i
      { m with line := m.line ++ [⟨p.forkRepresentation, p.state.text⟩] }
  | .newline, m => { m with printed := m.line :: m.printed, line := [] }
  | .dawdle, m => m

abbrev Code (N : Nat) := List (Instr (Lock N) (Act N))

abbrev System (N : Nat) := State (Fin N) (Lock N) (Act N) (Memory N)

/-! ## The code of a thread -/

def printActs (N : Nat) : List (Act N) :=
  (List.finRange N).flatMap (fun i => [.represent .left i, .represent .right i]) ++
    ((List.finRange N).map .printf ++ [.newline])

def printStatus (N : Nat) : Code N :=
  .wait .printStatusLock :: ((printActs N).map .act ++ [.post .printStatusLock])

def updateActs (i : Fin N) (state : Status) (leftFork rightFork : Int) : List (Act N) :=
  -- picking up the left fork clears the left philosopher's right fork
  (if leftFork = 1 then [.setFlag .right (leftOf i) 0, .setState (leftOf i) .change] else []) ++
  -- picking up the right fork clears the right philosopher's left fork
  ((if rightFork = 1 then [.setFlag .left (rightOf i) 0, .setState (rightOf i) .change] else []) ++
  [.setState i state, .setFlag .left i leftFork, .setFlag .right i rightFork])

def updatePhilosopher (i : Fin N) (state : Status) (leftFork rightFork : Int) : Code N :=
  .wait .updatePhilLock ::
    ((updateActs i state leftFork rightFork).map .act ++ (printStatus N ++ [.post .updatePhilLock]))

def evenCycle (i : Fin N) : Code N :=
  List.flatten [
    updatePhilosopher i .change 0 0,
    [.wait (.fork (forkOn i .right))],
    updatePhilosopher i .change 0 1,
    [.wait (.fork (forkOn i .left))],
    updatePhilosopher i .change 1 1,
    updatePhilosopher i .eat 1 1,
    [.act .dawdle],
    updatePhilosopher i .change 1 1,
    [.post (.fork (forkOn i .right))],
    -- the flags passed here are those of a philosopher that posted its left fork
    updatePhilosopher i .change 0 1,
    [.post (.fork (forkOn i .left))],
    updatePhilosopher i .change 0 0,
    updatePhilosopher i .think 0 0,
    [.act .dawdle]]

def oddCycle (i : Fin N) : Code N :=
  List.flatten [
    updatePhilosopher i .change 0 0,
    [.wait (.fork (forkOn i .left))],
    updatePhilosopher i .change 1 0,
    [.wait (.fork (forkOn i .right))],
    updatePhilosopher i .change 1 1,
    updatePhilosopher i .eat 1 1,
    [.act .dawdle],
    updatePhilosopher i .change 1 1,
    [.post (.fork (forkOn i .left))],
    updatePhilosopher i .change 0 1,
    [.post (.fork (forkOn i .right))],
    updatePhilosopher i .change 0 0,
    updatePhilosopher i .think 0 0,
    [.act .dawdle]]

def cycle (i : Fin N) : Code N := if (i : Nat) % 2 = 0 then evenCycle i else oddCycle i

/-- `for (i = 0; i < cycles; i++)`, with a negative count as none. -/
def dine (cycles : Int) (i : Fin N) : Code N := (List.replicate cycles.toNat (cycle i)).flatten

def philosopher (N : Nat) : Philosopher N :=
  { state := .change, forkRepresentation := fun _ => 45, leftFork := 0, rightFork := 0 }

/-- The state main leaves behind: every semaphore at 1, every thread at its first
statement. -/
def start (N : Nat) (cycles : Int) : System N :=
  { sem := fun _ => 1
    code := dine cycles
    memory := { philosophers := fun _ => philosopher N, printed := [], line := [] } }

end Csc457.Dine
