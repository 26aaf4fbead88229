import Csc457.Secret.Requests
import Mathlib.Data.List.Perm.Basic

/-!
# Counting the read descriptors

An open counts a descriptor by its mode, a close takes one off by the uid of its
caller.  The count follows the open read descriptors, and the secret is erased
with the last of them, along exactly those runs in which the two agree at every
close.
-/

set_option autoImplicit false

namespace Csc457.Secret

open Csc457.Lib.Transition

variable {β : Type}

def readers (w : World β) : Nat := w.descriptors.countP Descriptor.reads

def readsAt (w : World β) (fd : Nat) : Bool := w.descriptors[fd]?.any Descriptor.reads

def Counted (w : World β) : Prop := w.driver.readOpenCount = readers w

/-- A close is counted exactly where it closes a read descriptor. -/
def CountsReaders (w : World β) : Request β → Prop
  | .devClose caller getnucred fd =>
      Counts w.driver caller getnucred ↔ readsAt w fd = true
  | _ => True

instance (w : World β) : Decidable (Counted w) :=
  inferInstanceAs (Decidable (w.driver.readOpenCount = readers w))

instance (w : World β) : (r : Request β) → Decidable (CountsReaders w r)
  | .devClose caller getnucred fd =>
      inferInstanceAs (Decidable (Counts w.driver caller getnucred ↔ readsAt w fd = true))
  | .devOpen _ _ _ | .devRead _ _ _ _ _ | .devWrite _ _ _ _ _ | .devIoctl _ _ _ _ _ =>
      inferInstanceAs (Decidable True)

def Erased [Zero β] (d : Driver β) : Prop :=
  d.secretLength = 0 ∧ d.secretOwner = noOwner ∧ ∀ i, d.secretBuffer i = 0

/-- A close that leaves no read descriptor where there was one erases the secret;
no other close touches secret or owner, and no other request a secret that is
stored. -/
def ErasesWithLast [Zero β] (w : World β) (r : Request β) (w' : World β) : Prop :=
  match r with
  | .devClose _ _ _ =>
      if readers w = 1 ∧ readers w' = 0 then Erased w'.driver
      else SameSecret w.driver w'.driver ∧ w'.driver.secretOwner = w.driver.secretOwner
  | _ => 0 < w.driver.secretLength → SameSecret w.driver w'.driver

theorem readers_append (w : World β) (mode : Mode) (caller : Uid) :
    (w.descriptors ++ [Descriptor.mk mode caller]).countP Descriptor.reads =
      readers w + mode.rBit.toNat := by
  rw [List.countP_append, List.countP_singleton]
  cases reads : mode.rBit <;> simp [Descriptor.reads, reads, readers]

theorem readers_eraseIdx (w : World β) {fd : Nat} (bound : fd < w.descriptors.length) :
    (w.descriptors.eraseIdx fd).countP Descriptor.reads + (readsAt w fd).toNat = readers w := by
  have split := (List.getElem_cons_eraseIdx_perm bound).countP_eq Descriptor.reads
  rw [List.countP_cons] at split
  unfold readers readsAt
  rw [← split, List.getElem?_eq_getElem bound, Option.any_some]
  cases w.descriptors[fd].reads <;> rfl

section Runs
variable [Zero β] {outside : Nat → β} {w w' : World β} {r : Request β}

theorem Counted.start : Counted (World.start : World β) := rfl

/-- After a close the count is right exactly where the close was counted right. -/
theorem counted_close {caller : Uid} {getnucred : Status} {fd : Nat} (counted : Counted w)
    (bound : fd < w.descriptors.length) :
    Counted (serve outside w (.devClose caller getnucred fd)).2 ↔
      CountsReaders w (.devClose caller getnucred fd) := by
  have fewer := readers_eraseIdx w bound
  have before : w.driver.readOpenCount = readers w := counted
  change (secretClose w.driver caller getnucred).2.readOpenCount =
    ((w.descriptors.eraseIdx fd).countP Descriptor.reads : Nat) ↔ _
  have after : (secretClose w.driver caller getnucred).2.readOpenCount =
      if Counts w.driver caller getnucred then w.driver.readOpenCount - 1
      else w.driver.readOpenCount := by
    obtain ⟨uncounted, same⟩ | ⟨counts, _, changed⟩ | ⟨⟨counts, last⟩, erased⟩ :=
      secretClose_cases w.driver caller getnucred
    · rw [same, if_neg uncounted]
    · rw [changed, if_pos counts]
    · rw [erased, if_pos counts, last]
      rfl
  rw [after]
  change _ ↔ (Counts w.driver caller getnucred ↔ readsAt w fd = true)
  by_cases counts : Counts w.driver caller getnucred
  · rw [if_pos counts, iff_true_left counts]
    cases closed : readsAt w fd
    · rw [closed, Bool.toNat_false] at fewer
      exact iff_of_false (by omega) (by decide)
    · rw [closed, Bool.toNat_true] at fewer
      exact iff_of_true (by omega) rfl
  · rw [if_neg counts, iff_false_left counts]
    cases closed : readsAt w fd
    · rw [closed, Bool.toNat_false] at fewer
      exact iff_of_true (by omega) (by decide)
    · rw [closed, Bool.toNat_true] at fewer
      exact iff_of_false (by omega) (by decide)

theorem Counted.served (counted : Counted w) (next : Served outside w r w')
    (guarded : CountsReaders w r) : Counted w' := by
  obtain rfl | ⟨caller, getnucred, mode, driver, rfl, origin, rfl⟩ |
    ⟨caller, getnucred, fd, rfl, bound, _⟩ | ⟨caller, fd, position, data, copy, rfl, _, rfl⟩ |
    ⟨caller, fd, newOwner, copy, rfl, _, _, rfl⟩ := next.cases
  · exact counted
  · have before : w.driver.readOpenCount = readers w := counted
    have same : driver.readOpenCount = w.driver.readOpenCount := by
      obtain ⟨_, rfl⟩ | ⟨_, _, rfl⟩ := origin <;> rfl
    change (driver.countOpen mode).readOpenCount =
      ((w.descriptors ++ [Descriptor.mk mode caller]).countP Descriptor.reads : Nat)
    rw [countOpen_readOpenCount, same, before, readers_append]
    omega
  · rw [next.2]
    exact (counted_close counted bound).mpr guarded
  · exact counted
  · exact counted

theorem not_counted_of_miscounted (counted : Counted w) (next : Served outside w r w')
    (miscounted : ¬ CountsReaders w r) : ¬ Counted w' := by
  obtain ⟨forwarded, rfl⟩ := next
  cases r with
  | devClose caller getnucred fd => rwa [counted_close counted forwarded]
  | _ => exact absurd trivial miscounted

/-- Where the count is right before and after a request, the secret goes with the
last reader. -/
theorem Counted.erasesWithLast (counted : Counted w) (next : Served outside w r w')
    (guarded : CountsReaders w r) : ErasesWithLast w r w' := by
  have after := counted.served next guarded
  have before : w.driver.readOpenCount = readers w := counted
  have later : w'.driver.readOpenCount = readers w' := after
  obtain rfl | ⟨caller, getnucred, mode, driver, rfl, origin, rfl⟩ |
    ⟨caller, getnucred, fd, rfl, bound, _, closed⟩ |
    ⟨caller, fd, position, data, copy, rfl, empty, rfl⟩ |
    ⟨caller, fd, newOwner, copy, rfl, _, _, rfl⟩ := next.cases
  · have same : SameSecret w'.driver w'.driver := ⟨rfl, rfl⟩
    cases r with
    | devClose caller getnucred fd =>
        have noLast : ¬ (readers w' = 1 ∧ readers w' = 0) := by omega
        simp only [ErasesWithLast, if_neg noLast]
        exact ⟨same, trivial⟩
    | _ => exact fun _ => same
  · intro _
    obtain ⟨_, rfl⟩ | ⟨_, _, rfl⟩ := origin
    · exact ⟨by simp, by simp⟩
    · exact ⟨by simp, by simp⟩
  · obtain ⟨uncounted, same⟩ | ⟨counts, others, changed⟩ | ⟨⟨counts, last⟩, erased⟩ := closed
    · have noLast : ¬ (readers w = 1 ∧ readers w' = 0) := by
        rw [same] at later
        omega
      simp only [ErasesWithLast, if_neg noLast, same]
      exact ⟨⟨rfl, rfl⟩, trivial⟩
    · have noLast : ¬ (readers w = 1 ∧ readers w' = 0) := by
        rw [changed] at later
        simp only at later
        omega
      simp only [ErasesWithLast, if_neg noLast, changed]
      exact ⟨⟨rfl, rfl⟩, trivial⟩
    · have isLast : readers w = 1 ∧ readers w' = 0 := by
        rw [erased] at later
        simp only [Driver.fresh] at later
        omega
      simp only [ErasesWithLast, if_pos isLast, erased]
      exact ⟨rfl, rfl, fun _ => rfl⟩
  · intro stored
    omega
  · intro _
    exact ⟨rfl, rfl⟩

/-- The count follows the read descriptors and the secret goes with the last of
them along exactly those runs in which every close is counted right. -/
theorem read_accounting_iff {run : List (World β × Request β)}
    (exec : Exec (Served outside) World.start run w) :
    (AllStates Counted run w ∧
      AllSteps (fun v r => ErasesWithLast v r (serve outside v r).2) run) ↔
    AllSteps CountsReaders run := by
  have follows := exec.allStates_iff_guarded (I := Counted) (P := Counted) (C := CountsReaders)
    (fun _ counted => counted) (fun _ _ _ counted guarded next => counted.served next guarded)
    (fun _ _ _ counted miscounted next => not_counted_of_miscounted counted next miscounted)
    Counted.start
  constructor
  · rintro ⟨counted, _⟩
    exact follows.mp counted
  · intro guarded
    have counted := follows.mpr guarded
    refine ⟨counted, ?_⟩
    intro x member
    obtain ⟨v, next⟩ := exec.is_step x member
    rw [← next.2]
    exact (counted.1 x member).erasesWithLast next (guarded x member)

end Runs

/-! ## Runs in which the two part -/

def readOnly : Mode := ⟨true, false, 0⟩

def writeOnly : Mode := ⟨false, true, 0⟩

def copied : SafeCopy := ⟨.ok, 0⟩

def origin : U64 := ⟨0, 0⟩

/-- The owner writes a secret, opens it to read it, and closes the descriptor it
wrote with. -/
def closesWriter : List (Request UInt8) :=
  [.devOpen 10 .ok writeOnly, .devWrite 10 0 origin [83] copied, .devOpen 10 .ok readOnly,
    .devClose 10 .ok 0]

/-- The owner reads its secret and closes the descriptor. -/
def closesReader : List (Request UInt8) :=
  [.devOpen 10 .ok readOnly, .devClose 10 .ok 0]

def nothing : Nat → UInt8 := fun _ => 0

theorem playable_exec (labels : List (Request UInt8)) {w : World UInt8}
    (playable : Playable Forwarded (fun w r => (serve nothing w r).2) w labels) :
    Exec (Served nothing) w (played (fun w r => (serve nothing w r).2) w labels)
      (labels.foldl (fun w r => (serve nothing w r).2) w) :=
  playable.exec fun _ _ forwarded => ⟨forwarded, rfl⟩

theorem read_accounting_broken :
    ∃ run w, Exec (Served nothing) (World.start : World UInt8) run w ∧
      ¬ (AllStates Counted run w ∧
        AllSteps (fun v r => ErasesWithLast v r (serve nothing v r).2) run) := by
  refine ⟨_, _, playable_exec closesWriter (by decide), ?_⟩
  rintro ⟨⟨_, counted⟩, _⟩
  exact absurd counted (by decide)

theorem read_accounting_iff_closesReader :
    AllStates Counted (played (fun w r => (serve nothing w r).2) World.start closesReader)
      (closesReader.foldl (fun w r => (serve nothing w r).2) World.start) :=
  ((read_accounting_iff (playable_exec closesReader (by decide))).mpr
    (by unfold AllSteps; decide)).1

end Csc457.Secret
