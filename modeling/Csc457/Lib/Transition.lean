import Mathlib.Order.Basic
import Mathlib.Data.List.Basic

/-!
# Runs of a labelled transition relation

A system is given by its initial states and by one labelled step.  `Reach` is
the set of states some run arrives at, `Exec` keeps the run itself, as the list
of the states it left and the labels it took there.

The two induction rules are packaged here once: an invariant of the step holds
in every reachable state, and, where a step keeps the invariant exactly on the
labels a guard admits, a run stays inside the invariant if and only if every
one of its steps meets the guard.
-/

set_option autoImplicit false

namespace Csc457.Lib.Transition

variable {σ α : Type}

/-- States some run from an initial state arrives at. -/
inductive Reach (init : σ → Prop) (step : σ → α → σ → Prop) : σ → Prop where
  | init {s : σ} (start : init s) : Reach init step s
  | step {s t : σ} {a : α} (before : Reach init step s) (next : step s a t) :
      Reach init step t

/-- A run from the first state to the last one, with the states it left. -/
inductive Exec (step : σ → α → σ → Prop) : σ → List (σ × α) → σ → Prop where
  | nil (s : σ) : Exec step s [] s
  | cons {s t u : σ} {a : α} {run : List (σ × α)} (next : step s a t)
      (rest : Exec step t run u) : Exec step s ((s, a) :: run) u

/-- The property holds of every state of the run, the last one included. -/
def AllStates (P : σ → Prop) (run : List (σ × α)) (last : σ) : Prop :=
  (∀ x ∈ run, P x.1) ∧ P last

def AllSteps (C : σ → α → Prop) (run : List (σ × α)) : Prop :=
  ∀ x ∈ run, C x.1 x.2

theorem allSteps_nil {C : σ → α → Prop} : AllSteps C [] := by
  intro x member
  cases member

theorem allSteps_cons {C : σ → α → Prop} {s : σ} {a : α} {run : List (σ × α)} :
    AllSteps C ((s, a) :: run) ↔ C s a ∧ AllSteps C run := by
  simp [AllSteps]

section Invariant
variable {init : σ → Prop} {step : σ → α → σ → Prop} {I : σ → Prop}

theorem Reach.invariant (start : ∀ s, init s → I s)
    (keep : ∀ s a t, I s → step s a t → I t) {s : σ}
    (reached : Reach init step s) : I s := by
  induction reached with
  | init h => exact start _ h
  | step _ next ih => exact keep _ _ _ ih next

theorem Reach.exec {s t : σ} {run : List (σ × α)} (reached : Reach init step s)
    (exec : Exec step s run t) : Reach init step t := by
  induction exec with
  | nil => exact reached
  | cons next _ ih => exact ih (reached.step next)

theorem Exec.append {s t u : σ} {run run' : List (σ × α)} (exec : Exec step s run t)
    (exec' : Exec step t run' u) : Exec step s (run ++ run') u := by
  induction exec with
  | nil => exact exec'
  | cons next _ ih => exact .cons next (ih exec')

theorem Exec.is_step {s t : σ} {run : List (σ × α)} (exec : Exec step s run t) :
    ∀ x ∈ run, ∃ u, step x.1 x.2 u := by
  induction exec with
  | nil => intro x member; cases member
  | @cons s t u a run next _ ih =>
      intro x member
      rcases List.mem_cons.mp member with rfl | member
      · exact ⟨t, next⟩
      · exact ih x member

theorem Exec.invariant (keep : ∀ s a t, I s → step s a t → I t) {s t : σ}
    {run : List (σ × α)} (exec : Exec step s run t) (start : I s) :
    AllStates I run t := by
  induction exec with
  | nil s => exact ⟨by simp, start⟩
  | @cons s t u a run next _ ih =>
      obtain ⟨inner, last⟩ := ih (keep s a t start next)
      refine ⟨?_, last⟩
      intro x member
      rcases List.mem_cons.mp member with rfl | member
      · exact start
      · exact inner x member

theorem Exec.guarded_invariant {C : σ → α → Prop}
    (keep : ∀ s a t, I s → C s a → step s a t → I t) {s t : σ}
    {run : List (σ × α)} (exec : Exec step s run t) (start : I s)
    (guarded : AllSteps C run) : AllStates I run t := by
  induction exec with
  | nil s => exact ⟨by simp, start⟩
  | @cons s t u a run next _ ih =>
      have headGuard : C s a := guarded (s, a) (by simp)
      have tailGuard : AllSteps C run := fun x member => guarded x (by simp [member])
      obtain ⟨inner, last⟩ := ih (keep s a t start headGuard next) tailGuard
      refine ⟨?_, last⟩
      intro x member
      rcases List.mem_cons.mp member with rfl | member
      · exact start
      · exact inner x member

/-- Where the guarded steps keep the invariant, the invariant gives the
property, and an unguarded step destroys the property at once, the property
holds along a run exactly when every step of the run meets the guard. -/
theorem Exec.allStates_iff_guarded {C : σ → α → Prop} {P : σ → Prop}
    (gives : ∀ s, I s → P s)
    (keep : ∀ s a t, I s → C s a → step s a t → I t)
    (breaks : ∀ s a t, I s → ¬ C s a → step s a t → ¬ P t) {s t : σ}
    {run : List (σ × α)} (exec : Exec step s run t) (start : I s) :
    AllStates P run t ↔ AllSteps C run := by
  constructor
  · intro holds
    induction exec with
    | nil s => intro x member; cases member
    | @cons s t u a run next rest ih =>
        have nextHolds : P t := by
          cases rest with
          | nil => exact holds.2
          | @cons _ _ _ b _ _ _ => exact holds.1 (t, b) (by simp)
        have headGuard : C s a := by
          by_contra unguarded
          exact breaks s a t start unguarded next nextHolds
        have tailHolds : AllStates P run u :=
          ⟨fun x member => holds.1 x (by simp [member]), holds.2⟩
        intro x member
        rcases List.mem_cons.mp member with rfl | member
        · exact headGuard
        · exact ih (keep s a t start headGuard next) tailHolds x member
  · intro guarded
    obtain ⟨inner, last⟩ := exec.guarded_invariant keep start guarded
    exact ⟨fun x member => gives x.1 (inner x member), gives t last⟩

end Invariant

/-! ## Runs of a function

Where the step is a function with a guard, the labels alone give the run, and
whether a list of labels can be played is decided by playing it. -/

section Played
variable (guard : σ → α → Prop) (next : σ → α → σ)

def Playable : σ → List α → Prop
  | _, [] => True
  | s, a :: rest => guard s a ∧ Playable (next s a) rest

/-- The run the labels give, each with the state it was taken in. -/
def played : σ → List α → List (σ × α)
  | _, [] => []
  | s, a :: rest => (s, a) :: played (next s a) rest

instance Playable.decidable [∀ s a, Decidable (guard s a)] :
    (s : σ) → (labels : List α) → Decidable (Playable guard next s labels)
  | _, [] => inferInstanceAs (Decidable True)
  | s, a :: rest =>
      have := Playable.decidable (next s a) rest
      inferInstanceAs (Decidable (guard s a ∧ Playable guard next (next s a) rest))

variable {guard next}

theorem Playable.exec {step : σ → α → σ → Prop} (isStep : ∀ s a, guard s a → step s a (next s a))
    {s : σ} {labels : List α} (playable : Playable guard next s labels) :
    Exec step s (played next s labels) (labels.foldl next s) := by
  induction labels generalizing s with
  | nil => exact .nil s
  | cons a rest ih =>
      obtain ⟨here, others⟩ := playable
      exact .cons (isStep s a here) (ih others)

end Played

end Csc457.Lib.Transition
