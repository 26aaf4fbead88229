import Csc457.Lib.Transition
import Mathlib.Algebra.BigOperators.Group.Finset.Basic
import Mathlib.Algebra.Order.BigOperators.Group.Finset
import Mathlib.Data.Finset.Max
import Mathlib.Data.Fintype.Basic

/-!
# Threads that take their locks in one order

Finitely many threads run over shared semaphores and one shared memory, each a
straight line of instructions: wait for a semaphore, post one, or act on the
memory.  The code a thread has still to run says which semaphores it holds, the
ones it posts again before it waits for them.

Where the semaphores count one lock each and every thread waits only for a lock
that ranks above all the locks it holds, the lock and its holders are one at
every moment, some unfinished thread can always go on, and a run has as many
steps as the threads have instructions.
-/

set_option autoImplicit false

namespace Csc457.Lib.LockOrder

open Function
open Csc457.Lib.Transition
open scoped BigOperators

inductive Instr (R A : Type) where
  | wait (r : R)
  | post (r : R)
  | act (a : A)
  deriving DecidableEq

structure State (T R A M : Type) where
  sem : R → Nat
  code : T → List (Instr R A)
  memory : M

section Machine
variable {T R A M : Type} [DecidableEq T] [DecidableEq R] (effect : A → M → M)

/-- The next instruction of the thread; a wait on a semaphore at 0 blocks. -/
def fire (s : State T R A M) (t : T) : Option (State T R A M) :=
  match s.code t with
  | [] => none
  | .wait r :: rest =>
      if 0 < s.sem r then
        some { s with sem := update s.sem r (s.sem r - 1), code := update s.code t rest }
      else none
  | .post r :: rest =>
      some { s with sem := update s.sem r (s.sem r + 1), code := update s.code t rest }
  | .act a :: rest =>
      some { s with memory := effect a s.memory, code := update s.code t rest }

def Step (s : State T R A M) (t : T) (s' : State T R A M) : Prop := fire effect s t = some s'

def Finished (s : State T R A M) (t : T) : Prop := s.code t = []

variable {effect} {s s' : State T R A M} {t : T}

theorem step_wait {r : R} {rest : List (Instr R A)} (code : s.code t = .wait r :: rest)
    (available : 0 < s.sem r) :
    Step effect s t
      { s with sem := update s.sem r (s.sem r - 1), code := update s.code t rest } := by
  unfold Step fire
  rw [code]
  simp [available]

theorem step_post {r : R} {rest : List (Instr R A)} (code : s.code t = .post r :: rest) :
    Step effect s t
      { s with sem := update s.sem r (s.sem r + 1), code := update s.code t rest } := by
  unfold Step fire
  rw [code]

theorem step_act {a : A} {rest : List (Instr R A)} (code : s.code t = .act a :: rest) :
    Step effect s t
      { s with memory := effect a s.memory, code := update s.code t rest } := by
  unfold Step fire
  rw [code]

theorem Step.cases (next : Step effect s t s') :
    (∃ r rest, s.code t = .wait r :: rest ∧ 0 < s.sem r ∧
      s' = { s with sem := update s.sem r (s.sem r - 1), code := update s.code t rest }) ∨
    (∃ r rest, s.code t = .post r :: rest ∧
      s' = { s with sem := update s.sem r (s.sem r + 1), code := update s.code t rest }) ∨
    (∃ a rest, s.code t = .act a :: rest ∧
      s' = { s with memory := effect a s.memory, code := update s.code t rest }) := by
  unfold Step fire at next
  split at next
  · cases next
  · next r rest code =>
      split at next
      · next available => exact .inl ⟨r, rest, code, available, (Option.some.inj next).symm⟩
      · cases next
  · next r rest code => exact .inr (.inl ⟨r, rest, code, (Option.some.inj next).symm⟩)
  · next a rest code => exact .inr (.inr ⟨a, rest, code, (Option.some.inj next).symm⟩)

theorem Step.code (next : Step effect s t s') :
    ∃ i rest, s.code t = i :: rest ∧ s'.code = update s.code t rest := by
  obtain ⟨r, rest, code, _, rfl⟩ | ⟨r, rest, code, rfl⟩ | ⟨a, rest, code, rfl⟩ := next.cases
  · exact ⟨_, rest, code, rfl⟩
  · exact ⟨_, rest, code, rfl⟩
  · exact ⟨_, rest, code, rfl⟩

theorem Step.suffix (next : Step effect s t s') (u : T) : s'.code u <:+ s.code u := by
  obtain ⟨i, rest, code, changed⟩ := next.code
  rw [changed]
  by_cases same : u = t
  · subst same
    rw [update_self, code]
    exact List.suffix_cons i rest
  · rw [update_of_ne same]

theorem code_suffix {start : State T R A M} (reached : Reach (· = start) (Step effect) s)
    (u : T) : s.code u <:+ start.code u := by
  refine reached.invariant (I := fun s => s.code u <:+ start.code u) ?_ ?_
  · rintro s rfl
    exact List.suffix_rfl
  · intro s t s' before next
    exact (next.suffix u).trans before

theorem blocked_of_stuck (stuck : ∀ s', ¬ Step effect s t s') :
    Finished s t ∨ ∃ r rest, s.code t = .wait r :: rest ∧ s.sem r = 0 := by
  cases code : s.code t with
  | nil => exact .inl code
  | cons i rest =>
      cases i with
      | wait r =>
          refine .inr ⟨r, rest, rfl, ?_⟩
          by_contra available
          exact stuck _ (step_wait code (Nat.pos_of_ne_zero available))
      | post r => exact absurd (step_post code) (stuck _)
      | act a => exact absurd (step_act code) (stuck _)

end Machine

section Alone
variable {T R A M : Type} [DecidableEq R]

def acts : List (Instr R A) → List A
  | [] => []
  | .act a :: rest => a :: acts rest
  | .wait _ :: rest => acts rest
  | .post _ :: rest => acts rest

def perform (effect : A → M → M) (as : List A) (m : M) : M := as.foldl (fun m a => effect a m) m

/-- The semaphores after the code, if it never blocks while no other thread runs. -/
def alone (sem : R → Nat) : List (Instr R A) → Option (R → Nat)
  | [] => some sem
  | .wait r :: rest => if 0 < sem r then alone (update sem r (sem r - 1)) rest else none
  | .post r :: rest => alone (update sem r (sem r + 1)) rest
  | .act _ :: rest => alone sem rest

omit [DecidableEq R] in
@[simp] theorem acts_append (first second : List (Instr R A)) :
    acts (first ++ second) = acts first ++ acts second := by
  induction first with
  | nil => rfl
  | cons i first ih => cases i <;> simp [acts, ih]

omit [DecidableEq R] in
@[simp] theorem acts_map (as : List A) : acts (as.map (.act : A → Instr R A)) = as := by
  induction as with
  | nil => rfl
  | cons a as ih => simp [acts, ih]

@[simp] theorem perform_nil (effect : A → M → M) (m : M) : perform effect [] m = m := rfl

@[simp] theorem perform_cons (effect : A → M → M) (a : A) (as : List A) (m : M) :
    perform effect (a :: as) m = perform effect as (effect a m) := rfl

theorem perform_append (effect : A → M → M) (first second : List A) (m : M) :
    perform effect (first ++ second) m = perform effect second (perform effect first m) :=
  List.foldl_append ..

@[simp] theorem alone_acts (sem : R → Nat) (as : List A) (rest : List (Instr R A)) :
    alone sem (as.map .act ++ rest) = alone sem rest := by
  induction as with
  | nil => rfl
  | cons a as ih => exact ih

variable [DecidableEq T] {effect : A → M → M} {s : State T R A M} {t : T}

theorem Step.head {s' : State T R A M} {i : Instr R A} {rest : List (Instr R A)}
    (next : Step effect s t s') (code : s.code t = i :: rest) :
    s'.code = update s.code t rest ∧ s'.memory = perform effect (acts [i]) s.memory ∧
      (∀ r, i ≠ .wait r → i ≠ .post r → s'.sem r = s.sem r) ∧
      (∀ r, i = .wait r → 0 < s.sem r ∧ s'.sem r = s.sem r - 1) ∧
      ∀ r, i = .post r → s'.sem r = s.sem r + 1 := by
  obtain ⟨q, rest', code', available, rfl⟩ | ⟨q, rest', code', rfl⟩ | ⟨a, rest', code', rfl⟩ :=
    next.cases
  all_goals
    rw [code] at code'
    obtain ⟨rfl, rfl⟩ := List.cons.inj code'
  · refine ⟨rfl, rfl, ?_, ?_, by simp⟩
    · intro r notWait _
      have other : r ≠ q := fun same => notWait (by rw [same])
      simp [update_of_ne other]
    · intro r same
      obtain rfl := Instr.wait.inj same
      exact ⟨available, by simp⟩
  · refine ⟨rfl, rfl, ?_, by simp, ?_⟩
    · intro r _ notPost
      have other : r ≠ q := fun same => notPost (by rw [same])
      simp [update_of_ne other]
    · intro r same
      obtain rfl := Instr.post.inj same
      simp
  · exact ⟨rfl, rfl, fun _ _ _ => rfl, by simp, by simp⟩

omit [DecidableEq T] in
theorem alone_section {sem : R → Nat} {r : R} {body rest : List (Instr R A)} (one : sem r = 1)
    (inner : ∀ after, alone (update sem r 0) (body ++ after) = alone (update sem r 0) after) :
    alone sem (.wait r :: (body ++ .post r :: rest)) = alone sem rest := by
  have free : update (update sem r 0) r (update sem r 0 r + 1) = sem := by
    simp [← one]
  simp only [alone, one, zero_lt_one, if_true, Nat.sub_self]
  rw [inner, alone, free]

variable (effect) in
/-- A thread that does not block can run through its code while the others stand still. -/
theorem run_alone {done rest : List (Instr R A)} {sem : R → Nat}
    (code : s.code t = done ++ rest) (free : alone s.sem done = some sem) :
    ∃ run s', Exec (Step effect) s run s' ∧ s'.sem = sem ∧ s'.code = update s.code t rest ∧
      s'.memory = perform effect (acts done) s.memory ∧
      ∀ x ∈ run, x.2 = t ∧ ∀ u, u ≠ t → x.1.code u = s.code u := by
  induction done generalizing s with
  | nil =>
      refine ⟨[], s, .nil s, Option.some.inj free, ?_, rfl, by simp⟩
      rw [← show s.code t = rest from code, update_eq_self]
  | cons i done ih =>
      have goOn : ∀ s₁, Step effect s t s₁ → s₁.code = update s.code t (done ++ rest) →
          alone s₁.sem done = some sem →
          perform effect (acts done) s₁.memory = perform effect (acts (i :: done)) s.memory →
          ∃ run s', Exec (Step effect) s run s' ∧ s'.sem = sem ∧ s'.code = update s.code t rest ∧
            s'.memory = perform effect (acts (i :: done)) s.memory ∧
            ∀ x ∈ run, x.2 = t ∧ ∀ u, u ≠ t → x.1.code u = s.code u := by
        intro s₁ next moved free' same
        obtain ⟨run, s', exec, sem', code', memory', own⟩ :=
          ih (s := s₁) (by rw [moved, update_self]) free'
        refine ⟨(s, t) :: run, s', .cons next exec, sem', ?_, memory'.trans same, ?_⟩
        · rw [code', moved, update_idem]
        · intro x member
          rcases List.mem_cons.mp member with rfl | member
          · exact ⟨rfl, fun _ _ => rfl⟩
          · refine ⟨(own x member).1, fun u other => ?_⟩
            rw [(own x member).2 u other, moved, update_of_ne other]
      cases i with
      | wait r =>
          rw [alone] at free
          split at free
          · next available => exact goOn _ (step_wait code available) rfl free rfl
          · cases free
      | post r => exact goOn _ (step_post code) rfl free rfl
      | act a => exact goOn _ (step_act code) rfl free rfl

end Alone

/-! ## Locks held -/

section Code
variable {R A : Type} [DecidableEq R]

/-- The code to come posts the semaphore before it waits for it. -/
def holds (r : R) : List (Instr R A) → Bool
  | [] => false
  | .wait q :: rest => if q = r then false else holds r rest
  | .post q :: rest => if q = r then true else holds r rest
  | .act _ :: rest => holds r rest

/-- Every wait is for a lock above the locks held there and is followed by its
own post; every post gives the lock up. -/
def Orderly (rank : R → Nat) : List (Instr R A) → Prop
  | [] => True
  | .wait r :: rest =>
      holds r rest = true ∧ (∀ q, q ≠ r → holds q rest = true → rank q < rank r) ∧
        Orderly rank rest
  | .post r :: rest => holds r rest = false ∧ Orderly rank rest
  | .act _ :: rest => Orderly rank rest

/-- No lock is held where the code begins. -/
def FreeHanded (code : List (Instr R A)) : Prop := ∀ r, holds r code = false

@[simp] theorem holds_nil (r : R) : holds r ([] : List (Instr R A)) = false := rfl

@[simp] theorem holds_wait (r q : R) (rest : List (Instr R A)) :
    holds r (.wait q :: rest) = if q = r then false else holds r rest := rfl

@[simp] theorem holds_post (r q : R) (rest : List (Instr R A)) :
    holds r (.post q :: rest) = if q = r then true else holds r rest := rfl

@[simp] theorem holds_act (r : R) (a : A) (rest : List (Instr R A)) :
    holds r (.act a :: rest) = holds r rest := rfl

variable {rank : R → Nat}

@[simp] theorem orderly_nil : Orderly rank ([] : List (Instr R A)) := trivial

@[simp] theorem orderly_wait (r : R) (rest : List (Instr R A)) :
    Orderly rank (.wait r :: rest) ↔
      holds r rest = true ∧ (∀ q, q ≠ r → holds q rest = true → rank q < rank r) ∧
        Orderly rank rest := Iff.rfl

@[simp] theorem orderly_post (r : R) (rest : List (Instr R A)) :
    Orderly rank (.post r :: rest) ↔ holds r rest = false ∧ Orderly rank rest := Iff.rfl

@[simp] theorem orderly_act (a : A) (rest : List (Instr R A)) :
    Orderly rank (.act a :: rest) ↔ Orderly rank rest := Iff.rfl

@[simp] theorem holds_acts (r : R) (acts : List A) (rest : List (Instr R A)) :
    holds r (acts.map .act ++ rest) = holds r rest := by
  induction acts with
  | nil => rfl
  | cons a acts ih => simpa using ih

@[simp] theorem orderly_acts (acts : List A) (rest : List (Instr R A)) :
    Orderly rank (acts.map .act ++ rest) ↔ Orderly rank rest := by
  induction acts with
  | nil => rfl
  | cons a acts ih => simpa using ih

theorem freeHanded_nil : FreeHanded ([] : List (Instr R A)) := fun _ => rfl

/-- Code that begins with empty hands does not show in what the code before it holds. -/
theorem holds_append {first second : List (Instr R A)} (free : FreeHanded second) (r : R) :
    holds r (first ++ second) = holds r first := by
  induction first with
  | nil => exact free r
  | cons i first ih => cases i <;> simp [ih]

theorem FreeHanded.append {first second : List (Instr R A)} (before : FreeHanded first)
    (after : FreeHanded second) : FreeHanded (first ++ second) := by
  intro r
  rw [holds_append after]
  exact before r

theorem Orderly.append {first second : List (Instr R A)} (before : Orderly rank first)
    (after : Orderly rank second) (free : FreeHanded second) :
    Orderly rank (first ++ second) := by
  induction first with
  | nil => exact after
  | cons i first ih =>
      cases i with
      | wait r =>
          obtain ⟨posted, above, rest⟩ := before
          rw [List.cons_append, orderly_wait]
          simp only [holds_append free]
          exact ⟨posted, above, ih rest⟩
      | post r =>
          obtain ⟨given, rest⟩ := before
          rw [List.cons_append, orderly_post, holds_append free]
          exact ⟨given, ih rest⟩
      | act a => exact ih before

/-- Whether the semaphore is held after the code, from whether it was before. -/
def taken (r : R) : Bool → List (Instr R A) → Bool
  | held, [] => held
  | held, .wait q :: rest => taken r (if q = r then true else held) rest
  | held, .post q :: rest => taken r (if q = r then false else held) rest
  | held, .act _ :: rest => taken r held rest

/-- A thread that keeps to the order holds what it has waited for and not posted. -/
theorem Orderly.taken_eq {done rest : List (Instr R A)} (orderly : Orderly rank (done ++ rest))
    (r : R) : taken r (holds r (done ++ rest)) done = holds r rest := by
  induction done with
  | nil => rfl
  | cons i done ih =>
      cases i with
      | wait q =>
          rw [List.cons_append, orderly_wait] at orderly
          obtain ⟨posted, _, after⟩ := orderly
          rw [← ih after]
          by_cases same : q = r
          · subst same
            simp [taken, posted]
          · simp [taken, same]
      | post q =>
          rw [List.cons_append, orderly_post] at orderly
          obtain ⟨given, after⟩ := orderly
          rw [← ih after]
          by_cases same : q = r
          · subst same
            simp [taken, given]
          · simp [taken, same]
      | act a => exact ih orderly

theorem orderly_repeat {block : List (Instr R A)} (orderly : Orderly rank block)
    (free : FreeHanded block) (count : Nat) :
    Orderly rank (List.replicate count block).flatten ∧
      FreeHanded (List.replicate count block).flatten := by
  induction count with
  | zero => exact ⟨orderly_nil, freeHanded_nil⟩
  | succ count ih =>
      obtain ⟨rest, restFree⟩ := ih
      rw [List.replicate_succ, List.flatten_cons]
      exact ⟨orderly.append rest restFree, free.append restFree⟩

end Code

section System
variable {T R A M : Type} [Fintype T] [DecidableEq R]

def holders (r : R) (code : T → List (Instr R A)) : Nat := ∑ t, (holds r (code t)).toNat

/-- Every thread keeps to the order, and each lock is free or held once. -/
structure Disciplined (rank : R → Nat) (s : State T R A M) : Prop where
  orderly : ∀ t, Orderly rank (s.code t)
  balanced : ∀ r, s.sem r + holders r s.code = 1

variable {rank : R → Nat} {effect : A → M → M} {s s' : State T R A M} {t : T}

omit [Fintype T] in
theorem idle_of_finished {r : R} (done : ∀ t, Finished s t) (t : T) :
    holds r (s.code t) = false := by
  rw [show s.code t = [] from done t]
  rfl

theorem holders_eq_zero {r : R} {code : T → List (Instr R A)} :
    holders r code = 0 ↔ ∀ t, holds r (code t) = false := by
  simp [holders, Finset.sum_eq_zero_iff, Bool.toNat_eq_zero]

theorem Disciplined.start (orderly : ∀ t, Orderly rank (s.code t))
    (free : ∀ t, FreeHanded (s.code t)) (one : ∀ r, s.sem r = 1) : Disciplined rank s := by
  refine ⟨orderly, ?_⟩
  intro r
  rw [holders_eq_zero.mpr fun t => free t r, one r]

theorem Disciplined.holder (disciplined : Disciplined rank s) {r : R} (taken : s.sem r = 0) :
    ∃ t, holds r (s.code t) = true := by
  by_contra free
  simp only [not_exists, Bool.not_eq_true] at free
  have total := disciplined.balanced r
  rw [holders_eq_zero.mpr free] at total
  omega

theorem Disciplined.one_holder [DecidableEq T] (disciplined : Disciplined rank s) {r : R} {t u : T}
    (first : holds r (s.code t) = true) (second : holds r (s.code u) = true) : t = u := by
  by_contra other
  have total := disciplined.balanced r
  have pair : ∑ v ∈ {t, u}, (holds r (s.code v)).toNat ≤ holders r s.code :=
    Finset.sum_le_sum_of_subset (Finset.subset_univ _)
  rw [Finset.sum_pair other, first, second, Bool.toNat_true] at pair
  omega

theorem Disciplined.all_free (disciplined : Disciplined rank s)
    (done : ∀ t, Finished s t) (r : R) : s.sem r = 1 := by
  have total := disciplined.balanced r
  rw [holders_eq_zero.mpr (idle_of_finished done)] at total
  exact total

variable [DecidableEq T]

theorem sum_update {C : Type} (f : C → Nat) (code : T → C) (t : T) (new : C) :
    (∑ u, f (update code t new u)) + f (code t) = (∑ u, f (code u)) + f new := by
  have others : ∑ u ∈ Finset.univ.erase t, f (update code t new u) =
      ∑ u ∈ Finset.univ.erase t, f (code u) := by
    apply Finset.sum_congr rfl
    intro u member
    rw [update_of_ne (Finset.ne_of_mem_erase member)]
  have changed := Finset.add_sum_erase Finset.univ (fun u => f (update code t new u))
    (Finset.mem_univ t)
  have before := Finset.add_sum_erase Finset.univ (fun u => f (code u)) (Finset.mem_univ t)
  simp only [update_self] at changed
  omega

theorem holders_update {code : T → List (Instr R A)} {i : Instr R A} {rest : List (Instr R A)}
    (here : code t = i :: rest) (q : R) :
    holders q (update code t rest) + (holds q (i :: rest)).toNat =
      holders q code + (holds q rest).toNat := by
  rw [← here]
  exact sum_update (fun c => (holds q c).toNat) code t rest

theorem Disciplined.keep_orderly (disciplined : Disciplined rank s) {rest : List (Instr R A)}
    (orderly : Orderly rank rest) (u : T) : Orderly rank (update s.code t rest u) := by
  by_cases same : u = t
  · subst same
    rw [update_self]
    exact orderly
  · rw [update_of_ne same]
    exact disciplined.orderly u

theorem Disciplined.step (disciplined : Disciplined rank s) (next : Step effect s t s') :
    Disciplined rank s' := by
  have own := disciplined.orderly t
  obtain ⟨r, rest, code, available, rfl⟩ | ⟨r, rest, code, rfl⟩ | ⟨a, rest, code, rfl⟩ :=
    next.cases
  · rw [code] at own
    obtain ⟨posted, _, orderly⟩ := own
    refine ⟨disciplined.keep_orderly orderly, fun q => ?_⟩
    have total := disciplined.balanced q
    have change := holders_update code q
    rw [holds_wait] at change
    by_cases same : r = q
    · subst same
      rw [if_pos rfl, posted, Bool.toNat_false, Bool.toNat_true] at change
      simp only [update_self]
      omega
    · rw [if_neg same] at change
      simp only [update_of_ne (Ne.symm same)]
      omega
  · rw [code] at own
    obtain ⟨given, orderly⟩ := own
    refine ⟨disciplined.keep_orderly orderly, fun q => ?_⟩
    have total := disciplined.balanced q
    have change := holders_update code q
    rw [holds_post] at change
    by_cases same : r = q
    · subst same
      rw [if_pos rfl, given, Bool.toNat_false, Bool.toNat_true] at change
      simp only [update_self]
      omega
    · rw [if_neg same] at change
      simp only [update_of_ne (Ne.symm same)]
      omega
  · rw [code] at own
    have orderly : Orderly rank rest := own
    refine ⟨disciplined.keep_orderly orderly, fun q => ?_⟩
    have total := disciplined.balanced q
    have change := holders_update code q
    rw [holds_act] at change
    simp only
    omega

/-! ## No deadlock, and an end -/

def wanted (rank : R → Nat) : List (Instr R A) → Nat
  | .wait r :: _ => rank r
  | _ => 0

/-- Among the blocked threads the one that waits for the highest lock waits for
a lock whose holder is blocked at a higher one. -/
theorem Disciplined.progress (disciplined : Disciplined rank s) {t : T}
    (unfinished : ¬ Finished s t) : ∃ u s', Step effect s u s' := by
  by_contra stuck
  simp only [not_exists] at stuck
  have blocked := fun u => blocked_of_stuck (stuck u)
  obtain ⟨top, member, highest⟩ := Finset.exists_max_image
    (Finset.univ.filter fun u => s.code u ≠ []) (fun u => wanted rank (s.code u))
    ⟨t, Finset.mem_filter.mpr ⟨Finset.mem_univ t, unfinished⟩⟩
  have topUnfinished : ¬ Finished s top := (Finset.mem_filter.mp member).2
  obtain ⟨r, rest, waits, taken⟩ := (blocked top).resolve_left topUnfinished
  obtain ⟨owner, held⟩ := disciplined.holder taken
  have ownerUnfinished : ¬ Finished s owner := by
    intro done
    rw [show s.code owner = [] from done] at held
    cases held
  obtain ⟨q, ownerRest, ownerWaits, _⟩ := (blocked owner).resolve_left ownerUnfinished
  have order := disciplined.orderly owner
  rw [ownerWaits] at order held
  obtain ⟨_, above, _⟩ := order
  rw [holds_wait] at held
  have other : q ≠ r := by
    rintro rfl
    simp at held
  rw [if_neg other] at held
  have higher : rank r < rank q := above r (Ne.symm other) held
  have bound := highest owner
    (Finset.mem_filter.mpr ⟨Finset.mem_univ owner, ownerUnfinished⟩)
  rw [waits, ownerWaits] at bound
  exact absurd higher (Nat.not_lt.mpr bound)

def remaining (s : State T R A M) : Nat := ∑ t, (s.code t).length

theorem Step.remaining (next : Step effect s t s') : remaining s' + 1 = remaining s := by
  obtain ⟨i, rest, code, changed⟩ := next.code
  have sum := sum_update List.length s.code t rest
  rw [code, List.length_cons] at sum
  unfold LockOrder.remaining
  rw [changed]
  omega

theorem run_length {run : List (State T R A M × T)} (exec : Exec (Step effect) s run s') :
    remaining s' + run.length = remaining s := by
  induction exec with
  | nil => rfl
  | cons next _ ih =>
      have shorter := next.remaining
      rw [List.length_cons]
      omega

theorem no_infinite_run (states : Nat → State T R A M)
    (steps : ∀ n, ∃ t, Step effect (states n) t (states (n + 1))) : False := by
  have falls : ∀ n, remaining (states n) + n = remaining (states 0) := by
    intro n
    induction n with
    | zero => rfl
    | succ n ih =>
        obtain ⟨t, next⟩ := steps n
        have shorter := next.remaining
        omega
  have late := falls (remaining (states 0) + 1)
  omega

section Counting
variable [DecidableEq A]

def executions (i : Instr R A) (run : List (State T R A M × T)) : Nat :=
  run.countP fun x => (x.1.code x.2).head? = some i

theorem Step.count (next : Step effect s t s') (i : Instr R A) :
    (if (s.code t).head? = some i then 1 else 0) + ∑ u, (s'.code u).count i =
      ∑ u, (s.code u).count i := by
  obtain ⟨j, rest, code, changed⟩ := next.code
  have sum := sum_update (List.count i) s.code t rest
  rw [code, List.count_cons] at sum
  rw [changed, code, List.head?_cons]
  by_cases same : j = i
  · subst same
    simp only [beq_self_eq_true, if_true] at sum ⊢
    omega
  · have other : some j ≠ some i := fun eq => same (Option.some.inj eq)
    have notBeq : (j == i) = false := beq_eq_false_iff_ne.mpr same
    rw [if_neg other]
    simp only [notBeq, Bool.false_eq_true, if_false] at sum
    omega

theorem run_count {run : List (State T R A M × T)} (exec : Exec (Step effect) s run s')
    (i : Instr R A) : executions i run + ∑ u, (s'.code u).count i = ∑ u, (s.code u).count i := by
  induction exec with
  | nil => exact Nat.zero_add _
  | cons next _ ih =>
      have here := next.count i
      rw [← here, ← ih, executions, executions, List.countP_cons]
      simp only [decide_eq_true_eq]
      omega

end Counting

end System

end Csc457.Lib.LockOrder
