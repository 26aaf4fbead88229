import Csc457.Lib.LockOrder

/-!
# Sections under a lock are atomic

The code of every thread is a list of items: an instruction that leaves the
memory alone, or a section, a block of instructions between a wait for one lock
and its post.  A `View` of a state says which items each thread has still to
begin and who is inside a section; its memory is the one the current section
will leave behind, so that it changes once for each section, where the lock is
taken.  Every step of the threads is a move of the view.
-/

set_option autoImplicit false

namespace Csc457.Lib.AtomicSection

open Function
open Csc457.Lib.Transition Csc457.Lib.LockOrder

variable {T R A M K : Type}

inductive Chunk (R A : Type) where
  | single (i : Instr R A)
  | locked (body : List (Instr R A))

/-- The instruction is not a wait for the lock or a post of it. -/
def Avoids (lock : R) (i : Instr R A) : Prop := i ≠ .wait lock ∧ i ≠ .post lock

def Chunk.code (lock : R) : Chunk R A → List (Instr R A)
  | .single i => [i]
  | .locked body => .wait lock :: (body ++ [.post lock])

/-- Only a section takes the lock, and only a section acts on the memory. -/
def Chunk.Proper (effect : A → M → M) (lock : R) : Chunk R A → Prop
  | .single i => Avoids lock i ∧ ∀ a, i = .act a → ∀ m, effect a m = m
  | .locked body => ∀ i ∈ body, Avoids lock i

structure View (T R A M K : Type) where
  todo : T → List K
  turn : Option (T × List (Instr R A))
  memory : M

section View
variable [DecidableEq T] (chunk : T → K → Chunk R A) (lock : R)

def flat (t : T) (items : List K) : List (Instr R A) :=
  items.flatMap fun k => (chunk t k).code lock

def View.inner (v : View T R A M K) (t : T) : List (Instr R A) :=
  match v.turn with
  | none => []
  | some (u, rest) => if u = t then rest ++ [.post lock] else []

/-- The memory once the current section is over. -/
def View.finish (effect : A → M → M) (v : View T R A M K) (m : M) : M :=
  match v.turn with
  | none => m
  | some (_, rest) => perform effect (acts rest) m

structure Tracks (effect : A → M → M) (s : State T R A M) (v : View T R A M K) : Prop where
  code : ∀ t, s.code t = v.inner lock t ++ flat chunk lock t (v.todo t)
  free : s.sem lock = if v.turn.isNone then 1 else 0
  memory : v.finish effect s.memory = v.memory
  proper : ∀ t, ∀ k ∈ v.todo t, (chunk t k).Proper effect lock
  within : ∀ u rest, v.turn = some (u, rest) →
    ∃ k body, chunk u k = .locked body ∧ (chunk u k).Proper effect lock ∧ rest <:+ body

inductive Move (effect : A → M → M) : View T R A M K → T → View T R A M K → Prop where
  | enter {v : View T R A M K} {t : T} {k : K} {rest : List K} {body : List (Instr R A)}
      (idle : v.turn = none) (next : v.todo t = k :: rest) (isSection : chunk t k = .locked body) :
      Move effect v t
        { todo := update v.todo t rest, turn := some (t, body)
          memory := perform effect (acts body) v.memory }
  | inside {v : View T R A M K} {t : T} {i : Instr R A} {rest : List (Instr R A)}
      (within : v.turn = some (t, i :: rest)) : Move effect v t { v with turn := some (t, rest) }
  | leave {v : View T R A M K} {t : T} (atEnd : v.turn = some (t, [])) :
      Move effect v t { v with turn := none }
  | pass {v : View T R A M K} {t : T} {k : K} {rest : List K} {i : Instr R A}
      (outside : v.inner lock t = []) (next : v.todo t = k :: rest)
      (isSingle : chunk t k = .single i) :
      Move effect v t { v with todo := update v.todo t rest }

variable {chunk lock} {effect : A → M → M} {s s' : State T R A M} {v v' : View T R A M K} {t : T}

omit [DecidableEq T] in
theorem flat_cons (t : T) (k : K) (items : List K) :
    flat chunk lock t (k :: items) = (chunk t k).code lock ++ flat chunk lock t items :=
  List.flatMap_cons

theorem inner_eq {rest : List (Instr R A)} (turn : v.turn = some (t, rest)) (u : T) :
    v.inner lock u = if t = u then rest ++ [.post lock] else [] := by
  unfold View.inner
  rw [turn]

theorem inner_none (idle : v.turn = none) (t : T) : v.inner lock t = [] := by
  unfold View.inner
  rw [idle]

omit [DecidableEq T] in
theorem finish_eq {rest : List (Instr R A)} (turn : v.turn = some (t, rest)) (m : M) :
    v.finish effect m = perform effect (acts rest) m := by
  unfold View.finish
  rw [turn]

omit [DecidableEq T] in
theorem finish_none (idle : v.turn = none) (m : M) : v.finish effect m = m := by
  unfold View.finish
  rw [idle]

theorem Tracks.start (todo : T → List K) (code : ∀ t, s.code t = flat chunk lock t (todo t))
    (one : s.sem lock = 1) (proper : ∀ t, ∀ k ∈ todo t, (chunk t k).Proper effect lock) :
    Tracks chunk lock effect s { todo := todo, turn := none, memory := s.memory } where
  code := code
  free := one
  memory := rfl
  proper := proper
  within := by
    intro u rest turn
    cases turn

variable [DecidableEq R]

omit [DecidableEq T] in
theorem holds_avoiding {r : R} {first second : List (Instr R A)}
    (avoids : ∀ i ∈ first, Avoids r i) :
    holds r (first ++ second) = holds r second := by
  induction first with
  | nil => rfl
  | cons i first ih =>
      obtain ⟨notWait, notPost⟩ := avoids i (by simp)
      have rest := ih fun j member => avoids j (by simp [member])
      cases i with
      | wait q =>
          have other : q ≠ r := fun same => notWait (by rw [same])
          simpa [other] using rest
      | post q =>
          have other : q ≠ r := fun same => notPost (by rw [same])
          simpa [other] using rest
      | act a => exact rest

theorem Tracks.step_inside {rest : List (Instr R A)} (tracks : Tracks chunk lock effect s v)
    (next : Step effect s t s') (turn : v.turn = some (t, rest)) :
    ∃ v', Tracks chunk lock effect s' v' ∧ Move chunk lock effect v t v' := by
  have code := tracks.code t
  rw [inner_eq turn, if_pos rfl] at code
  have others : ∀ u, u ≠ t → v.inner lock u = [] := by
    intro u other
    rw [inner_eq turn, if_neg (Ne.symm other)]
  have memory := tracks.memory
  rw [finish_eq turn] at memory
  have free := tracks.free
  rw [turn] at free
  cases rest with
  | nil =>
      obtain ⟨moved, same, _, _, posted⟩ := next.head code
      refine ⟨{ v with turn := none }, ⟨?_, ?_, ?_, tracks.proper, ?_⟩, .leave turn⟩
      · intro u
        rw [moved, inner_none rfl]
        by_cases own : u = t
        · subst own
          rw [update_self]
          rfl
        · rw [update_of_ne own, tracks.code u, others u own]
      · rw [posted lock rfl, free]
        rfl
      · rw [finish_none rfl, same]
        exact memory
      · intro u rest turn'
        cases turn'
  | cons i rest =>
      obtain ⟨k, body, kind, proper, suffix⟩ := tracks.within t (i :: rest) turn
      have avoids : Avoids lock i := by
        have all := proper
        rw [kind] at all
        exact all i (suffix.subset (by simp))
      obtain ⟨notWait, notPost⟩ := avoids
      obtain ⟨moved, same, kept, _, _⟩ := next.head code
      refine ⟨{ v with turn := some (t, rest) }, ⟨?_, ?_, ?_, tracks.proper, ?_⟩, .inside turn⟩
      · intro u
        rw [moved, inner_eq rfl]
        by_cases own : u = t
        · subst own
          rw [update_self, if_pos rfl]
          rfl
        · rw [update_of_ne own, if_neg (Ne.symm own), tracks.code u, others u own]
      · rw [kept lock notWait notPost, free]
        rfl
      · rw [finish_eq rfl, same, ← perform_append, ← acts_append]
        exact memory
      · intro u rest' turn'
        obtain ⟨rfl, rfl⟩ := Prod.mk.inj (Option.some.inj turn')
        exact ⟨k, body, kind, proper, (List.suffix_cons i rest).trans suffix⟩

theorem Tracks.step_outside (tracks : Tracks chunk lock effect s v) (next : Step effect s t s')
    (outside : v.inner lock t = []) :
    ∃ v', Tracks chunk lock effect s' v' ∧ Move chunk lock effect v t v' := by
  have code := tracks.code t
  rw [outside, List.nil_append] at code
  cases items : v.todo t with
  | nil =>
      obtain ⟨i, rest, here, _⟩ := next.code
      rw [here, items] at code
      cases code
  | cons k items' =>
      have proper := tracks.proper t
      rw [items] at code proper
      rw [flat_cons] at code
      have properRest : ∀ u, ∀ k ∈ update v.todo t items' u, (chunk u k).Proper effect lock := by
        intro u
        by_cases own : u = t
        · subst own
          rw [update_self]
          exact fun k member => proper k (by simp [member])
        · rw [update_of_ne own]
          exact tracks.proper u
      cases kind : chunk t k with
      | single i =>
          have own := proper k (by simp)
          rw [kind] at code own
          obtain ⟨⟨notWait, notPost⟩, quiet⟩ := own
          obtain ⟨moved, same, kept, _, _⟩ := next.head code
          have unchanged : s'.memory = s.memory := by
            rw [same]
            cases i with
            | act a => exact quiet a rfl _
            | _ => rfl
          refine ⟨{ v with todo := update v.todo t items' },
            ⟨?_, ?_, ?_, properRest, tracks.within⟩, .pass outside items kind⟩
          · intro u
            change s'.code u = v.inner lock u ++ flat chunk lock u (update v.todo t items' u)
            rw [moved]
            by_cases own : u = t
            · subst own
              rw [update_self, update_self, outside]
              rfl
            · rw [update_of_ne own, update_of_ne own]
              exact tracks.code u
          · rw [kept lock notWait notPost]
            exact tracks.free
          · rw [unchanged]
            exact tracks.memory
      | locked body =>
          have own := proper k (by simp)
          rw [kind] at code
          obtain ⟨moved, same, _, waited, _⟩ := next.head code
          obtain ⟨available, taken⟩ := waited lock rfl
          -- the lock was there, so no other thread is inside a section
          have idle : v.turn = none := by
            have free := tracks.free
            cases turn : v.turn with
            | none => rfl
            | some inside =>
                rw [turn] at free
                simp only [Option.isNone_some, Bool.false_eq_true, if_false] at free
                omega
          have free := tracks.free
          have memory := tracks.memory
          rw [idle] at free
          rw [finish_none idle] at memory
          refine ⟨_, ⟨?_, ?_, ?_, properRest, ?_⟩, .enter idle items kind⟩
          · intro u
            rw [moved, inner_eq rfl]
            change _ = _ ++ flat chunk lock u (update v.todo t items' u)
            by_cases own : u = t
            · subst own
              rw [update_self, update_self, if_pos rfl]
              rfl
            · rw [update_of_ne own, update_of_ne own, if_neg (Ne.symm own), tracks.code u,
                inner_none idle]
          · rw [taken, free]
            rfl
          · rw [finish_eq rfl, same, memory]
            rfl
          · intro u rest turn'
            obtain ⟨rfl, rfl⟩ := Prod.mk.inj (Option.some.inj turn')
            exact ⟨k, body, kind, own, List.suffix_rfl⟩

theorem Tracks.step (tracks : Tracks chunk lock effect s v) (next : Step effect s t s') :
    ∃ v', Tracks chunk lock effect s' v' ∧ Move chunk lock effect v t v' := by
  cases turn : v.turn with
  | none => exact tracks.step_outside next (inner_none turn t)
  | some inside =>
      obtain ⟨u, rest⟩ := inside
      by_cases own : u = t
      · subst own
        exact tracks.step_inside next turn
      · exact tracks.step_outside next (by rw [inner_eq turn, if_neg own])

/-- What holds of every view the moves lead to holds of a view of every reachable state. -/
theorem Tracks.reach {start : State T R A M} {first : View T R A M K}
    (tracks : Tracks chunk lock effect start first)
    (reached : Reach (· = start) (Step effect) s) :
    ∃ v, Tracks chunk lock effect s v ∧ Reach (· = first) (Move chunk lock effect) v := by
  induction reached with
  | init same =>
      obtain rfl := same
      exact ⟨first, tracks, .init rfl⟩
  | step _ next ih =>
      obtain ⟨v, before, moved⟩ := ih
      obtain ⟨v', after, move⟩ := before.step next
      exact ⟨v', after, moved.step move⟩

end View
end Csc457.Lib.AtomicSection
