import Csc457.Dine.Table
import Mathlib.Data.List.OfFn
import Mathlib.Data.List.TakeWhile

/-!
# A printed line never contradicts itself

The flags of the display run behind the forks, but two flags for one fork are
never set together, and the state Eat is only shown between a philosopher's Eat
update and the update that puts the forks down.  A mark is the character
`'0' + fork`; from fork 208 on it can be NUL, where `%s` stops, or the `'-'` of
a fork that is not held.
-/

set_option autoImplicit false

namespace Csc457.Dine

open Function
open Csc457.Lib.LockOrder Csc457.Lib.Transition Csc457.Lib.AtomicSection

variable {N : Nat}

/-- What `%s` prints of the representation, up to the first NUL. -/
def Cell.text (c : Cell N) : List UInt8 :=
  (List.ofFn c.forkRepresentation).takeWhile fun mark => mark ≠ 0

/-- The text has a mark other than `'-'` in the place of the fork. -/
def Cell.Shows (c : Cell N) (f : Fin N) : Prop :=
  ∃ mark, c.text[(f : Nat)]? = some mark ∧ mark ≠ 45

/-- `'0' + fork`, as a char, is neither NUL nor `'-'`. -/
def Legible (f : Fin N) : Prop := UInt8.ofNat (48 + f) ≠ 0 ∧ UInt8.ofNat (48 + f) ≠ 45

/-- A line, or the beginning of one, does not contradict itself: no fork is in two
hands, a philosopher that eats has both forks, as far as they can be shown, and
no two neighbours eat. -/
structure Consistent (row : List (Cell N)) : Prop where
  one_hand : ∀ (i j : Nat) (c d : Cell N) (f : Fin N), row[i]? = some c → row[j]? = some d →
    c.Shows f → d.Shows f → i = j
  both_forks : ∀ (i : Fin N) (c : Cell N), row[(i : Nat)]? = some c →
    c.state = Status.text .eat →
    (c.Shows (forkOn i .left) ∧ c.Shows (forkOn i .right) ↔
      Legible (forkOn i .left) ∧ Legible (forkOn i .right))
  neighbours : ∀ (i : Fin N) (c d : Cell N), row[(i : Nat)]? = some c →
    row[(rightOf i : Nat)]? = some d →
    ¬ (c.state = Status.text .eat ∧ d.state = Status.text .eat)

theorem legible_of_small (small : N ≤ 208) (f : Fin N) : Legible f := by
  have bound := f.isLt
  refine ⟨fun same => ?_, fun same => ?_⟩
  all_goals
    have value := congrArg UInt8.toNat same
    rw [UInt8.toNat_ofNat', Nat.mod_eq_of_lt (by omega)] at value
    simp at value
  omega

theorem text_inj {state : Status} (same : state.text = Status.text .eat) : state = .eat := by
  cases state with
  | eat => rfl
  | change => exact absurd same (by decide)
  | think => exact absurd same (by decide)

section Text
variable {c : Cell N} {f g : Fin N}

theorem prefix_entry {α : Type} {l l' : List α} {k : Nat} {x : α} (begins : l <+: l')
    (entry : l[k]? = some x) : l'[k]? = some x := by
  obtain ⟨rest, rfl⟩ := begins
  obtain ⟨inside, _⟩ := List.getElem?_eq_some_iff.mp entry
  rw [List.getElem?_append_left inside]
  exact entry

theorem Cell.Shows.visible (shown : c.Shows f) :
    c.forkRepresentation f ≠ 0 ∧ c.forkRepresentation f ≠ 45 := by
  obtain ⟨mark, entry, visible⟩ := shown
  have notNul : mark ≠ 0 := by
    simpa using List.mem_takeWhile_imp (List.mem_of_getElem? entry)
  have byte : c.forkRepresentation f = mark := by
    simpa using prefix_entry (List.takeWhile_prefix _) entry
  rw [byte]
  exact ⟨notNul, visible⟩

theorem shows_of_no_nul (noNul : ∀ g, c.forkRepresentation g ≠ 0)
    (visible : c.forkRepresentation f ≠ 45) : c.Shows f := by
  have whole : c.text = List.ofFn c.forkRepresentation := by
    rw [Cell.text, List.takeWhile_eq_self_iff]
    intro mark member
    obtain ⟨g, rfl⟩ := (List.mem_ofFn' _ _).mp member
    simpa using noNul g
  exact ⟨c.forkRepresentation f, by simp [whole], visible⟩

end Text

/-- No fork is flagged twice, both flags go with Eat, and the representation is
the one of the flags. -/
structure Fair (p : Fin N → Philosopher N) : Prop where
  apart : ∀ i, ¬ ((p i).rightFork ≠ 0 ∧ (p (rightOf i)).leftFork ≠ 0)
  eat : ∀ i, (p i).state = .eat → (p i).leftFork = 1 ∧ (p i).rightFork = 1
  drawn : ∀ i f, (p i).forkRepresentation f =
    if f = rightOf i then forkChar (p i).rightFork f
    else if f = i then forkChar (p i).leftFork f
    else 45

def cells (p : Fin N → Philosopher N) : List (Cell N) := (List.finRange N).map fun i => cellOf (p i)

section Fair
variable {p : Fin N → Philosopher N} {row : List (Cell N)} {c : Cell N} {k : Nat} {i f : Fin N}

theorem cell_eq (begins : row <+: cells p) (entry : row[k]? = some c) :
    ∃ i : Fin N, (i : Nat) = k ∧ c = cellOf (p i) := by
  obtain ⟨inside, cell⟩ := List.getElem?_eq_some_iff.mp (prefix_entry begins entry)
  have bound : k < N := by simpa [cells] using inside
  refine ⟨⟨k, bound⟩, rfl, ?_⟩
  rw [← cell]
  simp [cells]

theorem cell_at (begins : row <+: cells p) (entry : row[(i : Nat)]? = some c) :
    c = cellOf (p i) := by
  obtain ⟨j, same, cell⟩ := cell_eq begins entry
  rw [cell, Fin.ext same]

theorem Fair.shows_flag (fair : Fair p) (shown : (cellOf (p i)).Shows f) :
    (f = i ∧ (p i).leftFork ≠ 0) ∨ (f = rightOf i ∧ (p i).rightFork ≠ 0) := by
  have visible : (p i).forkRepresentation f ≠ 45 := shown.visible.2
  rw [fair.drawn] at visible
  unfold forkChar at visible
  split_ifs at visible with right flag left flag
  · exact .inr ⟨right, flag⟩
  · exact absurd rfl visible
  · exact .inl ⟨left, flag⟩
  · exact absurd rfl visible
  · exact absurd rfl visible

theorem Fair.eat_marks (two_le : 2 ≤ N) (fair : Fair p) (eats : (p i).state = .eat) :
    ∀ side, (p i).forkRepresentation (forkOn i side) = UInt8.ofNat (48 + forkOn i side) := by
  obtain ⟨left, right⟩ := fair.eat i eats
  have apart := rightOf_ne two_le i
  intro side
  rw [fair.drawn]
  cases side <;> simp [forkOn, forkChar, left, right, apart.symm]

theorem Fair.eat_shows (two_le : 2 ≤ N) (fair : Fair p) (eats : (p i).state = .eat) :
    (cellOf (p i)).Shows (forkOn i .left) ∧ (cellOf (p i)).Shows (forkOn i .right) ↔
      Legible (forkOn i .left) ∧ Legible (forkOn i .right) := by
  have marks := fair.eat_marks two_le eats
  constructor
  · rintro ⟨left, right⟩
    have legible : ∀ side, (cellOf (p i)).Shows (forkOn i side) → Legible (forkOn i side) := by
      intro side shown
      unfold Legible
      rw [← marks side]
      exact shown.visible
    exact ⟨legible .left left, legible .right right⟩
  · rintro ⟨left, right⟩
    have noNul : ∀ g, (p i).forkRepresentation g ≠ 0 := by
      intro g
      by_cases isLeft : g = forkOn i .left
      · rw [isLeft, marks]
        exact left.1
      · by_cases isRight : g = forkOn i .right
        · rw [isRight, marks]
          exact right.1
        · have neither : (p i).forkRepresentation g = 45 := by
            exact (fair.drawn i g).trans ((if_neg isRight).trans (if_neg isLeft))
          rw [neither]
          decide
    refine ⟨shows_of_no_nul noNul ?_, shows_of_no_nul noNul ?_⟩
    · change (p i).forkRepresentation _ ≠ 45
      rw [marks]
      exact left.2
    · change (p i).forkRepresentation _ ≠ 45
      rw [marks]
      exact right.2

theorem Fair.consistent (two_le : 2 ≤ N) (fair : Fair p) (begins : row <+: cells p) :
    Consistent row where
  one_hand := by
    intro k l c d f first second inFirst inSecond
    obtain ⟨i, rfl, rfl⟩ := cell_eq begins first
    obtain ⟨j, rfl, rfl⟩ := cell_eq begins second
    rcases fair.shows_flag inFirst with ⟨rfl, left⟩ | ⟨rfl, right⟩ <;>
      rcases fair.shows_flag inSecond with ⟨same, left'⟩ | ⟨same, right'⟩
    · rw [same]
    · exact absurd ⟨right', same ▸ left⟩ (fair.apart j)
    · exact absurd ⟨right, same ▸ left'⟩ (fair.apart i)
    · have neighbour : leftOf (rightOf i) = leftOf (rightOf j) := by rw [same]
      rw [leftOf_rightOf, leftOf_rightOf] at neighbour
      rw [neighbour]
  both_forks := by
    intro i c entry eats
    obtain rfl := cell_at begins entry
    exact fair.eat_shows two_le (text_inj eats)
  neighbours := by
    rintro i c d first second ⟨eats, eats'⟩
    obtain rfl := cell_at begins first
    obtain rfl := cell_at begins second
    have right := (fair.eat i (text_inj eats)).2
    have left := (fair.eat (rightOf i) (text_inj eats')).1
    exact fair.apart i ⟨by simp [right], by simp [left]⟩

end Fair

theorem redraw_representation (i f : Fin N) (q : Philosopher N) :
    (redraw i q).forkRepresentation f =
      if f = rightOf i then forkChar q.rightFork f
      else if f = i then forkChar q.leftFork f
      else q.forkRepresentation f := by
  simp only [redraw, updateForkRepresentation, update_apply, forkOn, Philosopher.flag]
  split_ifs with right left
  · rw [right]
  · rw [left]
  · rfl

theorem Fair.update (two_le : 2 ≤ N) {p : Fin N → Philosopher N} (fair : Fair p) {t : Fin N}
    {state : Status} {leftFork rightFork : Int} (isLeft : leftFork = 0 ∨ leftFork = 1)
    (isRight : rightFork = 0 ∨ rightFork = 1)
    (both : state = .eat → leftFork = 1 ∧ rightFork = 1) :
    Fair fun i => redraw i (afterUpdate t state leftFork rightFork p i) where
  apart := by
    rintro i ⟨right, left⟩
    simp only [redraw_right, redraw_left, afterUpdate_right, afterUpdate_left] at right left
    by_cases own : i = t
    · -- its own right flag, and the left one of its neighbour
      subst own
      rw [if_pos rfl] at right
      rw [if_neg (rightOf_ne two_le i), if_pos ⟨isRight.resolve_left right, rfl⟩] at left
      exact left rfl
    · rw [if_neg own] at right
      by_cases neighbour : rightOf i = t
      · have back : i = leftOf t := by rw [← neighbour, leftOf_rightOf]
        rw [if_pos neighbour] at left
        rw [if_pos ⟨isLeft.resolve_left left, back⟩] at right
        exact right rfl
      · rw [if_neg neighbour] at left
        split_ifs at right left
        · exact right rfl
        · exact right rfl
        · exact left rfl
        · exact fair.apart i ⟨right, left⟩
  eat := by
    intro i eats
    simp only [redraw_state, redraw_left, redraw_right, afterUpdate_state, afterUpdate_left,
      afterUpdate_right] at eats ⊢
    by_cases own : i = t
    · rw [if_pos own] at eats
      rw [if_pos own, if_pos own]
      exact both eats
    · rw [if_neg own] at eats
      rw [if_neg own, if_neg own]
      split_ifs at eats with right left
      rw [if_neg right, if_neg left]
      exact fair.eat i eats
  drawn := by
    intro i f
    rw [redraw_representation, afterUpdate_representation, fair.drawn]
    simp only [redraw_right, redraw_left]
    split_ifs <;> rfl

/-! ## The invariant of the display -/

structure Displayed (v : Table N) : Prop where
  scripted : ∀ i, Scripted i (v.todo i)
  line : v.memory.line = []
  latest : ∀ line older, v.memory.printed = line :: older → line = cells v.memory.philosophers
  printed : ∀ line ∈ v.memory.printed, line.length = N ∧ Consistent line
  fair : Fair v.memory.philosophers
  eating : ∀ i, (v.memory.philosophers i).state = .eat → Feasting i (v.todo i)

theorem open_displayed (N : Nat) (cycles : Int) : Displayed (openTable N cycles) where
  scripted := fun i => scripted_again _
  line := rfl
  latest := by
    intro line older some_line
    cases some_line
  printed := by
    intro line member
    cases member
  fair := by
    refine ⟨fun i flags => flags.1 rfl, ?_, ?_⟩
    · intro i eats
      cases eats
    · intro i f
      change (45 : UInt8) =
        if f = rightOf i then forkChar 0 f else if f = i then forkChar 0 f else 45
      simp [forkChar]
  eating := by
    intro i eats
    cases eats

section Move
variable {v v' : Table N} {t : Fin N}

theorem chunk_locked {task : Task} {body : Code N} (kind : chunk t task = .locked body) :
    ∃ state leftFork rightFork, task = .update state leftFork rightFork ∧
      body = (updateActs t state leftFork rightFork).map .act ++ printStatus N := by
  cases task with
  | update state leftFork rightFork => exact ⟨_, _, _, rfl, (Chunk.locked.inj kind).symm⟩
  | wait side | post side | dawdle => cases kind

theorem scripted_rest {todo : Fin N → List Task} (scripted : ∀ i, Scripted i (todo i))
    {task : Task} {rest : List Task} (next : todo t = task :: rest) (i : Fin N) :
    Scripted i (update todo t rest i) := by
  by_cases own : i = t
  · subst own
    have whole := scripted i
    rw [next] at whole
    rw [update_self]
    exact whole.2
  · rw [update_of_ne own]
    exact scripted i

theorem Displayed.enter (two_le : 2 ≤ N) (displayed : Displayed v) {state : Status}
    {leftFork rightFork : Int} {rest : List Task}
    (next : v.todo t = .update state leftFork rightFork :: rest)
    (todo : v'.todo = update v.todo t rest)
    (memory : v'.memory =
      perform effect (updateActs t state leftFork rightFork ++ printActs N) v.memory) :
    Displayed v' := by
  have here := displayed.scripted t
  rw [next] at here
  obtain ⟨⟨isLeft, isRight, _, _, both, feast⟩, _⟩ := here
  rw [perform_update, displayed.line, List.nil_append] at memory
  have fair := displayed.fair.update two_le (t := t) isLeft isRight both
  have shown : lineOf (afterUpdate t state leftFork rightFork v.memory.philosophers) =
      cells v'.memory.philosophers := by
    rw [memory]
    rfl
  have philosophers : v'.memory.philosophers = fun j =>
      redraw j (afterUpdate t state leftFork rightFork v.memory.philosophers j) := by
    rw [memory]
  rw [shown] at memory
  have fair' : Fair v'.memory.philosophers := philosophers ▸ fair
  refine ⟨?_, ?_, ?_, ?_, fair', ?_⟩
  · rw [todo]
    exact scripted_rest displayed.scripted next
  · rw [memory]
  · intro line older latest
    rw [memory] at latest
    exact (List.cons.inj latest).1.symm
  · intro line member
    rw [memory] at member
    rcases List.mem_cons.mp member with rfl | member
    · exact ⟨by simp [cells], fair'.consistent two_le List.prefix_rfl⟩
    · exact displayed.printed line member
  · intro i eats
    rw [philosophers, redraw_state, afterUpdate_state] at eats
    rw [todo]
    by_cases own : i = t
    · subst own
      rw [if_pos rfl] at eats
      rw [update_self]
      exact feast.mp eats
    · rw [if_neg own] at eats
      split_ifs at eats
      rw [update_of_ne own]
      exact displayed.eating i eats

theorem Displayed.pass (displayed : Displayed v) {task : Task} {rest : List Task}
    {instr : Instr (Lock N) (Act N)} (next : v.todo t = task :: rest)
    (kind : chunk t task = .single instr) (todo : v'.todo = update v.todo t rest)
    (memory : v'.memory = v.memory) : Displayed v' := by
  refine ⟨?_, memory ▸ displayed.line, ?_, ?_, memory ▸ displayed.fair, ?_⟩
  · rw [todo]
    exact scripted_rest displayed.scripted next
  · rw [memory]
    exact displayed.latest
  · rw [memory]
    exact displayed.printed
  · intro i eats
    rw [memory] at eats
    have feasting := displayed.eating i eats
    rw [todo]
    by_cases own : i = t
    · subst own
      rw [next] at feasting
      rw [update_self]
      cases task with
      | update state leftFork rightFork => cases kind
      | wait side => exact absurd feasting feasting_wait
      | post side => exact absurd feasting feasting_post
      | dawdle =>
          obtain ⟨left, down⟩ := feasting_dawdle.mp feasting
          exact ⟨left, .inr down⟩
    · rw [update_of_ne own]
      exact feasting

theorem Displayed.move (two_le : 2 ≤ N) (displayed : Displayed v)
    (move : Move chunk .updatePhilLock effect v t v') : Displayed v' := by
  cases move with
  | enter idle next kind =>
      obtain ⟨state, leftFork, rightFork, rfl, rfl⟩ := chunk_locked kind
      exact displayed.enter two_le next rfl (by rw [acts_update])
  | inside within =>
      exact ⟨displayed.scripted, displayed.line, displayed.latest, displayed.printed,
        displayed.fair, displayed.eating⟩
  | leave atEnd =>
      exact ⟨displayed.scripted, displayed.line, displayed.latest, displayed.printed,
        displayed.fair, displayed.eating⟩
  | pass outside next kind => exact displayed.pass next kind rfl rfl

end Move

theorem printed_grows (as : List (Act N)) (m : Memory N) :
    ∀ line ∈ m.printed, line ∈ (perform effect as m).printed := by
  induction as generalizing m with
  | nil => exact fun _ member => member
  | cons a as ih =>
      intro line member
      refine ih (effect a m) line ?_
      cases a with
      | newline => exact List.mem_cons_of_mem _ member
      | _ => exact member

theorem line_grows (as : List (Act N)) (unended : .newline ∉ as) (m : Memory N) :
    m.line <+: (perform effect as m).line := by
  induction as generalizing m with
  | nil => exact List.prefix_rfl
  | cons a as ih =>
      have rest := ih (fun member => unended (by simp [member])) (effect a m)
      cases a with
      | newline => exact absurd (by simp) unended
      | printf i => exact (List.prefix_append _ _).trans rest
      | _ => exact rest

theorem update_unended (t : Fin N) (state : Status) (leftFork rightFork : Int) :
    .newline ∉ updateActs t state leftFork rightFork ++ drawActs N := by
  unfold updateActs drawActs
  split_ifs <;> simp

section Progress
variable {s : System N} {v : Table N}

theorem acts_left {u : Fin N} {rest body : Code N} {task : Task}
    (kind : chunk u task = .locked body) (suffix : rest <:+ body) :
    acts rest = [] ∨ ∃ front, acts rest = front ++ [.newline] ∧ .newline ∉ front := by
  obtain ⟨state, leftFork, rightFork, rfl, rfl⟩ := chunk_locked kind
  obtain ⟨done, whole⟩ := suffix
  have split : acts done ++ acts rest =
      (updateActs u state leftFork rightFork ++ drawActs N) ++ [.newline] := by
    rw [← acts_append, whole, acts_update, printActs_eq, List.append_assoc]
  rcases List.eq_nil_or_concat' (acts rest) with none_left | ⟨front, a, some_left⟩
  · exact .inl none_left
  · rw [some_left, ← List.append_assoc] at split
    obtain ⟨before, last⟩ := List.append_inj' split rfl
    obtain rfl := List.head_eq_of_cons_eq last
    refine .inr ⟨front, some_left, fun member => ?_⟩
    apply update_unended u state leftFork rightFork
    rw [← before]
    exact List.mem_append_right _ member

/-- The line in progress is the beginning of the one the update will have printed. -/
theorem line_in_progress (tracks : Tracks chunk .updatePhilLock effect s v)
    (displayed : Displayed v) : s.memory.line <+: cells v.memory.philosophers := by
  have memory := tracks.memory
  cases turn : v.turn with
  | none =>
      rw [finish_none turn] at memory
      rw [memory, displayed.line]
      exact List.nil_prefix
  | some inside =>
      obtain ⟨u, rest⟩ := inside
      rw [finish_eq turn] at memory
      obtain ⟨task, body, kind, _, suffix⟩ := tracks.within u rest turn
      rcases acts_left kind suffix with done | ⟨front, left, unended⟩
      · rw [done, perform_nil] at memory
        rw [memory, displayed.line]
        exact List.nil_prefix
      · rw [left, perform_append] at memory
        have latest := displayed.latest (perform effect front s.memory).line
          (perform effect front s.memory).printed (by rw [← memory]; rfl)
        rw [← latest]
        exact line_grows front unended s.memory

theorem printed_tracked (tracks : Tracks chunk .updatePhilLock effect s v) :
    ∀ line ∈ s.memory.printed, line ∈ v.memory.printed := by
  intro line member
  rw [← tracks.memory]
  unfold View.finish
  split
  · exact member
  · exact printed_grows _ _ line member

theorem inner_avoids (tracks : Tracks chunk .updatePhilLock effect s v) (t f : Fin N) :
    ∀ instr ∈ v.inner .updatePhilLock t, Avoids (.fork f) instr := by
  intro instr member
  unfold View.inner at member
  split at member
  · cases member
  · next u rest turn =>
      split_ifs at member
      · obtain ⟨task, body, kind, _, suffix⟩ := tracks.within u rest turn
        obtain ⟨state, leftFork, rightFork, rfl, rfl⟩ := chunk_locked kind
        rcases List.mem_append.mp member with inBody | last
        · have inside := suffix.subset inBody
          simp only [printStatus, List.mem_append, List.mem_map, List.mem_cons, List.not_mem_nil,
            or_false] at inside
          obtain ⟨a, _, rfl⟩ | rfl | ⟨a, _, rfl⟩ | rfl := inside <;> simp [Avoids]
        · simp at last
          simp [Avoids, last]
      · cases member

theorem Feasting.holds (two_le : 2 ≤ N) (tracks : Tracks chunk .updatePhilLock effect s v)
    {i : Fin N} (feasting : Feasting i (v.todo i)) (side : Side) :
    holds (.fork (forkOn i side)) (s.code i) = true := by
  rw [tracks.code i, holds_avoiding (inner_avoids tracks i _), holds_codeOf two_le]
  exact feasting.keeps side

theorem reached_displayed (two_le : 2 ≤ N) {cycles : Int}
    (reached : Reach (· = start N cycles) (Step effect) s) :
    ∃ v, Tracks chunk .updatePhilLock effect s v ∧ Displayed v := by
  obtain ⟨v, tracks, moved⟩ := (start_tracks N cycles).reach reached
  refine ⟨v, tracks, moved.invariant ?_ fun v t v' before move => before.move two_le move⟩
  rintro v rfl
  exact open_displayed N cycles

end Progress

theorem display_consistent (two_le : 2 ≤ N) (cycles : Int) (s : System N)
    (reached : Reach (· = start N cycles) (Step effect) s) :
    (∀ line ∈ s.memory.printed, line.length = N ∧ Consistent line) ∧
    Consistent s.memory.line ∧
    ∀ (i : Fin N) (c : Cell N), s.memory.line[(i : Nat)]? = some c → c.state = Status.text .eat →
      Holding cycles s i (forkOn i .left) ∧ Holding cycles s i (forkOn i .right) := by
  obtain ⟨v, tracks, displayed⟩ := reached_displayed two_le reached
  have begins := line_in_progress tracks displayed
  refine ⟨?_, displayed.fair.consistent two_le begins, ?_⟩
  · intro line member
    exact displayed.printed line (printed_tracked tracks line member)
  · intro i c entry eats
    obtain rfl := cell_at begins entry
    have feasting := displayed.eating i (text_inj eats)
    have held := holding_iff two_le reached i
    exact ⟨(held _).mpr (feasting.holds two_le tracks .left),
      (held _).mpr (feasting.holds two_le tracks .right)⟩

theorem display_consistent_firstMeal :
    ∃ s : System 5, Reach (· = start 5 1) (Step effect) s ∧ Eating s 0 ∧
      ∀ line ∈ s.memory.printed, line.length = 5 ∧ Consistent line := by
  obtain ⟨run, s, exec, _, code, _⟩ := eats_alone (by decide) ⟨rfl, rfl⟩ (fun _ => rfl)
    (start_code (N := 5) 1 (by decide) 0)
  have reached : Reach (· = start 5 1) (Step effect) s := Reach.exec (.init rfl) exec
  refine ⟨s, reached, ⟨0, .inl ?_⟩, (display_consistent (by decide) 1 s reached).1⟩
  rw [code, update_self]
  rfl

/-- Every philosopher can get to a first meal, which the line shows with its left mark. -/
theorem first_meal (two_le : 2 ≤ N) (i : Fin N) :
    ∃ (s : System N) (row : List (Cell N)) (c : Cell N),
      Reach (· = start N 1) (Step effect) s ∧ row ∈ s.memory.printed ∧
      row[(i : Nat)]? = some c ∧ c.state = Status.text .eat ∧
      c.forkRepresentation i = UInt8.ofNat (48 + i) := by
  obtain ⟨run, s, exec, _, _, memory, _⟩ := eats_alone two_le ⟨rfl, rfl⟩ (fun _ => rfl)
    (start_code 1 (by decide) i)
  have reached : Reach (· = start N 1) (Step effect) s := Reach.exec (.init rfl) exec
  rw [acts_append, acts_updatePhilosopher, perform_append, perform_update, pickUp_line] at memory
  generalize perform effect (acts (pickUp i)) (start N 1).memory = before at memory
  let p := afterUpdate i .eat 1 1 before.philosophers
  refine ⟨s, lineOf p, cellOf (redraw i (p i)), reached, ?_, ?_, ?_, ?_⟩
  · rw [memory]
    exact List.mem_cons_self
  · simp [lineOf]
  · change (p i).state.text = _
    rw [show (p i).state = .eat from (afterUpdate_state ..).trans (if_pos rfl)]
  · change (redraw i (p i)).forkRepresentation i = _
    rw [redraw_representation, if_neg (rightOf_ne two_le i).symm, if_pos rfl,
      show (p i).leftFork = 1 from (afterUpdate_left ..).trans (if_pos rfl)]
    rfl

/-- With 209 philosophers the mark of fork 208 is the NUL that ends the text. -/
theorem display_hides_fork :
    ∃ (s : System 209) (row : List (Cell 209)) (c : Cell 209),
      Reach (· = start 209 1) (Step effect) s ∧ row ∈ s.memory.printed ∧
      row[208]? = some c ∧ c.state = Status.text .eat ∧ ¬ c.Shows (forkOn 208 .left) := by
  obtain ⟨s, row, c, reached, member, entry, eats, mark⟩ :=
    first_meal (N := 209) (by decide) ⟨208, by decide⟩
  refine ⟨s, row, c, reached, member, entry, eats, fun shown => ?_⟩
  exact shown.visible.1 mark

end Csc457.Dine
