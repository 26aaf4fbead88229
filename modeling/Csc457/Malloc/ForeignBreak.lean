import Csc457.Malloc.Gaps
import Csc457.Malloc.Runs

/-!
# Other users of the program break

Runs of malloc, calloc and free in a process in which other code calls sbrk
between the calls, and writes to what is not the library's.  `obtained` is the
memory that the library's own calls of sbrk gave it.

`Tolerates` says of a state when the next call does no harm: align_heap gets no
padding, the heap is extended from an aligned break past a last block that is in
use or ends there, and free merges adjacent blocks only.
-/

set_option autoImplicit false

namespace Csc457.Malloc

open Csc457.Lib.ByteMemory Csc457.Lib.Tiling Csc457.Lib.Transition

/-- The blocks of the list from `current`, as their headers have them. -/
def walk (m : Memory) : Nat → Nat → List Chunk
  | 0, _ => []
  | fuel + 1, current =>
      if current = 0 then []
      else ⟨current, (header m current).size, (header m current).free ≠ 0⟩ ::
        walk m fuel (header m current).next

def blocks (s : Heap) : List Chunk := walk s.mem walkLimit s.head

theorem walk_linked {m : Memory} {fuel p : Nat} {L : List Chunk} (linked : Linked m p L 0)
    (real : ∀ c ∈ L, c.addr ≠ 0) (enough : L.length < fuel) : walk m fuel (firstAddr 0 L) = L := by
  induction L generalizing fuel p with
  | nil =>
      cases fuel with
      | zero => simp at enough
      | succ fuel => simp [walk]
  | cons c L ih =>
      cases fuel with
      | zero => simp at enough
      | succ fuel =>
          obtain ⟨here, rest⟩ := linked
          have tail := ih rest (fun d member => real d (by simp [member])) (by simpa using enough)
          simp only [walk, firstAddr_cons, if_neg (real c (by simp)), here, tail, flag_ne_zero,
            Bool.decide_eq_true]

theorem HeapHeld.blocks_eq {s : Heap} {lo : Nat} {L : List Chunk} (held : HeapHeld s lo L) :
    blocks s = L := by
  rw [blocks, held.headed]
  exact walk_linked held.placed.linked (fun c member => held.placed.real member)
    held.placed.length_lt

inductive Event where
  | call (op : Op)
  /-- Other code moves the break. -/
  | sbrk (increment : Nat)
  /-- Other code writes a byte. -/
  | store (address value : Nat)
  deriving DecidableEq

structure Process where
  world : World
  /-- First addresses and ends of what the library obtained from sbrk. -/
  obtained : List (Nat × Nat)

def Process.Obtained (w : Process) (x : Nat) : Prop := ∃ r ∈ w.obtained, r.1 ≤ x ∧ x < r.2

instance (w : Process) (x : Nat) : Decidable (w.Obtained x) :=
  inferInstanceAs (Decidable (∃ r ∈ w.obtained, _))

/-- What the program may pass to the library, and where it may write. -/
def Passes (w : World) : Op → Prop
  | .malloc size => size < 2 ^ 64
  | .calloc nmemb size => nmemb < 2 ^ 64 ∧ size < 2 ^ 64
  | .realloc _ _ => False
  | .free ptr => ptr = 0 ∨ ∃ p ∈ w.live, Holds w.heap p ptr
  | .store address _ => ∃ p ∈ w.live, p ≤ address ∧ address < p + sizeAt w.heap p

instance (w : World) : (op : Op) → Decidable (Passes w op)
  | .malloc _ => inferInstanceAs (Decidable (_ < _))
  | .calloc _ _ => inferInstanceAs (Decidable (_ ∧ _))
  | .realloc _ _ => inferInstanceAs (Decidable False)
  | .free _ => inferInstanceAs (Decidable (_ ∨ ∃ p ∈ w.live, _))
  | .store _ _ => inferInstanceAs (Decidable (∃ p ∈ w.live, _))

def Allowed (w : Process) : Event → Prop
  | .call op => w.world.fault = none ∧ Passes w.world op
  | .sbrk increment => 0 < increment ∧ increment < 2 ^ 63
  | .store address _ => ¬ w.Obtained address

instance (w : Process) : (event : Event) → Decidable (Allowed w event)
  | .call _ => inferInstanceAs (Decidable (_ ∧ _))
  | .sbrk _ => inferInstanceAs (Decidable (_ ∧ _))
  | .store _ _ => inferInstanceAs (Decidable (¬ _))

/-- What a call moved the break over is the library's. -/
def happen (w : Process) : Event → Process
  | .call op =>
      let world := after w.world op
      ⟨world, (w.world.heap.brk, world.heap.brk) :: w.obtained⟩
  | .sbrk increment =>
      { w with world := { w.world with heap := (Malloc.sbrk w.world.heap increment).2 } }
  | .store address value =>
      { w with world := { w.world with
          heap := { w.world.heap with mem := store8 w.world.heap.mem address value } } }

def happens (w : Process) (event : Event) (w' : Process) : Prop :=
  Allowed w event ∧ w' = happen w event

/-- Before its first call of the library. -/
def Unstarted (w : Process) : Prop := Fresh w.world ∧ w.obtained = []

/-- The blocks lie in the memory obtained, aligned and apart, and the pointers the
program holds are the payloads of those in use. -/
structure Contained (w : Process) : Prop where
  running : w.world.fault = none
  obtained : ∀ x, Within blockSize (blocks w.world.heap) x → w.Obtained x
  bounded : ∀ c ∈ blocks w.world.heap, c.stop blockSize ≤ w.world.heap.brk
  aligned : ∀ c ∈ blocks w.world.heap, c.addr % alignment = 0
  apart : (blocks w.world.heap).Pairwise fun c d =>
    Apart c.addr (blockSize + c.size) d.addr (blockSize + d.size)
  pointers : ∀ p ∈ w.world.live, p % alignment = 0 ∧
    ∃ c ∈ blocks w.world.heap, c.free = false ∧ p = c.payload blockSize

/-- The event adds no byte to the blocks but such as it obtained: what it merged
was adjacent. -/
def MergesAdjacent (w : Process) (event : Event) : Prop :=
  ∀ x, Within blockSize (blocks (happen w event).world.heap) x →
    Within blockSize (blocks w.world.heap) x ∨ w.world.heap.brk ≤ x

instance (c : Chunk) (a : Nat) : Decidable (Owns c a) :=
  inferInstanceAs (Decidable (_ ∨ _ ∧ _))

/-- Free neighbours of the block that owns the address are adjacent to it. -/
def NeighboursTouch (L : List Chunk) (a : Nat) : Prop :=
  L.IsChain fun c d => (Owns c a ∧ d.free = true) ∨ (c.free = true ∧ Owns d a) →
    c.stop blockSize = d.addr

instance (L : List Chunk) (a : Nat) : Decidable (NeighboursTouch L a) :=
  inferInstanceAs (Decidable (L.IsChain _))

/-- The event does no harm in the state. -/
def Tolerates (w : Process) : Event → Prop
  | .call (.malloc size) => Tolerated (alignedSize size) w.world.heap (blocks w.world.heap)
  | .call (.calloc nmemb size) =>
      CallocTolerated nmemb size w.world.heap (blocks w.world.heap)
  | .call (.free ptr) => ptr = 0 ∨ NeighboursTouch (blocks w.world.heap) ptr
  | .call (.realloc _ _) | .call (.store _ _) | .sbrk _ | .store _ _ => True

instance (w : Process) : (event : Event) → Decidable (Tolerates w event)
  | .call (.malloc _) => inferInstanceAs (Decidable (Tolerated _ _ _))
  | .call (.calloc _ _) => inferInstanceAs (Decidable (CallocTolerated _ _ _ _))
  | .call (.free _) => inferInstanceAs (Decidable (_ ∨ NeighboursTouch _ _))
  | .call (.realloc _ _) => inferInstanceAs (Decidable True)
  | .call (.store _ _) => inferInstanceAs (Decidable True)
  | .sbrk _ => inferInstanceAs (Decidable True)
  | .store _ _ => inferInstanceAs (Decidable True)

/-! ## What every event keeps -/

/-- The blocks are held in the memory obtained, and the live pointers are the
payloads of those in use. -/
structure Keeps (w : Process) (lo : Nat) (L : List Chunk) : Prop where
  running : w.world.fault = none
  held : HeapHeld w.world.heap lo L
  live : w.world.live.Perm (used blockSize L)
  obtained : ∀ x, Within blockSize L x → w.Obtained x

section Keeps
variable {w : Process} {lo : Nat} {L : List Chunk}

theorem Unstarted.keeps (unstarted : Unstarted w) : Keeps w w.world.heap.brk [] := by
  obtain ⟨⟨headless, nothing, bounded, none, running⟩, _⟩ := unstarted
  refine ⟨running, (HeapOk.of_untouched ⟨headless, nothing, bounded⟩).held, ?_, ?_⟩
  · rw [none]
    rfl
  · intro x within
    exact absurd within within_nil

theorem Keeps.contained (keeps : Keeps w lo L) : Contained w := by
  have same := keeps.held.blocks_eq
  refine ⟨keeps.running, ?_, ?_, ?_, ?_, ?_⟩
  all_goals rw [same]
  · exact keeps.obtained
  · intro c member
    exact (keeps.held.placed.bounds member).2.2
  · intro c member
    exact (keeps.held.aligned c member).1
  · refine (spread_pairwise keeps.held.placed.spread).imp ?_
    intro c d before
    simp only [Chunk.stop] at before
    exact Or.inl (by omega)
  · intro p member
    obtain ⟨A, c, B, rfl, isBusy, rfl, _⟩ := keeps.held.owner keeps.live member
    have unit := (keeps.held.aligned c (by simp)).1
    refine ⟨?_, c, by simp, isBusy, rfl⟩
    have sixteen : alignment = 16 := rfl
    have wide : blockSize = 32 := rfl
    rw [sixteen] at unit ⊢
    simp only [Chunk.payload]
    omega

/-- A call that returned, and added nothing to the blocks but what it obtained. -/
theorem Keeps.called (keeps : Keeps w lo L) {op : Op} (world : World) {lo' : Nat}
    {L' : List Chunk} (run : perform w.world op = .ok world) (running : world.fault = none)
    (held : HeapHeld world.heap lo' L') (live : world.live.Perm (used blockSize L'))
    (fresh : ∀ x, Within blockSize L' x → Within blockSize L x ∨ w.world.heap.brk ≤ x) :
    Keeps (happen w (.call op)) lo' L' ∧ MergesAdjacent w (.call op) := by
  have isAfter : after w.world op = world := by rw [after, run]
  have happened : happen w (.call op) =
      ⟨world, (w.world.heap.brk, world.heap.brk) :: w.obtained⟩ := by rw [happen, isAfter]
  refine ⟨?_, ?_⟩
  · rw [happened]
    refine ⟨running, held, live, ?_⟩
    intro x within
    rcases fresh x within with old | above
    · obtain ⟨r, member, inside⟩ := keeps.obtained x old
      exact ⟨r, List.mem_cons_of_mem _ member, inside⟩
    · obtain ⟨c, member, _, below⟩ := within
      have bound : c.stop blockSize ≤ world.heap.brk := (held.placed.bounds member).2.2
      exact ⟨_, List.mem_cons_self, above, by simp only; omega⟩
  · intro x
    rw [happened, held.blocks_eq, keeps.held.blocks_eq]
    exact fresh x

theorem malloc_keeps {size : Nat} (keeps : Keeps w lo L)
    (tolerates : Tolerates w (.call (.malloc size))) :
    ∃ lo' L', Keeps (happen w (.call (.malloc size))) lo' L' ∧
      MergesAdjacent w (.call (.malloc size)) := by
  rw [Tolerates, keeps.held.blocks_eq] at tolerates
  obtain ⟨p, s', lo', L', run, held', served⟩ := malloc_held keeps.held tolerates
  refine ⟨lo', L', keeps.called { w.world with
    heap := s', live := gained p w.world.live } ?_ keeps.running held'
    (gained_answer served.answer keeps.live) served.fresh⟩
  rw [perform, run, ok_bind]
  rfl

theorem calloc_keeps {nmemb size : Nat} (keeps : Keeps w lo L)
    (tolerates : Tolerates w (.call (.calloc nmemb size))) :
    ∃ lo' L', Keeps (happen w (.call (.calloc nmemb size))) lo' L' ∧
      MergesAdjacent w (.call (.calloc nmemb size)) := by
  rw [Tolerates, keeps.held.blocks_eq] at tolerates
  obtain ⟨p, s', lo', L', run, held', served⟩ := calloc_held keeps.held tolerates
  refine ⟨lo', L', keeps.called { w.world with
    heap := s', live := gained p w.world.live } ?_ keeps.running held'
    (gained_answer served.answer keeps.live) served.fresh⟩
  rw [perform, run, ok_bind]
  rfl

theorem NeighboursTouch.touching {A B : List Chunk} {c : Chunk} {a : Nat}
    (touch : NeighboursTouch (A ++ c :: B) a) (owner : Owns c a) :
    Touching blockSize [{ c with free := true }] B ∧
      Touching blockSize A [{ c with free := true }] := by
  obtain ⟨_, right, seam⟩ := List.isChain_append.mp touch
  obtain ⟨next, _⟩ := List.isChain_cons.mp right
  constructor
  · intro x last r first _ rFree
    obtain rfl : { c with free := true } = x := by simpa using last
    exact next r first (.inl ⟨owner, rFree⟩)
  · intro x last r first xFree _
    obtain rfl : { c with free := true } = r := by simpa using first
    exact seam x last c rfl (.inr ⟨xFree, owner⟩)

theorem free_keeps {ptr : Nat} (keeps : Keeps w lo L) (passes : Passes w.world (.free ptr))
    (tolerates : Tolerates w (.call (.free ptr))) :
    ∃ lo' L', Keeps (happen w (.call (.free ptr))) lo' L' ∧
      MergesAdjacent w (.call (.free ptr)) := by
  rw [Tolerates, keeps.held.blocks_eq] at tolerates
  rcases keeps.held.released_cases keeps.live passes with
    ⟨rfl, same⟩ | ⟨A, c, B, rfl, isBusy, owner, gone⟩
  · refine ⟨lo, L, keeps.called w.world ?_ keeps.running keeps.held keeps.live
      fun x within => .inl within⟩
    rw [perform, free_null, ok_bind, same]
    rfl
  · obtain ⟨next, prev⟩ := (tolerates.resolve_left owner.real).touching owner
    obtain ⟨s', run, held', _, _⟩ := keeps.held.freed owner
    refine ⟨lo, _, keeps.called { w.world with
      heap := s', live := w.world.live.erase (c.payload blockSize) } ?_ keeps.running held' ?_ ?_⟩
    · rw [perform, run, ok_bind, gone]
      rfl
    · rw [used, busy_release]
      exact erase_live isBusy keeps.live
    · intro x within
      exact .inl ((within_release next prev).mp within)

theorem store_keeps {address value : Nat} (keeps : Keeps w lo L)
    (passes : Passes w.world (.store address value)) :
    ∃ lo' L', Keeps (happen w (.call (.store address value))) lo' L' ∧
      MergesAdjacent w (.call (.store address value)) := by
  obtain ⟨p, member, inside⟩ := passes
  obtain ⟨A, c, B, rfl, _, rfl, size⟩ := keeps.held.owner keeps.live member
  rw [size] at inside
  obtain ⟨held', _⟩ :=
    keeps.held.write (onlyPayload_store (m := w.world.heap.mem) (v := value) inside)
  exact ⟨lo, _, keeps.called _ rfl keeps.running held' keeps.live
    fun x within => .inl within⟩

theorem Keeps.elsewhere (keeps : Keeps w lo L) {event : Event}
    (running : (happen w event).world.fault = none)
    (held : HeapHeld (happen w event).world.heap lo L)
    (live : (happen w event).world.live = w.world.live)
    (obtained : (happen w event).obtained = w.obtained) :
    Keeps (happen w event) lo L ∧ MergesAdjacent w event := by
  refine ⟨⟨running, held, by rw [live]; exact keeps.live, ?_⟩, ?_⟩
  · intro x within
    rw [Process.Obtained, obtained]
    exact keeps.obtained x within
  · intro x within
    rw [held.blocks_eq] at within
    rw [keeps.held.blocks_eq]
    exact .inl within

theorem sbrk_keeps {increment : Nat} (keeps : Keeps w lo L) :
    Keeps (happen w (.sbrk increment)) lo L ∧ MergesAdjacent w (.sbrk increment) := by
  have held := keeps.held
  refine keeps.elsewhere keeps.running ?_ rfl rfl
  change HeapHeld (Malloc.sbrk w.world.heap increment).2 lo L
  rcases sbrk_cases w.world.heap increment with refused | ⟨granted, room⟩
  · rw [refused]
    exact held.congr rfl rfl rfl rfl
  · rw [granted]
    have wider := spread_mono held.placed.spread (le_refl lo)
      (Nat.le_add_right w.world.heap.brk increment)
    exact ⟨held.headed, ⟨held.placed.linked, wider, held.placed.positive, room⟩, held.aligned,
      held.accounted⟩

theorem foreign_store_keeps {address value : Nat} (keeps : Keeps w lo L)
    (foreign : ¬ w.Obtained address) :
    Keeps (happen w (.store address value)) lo L ∧ MergesAdjacent w (.store address value) := by
  have held := keeps.held
  refine keeps.elsewhere keeps.running ⟨held.headed, ⟨?_, held.placed.spread,
    held.placed.positive, held.placed.bounded⟩, held.aligned, held.accounted⟩ rfl rfl
  refine held.placed.linked.congr fun c member => header_congr ?_
  intro x low high
  apply storeBytes_outside
  have other : x ≠ address := by
    rintro rfl
    refine foreign (keeps.obtained x ⟨c, member, low, ?_⟩)
    simp only [Chunk.stop]
    omega
  omega

theorem event_keeps {event : Event} (keeps : Keeps w lo L) (allowed : Allowed w event)
    (tolerates : Tolerates w event) :
    ∃ lo' L', Keeps (happen w event) lo' L' ∧ MergesAdjacent w event := by
  cases event with
  | sbrk increment => exact ⟨lo, L, sbrk_keeps keeps⟩
  | store address value => exact ⟨lo, L, foreign_store_keeps keeps allowed⟩
  | call op =>
      cases op with
      | malloc size => exact malloc_keeps keeps tolerates
      | calloc nmemb size => exact calloc_keeps keeps tolerates
      | realloc ptr size => exact absurd allowed.2 id
      | free ptr => exact free_keeps keeps allowed.2 tolerates
      | store address value => exact store_keeps keeps allowed.2

end Keeps

/-! ## Runs -/

/-- In every run all of whose events are tolerated, the blocks stay in the memory the
library obtained, aligned and apart, and adjacent blocks only are merged. -/
theorem foreign_break_tolerated {w last : Process} {run : List (Process × Event)}
    (unstarted : Unstarted w) (exec : Exec happens w run last)
    (tolerated : AllSteps Tolerates run) :
    AllStates Contained run last ∧ AllSteps MergesAdjacent run := by
  have keep : ∀ w event w', (∃ lo L, Keeps w lo L) → Tolerates w event → happens w event w' →
      ∃ lo L, Keeps w' lo L := by
    rintro w event w' ⟨lo, L, keeps⟩ tolerates ⟨allowed, rfl⟩
    obtain ⟨lo', L', keeps', _⟩ := event_keeps keeps allowed tolerates
    exact ⟨lo', L', keeps'⟩
  obtain ⟨before, atLast⟩ := exec.guarded_invariant keep ⟨_, _, unstarted.keeps⟩ tolerated
  have contained : ∀ w, (∃ lo L, Keeps w lo L) → Contained w := by
    rintro w ⟨lo, L, keeps⟩
    exact keeps.contained
  refine ⟨⟨fun x member => contained x.1 (before x member), contained last atLast⟩, ?_⟩
  intro x member
  obtain ⟨lo, L, keeps⟩ := before x member
  obtain ⟨_, allowed, _⟩ := exec.is_step x member
  obtain ⟨_, _, _, merges⟩ := event_keeps keeps allowed (tolerated x member)
  exact merges

def emptyProcess : Process := ⟨emptyWorld, []⟩

theorem emptyProcess_unstarted : Unstarted emptyProcess := ⟨emptyWorld_fresh, rfl⟩

/-- A page of other code behind a block in use, and blocks around it. -/
def aroundPage : List Event :=
  [.call (.malloc 65504), .sbrk 4096, .store 70000 7, .call (.malloc 16), .call (.free 4128),
    .call (.calloc 2 8)]

theorem foreign_break_tolerated_aroundPage :
    AllStates Contained (played happen emptyProcess aroundPage)
        (aroundPage.foldl happen emptyProcess) ∧
      AllSteps MergesAdjacent (played happen emptyProcess aroundPage) := by
  have playable : Playable Allowed happen emptyProcess aroundPage := by decide +kernel
  have tolerated : ∀ x ∈ played happen emptyProcess aroundPage, Tolerates x.1 x.2 := by
    decide +kernel
  exact foreign_break_tolerated emptyProcess_unstarted
    (playable.exec fun _ _ allowed => ⟨allowed, rfl⟩) tolerated

/-- Other code takes eight bytes, and align_heap pads the break behind them. -/
def padBehind : List Event := [.call (.malloc 16), .sbrk 8, .call (.malloc 16)]

/-- The padding is added to the size of the last block, which then covers the bytes
of the other code. -/
theorem padding_takes_foreign :
    Unstarted emptyProcess ∧
      Exec happens emptyProcess (played happen emptyProcess padBehind)
        (padBehind.foldl happen emptyProcess) ∧
      ¬ Contained (padBehind.foldl happen emptyProcess) := by
  have playable : Playable Allowed happen emptyProcess padBehind := by decide +kernel
  refine ⟨emptyProcess_unstarted, playable.exec fun _ _ allowed => ⟨allowed, rfl⟩, ?_⟩
  intro contained
  have covered : Within blockSize (blocks (padBehind.foldl happen emptyProcess).world.heap)
      69632 := by decide +kernel
  have foreign : ¬ (padBehind.foldl happen emptyProcess).Obtained 69632 := by decide +kernel
  exact foreign (contained.obtained 69632 covered)

end Csc457.Malloc
