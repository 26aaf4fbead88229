import Csc457.Lib.Transition
import Csc457.Malloc.Realloc

/-!
# Runs of the allocator

A program that calls the library with valid arguments and writes into the
memory it was given, in any order and for any number of calls.  `live` is what
the program holds: the pointers it was answered and has not released.

The invariant is `Sound`: the heap is well formed and the live pointers are the
payloads of its blocks in use.  Every call keeps it, but for a realloc that
grows its block backward.
-/

set_option autoImplicit false

namespace Csc457.Malloc

open Csc457.Lib.ByteMemory Csc457.Lib.Tiling Csc457.Lib.Transition

inductive Op where
  | malloc (size : Nat)
  | calloc (nmemb size : Nat)
  | realloc (ptr size : Nat)
  | free (ptr : Nat)
  /-- The program writes a byte. -/
  | store (address value : Nat)
  deriving DecidableEq, Repr

structure World where
  heap : Heap
  live : List Nat
  /-- Set by the call that did not return. -/
  fault : Option Fault

def sizeAt (s : Heap) (p : Nat) : Nat := (header s.mem (p - blockSize)).size

/-- The address is the pointer, or lies in its payload. -/
def Holds (s : Heap) (p a : Nat) : Prop := a = p ∨ p ≤ a ∧ a < p + sizeAt s p

instance (s : Heap) (p a : Nat) : Decidable (Holds s p a) :=
  inferInstanceAs (Decidable (_ ∨ _ ∧ _))

instance (nmemb size : Nat) : Decidable (CallocRequest nmemb size) :=
  inferInstanceAs (Decidable (_ ∧ _ ∧ (_ ∨ _)))

def Valid (w : World) : Op → Prop
  | .malloc size => size ≤ maxRequest
  | .calloc nmemb size => CallocRequest nmemb size
  | .realloc ptr size => (ptr = 0 ∨ ptr ∈ w.live) ∧ size ≤ maxRequest
  | .free ptr => ptr = 0 ∨ ∃ p ∈ w.live, Holds w.heap p ptr
  | .store address _ => ∃ p ∈ w.live, p ≤ address ∧ address < p + sizeAt w.heap p

instance (w : World) : (op : Op) → Decidable (Valid w op)
  | .malloc _ => inferInstanceAs (Decidable (_ ≤ _))
  | .calloc nmemb size => inferInstanceAs (Decidable (CallocRequest nmemb size))
  | .realloc _ _ => inferInstanceAs (Decidable ((_ ∨ _) ∧ _))
  | .free _ => inferInstanceAs (Decidable (_ ∨ ∃ p ∈ w.live, _))
  | .store _ _ => inferInstanceAs (Decidable (∃ p ∈ w.live, _))

/-- An answer joins the live pointers, unless it is NULL. -/
def gained (p : Nat) (live : List Nat) : List Nat := if p = 0 then live else p :: live

/-- The live pointer an argument of free belongs to is gone. -/
def released (s : Heap) (ptr : Nat) (live : List Nat) : List Nat :=
  match live.find? fun p => decide (Holds s p ptr) with
  | some p => live.erase p
  | none => live

def perform (w : World) : Op → Except Fault World
  | .malloc size => do
      let (p, heap) ← malloc w.heap size
      return { w with heap := heap, live := gained p w.live }
  | .calloc nmemb size => do
      let (p, heap) ← calloc w.heap nmemb size
      return { w with heap := heap, live := gained p w.live }
  | .realloc ptr size => do
      let (q, heap) ← realloc w.heap ptr size
      -- a request that was refused leaves the old pointer live
      return { w with
        heap := heap
        live := if q = 0 ∧ size ≠ 0 then w.live else gained q (w.live.erase ptr) }
  | .free ptr => do
      let heap ← free w.heap ptr
      return { w with heap := heap, live := released w.heap ptr w.live }
  | .store address value =>
      return { w with heap := { w.heap with mem := store8 w.heap.mem address value } }

/-- The world after a call: a call that does not return is recorded, and is the last. -/
def after (w : World) (op : Op) : World :=
  match perform w op with
  | .ok w' => w'
  | .error fault => { w with fault := some fault }

/-- The program goes on and passes valid arguments. -/
def Calls (w : World) (op : Op) : Prop := w.fault = none ∧ Valid w op

instance (w : World) (op : Op) : Decidable (Calls w op) :=
  inferInstanceAs (Decidable (_ ∧ _))

def step (w : World) (op : Op) (w' : World) : Prop := Calls w op ∧ w' = after w op

/-- A program that has not called the library yet, wherever the break is. -/
def Fresh (w : World) : Prop :=
  w.heap.head = 0 ∧ w.heap.requested = 0 ∧ w.heap.brk < 2 ^ 64 ∧ w.live = [] ∧ w.fault = none

/-- No call has failed to return, the heap is well formed, and the live
pointers are the payloads of the blocks in use. -/
structure Sound (w : World) (lo : Nat) (L : List Chunk) : Prop where
  running : w.fault = none
  heap : HeapOk w.heap lo L
  live : w.live.Perm (used blockSize L)

/-- What the program may rely on: its pointers are different, each into a block
marked as in use, and no two payloads overlap. -/
structure Exclusive (w : World) : Prop where
  nodup : w.live.Nodup
  inUse : ∀ p ∈ w.live, (header w.heap.mem (p - blockSize)).free = 0
  apart : ∀ p ∈ w.live, ∀ q ∈ w.live, p ≠ q → Apart p (sizeAt w.heap p) q (sizeAt w.heap q)

theorem HeapHeld.sizeAt_eq {s : Heap} {lo : Nat} {L : List Chunk} (held : HeapHeld s lo L)
    {d : Chunk} (member : d ∈ L) : sizeAt s (d.payload blockSize) = d.size := by
  obtain ⟨A, B, rfl⟩ := List.append_of_mem member
  have start : d.payload blockSize - blockSize = d.addr := Nat.add_sub_cancel _ _
  rw [sizeAt, start, held.placed.linked.header]

/-- A live pointer is the payload of a block in use, whose size is in its header. -/
theorem HeapHeld.owner {s : Heap} {lo p : Nat} {L : List Chunk} {live : List Nat}
    (held : HeapHeld s lo L) (perm : live.Perm (used blockSize L)) (member : p ∈ live) :
    ∃ A c B, L = A ++ c :: B ∧ c.free = false ∧ p = c.payload blockSize ∧
      sizeAt s p = c.size := by
  obtain ⟨c, inUse, rfl⟩ := List.mem_map.mp (perm.subset member)
  obtain ⟨inList, isBusy⟩ := mem_busy.mp inUse
  obtain ⟨A, B, rfl⟩ := List.append_of_mem inList
  exact ⟨A, c, B, rfl, isBusy, rfl, held.sizeAt_eq inList⟩

/-- The argument of free is NULL, or the block it belongs to is that of the live
pointer that goes. -/
theorem HeapHeld.released_cases {s : Heap} {lo ptr : Nat} {L : List Chunk} {live : List Nat}
    (held : HeapHeld s lo L) (perm : live.Perm (used blockSize L))
    (known : ptr = 0 ∨ ∃ p ∈ live, Holds s p ptr) :
    (ptr = 0 ∧ released s ptr live = live) ∨
      ∃ A c B, L = A ++ c :: B ∧ c.free = false ∧ Owns c ptr ∧
        released s ptr live = live.erase (c.payload blockSize) := by
  unfold released
  cases found : live.find? fun p => decide (Holds s p ptr) with
  | none =>
      refine Or.inl ⟨known.resolve_right ?_, rfl⟩
      rintro ⟨p, member, holds⟩
      exact List.find?_eq_none.mp found p member (decide_eq_true holds)
  | some p =>
      have member : p ∈ live := List.mem_of_find?_eq_some found
      have holds : Holds s p ptr := by
        simpa using List.find?_some found
      obtain ⟨A, c, B, rfl, isBusy, rfl, size⟩ := held.owner perm member
      rw [Holds, size] at holds
      exact Or.inr ⟨A, c, B, rfl, isBusy, holds, rfl⟩

section Sound
variable {w : World} {lo : Nat} {L : List Chunk}

theorem Sound.owner {p : Nat} (sound : Sound w lo L) (member : p ∈ w.live) :
    ∃ A c B, L = A ++ c :: B ∧ c.free = false ∧ p = c.payload blockSize ∧
      sizeAt w.heap p = c.size := sound.heap.held.owner sound.live member

theorem Sound.exclusive (sound : Sound w lo L) : Exclusive w := by
  have nodup := used_nodup (by decide) (tiles_spread sound.heap.laid.tiles)
  refine ⟨sound.live.nodup_iff.mpr nodup, ?_, ?_⟩
  · intro p member
    obtain ⟨A, c, B, rfl, isBusy, rfl, _⟩ := sound.owner member
    have start : c.payload blockSize - blockSize = c.addr := Nat.add_sub_cancel _ _
    rw [start, sound.heap.laid.linked.header, isBusy]
    rfl
  · intro p pMember q qMember different
    obtain ⟨A, c, B, rfl, _, rfl, cSize⟩ := sound.owner pMember
    obtain ⟨X, d, Y, split, _, rfl, dSize⟩ := sound.owner qMember
    rw [cSize, dSize]
    have other : d ∈ A ++ B := by
      have member : d ∈ A ++ c :: B := by rw [split]; simp
      have cases : d ∈ A ++ B ∨ d = c := by
        simpa [or_comm, or_left_comm, or_assoc] using member
      rcases cases with other | rfl
      · exact other
      · exact absurd rfl different
    obtain ⟨before, after⟩ := sound.heap.laid.around
    simp only [Apart, Chunk.payload]
    rcases List.mem_append.mp other with other | other
    · have bound := before d other
      omega
    · have bound := after d other
      omega

theorem Fresh.sound (fresh : Fresh w) : Sound w w.heap.brk [] := by
  obtain ⟨headless, nothing, bounded, none, running⟩ := fresh
  exact ⟨running, HeapOk.of_untouched ⟨headless, nothing, bounded⟩, by rw [none]; rfl⟩

end Sound

/-! ## What a call does to the live pointers -/

theorem gained_answer {n p : Nat} {live : List Nat} {L L' : List Chunk}
    (answer : Answer n L L' p) (before : live.Perm (used blockSize L)) :
    (gained p live).Perm (used blockSize L') := by
  rcases answer with ⟨rfl, same⟩ | ⟨real, A, B, d, rfl, dBusy, _, rfl, same⟩
  · simpa [gained, used, same] using before
  · have inUse : busy (A ++ d :: B) = busy A ++ d :: busy B := by
      rw [busy_append, busy_cons_busy B dBusy]
    rw [gained, if_neg real, used, inUse]
    apply List.Perm.trans (before.cons _)
    rw [used, same, List.map_append, List.map_append]
    exact List.perm_middle.symm

theorem erase_live {live : List Nat} {A B : List Chunk} {c : Chunk} (isBusy : c.free = false)
    (before : live.Perm (used blockSize (A ++ c :: B))) :
    (live.erase (c.payload blockSize)).Perm
      ((busy A ++ busy B).map (Chunk.payload blockSize)) := by
  have first : live.Perm
      (c.payload blockSize :: (busy A ++ busy B).map (Chunk.payload blockSize)) := by
    apply before.trans
    rw [used, busy_append, busy_cons_busy B isBusy, List.map_append, List.map_append]
    exact List.perm_middle
  simpa using first.erase (c.payload blockSize)

theorem reallocated_live {size q : Nat} {live : List Nat} {A B L' : List Chunk} {c : Chunk}
    (isBusy : c.free = false) (before : live.Perm (used blockSize (A ++ c :: B)))
    (answer : Reallocated size A B c q L') :
    (if q = 0 ∧ size ≠ 0 then live
      else gained q (live.erase (c.payload blockSize))).Perm (used blockSize L') := by
  have erased := erase_live isBusy before
  cases answer with
  | released none rest =>
      have test : ¬ ((0 : Nat) = 0 ∧ size ≠ 0) := fun both => both.2 none
      rw [if_neg test, gained, if_pos rfl, used, rest]
      exact erased
  | refused some same =>
      rw [if_pos ⟨rfl, some⟩, used, same]
      rw [used, busy_append, busy_cons_busy B isBusy] at before
      exact before
  | @inPlace L' d some start room inUse =>
      have same : c.payload blockSize = d.payload blockSize := by
        rw [Chunk.payload, Chunk.payload, start]
      rw [same] at erased ⊢
      rw [if_neg fun both => payload_real d both.1, gained, if_neg (payload_real d), used, inUse]
      apply (erased.cons _).trans
      rw [List.map_append, List.map_append]
      exact List.perm_middle.symm
  | @moved L' d some room inUse =>
      rw [if_neg fun both => payload_real d both.1, gained, if_neg (payload_real d)]
      exact (erased.cons _).trans (inUse.map _).symm

/-- The step does not take realloc to its backward expansion. -/
def StaysForward (w : World) : Op → Prop
  | .realloc ptr size => ptr ≠ 0 → ¬ GrowsBackward w.heap.mem (ptr - blockSize) size
  | _ => True

section Step
variable {w : World} {lo : Nat} {L : List Chunk}

theorem malloc_step {size : Nat} (sound : Sound w lo L) (valid : Valid w (.malloc size)) :
    ∃ w' lo' L', perform w (.malloc size) = .ok w' ∧ Sound w' lo' L' := by
  obtain ⟨p, s', lo', L', run, ok', _, answer⟩ := malloc_spec sound.heap valid
  refine ⟨{ w with heap := s', live := gained p w.live }, lo', L', ?_,
    ⟨sound.running, ok', gained_answer answer sound.live⟩⟩
  rw [perform, run, ok_bind]
  rfl

theorem calloc_step {nmemb size : Nat} (sound : Sound w lo L)
    (valid : Valid w (.calloc nmemb size)) :
    ∃ w' lo' L', perform w (.calloc nmemb size) = .ok w' ∧ Sound w' lo' L' := by
  obtain ⟨p, s', lo', L', run, ok', _, answer⟩ := calloc_spec sound.heap valid
  refine ⟨{ w with heap := s', live := gained p w.live }, lo', L', ?_,
    ⟨sound.running, ok', gained_answer answer sound.live⟩⟩
  rw [perform, run, ok_bind]
  rfl

theorem Sound.null_not_live (sound : Sound w lo L) : 0 ∉ w.live := by
  intro member
  obtain ⟨A, c, B, rfl, _, same, _⟩ := sound.owner member
  exact payload_real c same.symm

theorem free_step {ptr : Nat} (sound : Sound w lo L) (valid : Valid w (.free ptr)) :
    ∃ w' lo' L', perform w (.free ptr) = .ok w' ∧ Sound w' lo' L' := by
  rcases sound.heap.held.released_cases sound.live valid with
    ⟨rfl, same⟩ | ⟨A, c, B, rfl, isBusy, owner, gone⟩
  · refine ⟨w, lo, L, ?_, sound⟩
    rw [perform, free_null, ok_bind, same]
    rfl
  · obtain ⟨s', run, ok', _⟩ := free_spec sound.heap owner
    refine ⟨{ w with heap := s', live := w.live.erase (c.payload blockSize) }, lo, _, ?_,
      ⟨sound.running, ok', ?_⟩⟩
    · rw [perform, run, ok_bind, gone]
      rfl
    · rw [used, busy_release]
      exact erase_live isBusy sound.live

theorem store_step {address value : Nat} (sound : Sound w lo L)
    (valid : Valid w (.store address value)) :
    ∃ w' lo' L', perform w (.store address value) = .ok w' ∧ Sound w' lo' L' := by
  obtain ⟨p, member, inside⟩ := valid
  obtain ⟨A, c, B, rfl, _, rfl, size⟩ := sound.owner member
  rw [size] at inside
  obtain ⟨ok', _⟩ := sound.heap.write (onlyPayload_store (m := w.heap.mem) (v := value) inside)
  exact ⟨_, lo, _, rfl, ⟨sound.running, ok', sound.live⟩⟩

theorem realloc_step {ptr size : Nat} (sound : Sound w lo L) (valid : Valid w (.realloc ptr size))
    (stays : StaysForward w (.realloc ptr size)) :
    ∃ w' lo' L', perform w (.realloc ptr size) = .ok w' ∧ Sound w' lo' L' := by
  obtain ⟨known, small⟩ := valid
  by_cases isNull : ptr = 0
  · subst isNull
    obtain ⟨p, s', lo', L', run, ok', _, answer⟩ := malloc_spec sound.heap small
    have run : realloc w.heap 0 size = .ok (p, s') := run
    have answered := gained_answer answer sound.live
    refine ⟨{ w with heap := s', live := gained p w.live }, lo', L', ?_,
      ⟨sound.running, ok', answered⟩⟩
    have same : (if p = 0 ∧ size ≠ 0 then w.live else gained p (w.live.erase 0)) =
        gained p w.live := by
      rw [List.erase_of_not_mem sound.null_not_live]
      split
      · rename_i refused
        rw [gained, if_pos refused.1]
      · rfl
    rw [perform, run, ok_bind, ← same]
    rfl
  · have member := known.resolve_left isNull
    obtain ⟨A, c, B, rfl, isBusy, rfl, _⟩ := sound.owner member
    have start : c.payload blockSize - blockSize = c.addr := Nat.add_sub_cancel _ _
    have stays : ¬ GrowsBackward w.heap.mem c.addr size := by
      rw [← start]
      exact stays isNull
    obtain ⟨q, s', lo', L', run, ok', answer, _⟩ := realloc_spec sound.heap isBusy small stays
    refine ⟨{ w with
      heap := s'
      live := if q = 0 ∧ size ≠ 0 then w.live
        else gained q (w.live.erase (c.payload blockSize)) }, lo', L', ?_,
      ⟨sound.running, ok', reallocated_live isBusy sound.live answer⟩⟩
    rw [perform, run, ok_bind]
    rfl

/-- Every call with valid arguments returns and keeps the invariant, but for a
backward expansion. -/
theorem sound_step {op : Op} (sound : Sound w lo L) (valid : Valid w op)
    (stays : StaysForward w op) : ∃ w' lo' L', perform w op = .ok w' ∧ Sound w' lo' L' := by
  cases op with
  | malloc size => exact malloc_step sound valid
  | calloc nmemb size => exact calloc_step sound valid
  | realloc ptr size => exact realloc_step sound valid stays
  | free ptr => exact free_step sound valid
  | store address value => exact store_step sound valid

theorem backward_breaks {op : Op} (sound : Sound w lo L) (valid : Valid w op)
    (backward : ¬ StaysForward w op) : ¬ ∃ lo' L', Sound (after w op) lo' L' := by
  cases op with
  | realloc ptr size =>
      obtain ⟨known, _⟩ := valid
      have isReal : ptr ≠ 0 := fun isNull => backward fun real => absurd isNull real
      obtain ⟨A, c, B, rfl, _, rfl, _⟩ := sound.owner (known.resolve_left isReal)
      have start : c.payload blockSize - blockSize = c.addr := Nat.add_sub_cancel _ _
      have grows : GrowsBackward w.heap.mem c.addr size := by
        by_contra stays
        refine backward fun _ => ?_
        rw [start]
        exact stays
      rintro ⟨lo', L', sound'⟩
      rcases realloc_backward sound.heap grows with run | ⟨a, s', run, free⟩
      · have faulted : (after w (.realloc (c.payload blockSize) size)).fault =
            some .nullDeref := by
          simp only [after, perform, run]
          rfl
        rw [sound'.running] at faulted
        cases faulted
      · have isAfter : after w (.realloc (c.payload blockSize) size) =
            { w with
              heap := s'
              live := (a + blockSize) :: w.live.erase (c.payload blockSize) } := by
          have wide : blockSize = 32 := rfl
          have real : a + blockSize ≠ 0 := by omega
          simp only [after, perform, run, ok_bind, gained, real, false_and, if_false]
          rfl
        rw [isAfter] at sound'
        obtain ⟨_, d, _, rfl, dBusy, same, _⟩ :=
          sound'.owner (p := a + blockSize) (List.mem_cons_self ..)
        have isThere : a = d.addr := Nat.add_right_cancel same
        have marked := sound'.heap.laid.linked.header
        rw [isThere] at free
        rw [show ({ w with
              heap := s'
              live := (a + blockSize) :: w.live.erase (c.payload blockSize) } : World).heap.mem =
            s'.mem from rfl] at marked
        rw [marked, dBusy] at free
        cases free
  | malloc size => exact absurd trivial backward
  | calloc nmemb size => exact absurd trivial backward
  | free ptr => exact absurd trivial backward
  | store address value => exact absurd trivial backward

end Step

/-! ## Runs -/

/-- What holds of a world between two calls: everything has returned, the block
list is a contiguous doubly linked tiling of the heap without two consecutive
free blocks, and the live pointers are disjoint payloads of its blocks in use. -/
def Safe (w : World) : Prop := (∃ lo L, Sound w lo L) ∧ Exclusive w

theorem Sound.safe {w : World} {lo : Nat} {L : List Chunk} (sound : Sound w lo L) : Safe w :=
  ⟨⟨lo, L, sound⟩, sound.exclusive⟩

theorem sound_after {w w' : World} {op : Op} (before : ∃ lo L, Sound w lo L)
    (stays : StaysForward w op) (next : step w op w') : ∃ lo L, Sound w' lo L := by
  obtain ⟨lo, L, sound⟩ := before
  obtain ⟨⟨_, valid⟩, rfl⟩ := next
  obtain ⟨w', lo', L', run, sound'⟩ := sound_step sound valid stays
  refine ⟨lo', L', ?_⟩
  rw [after, run]
  exact sound'

def isRealloc : Op → Bool
  | .realloc _ _ => true
  | _ => false

/-- The calls of malloc, calloc and free, and the writes of the program. -/
def plainStep (w : World) (op : Op) (w' : World) : Prop := step w op w' ∧ isRealloc op = false

/-- A heap of zeros with the break at 4096 and a kernel that grants everything. -/
def emptyWorld : World := ⟨⟨fun _ => 0, 0, 4096, fun _ => true, 0, 0⟩, [], none⟩

theorem emptyWorld_fresh : Fresh emptyWorld := ⟨rfl, rfl, by decide, rfl, rfl⟩

theorem plain_sound {w w' : World} {op : Op} (before : ∃ lo L, Sound w lo L)
    (next : plainStep w op w') : ∃ lo L, Sound w' lo L := by
  refine sound_after before ?_ next.1
  cases op with
  | realloc ptr size => cases next.2
  | _ => trivial

theorem played_sound (ops : List Op)
    (playable : Playable (fun w op => Calls w op ∧ isRealloc op = false) after emptyWorld ops) :
    ∃ lo L, Sound (ops.foldl after emptyWorld) lo L := by
  have exec : Exec plainStep emptyWorld _ _ :=
    playable.exec fun _ _ guard => ⟨⟨guard.1, rfl⟩, guard.2⟩
  exact (exec.invariant (I := fun w => ∃ lo L, Sound w lo L)
    (fun _ _ _ before next => plain_sound before next) ⟨_, _, emptyWorld_fresh.sound⟩).2

/-- Without realloc, in every reachable world: nothing has faulted, the heap is
represented by a list of blocks, the live pointers are the payloads of those in
use, and the break is aligned, so that align_heap only asks where it is. -/
theorem heap_represented {w : World} (reached : Reach Fresh plainStep w) :
    w.fault = none ∧ ∃ lo L, HeapOk w.heap lo L ∧ lo + w.heap.requested = w.heap.brk ∧
      w.live.Perm (used blockSize L) ∧ Exclusive w ∧
      (L ≠ [] → w.heap.brk % alignment = 0 ∧
        alignHeap w.heap = .ok { w.heap with calls := w.heap.calls + 1 }) := by
  have sound : ∃ lo L, Sound w lo L := reached.invariant (I := fun w => ∃ lo L, Sound w lo L)
    (fun w fresh => ⟨_, _, fresh.sound⟩) fun _ _ _ before next => plain_sound before next
  obtain ⟨lo, L, sound⟩ := sound
  have heap := sound.heap
  refine ⟨sound.running, lo, L, heap, ?_, sound.live, sound.exclusive,
    fun some => ⟨heap.brk_aligned some, alignHeap_ok heap some⟩⟩
  rw [heap.accounted]
  exact tiles_total heap.laid.tiles

theorem heap_represented_after_free :
    ∃ lo L, HeapOk ([.malloc 16, .calloc 2 8, .free 4130].foldl after emptyWorld).heap lo L ∧
      ([.malloc 16, .calloc 2 8, .free 4130].foldl after emptyWorld).live.Perm
        (used blockSize L) := by
  have playable : Playable (fun w op => Calls w op ∧ isRealloc op = false) after emptyWorld
      [.malloc 16, .calloc 2 8, .free 4130] := by decide +kernel
  have exec : Exec plainStep emptyWorld _ _ :=
    playable.exec fun _ _ guard => ⟨⟨guard.1, rfl⟩, guard.2⟩
  obtain ⟨_, lo, L, heap, _, live, _⟩ :=
    heap_represented ((Reach.init emptyWorld_fresh).exec exec)
  exact ⟨lo, L, heap, live⟩

/-- With realloc, a run keeps every allocation exclusive exactly when none of
its steps grows a block backward. -/
theorem realloc_exclusive_iff {w last : World} {run : List (World × Op)} (fresh : Fresh w)
    (exec : Exec step w run last) :
    AllStates Safe run last ↔ AllSteps StaysForward run := by
  refine exec.allStates_iff_guarded (I := fun w => ∃ lo L, Sound w lo L) ?_ ?_ ?_
    ⟨_, _, fresh.sound⟩
  · rintro w ⟨lo, L, sound⟩
    exact sound.safe
  · intro w op w' before stays next
    exact sound_after before stays next
  · rintro w op w' ⟨lo, L, sound⟩ backward ⟨⟨_, valid⟩, rfl⟩ ⟨sound', _⟩
    exact backward_breaks sound valid backward sound'

/-- Three blocks, the first freed and the second grown into it. -/
def growBack : List Op := [.malloc 16, .malloc 16, .malloc 16, .free 4128, .realloc 4176 48]

def growBackThenMalloc : List Op := growBack ++ [.malloc 16]

theorem realloc_exclusive_iff_growBack :
    AllStates Safe (played after emptyWorld growBack) (growBack.foldl after emptyWorld) ↔
      AllSteps StaysForward (played after emptyWorld growBack) := by
  have playable : Playable Calls after emptyWorld growBack := by decide +kernel
  exact realloc_exclusive_iff emptyWorld_fresh (playable.exec fun _ _ guard => ⟨guard, rfl⟩)

/-- The pointer realloc returned is handed out again by the next malloc. -/
theorem realloc_result_given_away :
    Fresh emptyWorld ∧
      Exec step emptyWorld (played after emptyWorld growBackThenMalloc)
        (growBackThenMalloc.foldl after emptyWorld) ∧
      (growBackThenMalloc.foldl after emptyWorld).live = [4128, 4128, 4224] ∧
      ¬ Safe (growBackThenMalloc.foldl after emptyWorld) := by
  have playable : Playable Calls after emptyWorld growBackThenMalloc := by decide +kernel
  have live : (growBackThenMalloc.foldl after emptyWorld).live = [4128, 4128, 4224] := by
    decide +kernel
  refine ⟨emptyWorld_fresh, playable.exec fun _ _ guard => ⟨guard, rfl⟩, live, ?_⟩
  rintro ⟨_, exclusive⟩
  have nodup := exclusive.nodup
  rw [live] at nodup
  exact absurd nodup (by decide)

end Csc457.Malloc
