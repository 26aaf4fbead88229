import Csc457.Malloc.Runs

/-!
# What realloc does with the contents

In place, forward and by a move the bytes of the old block are at the answer
afterwards.  The backward expansion returns the payload of the block before and
leaves the bytes where they were: it keeps the contents only where the two payloads
already agreed.
-/

set_option autoImplicit false

namespace Csc457.Malloc

open Csc457.Lib.ByteMemory Csc457.Lib.Tiling Csc457.Lib.Transition

/-- What a program expects of an answer that is not NULL: room for the new size, the
old bytes as far as both sizes go, and every other payload in use as it was. -/
def KeepsContents (s : Heap) (A B : List Chunk) (c : Chunk) (size : Nat) : Prop :=
  ∀ q s', realloc s (c.payload blockSize) size = .ok (q, s') → q ≠ 0 →
    size ≤ sizeAt s' q ∧ Carried s.mem s'.mem (c.payload blockSize) q (min c.size size) ∧
      Kept (busy A ++ busy B) s.mem s'.mem

section Contents
variable {s : Heap} {lo size : Nat} {A B : List Chunk} {c : Chunk}

theorem Reallocated.room {L' : List Chunk} {q : Nat} {s' : Heap} {lo' : Nat}
    (answer : Reallocated size A B c q L') (ok : HeapOk s' lo' L') (real : q ≠ 0) :
    size ≤ sizeAt s' q := by
  cases answer with
  | released none rest => exact absurd rfl real
  | refused some same => exact absurd rfl real
  | @inPlace L' d some start room inUse =>
      have member : d ∈ L' := (mem_busy.mp (by rw [inUse]; simp)).1
      have same : c.payload blockSize = d.payload blockSize := by
        rw [Chunk.payload, Chunk.payload, start]
      rwa [same, ok.held.sizeAt_eq member]
  | @moved L' d some room inUse =>
      have member : d ∈ L' := (mem_busy.mp (inUse.symm.subset (by simp))).1
      rwa [ok.held.sizeAt_eq member]

theorem grownBackward_outside {m : Memory} {a b : Chunk} {x : Nat}
    (outA : x < a.addr ∨ a.addr + blockSize ≤ x) (outB : x < b.addr ∨ b.addr + blockSize ≤ x) :
    grownBackward m a c b x = m x := by
  rw [grownBackward, (set_outside outB).2.1, (set_outside outA).1, (set_outside outA).2.2.1]

/-- After a backward expansion the answer has the bytes that were there before. -/
theorem grownBackward_carried {m : Memory} {hi : Nat} {a b : Chunk}
    (laid : Laid m lo (A ++ a :: c :: b :: B) hi) :
    Carried m (grownBackward m a c b) (a.payload blockSize) (a.payload blockSize) c.size := by
  intro i within
  have start : a.payload blockSize = a.addr + blockSize := rfl
  have atC : Laid m lo ((A ++ [a]) ++ c :: b :: B) hi := by simpa using laid
  have order := laid.around.2 c (by simp)
  have next := atC.around.2 b (by simp)
  apply grownBackward_outside
  · exact Or.inr (by omega)
  · exact Or.inl (by omega)

theorem grownBackward_kept {m : Memory} {hi : Nat} {a b : Chunk}
    (laid : Laid m lo (A ++ a :: c :: b :: B) hi) :
    Kept (A ++ a :: c :: b :: B) m (grownBackward m a c b) := by
  apply laid.kept
  intro x outside
  exact grownBackward_outside (outside a (by simp)) (outside b (by simp))

theorem KeepsContents.of_stays (ok : HeapOk s lo (A ++ c :: B)) (isBusy : c.free = false)
    (small : size ≤ maxRequest) (stays : ¬ GrowsBackward s.mem c.addr size) :
    KeepsContents s A B c size := by
  intro q s' run real
  obtain ⟨q', s'', lo', L', run', ok', answer, kept, carried⟩ :=
    realloc_spec ok isBusy small stays
  obtain ⟨rfl, rfl⟩ := Prod.mk.inj (Except.ok.inj (run'.symm.trans run))
  exact ⟨answer.room ok' real, carried real, kept⟩

/-- Where it does, and another block follows, the answer must already have held the
bytes. -/
theorem keepsContents_backward_iff (ok : HeapOk s lo (A ++ c :: B))
    (backward : GrowsBackward s.mem c.addr size) :
    KeepsContents s A B c size ↔ (header s.mem c.addr).next = 0 ∨
      Carried s.mem s.mem (c.payload blockSize) ((header s.mem c.addr).prev + blockSize)
        c.size := by
  have cHeader := ok.laid.linked.header
  have tooSmall : c.size < size := by simpa only [cHeader] using backward.1
  have all : min c.size size = c.size := by omega
  obtain ⟨A, a, rfl, isFree, room, ⟨rfl, fault⟩ | ⟨b, B, rfl, run⟩⟩ :=
    realloc_backward_run ok backward
  · refine iff_of_true ?_ (Or.inl (by rw [cHeader]; rfl))
    intro q s' run
    rw [fault] at run
    cases run
  · have laid : Laid s.mem lo (A ++ a :: c :: b :: B) s.brk := by simpa using ok.laid
    have bReal : b.addr ≠ 0 := laid.real (by simp)
    have aReal : a.addr ≠ 0 := laid.real (by simp)
    have isLast : lastAddr 0 (A ++ [a]) = a.addr := by simp [lastAddr]
    have inPlace := grownBackward_carried laid
    have start : a.payload blockSize = a.addr + blockSize := rfl
    rw [cHeader]
    simp only [firstAddr_cons, isLast, bReal, false_or, ← start]
    constructor
    · intro keeps i within
      have carried := (keeps _ _ run (by omega)).2.1
      rw [all] at carried
      rw [← inPlace i within]
      exact carried i within
    · intro agree q s' run' _
      obtain ⟨rfl, rfl⟩ := Prod.mk.inj (Except.ok.inj (run.symm.trans run'))
      refine ⟨?_, ?_, ?_⟩
      · have back : a.payload blockSize - blockSize = a.addr := Nat.add_sub_cancel _ _
        rw [sizeAt, back, grownBackward_header laid]
        exact room
      · rw [all]
        intro i within
        exact (inPlace i within).trans (agree i within)
      · apply (grownBackward_kept laid).subset
        intro x member
        rcases List.mem_append.mp member with member | member
        · have inList := (mem_busy.mp member).1
          simp only [List.mem_append, List.mem_singleton] at inList
          rcases inList with inList | rfl
          · simp [inList]
          · simp
        · have inList := (mem_busy.mp member).1
          simp only [List.mem_cons] at inList
          rcases inList with rfl | inList
          · simp
          · simp [inList]

/-- realloc keeps the contents unless it grows the block backward, at a place where
another block follows, over bytes that differ from those of the block. -/
theorem realloc_contents_iff (ok : HeapOk s lo (A ++ c :: B)) (isBusy : c.free = false)
    (small : size ≤ maxRequest) :
    KeepsContents s A B c size ↔ ¬ GrowsBackward s.mem c.addr size ∨
      (header s.mem c.addr).next = 0 ∨
      Carried s.mem s.mem (c.payload blockSize) ((header s.mem c.addr).prev + blockSize)
        c.size := by
  by_cases backward : GrowsBackward s.mem c.addr size
  · rw [keepsContents_backward_iff ok backward]
    exact (or_iff_right (not_not_intro backward)).symm
  · exact iff_of_true (.of_stays ok isBusy small backward) (.inl backward)

end Contents

/-- Three blocks, the first freed, and a byte in the second. -/
def growBackPrepared : List Op :=
  [.malloc 16, .malloc 16, .malloc 16, .free 4128, .store 4176 83]

theorem growBackPrepared_block :
    ∃ lo A c B, HeapOk (growBackPrepared.foldl after emptyWorld).heap lo (A ++ c :: B) ∧
      c.free = false ∧ c.addr = 4144 ∧ c.size = 16 := by
  obtain ⟨lo, L, sound⟩ := played_sound growBackPrepared (by decide +kernel)
  have held : 4176 ∈ (growBackPrepared.foldl after emptyWorld).live := by decide +kernel
  obtain ⟨A, c, B, rfl, isBusy, start, size⟩ := sound.owner held
  have sixteen : sizeAt (growBackPrepared.foldl after emptyWorld).heap 4176 = 16 := by
    decide +kernel
  have wide : blockSize = 32 := rfl
  simp only [Chunk.payload] at start
  exact ⟨lo, A, c, B, sound.heap, isBusy, by omega, by rw [← size, sixteen]⟩

theorem realloc_contents_lost :
    ∃ s lo A c B size, HeapOk s lo (A ++ c :: B) ∧ c.free = false ∧ 0 < size ∧
      size ≤ maxRequest ∧ ¬ KeepsContents s A B c size := by
  obtain ⟨lo, A, c, B, ok, isBusy, start, size⟩ := growBackPrepared_block
  refine ⟨_, lo, A, c, B, 48, ok, isBusy, by decide, by decide, ?_⟩
  have backward : GrowsBackward (growBackPrepared.foldl after emptyWorld).heap.mem c.addr 48 := by
    rw [start]
    decide +kernel
  rw [keepsContents_backward_iff ok backward, start, size]
  rintro (none | agree)
  · exact absurd none (by decide +kernel)
  · have payload : c.payload blockSize = 4176 := by
      rw [Chunk.payload, start]
      rfl
    have byte := agree 0 (by decide)
    rw [payload] at byte
    exact absurd byte (by decide +kernel)

theorem realloc_contents_iff_enough :
    ∃ s lo A c B, HeapOk s lo (A ++ c :: B) ∧ c.addr = 4144 ∧ KeepsContents s A B c 8 := by
  obtain ⟨lo, A, c, B, ok, isBusy, start, size⟩ := growBackPrepared_block
  refine ⟨_, lo, A, c, B, ok, start,
    (realloc_contents_iff ok isBusy (by decide)).mpr (.inl ?_)⟩
  rintro ⟨tooSmall, _, _⟩
  rw [ok.laid.linked.header] at tooSmall
  simp only [size] at tooSmall
  omega

end Csc457.Malloc
