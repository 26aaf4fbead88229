import Csc457.Malloc.Runs

/-!
# How far malloc grows the heap, and what is left when it cannot

An extension gives a block that is smaller than what was asked for by a header.  It
makes room where it merges with a free block before it, or where a whole chunk was
asked for; otherwise the next one merges with it and does.  An extension that is
refused leaves the blocks as they were, and before them at most one more that is free.
-/

set_option autoImplicit false

namespace Csc457.Malloc

open Csc457.Lib.ByteMemory Csc457.Lib.Tiling Csc457.Lib.Transition

section Extensions
variable {n k brk : Nat} {L L₁ : List Chunk}

theorem growAsk_eq (small : n ≤ maxRequest) (unit : n % alignment = 0) :
    growAsk n = growth n := by
  obtain ⟨_, _, growthSmall, _, _⟩ := growth_facts small unit
  exact asIntptr_of_lt growthSmall

/-- An extension that merges, or that has room for a header besides the request. -/
def OneSuffices (n : Nat) (L : List Chunk) : Prop :=
  (∃ last ∈ L.getLast?, last.free = true) ∨ n ≤ stdChunkSize - blockSize

theorem grown_once_fits (small : n ≤ maxRequest) (unit : n % alignment = 0)
    (enough : OneSuffices n L) : firstFit n (join blockSize L [newBlock brk n]) ≠ none := by
  obtain ⟨chunk, request, _, _, header⟩ := growth_facts small unit
  obtain ⟨A, c, last, cFree, room, larger⟩ := join_free_last (h := blockSize) (L := L)
    (d := newBlock brk n) rfl
  have size : (newBlock brk n).size = growth n - blockSize := rfl
  have large : n ≤ c.size := by
    rcases enough with ⟨a, member, aFree⟩ | short
    · have merged := larger a member aFree
      omega
    · omega
  rw [last]
  intro missing
  exact firstFit_none missing c (by simp) ⟨cFree, large⟩

theorem Grown.none_of_fits (grown : Grown n k L L₁)
    (fits : ∃ x ∈ L, x.free = true ∧ n ≤ x.size) : k = 0 := by
  obtain ⟨x, member, large⟩ := fits
  cases grown with
  | done => rfl
  | more missing _ => exact absurd large (firstFit_none missing x member)

theorem Grown.one_suffices (small : n ≤ maxRequest) (unit : n % alignment = 0)
    (grown : Grown n k L L₁) (enough : OneSuffices n L) : k ≤ 1 := by
  cases grown with
  | done => omega
  | more _ rest =>
      cases rest with
      | done => omega
      | more missing _ => exact absurd missing (grown_once_fits small unit enough)

/-- Extensions without success: there is at most one, and it is a free block of its
own at the end. -/
theorem Grown.in_vain (small : n ≤ maxRequest) (unit : n % alignment = 0)
    (grown : Grown n k L L₁) (missing : firstFit n L₁ = none) :
    L₁ = L ∨ ∃ d, d.free = true ∧ L₁ = L ++ [d] := by
  cases grown with
  | done => exact .inl rfl
  | @more k _ _ brk _ rest =>
      cases rest with
      | done =>
          rcases join_cases blockSize L [newBlock brk n] with
            ⟨same, _⟩ | ⟨A, a, r, B, rfl, _, aFree, _, _⟩
          · exact .inr ⟨newBlock brk n, rfl, same⟩
          · exact absurd missing (grown_once_fits small unit (.inl ⟨a, by simp, aFree⟩))
      | more _ rest =>
          cases rest with
          | done => exact absurd missing (grown_twice_fits small unit)
          | more again _ => exact absurd again (grown_twice_fits small unit)

end Extensions

/-! ## malloc is first fit -/

/-- `p` is the lowest fit of the list, and the second list is what is left once it is
taken: nearly all of it, and nothing else. -/
def TakesLowest (n p : Nat) (L L' : List Chunk) : Prop :=
  ∃ A c B d rest, L = A ++ c :: B ∧ L' = A ++ d :: (rest ++ B) ∧ p = c.payload blockSize ∧
    c.free = true ∧ n ≤ c.size ∧
    (∀ x ∈ L, x.free = true → n ≤ x.size → c.addr ≤ x.addr) ∧
    d.addr = c.addr ∧ d.free = false ∧ n ≤ d.size ∧ d.size < n + (blockSize + alignment) ∧
    busy rest = []

theorem Allocated.takesLowest {n p lo hi : Nat} {L L' : List Chunk} {m : Memory}
    (answered : Allocated n L p L') (laid : Laid m lo L' hi) (some : p ≠ 0) :
    TakesLowest n p L L' := by
  cases answered with
  | refused _ => exact absurd rfl some
  | @taken A B c found =>
      obtain ⟨rfl, isFree, room, before⟩ := firstFit_some found
      obtain ⟨d, rest, carved, free, start, dBusy, large, tight⟩ :=
        carve_cases (h := blockSize) (by decide) alignment room
      have split : A ++ carve blockSize alignment n c ++ B = A ++ d :: (rest ++ B) := by
        simp [carved]
      rw [split] at laid
      refine ⟨A, c, B, d, rest, rfl, split, rfl, isFree, room, ?_, start, dBusy, large, tight,
        free⟩
      intro x member xFree fits
      rcases List.mem_append.mp member with inA | inRest
      · exact absurd ⟨xFree, fits⟩ (before x inA)
      · rcases List.mem_cons.mp inRest with rfl | inB
        · exact le_refl _
        · have order := laid.around.2 x (by simp [inB])
          omega

/-- Where every sbrk of the call succeeds, malloc returns the lowest fit after at most
two extensions, after at most one where that is enough, and after none where a block
fits already. -/
theorem malloc_first_fit {s : Heap} {lo size : Nat} {L : List Chunk} (ok : HeapOk s lo L)
    (small : size ≤ maxRequest) (granted : Granted s (mallocAsks s size)) :
    ∃ p s' lo' L' start L₀ k M,
      malloc s size = .ok (p, s') ∧ HeapOk s' lo' L' ∧ Started s L start L₀ ∧
      mallocAsks s size =
        start ++ 0 :: (List.replicate k [(growth (alignedSize size) : Int), 0]).flatten ∧
      Grown (alignedSize size) k L₀ M ∧ k ≤ 2 ∧
      (OneSuffices (alignedSize size) L₀ → k ≤ 1) ∧
      ((∃ x ∈ L₀, x.free = true ∧ alignedSize size ≤ x.size) → k = 0) ∧
      TakesLowest (alignedSize size) p M L' ∧ busy M = busy L ∧ Kept (busy L) s.mem s'.mem := by
  obtain ⟨_, alignedSmall, unit, _⟩ := alignedSize_facts small
  obtain ⟨p, s', lo', L', run, ok', kept, ran⟩ := malloc_run ok small
  generalize mallocAsks s size = asks at granted ran ⊢
  cases ran with
  | noHeap _ refused => exact absurd granted refused
  | @ran p k start L₀ M L' started within grown answered refused =>
      have some : p ≠ 0 := fun null => refused null granted
      refine ⟨p, s', lo', L', start, L₀, k, M, run, ok', started, ?_, grown, within,
        grown.one_suffices alignedSmall unit, grown.none_of_fits,
        answered.takesLowest ok'.laid some, grown.busy_eq.trans started.busy_eq, kept⟩
      rw [passesAsks, if_neg some, List.append_nil, growAsk_eq alignedSmall unit]

def fullHeap : Heap := ([.malloc 65504].foldl after emptyWorld).heap

theorem malloc_first_fit_fullHeap :
    ∃ p s' M L', malloc fullHeap 100000 = .ok (p, s') ∧
      mallocAsks fullHeap 100000 = [0, 100000, 0, 100000, 0] ∧ TakesLowest 100000 p M L' := by
  obtain ⟨lo, L, sound⟩ := played_sound [.malloc 65504] (by decide +kernel)
  obtain ⟨p, s', _, L', _, _, _, M, run, _, _, _, _, _, _, _, lowest, _⟩ :=
    malloc_first_fit sound.heap (show 100000 ≤ maxRequest by decide) (by decide +kernel)
  exact ⟨p, s', M, L', run, by decide +kernel, lowest⟩

/-- The list is well formed still, the blocks are the ones there were, with at most
one free block after them, and the payloads in use have kept their bytes. -/
def Unharmed (s : Heap) (L : List Chunk) (s' : Heap) : Prop :=
  ∃ lo' L', HeapOk s' lo' L' ∧ (L' = L ∨ ∃ d, d.free = true ∧ L' = L ++ [d]) ∧
    Kept (busy L) s.mem s'.mem

section OutOfMemory
variable {s s' : Heap} {lo size : Nat} {L : List Chunk}

theorem malloc_unharmed (ok : HeapOk s lo L) (small : size ≤ maxRequest)
    (null : malloc s size = .ok (0, s')) : Unharmed s L s' := by
  obtain ⟨_, alignedSmall, unit, _⟩ := alignedSize_facts small
  obtain ⟨p, s'', lo', L', run, ok', kept, ran⟩ := malloc_run ok small
  obtain ⟨rfl, rfl⟩ := Prod.mk.inj (Except.ok.inj (run.symm.trans null))
  refine ⟨lo', L', ok', ?_, kept⟩
  generalize mallocAsks s size = asks at ran
  cases ran with
  | noHeap none _ => exact .inl none.symm
  | @ran _ k asks L₀ L₁ L' started within grown answered _ =>
      have stuck : L' = L₁ ∧ firstFit (alignedSize size) L₁ = none := by
        generalize isNull : 0 = q at answered
        cases answered with
        | refused missing => exact ⟨rfl, missing⟩
        | taken found => exact absurd isNull.symm (payload_real _)
      obtain ⟨rfl, missing⟩ := stuck
      cases started with
      | headed _ => exact grown.in_vain alignedSmall unit missing
      | first b _ =>
          -- the first block is free, so no extension can have been in vain
          have enough : OneSuffices (alignedSize size) [firstBlock b] :=
            .inl ⟨firstBlock b, rfl, rfl⟩
          cases grown with
          | done => exact .inr ⟨firstBlock b, rfl, rfl⟩
          | more _ rest =>
              cases rest with
              | done => exact absurd missing (grown_once_fits alignedSmall unit enough)
              | more again _ => exact absurd again (grown_once_fits alignedSmall unit enough)

theorem calloc_unharmed {nmemb : Nat} (ok : HeapOk s lo L) (request : CallocRequest nmemb size)
    (null : calloc s nmemb size = .ok (0, s')) : Unharmed s L s' := by
  have same : Unharmed s L s := ⟨lo, L, ok, .inl rfl, fun _ _ _ _ _ => rfl⟩
  by_cases none : nmemb = 0 ∨ size = 0
  · rw [calloc, if_pos none] at null
    cases null
    exact same
  by_cases large : sizeMax < nmemb * size
  · rw [calloc, if_neg none, if_pos ((calloc_overflow_iff none).mpr large)] at null
    cases null
    exact same
  have small : nmemb * size ≤ maxRequest := request.2.2.resolve_right large
  rw [(calloc_run none (by omega)).1] at null
  obtain ⟨⟨p, s₁⟩, run, null⟩ := bind_ok_iff.mp null
  simp only at null
  split at null
  · next isNull =>
      cases null
      rw [isNull] at run
      exact malloc_unharmed ok small run
  · next real =>
      cases null
      exact absurd rfl real

theorem moveBlock_null {ptr block : Nat} (null : moveBlock s ptr block size = .ok (0, s')) :
    malloc s size = .ok (0, s') := by
  unfold moveBlock at null
  obtain ⟨⟨p, s₁⟩, run, null⟩ := bind_ok_iff.mp null
  simp only at null
  split at null
  · next isNull =>
      cases null
      rwa [isNull] at run
  · next real =>
      obtain ⟨bytes, _, null⟩ := bind_ok_iff.mp null
      obtain ⟨s₂, _, null⟩ := bind_ok_iff.mp null
      cases null
      exact absurd rfl real

theorem realloc_unharmed {p : Nat} {A B : List Chunk} {c : Chunk}
    (ok : HeapOk s lo (A ++ c :: B)) (owner : Owns c p) (some : size ≠ 0)
    (small : size ≤ maxRequest) (null : realloc s p size = .ok (0, s')) :
    Unharmed s (A ++ c :: B) s' := by
  have cReal : c.addr ≠ 0 := ok.laid.real (by simp)
  have start : c.payload blockSize = c.addr + blockSize := rfl
  have real : p ≠ 0 := owner.real
  have found := realloc_found ok.laid ok.headed owner real some
  have atStart := realloc_found ok.laid ok.headed (.inl rfl) (payload_real c) some
  rw [found] at null
  split at null
  · have isNull := (Prod.mk.inj (Except.ok.inj null)).1
    omega
  · next tooSmall =>
      split at null
      · obtain ⟨m, _, null⟩ := bind_ok_iff.mp null
        have isNull := (Prod.mk.inj (Except.ok.inj null)).1
        omega
      · next noNext =>
          split at null
          · next prev =>
              have backward : GrowsBackward s.mem c.addr size := by
                refine ⟨?_, noNext, prev⟩
                rw [ok.laid.linked.header]
                simp only
                omega
              rw [if_neg tooSmall, if_neg noNext, if_pos prev] at atStart
              rw [← atStart] at null
              obtain ⟨A', a, rfl, _, _, ⟨_, fault⟩ | ⟨b, B', rfl, run⟩⟩ :=
                realloc_backward_run ok backward
              · rw [fault] at null
                cases null
              · rw [run] at null
                have aReal : a.addr ≠ 0 := ok.laid.real (by simp)
                have isNull := (Prod.mk.inj (Except.ok.inj null)).1
                simp only [Chunk.payload] at isNull
                omega
          · exact malloc_unharmed ok small (moveBlock_null null)

/-- A NULL for want of memory does no harm, whatever sbrk refused and when. -/
theorem out_of_memory_harmless (ok : HeapOk s lo L) :
    (∀ size s', size ≤ maxRequest → malloc s size = .ok (0, s') → Unharmed s L s') ∧
    (∀ nmemb size s', CallocRequest nmemb size → calloc s nmemb size = .ok (0, s') →
      Unharmed s L s') ∧
    (∀ p size s', (p = 0 ∨ ∃ c ∈ L, Owns c p) → size ≠ 0 → size ≤ maxRequest →
      realloc s p size = .ok (0, s') → Unharmed s L s') := by
  refine ⟨fun size s' => malloc_unharmed ok, fun nmemb size s' => calloc_unharmed ok, ?_⟩
  intro p size s' known some small null
  rcases known with rfl | ⟨c, member, owner⟩
  · exact malloc_unharmed ok small null
  · obtain ⟨A, B, rfl⟩ := List.append_of_mem member
    exact realloc_unharmed ok owner some small null

end OutOfMemory

/-- The heap whose only block is in use, with a kernel that grants one more extension. -/
def lastExtension : Heap := { fullHeap with grant := fun n => decide (n < 6) }

theorem out_of_memory_harmless_lastExtension :
    ∃ lo L s', HeapOk lastExtension lo L ∧ malloc lastExtension 100000 = .ok (0, s') ∧
      Unharmed lastExtension L s' := by
  obtain ⟨lo, L, sound⟩ := played_sound [.malloc 65504] (by decide +kernel)
  have ok : HeapOk lastExtension lo L := sound.heap.congr rfl rfl rfl rfl
  obtain ⟨p, s', _, _, run, _⟩ := malloc_run ok (show 100000 ≤ maxRequest by decide)
  have null : (malloc lastExtension 100000).map Prod.fst = .ok 0 := by decide +kernel
  rw [run] at null
  have isNull : p = 0 := Except.ok.inj null
  rw [isNull] at run
  exact ⟨lo, L, s', ok, run, (out_of_memory_harmless ok).1 100000 s' (by decide) run⟩

end Csc457.Malloc
