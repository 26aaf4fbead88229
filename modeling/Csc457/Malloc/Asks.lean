import Csc457.Malloc.Model

/-!
# What malloc asks of sbrk

The increments the functions of malloc.c pass to sbrk, call by call.  Each list
follows the tests of its function, and asking sbrk for exactly these increments,
one after the other, leaves the kernel in the state in which the function leaves it.
-/

set_option autoImplicit false

namespace Csc457.Malloc

open Csc457.Lib.ByteMemory

/-- Two heaps that sbrk cannot tell apart. -/
structure SameKernel (s s' : Heap) : Prop where
  brk : s'.brk = s.brk
  grant : s'.grant = s.grant
  calls : s'.calls = s.calls

/-- The heap after sbrk was asked for the increments in turn. -/
def replay (s : Heap) (asks : List Int) : Heap :=
  asks.foldl (fun s increment => (sbrk s increment).2) s

/-- sbrk answers each increment with an address: not with its error, nor with the
NULL that the callers take for one. -/
def Granted : Heap → List Int → Prop
  | _, [] => True
  | s, increment :: rest =>
      (sbrk s increment).1 ≠ sbrkFailed ∧ (sbrk s increment).1 ≠ 0 ∧
        Granted (sbrk s increment).2 rest

instance Granted.decidable : (s : Heap) → (asks : List Int) → Decidable (Granted s asks)
  | _, [] => inferInstanceAs (Decidable True)
  | s, increment :: rest =>
      have := Granted.decidable (sbrk s increment).2 rest
      inferInstanceAs (Decidable ((sbrk s increment).1 ≠ sbrkFailed ∧
        (sbrk s increment).1 ≠ 0 ∧ Granted (sbrk s increment).2 rest))

def initAsks (s : Heap) : List Int :=
  let (currentBreak, s) := sbrk s 0
  if currentBreak = sbrkFailed then [0]
  else if currentBreak % alignment ≠ 0 then
    let padding := asIntptr (alignment - currentBreak % alignment)
    let (temp, _) := sbrk s padding
    if temp = sbrkFailed then [0, padding] else [0, padding, asIntptr stdChunkSize]
  else [0, asIntptr stdChunkSize]

def alignAsks (s : Heap) : List Int :=
  let (currentBreak, _) := sbrk s 0
  if currentBreak = sbrkFailed then [0]
  else if currentBreak % alignment = 0 then [0]
  else [0, asIntptr (alignment - currentBreak % alignment)]

def growAsk (alignedSize : Nat) : Int :=
  asIntptr (if stdChunkSize < alignedSize then alignedSize else stdChunkSize)

/-- `retry` is what the recursive call asks for. -/
def passAsks (retry : Heap → List Int) (s : Heap) (alignedSize : Nat) : List Int :=
  alignAsks s ++
    match alignHeap s with
    | .error _ => []
    | .ok s =>
        match scan s.mem alignedSize walkLimit s.head 0 with
        | .error _ => []
        | .ok (current, prev) =>
            if current ≠ 0 then []
            else growAsk alignedSize ::
              match growHeap s prev alignedSize with
              | .ok (true, s) => retry s
              | .ok (false, _) => []
              | .error _ => []

def mallocAsksFrom : Nat → Heap → Nat → List Int
  | 0, _, _ => []
  | depth + 1, s, size =>
      if s.head = 0 then
        initAsks s ++
          match initHeap s with
          | .error _ => []
          | .ok (head, s) =>
              if head = 0 then []
              else passAsks (fun s => mallocAsksFrom depth s size) { s with head := head }
                (alignedSize size)
      else passAsks (fun s => mallocAsksFrom depth s size) s (alignedSize size)

def mallocAsks (s : Heap) (size : Nat) : List Int := mallocAsksFrom walkLimit s size

def callocAsks (s : Heap) (nmemb size : Nat) : List Int :=
  if nmemb = 0 ∨ size = 0 then []
  else if size ≠ 0 ∧ sizeMax / size < nmemb then []
  else mallocAsks s (mul64 nmemb size)

section Kernel
variable {s s' s'' : Heap}

theorem SameKernel.refl (s : Heap) : SameKernel s s := ⟨rfl, rfl, rfl⟩

theorem SameKernel.symm (same : SameKernel s s') : SameKernel s' s :=
  ⟨same.brk.symm, same.grant.symm, same.calls.symm⟩

theorem SameKernel.trans (first : SameKernel s s') (second : SameKernel s' s'') :
    SameKernel s s'' :=
  ⟨second.brk.trans first.brk, second.grant.trans first.grant, second.calls.trans first.calls⟩

theorem SameKernel.sbrk (same : SameKernel s s') (increment : Int) :
    (Malloc.sbrk s' increment).1 = (Malloc.sbrk s increment).1 ∧
      SameKernel (Malloc.sbrk s increment).2 (Malloc.sbrk s' increment).2 := by
  obtain ⟨brk, grant, calls⟩ := same
  simp only [Malloc.sbrk, brk, grant, calls]
  split
  · exact ⟨rfl, rfl, rfl, rfl⟩
  · exact ⟨rfl, rfl, rfl, rfl⟩

theorem SameKernel.replay (same : SameKernel s s') (asks : List Int) :
    SameKernel (Malloc.replay s asks) (Malloc.replay s' asks) := by
  induction asks generalizing s s' with
  | nil => exact same
  | cons increment rest ih => exact ih (same.sbrk increment).2

theorem SameKernel.granted_iff (same : SameKernel s s') (asks : List Int) :
    Granted s' asks ↔ Granted s asks := by
  induction asks generalizing s s' with
  | nil => exact Iff.rfl
  | cons increment rest ih =>
      obtain ⟨answer, after⟩ := same.sbrk increment
      simp only [Granted, answer, ih after]

theorem replay_append (s : Heap) (first second : List Int) :
    replay s (first ++ second) = replay (replay s first) second :=
  List.foldl_append

theorem granted_append (first second : List Int) :
    Granted s (first ++ second) ↔ Granted s first ∧ Granted (replay s first) second := by
  induction first generalizing s with
  | nil => simp [Granted, replay]
  | cons increment rest ih =>
      simp only [List.cons_append, Granted, ih, and_assoc]
      rfl

theorem sbrk_answer (s : Heap) (increment : Int) :
    (sbrk s increment).1 = sbrkFailed ∨ (sbrk s increment).1 = s.brk := by
  unfold sbrk
  split
  · exact .inr rfl
  · exact .inl rfl

theorem sbrk_zero (s : Heap) : SameKernel { s with calls := s.calls + 1 } (sbrk s 0).2 := by
  unfold sbrk
  split
  · exact ⟨by simp, rfl, rfl⟩
  · exact ⟨rfl, rfl, rfl⟩

end Kernel

/-! ## Each function leaves the kernel where its asks do -/

theorem bind_ok_iff {ε α β : Type} {x : Except ε α} {f : α → Except ε β} {b : β} :
    (x >>= f) = .ok b ↔ ∃ a, x = .ok a ∧ f a = .ok b := by
  cases x with
  | error e =>
      constructor
      · intro run
        cases run
      · rintro ⟨a, run, _⟩
        cases run
  | ok a =>
      constructor
      · intro run
        exact ⟨a, rfl, run⟩
      · rintro ⟨a', same, run⟩
        cases same
        exact run

section Replays
variable {s s' : Heap} {b n prev : Nat} {grown : Bool}

theorem requestMem_replays (s : Heap) (size : Nat) :
    SameKernel (replay s [asIntptr size]) (requestMem s size).2 ∧
      ((requestMem s size).1 ≠ 0 ↔ Granted s [asIntptr size]) := by
  simp only [requestMem, replay, List.foldl_cons, List.foldl_nil, Granted]
  by_cases failed : (sbrk s (asIntptr size)).1 = sbrkFailed
  · simp only [failed, if_true]
    exact ⟨.refl _, by simp⟩
  · by_cases null : (sbrk s (asIntptr size)).1 = 0
    · simp only [null, if_true]
      exact ⟨.refl _, by simp⟩
    · simp only [if_neg failed, if_neg null]
      exact ⟨⟨rfl, rfl, rfl⟩, by simp [failed, null]⟩

theorem requestFirstBlock_replays (run : requestFirstBlock s = .ok (b, s')) :
    SameKernel (replay s [asIntptr stdChunkSize]) s' ∧
      (b ≠ 0 ↔ Granted s [asIntptr stdChunkSize]) := by
  obtain ⟨kernel, answer⟩ := requestMem_replays s stdChunkSize
  unfold requestFirstBlock at run
  by_cases null : (requestMem s stdChunkSize).1 = 0
  · simp only [null, if_true, Except.ok.injEq, Prod.mk.injEq] at run
    obtain ⟨rfl, rfl⟩ := run
    exact ⟨kernel, iff_of_false (by simp) fun granted => answer.mpr granted null⟩
  · simp only [if_neg null] at run
    obtain ⟨m₁, _, run⟩ := bind_ok_iff.mp run
    obtain ⟨m₂, _, run⟩ := bind_ok_iff.mp run
    obtain ⟨m₃, _, run⟩ := bind_ok_iff.mp run
    obtain ⟨m₄, _, run⟩ := bind_ok_iff.mp run
    cases run
    exact ⟨⟨kernel.brk, kernel.grant, kernel.calls⟩, answer⟩

/-- A first block at NULL is no block: init_heap takes the answer for a failure. -/
theorem granted_first_block (notFailed : (sbrk s 0).1 ≠ sbrkFailed)
    (granted : Granted (sbrk s 0).2 [asIntptr stdChunkSize]) : (sbrk s 0).1 ≠ 0 := by
  intro null
  have atZero : s.brk = 0 := by
    rcases sbrk_answer s 0 with failed | answer
    · exact absurd failed notFailed
    · rw [← answer, null]
  have still : (sbrk s 0).2.brk = 0 := (sbrk_zero s).brk.trans atZero
  rcases sbrk_answer (sbrk s 0).2 (asIntptr stdChunkSize) with failed | answer
  · exact granted.1 failed
  · exact granted.2.1 (answer.trans still)

theorem initHeap_replays (run : initHeap s = .ok (b, s')) :
    SameKernel (replay s (initAsks s)) s' ∧ (b ≠ 0 ↔ Granted s (initAsks s)) := by
  unfold initHeap at run
  unfold initAsks
  by_cases failed : (sbrk s 0).1 = sbrkFailed
  · simp only [failed, if_true, Except.ok.injEq, Prod.mk.injEq] at run ⊢
    obtain ⟨rfl, rfl⟩ := run
    exact ⟨.refl _, by simp [Granted, failed]⟩
  · simp only [if_neg failed] at run ⊢
    by_cases unaligned : (sbrk s 0).1 % alignment ≠ 0
    · rw [if_pos unaligned] at run ⊢
      have real : (sbrk s 0).1 ≠ 0 := by
        intro null
        rw [null] at unaligned
        exact unaligned rfl
      have same : (sbrk s 0).2.brk = (sbrk s 0).1 := by
        rw [(sbrk_zero s).brk]
        exact ((sbrk_answer s 0).resolve_left failed).symm
      generalize asIntptr (alignment - (sbrk s 0).1 % alignment) = padding at run ⊢
      by_cases refused : (sbrk (sbrk s 0).2 padding).1 = sbrkFailed
      · simp only [refused, if_true, Except.ok.injEq, Prod.mk.injEq] at run ⊢
        obtain ⟨rfl, rfl⟩ := run
        exact ⟨.refl _, by simp [Granted, refused]⟩
      · simp only [if_neg refused] at run ⊢
        obtain ⟨kernel, answer⟩ := requestFirstBlock_replays run
        have padded : (sbrk (sbrk s 0).2 padding).1 ≠ 0 := by
          rw [(sbrk_answer _ _).resolve_left refused, same]
          exact real
        refine ⟨kernel, answer.trans ?_⟩
        simp only [Granted] at answer ⊢
        exact ⟨fun granted => ⟨failed, real, refused, padded, granted⟩,
          fun granted => granted.2.2.2.2⟩
    · rw [if_neg unaligned] at run ⊢
      obtain ⟨kernel, answer⟩ := requestFirstBlock_replays run
      refine ⟨kernel, answer.trans ?_⟩
      constructor
      · intro granted
        exact ⟨failed, granted_first_block failed granted, granted⟩
      · exact fun granted => granted.2.2

theorem addAlignBlock_kernel {alignBlock alignSize : Nat}
    (run : addAlignBlock s alignBlock alignSize = .ok s') : SameKernel s s' := by
  unfold addAlignBlock at run
  split at run
  · obtain ⟨m₁, _, run⟩ := bind_ok_iff.mp run
    obtain ⟨m₂, _, run⟩ := bind_ok_iff.mp run
    obtain ⟨m₃, _, run⟩ := bind_ok_iff.mp run
    obtain ⟨m₄, _, run⟩ := bind_ok_iff.mp run
    cases run
    exact ⟨rfl, rfl, rfl⟩
  · obtain ⟨current, _, run⟩ := bind_ok_iff.mp run
    obtain ⟨free, _, run⟩ := bind_ok_iff.mp run
    split at run
    · obtain ⟨bytes, _, run⟩ := bind_ok_iff.mp run
      obtain ⟨m, _, run⟩ := bind_ok_iff.mp run
      cases run
      exact ⟨rfl, rfl, rfl⟩
    · obtain ⟨m₁, _, run⟩ := bind_ok_iff.mp run
      obtain ⟨m₂, _, run⟩ := bind_ok_iff.mp run
      obtain ⟨m₃, _, run⟩ := bind_ok_iff.mp run
      obtain ⟨m₄, _, run⟩ := bind_ok_iff.mp run
      obtain ⟨m₅, _, run⟩ := bind_ok_iff.mp run
      cases run
      exact ⟨rfl, rfl, rfl⟩

theorem alignHeap_replays (run : alignHeap s = .ok s') :
    SameKernel (replay s (alignAsks s)) s' := by
  unfold alignHeap at run
  unfold alignAsks
  by_cases failed : (sbrk s 0).1 = sbrkFailed
  · simp only [failed, if_true] at run ⊢
    cases run
    exact .refl _
  · simp only [if_neg failed] at run ⊢
    by_cases onUnit : (sbrk s 0).1 % alignment = 0
    · rw [if_pos onUnit] at run ⊢
      cases run
      exact .refl _
    · rw [if_neg onUnit] at run ⊢
      generalize asIntptr (alignment - (sbrk s 0).1 % alignment) = padding at run ⊢
      by_cases refused : (sbrk (sbrk s 0).2 padding).1 = sbrkFailed
      · simp only [refused, if_true] at run
        cases run
        exact .refl _
      · simp only [if_neg refused] at run
        exact addAlignBlock_kernel run

theorem growHeap_replays (run : growHeap s prev n = .ok (grown, s')) :
    SameKernel (replay s [growAsk n]) s' ∧ (grown = true ↔ Granted s [growAsk n]) := by
  obtain ⟨kernel, answer⟩ := requestMem_replays s (if stdChunkSize < n then n else stdChunkSize)
  unfold growHeap at run
  by_cases null : (requestMem s (if stdChunkSize < n then n else stdChunkSize)).1 = 0
  · simp only [null, if_true, Except.ok.injEq, Prod.mk.injEq] at run
    obtain ⟨rfl, rfl⟩ := run
    exact ⟨kernel, iff_of_false (by simp) fun granted => answer.mpr granted null⟩
  · simp only [if_neg null] at run
    obtain ⟨m₁, _, run⟩ := bind_ok_iff.mp run
    obtain ⟨m₂, _, run⟩ := bind_ok_iff.mp run
    obtain ⟨m₃, _, run⟩ := bind_ok_iff.mp run
    obtain ⟨m₄, _, run⟩ := bind_ok_iff.mp run
    split at run
    · cases run
      exact ⟨⟨kernel.brk, kernel.grant, kernel.calls⟩, iff_of_true rfl (answer.mp null)⟩
    · obtain ⟨m₅, _, run⟩ := bind_ok_iff.mp run
      obtain ⟨prevFree, _, run⟩ := bind_ok_iff.mp run
      split at run
      · obtain ⟨m₆, _, run⟩ := bind_ok_iff.mp run
        cases run
        exact ⟨⟨kernel.brk, kernel.grant, kernel.calls⟩, iff_of_true rfl (answer.mp null)⟩
      · cases run
        exact ⟨⟨kernel.brk, kernel.grant, kernel.calls⟩, iff_of_true rfl (answer.mp null)⟩

end Replays

end Csc457.Malloc
