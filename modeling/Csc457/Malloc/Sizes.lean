import Csc457.Malloc.Growth

/-!
# malloc and calloc for every size_t

Rounding up to 16 wraps to 0 from `2 ^ 64 - 15` on, and the conversion to the
`intptr_t` of sbrk turns what is left above `PTRDIFF_MAX - 15` into a negative
increment.  Below that a request is always served well.  Above it is served well only
where the wrap does not come to light: nothing is returned, or a block fits already.
-/

set_option autoImplicit false

namespace Csc457.Malloc

open Csc457.Lib.ByteMemory Csc457.Lib.Tiling Csc457.Lib.Transition

/-- malloc returns, without asking sbrk for a negative increment: NULL with the blocks
in use as they are, or one new block of at least that size. -/
def MallocRight (s : Heap) (L : List Chunk) (size : Nat) : Prop :=
  (∀ increment ∈ mallocAsks s size, 0 ≤ increment) ∧
    ∃ p s' lo' L', malloc s size = .ok (p, s') ∧ HeapOk s' lo' L' ∧
      Kept (busy L) s.mem s'.mem ∧ Answer size L L' p

/-- The same of calloc, for the unbounded product; what follows its malloc writes zeros
into the payload of the answer and nothing elsewhere. -/
def CallocRight (s : Heap) (L : List Chunk) (nmemb size : Nat) : Prop :=
  (∀ increment ∈ callocAsks s nmemb size, 0 ≤ increment) ∧
    ∃ p s' lo' L', calloc s nmemb size = .ok (p, s') ∧ HeapOk s' lo' L' ∧
      Kept (busy L) s.mem s'.mem ∧ Answer (nmemb * size) L L' p ∧
      (p ≠ 0 → (∀ i < nmemb * size, s'.mem (p + i) = 0) ∧
        ∃ s₁ d, malloc s (nmemb * size) = .ok (p, s₁) ∧ d ∈ L' ∧ p = d.payload blockSize ∧
          OnlyPayload d s₁.mem s'.mem)

def initNeeds (brk : Nat) : List Int :=
  if brk % alignment = 0 then [0, stdChunkSize]
  else [0, (alignment - brk % alignment : Nat), stdChunkSize]

/-- The requests that are served well: all that are small enough, and of the others
those for which there is no heap and none to be had, those whose rounded size a free
block has, and those that wrap where no block is free and the kernel refuses. -/
def SizeServed (s : Heap) (L : List Chunk) (size : Nat) : Prop :=
  size ≤ maxRequest ∨ (L = [] ∧ ¬ Granted s (initNeeds s.brk)) ∨
    (size + 15 < 2 ^ 64 ∧ ∃ c ∈ L, c.free = true ∧ alignedSize size ≤ c.size) ∨
    (2 ^ 64 ≤ size + 15 ∧ L ≠ [] ∧ (∀ c ∈ L, c.free = false) ∧
      ¬ Granted (sbrk s 0).2 [stdChunkSize])

section Increments
variable {s : Heap} {lo n : Nat} {L : List Chunk}

theorem initAsks_nonneg (s : Heap) : ∀ increment ∈ initAsks s, 0 ≤ increment := by
  have chunk : (0 : Int) ≤ asIntptr stdChunkSize := by decide
  have padding : ∀ brk : Nat, (0 : Int) ≤ asIntptr (alignment - brk % alignment) := by
    intro brk
    have sixteen : alignment = 16 := rfl
    rw [asIntptr_of_lt (by omega)]
    omega
  have pad := padding (sbrk s 0).1
  unfold initAsks
  simp only
  split
  · simp
  · split
    · split
      · simp [pad]
      · simp [pad, chunk]
    · simp [chunk]

theorem granted_initAsks_iff (s : Heap) : Granted s (initAsks s) ↔ Granted s (initNeeds s.brk) := by
  have chunk : asIntptr stdChunkSize = stdChunkSize := by decide
  rcases sbrk_answer s 0 with failed | answer
  · have never : ∀ rest : List Int, ¬ Granted s (0 :: rest) := fun rest granted => granted.1 failed
    unfold initAsks initNeeds
    simp only [failed, if_true]
    refine iff_of_false (never []) ?_
    split
    · exact never _
    · exact never _
  · by_cases failed : s.brk = sbrkFailed
    · have never : ∀ rest : List Int, ¬ Granted s (0 :: rest) :=
        fun rest granted => granted.1 (answer.trans failed)
      unfold initAsks initNeeds
      simp only [answer, failed, if_true]
      refine iff_of_false (never []) ?_
      split
      · exact never _
      · exact never _
    · unfold initAsks initNeeds
      simp only [answer, if_neg failed]
      by_cases onUnit : s.brk % alignment = 0
      · simp only [onUnit, ne_eq, not_true_eq_false, if_false, if_true, chunk]
      · have small : alignment - s.brk % alignment < 2 ^ 63 := by
          have sixteen : alignment = 16 := rfl
          omega
        have padding : asIntptr (alignment - s.brk % alignment) =
            (alignment - s.brk % alignment : Nat) := asIntptr_of_lt small
        simp only [onUnit, ne_eq, not_false_eq_true, if_true, if_false, padding, chunk]
        split
        · next refused =>
            exact iff_of_false (fun granted => granted.2.2.1 refused)
              fun granted => granted.2.2.1 refused
        · exact Iff.rfl

theorem passesAsks_nonneg (small : n ≤ maxRequest) (unit : n % alignment = 0) (k p : Nat) :
    ∀ increment ∈ passesAsks n k p, 0 ≤ increment := by
  have grow : (0 : Int) ≤ growAsk n := by
    rw [growAsk_eq small unit]
    omega
  induction k with
  | zero =>
      unfold passesAsks
      split <;> simp [grow]
  | succ k ih =>
      rw [passesAsks_succ]
      intro increment member
      simp only [List.mem_cons] at member
      rcases member with rfl | rfl | member
      · exact le_refl _
      · exact grow
      · exact ih increment member

theorem Ran.asks_nonneg {p : Nat} {asks : List Int} {L' : List Chunk} (small : n ≤ maxRequest)
    (unit : n % alignment = 0) (ran : Ran s n L p asks L') :
    ∀ increment ∈ asks, 0 ≤ increment := by
  cases ran with
  | noHeap _ _ => exact initAsks_nonneg s
  | @ran _ k start L₀ L₁ _ started _ _ _ _ =>
      intro increment member
      rcases List.mem_append.mp member with member | member
      · cases started with
        | headed _ => cases member
        | first _ _ => exact initAsks_nonneg s increment member
      · exact passesAsks_nonneg small unit k p increment member

theorem growAsk_mem (retry : Heap → List Int) (ok : HeapOk s lo L) (some : L ≠ [])
    (missing : firstFit n L = none) : growAsk n ∈ passAsks retry s n := by
  have scanned := ok.held.scanned n
  rw [missing] at scanned
  simp only [passAsks, alignHeap_ok ok some, alignAsks_ok ok some, scanned, ne_eq,
    not_true_eq_false, if_false]
  simp

end Increments

/-! ## Sizes that wrap -/

section Outcome
variable {s : Heap} {lo size : Nat} {L : List Chunk}

theorem mallocFrom_congr {size' : Nat} (same : alignedSize size = alignedSize size')
    (depth : Nat) (s : Heap) : mallocFrom depth s size = mallocFrom depth s size' ∧
      mallocAsksFrom depth s size = mallocAsksFrom depth s size' := by
  induction depth generalizing s with
  | zero => exact ⟨rfl, rfl⟩
  | succ depth ih =>
      have calls : (fun s => mallocFrom depth s size) = fun s => mallocFrom depth s size' :=
        funext fun s => (ih s).1
      have asks : (fun s => mallocAsksFrom depth s size) = fun s => mallocAsksFrom depth s size' :=
        funext fun s => (ih s).2
      simp only [mallocFrom, mallocAsksFrom, same, calls, asks, and_self]

theorem alignedSize_wraps (wraps : 2 ^ 64 ≤ size + 15) (isSize : size < 2 ^ 64) :
    alignedSize size = 0 := by
  have sum : add64 size 15 < 16 := by
    unfold add64
    omega
  unfold alignedSize
  omega

theorem alignedSize_large (large : maxRequest < size) (noWrap : size + 15 < 2 ^ 64) :
    size ≤ alignedSize size ∧ 2 ^ 63 ≤ alignedSize size ∧ alignedSize size < 2 ^ 64 ∧
      alignedSize size % alignment = 0 := by
  have top : maxRequest = 2 ^ 63 - 16 := rfl
  have unit : alignment = 16 := rfl
  have exactSum : add64 size 15 = size + 15 := add64_of_lt noWrap
  simp only [alignedSize, exactSum, unit]
  omega

theorem growAsk_negative {n : Nat} (large : 2 ^ 63 ≤ n) (isSize : n < 2 ^ 64) :
    growAsk n < 0 := by
  have chunk : stdChunkSize = 65536 := rfl
  have bigger : stdChunkSize < n := by omega
  have negative : ¬ n < 2 ^ 63 := by omega
  rw [growAsk, if_pos bigger, asIntptr, if_neg negative]
  omega

/-- A request for nothing answers NULL only where no block is free and the kernel
refuses. -/
theorem malloc_nothing_null_iff (ok : HeapOk s lo L) (some : L ≠ []) {p : Nat} {s' : Heap}
    (run : malloc s 0 = .ok (p, s')) :
    p = 0 ↔ (∀ c ∈ L, c.free = false) ∧ ¬ Granted (sbrk s 0).2 [stdChunkSize] := by
  obtain ⟨depth, isLimit⟩ := walkLimit_eq (show 2 ≤ 3 by decide)
  have nothing : alignedSize 0 = 0 := by decide
  have ask : growAsk 0 = stdChunkSize := by decide
  have allBusy : firstFit 0 L = none ↔ ∀ c ∈ L, c.free = false := by
    constructor
    · intro missing c member
      cases isFree : c.free with
      | false => rfl
      | true => exact absurd ⟨isFree, Nat.zero_le _⟩ (firstFit_none missing c member)
    · intro busy
      cases found : firstFit 0 L with
      | none => rfl
      | some z =>
          obtain ⟨A, c, B⟩ := z
          obtain ⟨rfl, isFree, _⟩ := firstFit_some found
          rw [busy c (by simp)] at isFree
          cases isFree
  rw [malloc, isLimit, (mallocFrom_headed ok.held some _ 0).1, nothing] at run
  rw [← allBusy, ← ask]
  rcases mallocPass_spec (n := 0) (fun s => mallocFrom (depth + 1) s 0) (fun _ => []) ok some
      (Nat.zero_le _) rfl with
    ⟨A, c, B, s₁, found, pass, _⟩ | ⟨missing, refused, s₁, pass, _⟩ |
    ⟨missing, granted, s₁, pass, _, _, ok₁, _⟩
  · rw [pass] at run
    obtain ⟨rfl, _⟩ := Prod.mk.inj (Except.ok.inj run)
    exact iff_of_false (payload_real c) fun both => by simp [found] at both
  · rw [pass] at run
    obtain ⟨rfl, _⟩ := Prod.mk.inj (Except.ok.inj run)
    exact iff_of_true rfl ⟨missing, refused⟩
  · -- the extension was granted, and the retry finds room
    have fits : firstFit 0 (join blockSize L [newBlock s.brk 0]) ≠ none :=
      grown_once_fits (Nat.zero_le _) rfl (.inr (Nat.zero_le _))
    obtain ⟨⟨A, c, B⟩, found⟩ := Option.ne_none_iff_exists'.mp fits
    have split := (firstFit_some found).1
    rw [split] at found ok₁
    obtain ⟨s₂, again, _⟩ := mallocPass_fits (fun s => mallocFrom depth s 0) (fun _ => []) ok₁ rfl
      found
    have retry : mallocFrom (depth + 1) s₁ 0 =
        mallocPass (fun s => mallocFrom depth s 0) s₁ (alignedSize 0) :=
      (mallocFrom_headed ok₁.held (by simp) depth 0).1
    rw [pass, retry, nothing, again] at run
    obtain ⟨rfl, _⟩ := Prod.mk.inj (Except.ok.inj run)
    exact iff_of_false (payload_real c) fun both => both.2 granted

theorem Ran.nothing_first {p : Nat} {asks : List Int} {L' : List Chunk}
    (ran : Ran s 0 [] p asks L') (granted : Granted s (initAsks s)) : p ≠ 0 := by
  cases ran with
  | noHeap _ refused => exact absurd granted refused
  | ran started _ grown answered _ =>
      cases started with
      | headed some => exact absurd rfl some
      | first b _ =>
          have fits : ∃ x ∈ [firstBlock b], x.free = true ∧ 0 ≤ x.size :=
            ⟨firstBlock b, by simp, rfl, Nat.zero_le _⟩
          have none := grown.none_of_fits fits
          subst none
          cases grown with
          | done =>
              cases answered with
              | refused missing =>
                  exact absurd ⟨rfl, Nat.zero_le _⟩ (firstFit_none missing (firstBlock b) (by simp))
              | taken _ => exact payload_real _

theorem malloc_wraps (wraps : 2 ^ 64 ≤ size + 15) (isSize : size < 2 ^ 64) :
    malloc s size = malloc s 0 ∧ mallocAsks s size = mallocAsks s 0 :=
  mallocFrom_congr ((alignedSize_wraps wraps isSize).trans (by decide)) walkLimit s

theorem malloc_right (ok : HeapOk s lo L) (isSize : size < 2 ^ 64)
    (served : SizeServed s L size) : MallocRight s L size := by
  by_cases small : size ≤ maxRequest
  · obtain ⟨rounded, alignedSmall, unit, _⟩ := alignedSize_facts small
    obtain ⟨p, s', lo', L', run, ok', kept, ran⟩ := malloc_run ok small
    exact ⟨ran.asks_nonneg alignedSmall unit, p, s', lo', L', run, ok', kept,
      ran.answer.mono rounded⟩
  rcases served with small | ⟨rfl, refused⟩ | ⟨noWrap, fits⟩ | ⟨wraps, some, busy, refused⟩
  · exact absurd small ‹_›
  · -- there is no heap: whatever was asked for, init_heap fails
    have new := ok.untouched
    rw [← granted_initAsks_iff] at refused
    obtain ⟨depth, isLimit⟩ := walkLimit_eq (show 1 ≤ 3 by decide)
    rcases initHeap_spec new with ⟨s', run, new'⟩ | ⟨b, s', run, real, _⟩
    · refine ⟨?_, 0, { s' with head := 0 }, s'.brk, [], ?_,
        HeapOk.of_untouched ⟨rfl, new'.nothing, new'.bounded⟩, fun c member => by simp at member,
        Or.inl ⟨rfl, rfl⟩⟩
      · rw [mallocAsks, isLimit, mallocAsksFrom, if_pos new.headless]
        simp only [run, if_true, List.append_nil]
        exact initAsks_nonneg s
      · rw [malloc, isLimit, mallocFrom, if_pos new.headless]
        simp only [run, ok_bind, if_true]
        rfl
    · exact absurd ((initHeap_replays run).2.mp real) refused
  · obtain ⟨rounded, large, isRounded, unit⟩ := alignedSize_large (by omega) noWrap
    obtain ⟨x, member, xFree, room⟩ := fits
    have some : L ≠ [] := List.ne_nil_of_mem member
    obtain ⟨⟨A, c, B⟩, found⟩ := Option.ne_none_iff_exists'.mp fun missing =>
      firstFit_none missing x member ⟨xFree, room⟩
    obtain ⟨rfl, _⟩ := firstFit_some found
    obtain ⟨depth, isLimit⟩ := walkLimit_eq (show 1 ≤ 3 by decide)
    obtain ⟨pass, passAsk⟩ := mallocFrom_headed ok.held some depth size
    obtain ⟨s', run, asks, ok', kept⟩ := mallocPass_fits
      (fun s => mallocFrom depth s size) (fun s => mallocAsksFrom depth s size) ok unit found
    refine ⟨?_, _, s', lo, _, ?_, ok', kept, (Allocated.taken found).answer.mono rounded⟩
    · rw [mallocAsks, isLimit, passAsk, asks]
      simp
    · rw [malloc, isLimit, pass, run]
  · obtain ⟨sameRun, sameAsks⟩ := malloc_wraps (s := s) wraps isSize
    obtain ⟨p, s', lo', L', run, ok', kept, ran⟩ := malloc_run ok (Nat.zero_le maxRequest)
    have null := (malloc_nothing_null_iff ok some run).mpr ⟨busy, refused⟩
    subst null
    rw [MallocRight, sameRun, sameAsks]
    refine ⟨ran.asks_nonneg (Nat.zero_le _) rfl, 0, s', lo', L', run, ok', kept, Or.inl ⟨rfl, ?_⟩⟩
    rcases ran.answer with ⟨_, same⟩ | ⟨real, _⟩
    · exact same
    · exact absurd rfl real

/-- A request that is not served well asks for a negative increment or is answered with
a block that is too small. -/
theorem malloc_wrong (ok : HeapOk s lo L) (isSize : size < 2 ^ 64)
    (unserved : ¬ SizeServed s L size) :
    (∃ increment ∈ mallocAsks s size, increment < 0) ∨
      ∃ s' lo' A d B, malloc s size = .ok (d.payload blockSize, s') ∧
        HeapOk s' lo' (A ++ d :: B) ∧ d.size < size := by
  have large : maxRequest < size := by
    by_contra small
    exact unserved (.inl (by omega))
  have granted : L = [] → Granted s (initAsks s) := by
    intro none
    by_contra refused
    rw [granted_initAsks_iff] at refused
    exact unserved (.inr (.inl ⟨none, refused⟩))
  by_cases wraps : 2 ^ 64 ≤ size + 15
  · right
    rw [(malloc_wraps (s := s) wraps isSize).1]
    obtain ⟨p, s', lo', L', run, ok', _, ran⟩ := malloc_run ok (Nat.zero_le maxRequest)
    have real : p ≠ 0 := by
      by_cases none : L = []
      · subst none
        exact ran.nothing_first (granted rfl)
      · intro null
        obtain ⟨busy, refused⟩ := (malloc_nothing_null_iff ok none run).mp null
        exact unserved (.inr (.inr (.inr ⟨wraps, none, busy, refused⟩)))
    generalize mallocAsks s 0 = asks at ran
    cases ran with
    | noHeap _ _ => exact absurd rfl real
    | ran _ _ _ answered _ =>
        obtain ⟨A, c, B, d, rest, _, rfl, rfl, _, _, _, start, _, _, tight, _⟩ :=
          answered.takesLowest ok'.laid real
        have same : c.payload blockSize = d.payload blockSize := by
          rw [Chunk.payload, Chunk.payload, start]
        refine ⟨s', lo', A, d, rest ++ B, by rw [run, same], ok', ?_⟩
        have wide : blockSize = 32 := rfl
        have unit : alignment = 16 := rfl
        have nothing : alignedSize 0 = 0 := by decide
        omega
  · left
    obtain ⟨_, wide, isRounded, _⟩ := alignedSize_large large (by omega)
    refine ⟨growAsk (alignedSize size), ?_, growAsk_negative wide isRounded⟩
    obtain ⟨depth, isLimit⟩ := walkLimit_eq (show 1 ≤ 3 by decide)
    rw [mallocAsks, isLimit]
    by_cases none : L = []
    · subst none
      have new := ok.untouched
      rw [mallocAsksFrom, if_pos new.headless]
      rcases initHeap_spec new with ⟨s', run, _⟩ | ⟨b, s', run, real, _, ok'⟩
      · exact absurd rfl ((initHeap_replays run).2.mpr (granted rfl))
      · have chunk : (firstBlock b).size = 65504 := rfl
        have missing : firstFit (alignedSize size) [firstBlock b] = none := by
          have small : ¬ alignedSize size ≤ (firstBlock b).size := by omega
          simp [firstFit, small]
        simp only [run, if_neg real]
        exact List.mem_append_right _ (growAsk_mem _ ok' (by simp) missing)
    · rw [(mallocFrom_headed ok.held none depth size).2]
      apply growAsk_mem _ ok none
      cases found : firstFit (alignedSize size) L with
      | none => rfl
      | some z =>
          obtain ⟨A, c, B⟩ := z
          obtain ⟨rfl, isFree, room, _⟩ := firstFit_some found
          exact absurd (.inr (.inr (.inl ⟨by omega, c, by simp, isFree, room⟩))) unserved

theorem malloc_right_iff (ok : HeapOk s lo L) (isSize : size < 2 ^ 64) :
    MallocRight s L size ↔ SizeServed s L size := by
  refine ⟨?_, malloc_right ok isSize⟩
  rintro ⟨nonneg, p, s', lo', L', run, ok', _, answer⟩
  by_contra unserved
  rcases malloc_wrong ok isSize unserved with
    ⟨increment, member, negative⟩ | ⟨s'', lo'', A, d, B, run', ok'', short⟩
  · have positive := nonneg increment member
    omega
  · obtain ⟨rfl, rfl⟩ := Prod.mk.inj (Except.ok.inj (run'.symm.trans run))
    rcases answer with ⟨null, _⟩ | ⟨_, X, Y, x, same, _, room, rfl, _⟩
    · exact payload_real d null
    · have dSize := ok''.held.sizeAt_eq (d := d) (by simp)
      have xSize := ok'.held.sizeAt_eq (d := x) (by simp)
      rw [same] at dSize
      omega

variable {nmemb : Nat}

theorem calloc_nothing (ok : HeapOk s lo L)
    (none : nmemb = 0 ∨ size = 0 ∨ 2 ^ 64 ≤ nmemb * size) : CallocRight s L nmemb size := by
  have top : sizeMax = 2 ^ 64 - 1 := rfl
  have nothing : calloc s nmemb size = .ok (0, s) ∧ callocAsks s nmemb size = [] := by
    by_cases zero : nmemb = 0 ∨ size = 0
    · exact ⟨if_pos zero, if_pos zero⟩
    · have overflow := (calloc_overflow_iff zero).mpr (by omega)
      rw [calloc, if_neg zero, if_pos overflow, callocAsks, if_neg zero, if_pos overflow]
      exact ⟨rfl, rfl⟩
  refine ⟨by simp [nothing.2], 0, s, lo, L, nothing.1, ok, fun _ _ _ _ _ => rfl,
    Or.inl ⟨rfl, rfl⟩, fun real => absurd rfl real⟩

theorem calloc_right (some : ¬ (nmemb = 0 ∨ size = 0)) (fits : nmemb * size ≤ sizeMax)
    (right : MallocRight s L (nmemb * size)) : CallocRight s L nmemb size := by
  obtain ⟨nonneg, p, s', lo', L', run, ok', kept, answer⟩ := right
  obtain ⟨isRun, isAsks⟩ := calloc_run (s := s) some fits
  rw [CallocRight, isRun, isAsks]
  refine ⟨nonneg, ?_⟩
  by_cases null : p = 0
  · refine ⟨p, s', lo', L', ?_, ok', kept, answer, fun real => absurd null real⟩
    simp only [run, ok_bind, null, if_true]
    rfl
  · obtain ⟨ok'', keptFill, d, member, start, only⟩ := ok'.zeroed kept answer null
    refine ⟨p, _, lo', L', ?_, ok'', keptFill, answer, fun _ => ⟨?_, s', d, run, member, start,
      only⟩⟩
    · simp only [run, ok_bind, if_neg null]
      rfl
    · intro i within
      have hit : p ≤ p + i ∧ p + i < p + nmemb * size := by omega
      simp only [fill, if_pos hit]

theorem calloc_wrong (ok : HeapOk s lo L) (some : ¬ (nmemb = 0 ∨ size = 0))
    (fits : nmemb * size ≤ sizeMax) (unserved : ¬ SizeServed s L (nmemb * size)) :
    ¬ CallocRight s L nmemb size := by
  have top : sizeMax = 2 ^ 64 - 1 := rfl
  obtain ⟨isRun, isAsks⟩ := calloc_run (s := s) some fits
  rw [CallocRight, isRun, isAsks]
  rintro ⟨nonneg, p, s', lo', L', run, ok', _, answer, _⟩
  rcases malloc_wrong ok (by omega) unserved with
    ⟨increment, member, negative⟩ | ⟨s₁, lo₁, A, d, B, run₁, ok₁, short⟩
  · have positive := nonneg increment member
    omega
  · simp only [run₁, ok_bind, if_neg (payload_real d)] at run
    obtain ⟨rfl, rfl⟩ := Prod.mk.inj (Except.ok.inj run)
    rcases answer with ⟨null, _⟩ | ⟨_, X, Y, x, same, _, room, rfl, _⟩
    · exact payload_real d null
    · -- the zeros start behind the header, which still has the size malloc gave it
      have start : d.addr = x.addr := Nat.add_right_cancel same
      have dHeader := ok₁.laid.linked.header
      have xHeader := ok'.laid.linked.header
      have kept : header (fill s₁.mem (d.payload blockSize) 0 (nmemb * size)) d.addr =
          header s₁.mem d.addr := by
        apply header_congr
        intro y low high
        exact fill_outside (Or.inl (by simpa only [Chunk.payload] using high))
      rw [← start, kept, dHeader] at xHeader
      have sizes := congrArg Header.size xHeader
      simp only at sizes
      omega

end Outcome

/-- Exactly which requests are served well. -/
theorem sizes_served_iff {s : Heap} {lo : Nat} {L : List Chunk} (ok : HeapOk s lo L) :
    (∀ size < 2 ^ 64, MallocRight s L size ↔ SizeServed s L size) ∧
    (∀ nmemb < 2 ^ 64, ∀ size < 2 ^ 64, CallocRight s L nmemb size ↔
      2 ^ 64 ≤ nmemb * size ∨ SizeServed s L (nmemb * size)) := by
  refine ⟨fun size isSize => malloc_right_iff ok isSize, fun nmemb _ size _ => ?_⟩
  have top : sizeMax = 2 ^ 64 - 1 := rfl
  by_cases none : nmemb = 0 ∨ size = 0
  · have product : nmemb * size = 0 := by
      rcases none with rfl | rfl
      · exact Nat.zero_mul _
      · exact Nat.mul_zero _
    refine iff_of_true (calloc_nothing ok ?_) (.inr (.inl (by omega)))
    rcases none with zero | zero
    · exact .inl zero
    · exact .inr (.inl zero)
  by_cases overflow : 2 ^ 64 ≤ nmemb * size
  · exact iff_of_true (calloc_nothing ok (.inr (.inr overflow))) (.inl overflow)
  rw [or_iff_right overflow]
  constructor
  · intro right
    by_contra unserved
    exact calloc_wrong ok none (by omega) unserved right
  · intro served
    exact calloc_right none (by omega) (malloc_right ok (by omega) served)

/-- malloc(SIZE_MAX) is answered with a block. -/
theorem malloc_size_max :
    ∃ s L lo, HeapOk s lo L ∧ ¬ MallocRight s L (2 ^ 64 - 1) := by
  refine ⟨emptyWorld.heap, [], _, emptyWorld_fresh.sound.heap, ?_⟩
  rintro ⟨_, p, s', lo', L', run, ok', _, answer⟩
  have answered : (malloc emptyWorld.heap (2 ^ 64 - 1)).map
      (fun r => (r.1, sizeAt r.2 r.1)) = .ok (4128, 0) := by decide +kernel
  rw [run] at answered
  obtain ⟨isPointer, size⟩ := Prod.mk.inj (Except.ok.inj answered)
  rcases answer with ⟨null, _⟩ | ⟨_, A, B, d, rfl, _, room, rfl, _⟩
  · simp only [null] at isPointer
    cases isPointer
  · simp only at isPointer size
    rw [ok'.held.sizeAt_eq (by simp)] at size
    omega

theorem sizes_served_iff_small :
    MallocRight emptyWorld.heap [] 100 ∧ CallocRight emptyWorld.heap [] 3 (2 ^ 63) := by
  have served := sizes_served_iff emptyWorld_fresh.sound.heap
  exact ⟨(served.1 100 (by decide)).mpr (.inl (by decide)),
    (served.2 3 (by decide) (2 ^ 63) (by decide)).mpr (.inl (by decide))⟩

end Csc457.Malloc
