import Csc457.Malloc.Asks
import Csc457.Malloc.Edits

/-!
# What the calls of the library do to a well-formed heap

One specification for each function of malloc.c, from sbrk up to free.  Each
says that on a heap that satisfies the invariant the call returns, what the
block list is afterwards, and that the payloads in use are left as they were.
-/

set_option autoImplicit false

namespace Csc457.Malloc

open Csc457.Lib.ByteMemory
open Csc457.Lib.Tiling

/-- Largest request the library is verified for: `PTRDIFF_MAX - 15`. -/
def maxRequest : Nat := 2 ^ 63 - 1 - 15

theorem alignedSize_facts {size : Nat} (small : size ≤ maxRequest) :
    size ≤ alignedSize size ∧ alignedSize size ≤ maxRequest ∧
      alignedSize size % alignment = 0 ∧ alignedSize size < size + 16 := by
  have wide : maxRequest = 2 ^ 63 - 16 := rfl
  have unit : alignment = 16 := rfl
  have exactSum : add64 size 15 = size + 15 := add64_of_lt (by omega)
  simp only [alignedSize, exactSum, unit]
  omega

theorem sbrk_cases (s : Heap) (increment : Nat) :
    sbrk s increment = (sbrkFailed, { s with calls := s.calls + 1 }) ∨
      (sbrk s increment = (s.brk, { s with brk := s.brk + increment, calls := s.calls + 1 }) ∧
        s.brk + increment < 2 ^ 64) := by
  unfold sbrk
  split
  · rename_i granted
    have sum : ((s.brk : Int) + (increment : Int)).toNat = s.brk + increment := by omega
    rw [sum]
    exact Or.inr ⟨rfl, by omega⟩
  · exact Or.inl rfl

theorem requestMem_cases {s : Heap} (size : Nat) (positive : 0 < size) (small : size < 2 ^ 63) :
    (∃ s', requestMem s size = (0, s') ∧ (s.brk ≠ 0 → s'.brk = s.brk) ∧ s'.mem = s.mem ∧
        s'.head = s.head ∧ s'.requested = s.requested ∧ (s.brk < 2 ^ 64 → s'.brk < 2 ^ 64)) ∨
      (∃ s', requestMem s size = (s.brk, s') ∧ s.brk ≠ 0 ∧ s.brk + size < 2 ^ 64 ∧
        s'.brk = s.brk + size ∧ s'.mem = s.mem ∧ s'.head = s.head ∧
        s'.requested = s.requested + size) := by
  rw [requestMem, asIntptr_of_lt small]
  rcases sbrk_cases s size with failed | ⟨granted, room⟩
  · refine Or.inl ⟨{ s with calls := s.calls + 1 }, ?_, fun _ => rfl, rfl, rfl, rfl, id⟩
    simp only [failed, if_true]
  · have notFailed : s.brk ≠ sbrkFailed := by
      simp only [sbrkFailed]
      omega
    by_cases atZero : s.brk = 0
    · refine Or.inl ⟨{ s with brk := s.brk + size, calls := s.calls + 1 }, ?_,
        fun real => absurd atZero real, rfl, rfl, rfl, fun _ => room⟩
      simp only [granted, if_neg notFailed, if_pos atZero]
    · refine Or.inr ⟨{ s with
        brk := s.brk + size, calls := s.calls + 1, requested := s.requested + size }, ?_,
        atZero, room, rfl, rfl, rfl, rfl⟩
      simp only [granted, if_neg notFailed, if_neg atZero]

theorem HeapHeld.congr {s s' : Heap} {lo : Nat} {L : List Chunk} (held : HeapHeld s lo L)
    (sameMem : s'.mem = s.mem) (sameHead : s'.head = s.head) (sameBrk : s'.brk = s.brk)
    (sameRequested : s'.requested = s.requested) : HeapHeld s' lo L := by
  refine ⟨sameHead.trans held.headed, ?_, held.aligned, sameRequested.trans held.accounted⟩
  rw [sameMem, sameBrk]
  exact held.placed

theorem HeapOk.congr {s s' : Heap} {lo : Nat} {L : List Chunk} (ok : HeapOk s lo L)
    (sameMem : s'.mem = s.mem) (sameHead : s'.head = s.head) (sameBrk : s'.brk = s.brk)
    (sameRequested : s'.requested = s.requested) : HeapOk s' lo L := by
  refine ⟨sameHead.trans ok.headed, ?_, ok.aligned, ok.settled, sameRequested.trans ok.accounted⟩
  rw [sameMem, sameBrk]
  exact ok.laid

theorem HeapOk.brk_aligned {s : Heap} {lo : Nat} {L : List Chunk} (ok : HeapOk s lo L)
    (some : L ≠ []) : s.brk % alignment = 0 := by
  rcases List.eq_nil_or_concat' L with rfl | ⟨A, c, rfl⟩
  · exact absurd rfl some
  · obtain ⟨mid, _, here, stop⟩ := tiles_append.mp ok.laid.tiles
    have units := ok.aligned c (by simp)
    have stop : c.addr + blockSize + c.size = s.brk := stop
    have wide : blockSize = 32 := rfl
    have unit : alignment = 16 := rfl
    simp only [Aligned, unit] at units ⊢
    omega

theorem alignHeap_aligned {s : Heap} (onUnit : s.brk % alignment = 0) :
    alignHeap s = .ok { s with calls := s.calls + 1 } := by
  unfold alignHeap
  rcases sbrk_cases s 0 with failed | ⟨granted, _⟩
  · simp only [Nat.cast_zero] at failed
    simp only [failed, if_true]
  · simp only [Nat.cast_zero, Nat.add_zero] at granted
    simp only [granted, if_pos onUnit, ite_self]

theorem alignHeap_ok {s : Heap} {lo : Nat} {L : List Chunk} (ok : HeapOk s lo L)
    (some : L ≠ []) : alignHeap s = .ok { s with calls := s.calls + 1 } :=
  alignHeap_aligned (ok.brk_aligned some)

theorem alignAsks_ok {s : Heap} {lo : Nat} {L : List Chunk} (ok : HeapOk s lo L)
    (some : L ≠ []) : alignAsks s = [0] := by
  unfold alignAsks
  rcases sbrk_cases s 0 with failed | ⟨granted, _⟩
  · simp only [Nat.cast_zero] at failed
    simp only [failed, if_true]
  · simp only [Nat.cast_zero, Nat.add_zero] at granted
    simp only [granted]
    split
    · rfl
    · rw [if_pos (ok.brk_aligned some)]

/-- align_heap gets memory to pad with. -/
def Padded (s : Heap) : Prop := s.brk % alignment ≠ 0 ∧ Granted s (alignAsks s)

instance (s : Heap) : Decidable (Padded s) := inferInstanceAs (Decidable (_ ∧ _))

theorem alignHeap_unpadded {s : Heap} (unpadded : ¬ Padded s) :
    ∃ calls, alignHeap s = .ok { s with calls := calls } := by
  by_cases onUnit : s.brk % alignment = 0
  · exact ⟨_, alignHeap_aligned onUnit⟩
  · have refused : ¬ Granted s (alignAsks s) := fun granted => unpadded ⟨onUnit, granted⟩
    have real : s.brk ≠ 0 := fun null => onUnit (by rw [null]; rfl)
    unfold alignAsks at refused
    unfold alignHeap
    rcases sbrk_cases s 0 with failed | ⟨granted, _⟩
    · simp only [Nat.cast_zero] at failed
      simp only [failed, if_true]
      exact ⟨_, rfl⟩
    · simp only [Nat.cast_zero, Nat.add_zero] at granted
      simp only [granted] at refused ⊢
      by_cases atTop : s.brk = sbrkFailed
      · rw [if_pos atTop]
        exact ⟨_, rfl⟩
      · simp only [if_neg atTop, if_neg onUnit, Granted, granted] at refused ⊢
        have small : alignment - s.brk % alignment < 2 ^ 63 := by
          have unit : alignment = 16 := rfl
          omega
        rw [asIntptr_of_lt small] at refused ⊢
        rcases sbrk_cases { s with calls := s.calls + 1 } (alignment - s.brk % alignment) with
          failed | ⟨moved, _⟩
        · simp only [failed, if_true]
          exact ⟨_, rfl⟩
        · simp only [moved] at refused
          exact absurd ⟨atTop, real, atTop, real, trivial⟩ refused

/-! ## init_heap -/

structure Untouched (s : Heap) : Prop where
  headless : s.head = 0
  nothing : s.requested = 0
  bounded : s.brk < 2 ^ 64

theorem HeapOk.of_untouched {s : Heap} (new : Untouched s) : HeapOk s s.brk [] :=
  ⟨new.headless, ⟨trivial, rfl, fun none => absurd rfl none, new.bounded⟩, by simp,
    List.isChain_nil, new.nothing⟩

theorem HeapOk.untouched {s : Heap} {lo : Nat} (ok : HeapOk s lo []) : Untouched s :=
  ⟨ok.headed, ok.accounted, ok.laid.bounded⟩

/-- The first block after a successful init_heap. -/
def firstBlock (addr : Nat) : Chunk := ⟨addr, stdChunkSize - blockSize, true⟩

theorem firstBlock_facts (addr : Nat) :
    (firstBlock addr).stop blockSize = addr + stdChunkSize ∧
      (firstBlock addr).size % alignment = 0 ∧
      total blockSize [firstBlock addr] = stdChunkSize := by
  have chunk : stdChunkSize = 65536 := rfl
  have wide : blockSize = 32 := rfl
  have unit : alignment = 16 := rfl
  have size : (firstBlock addr).size = 65504 := rfl
  have start : (firstBlock addr).addr = addr := rfl
  simp only [Chunk.stop, total_cons, total_nil, size, start, unit, true_and]
  omega

theorem requestFirstBlock_spec {s : Heap} (new : Untouched s) (onUnit : s.brk % alignment = 0) :
    (∃ s', requestFirstBlock s = .ok (0, s') ∧ Untouched s') ∨
      ∃ b s', requestFirstBlock s = .ok (b, s') ∧ b ≠ 0 ∧ s.brk ≤ b ∧
        HeapOk { s' with head := b } b [firstBlock b] := by
  unfold requestFirstBlock
  rcases requestMem_cases (s := s) stdChunkSize (by decide) (by decide) with
    ⟨s', failed, _, _, sameHead, sameRequested, bounded⟩ |
    ⟨s', granted, real, room, moved, _, sameHead, counted⟩
  · refine Or.inl ⟨s', ?_, sameHead.trans new.headless, sameRequested.trans new.nothing,
      bounded new.bounded⟩
    simp only [failed, if_true]
  · obtain ⟨stop, unit, bytes⟩ := firstBlock_facts s.brk
    refine Or.inr ⟨s.brk,
      { s' with mem := newHeader s'.mem s.brk 0 (stdChunkSize - blockSize) }, ?_, real,
      le_refl _, ?_⟩
    · simp only [granted, if_neg real, writeNext_ok real, writePrev_ok real, writeSize_ok real,
        writeFree_ok real, ok_bind]
      rfl
    · have placed : Placed (newHeader s'.mem s.brk 0 (stdChunkSize - blockSize)) s.brk
          [firstBlock s.brk] ((firstBlock s.brk).stop blockSize) := by
        apply newHeader_first (by omega)
        change (firstBlock s.brk).stop blockSize < 2 ^ 64
        omega
      have laid := placed.laid ⟨rfl, rfl⟩
      refine ⟨rfl, ?_, ?_, List.isChain_singleton _, ?_⟩
      · rw [stop] at laid
        simpa only [moved] using laid
      · intro c member
        rw [List.mem_singleton] at member
        subst member
        exact ⟨onUnit, unit⟩
      · change s'.requested = _
        rw [counted, new.nothing, bytes, Nat.zero_add]

theorem initHeap_spec {s : Heap} (new : Untouched s) :
    (∃ s', initHeap s = .ok (0, s') ∧ Untouched s') ∨
      ∃ b s', initHeap s = .ok (b, s') ∧ b ≠ 0 ∧ s.brk ≤ b ∧
        HeapOk { s' with head := b } b [firstBlock b] := by
  have unit : alignment = 16 := rfl
  have asked : Untouched { s with calls := s.calls + 1 } := ⟨new.headless, new.nothing, new.bounded⟩
  unfold initHeap
  rcases sbrk_cases s 0 with failed | ⟨granted, _⟩
  · simp only [Nat.cast_zero] at failed
    refine Or.inl ⟨_, ?_, asked⟩
    simp only [failed, if_true]
  · simp only [Nat.cast_zero, Nat.add_zero] at granted
    simp only [granted]
    by_cases atTop : s.brk = sbrkFailed
    · rw [if_pos atTop]
      exact Or.inl ⟨_, rfl, asked⟩
    · rw [if_neg atTop]
      by_cases onUnit : s.brk % alignment = 0
      · rw [if_neg (by simpa using onUnit)]
        exact requestFirstBlock_spec asked onUnit
      · rw [if_pos onUnit]
        have small : alignment - s.brk % alignment < 2 ^ 63 := by omega
        rw [asIntptr_of_lt small]
        rcases sbrk_cases { s with calls := s.calls + 1 } (alignment - s.brk % alignment) with
          refused | ⟨moved, room⟩
        · simp only [refused, if_true]
          exact Or.inl ⟨_, rfl, new.headless, new.nothing, new.bounded⟩
        · simp only [moved, if_neg atTop]
          have started := requestFirstBlock_spec (s := { s with
            brk := s.brk + (alignment - s.brk % alignment), calls := s.calls + 1 + 1 })
            ⟨new.headless, new.nothing, room⟩ (by simp only [unit]; omega)
          rcases started with failed | ⟨b, s', run, real, low, ok⟩
          · exact Or.inl failed
          · exact Or.inr ⟨b, s', run, real, (Nat.le_add_right _ _).trans low, ok⟩

theorem flag_ne_zero (b : Bool) : flag b ≠ 0 ↔ b = true := by cases b <;> simp [flag]

theorem scan_spec {m : Memory} {n fuel p : Nat} {L : List Chunk} (linked : Linked m p L 0)
    (real : ∀ c ∈ L, c.addr ≠ 0) (enough : L.length < fuel) :
    scan m n fuel (firstAddr 0 L) p = .ok (match firstFit n L with
      | some (A, c, _) => (c.addr, lastAddr p A)
      | none => (0, lastAddr p L)) := by
  induction L generalizing fuel p with
  | nil =>
      cases fuel with
      | zero => simp at enough
      | succ fuel => simp [scan, firstAddr, firstFit, lastAddr]
  | cons c L ih =>
      cases fuel with
      | zero => simp at enough
      | succ fuel =>
          obtain ⟨here, rest⟩ := linked
          have cReal : c.addr ≠ 0 := real c (by simp)
          have enoughRest : L.length < fuel := by simpa using enough
          have tail := ih rest (fun d member => real d (by simp [member])) enoughRest
          simp only [scan, firstAddr_cons, if_neg cReal, readFree_ok cReal, readSize_ok cReal,
            readNext_ok cReal, ok_bind, here, flag_ne_zero]
          by_cases fits : c.free = true ∧ n ≤ c.size
          · have taken : (c.free && decide (n ≤ c.size)) = true := by simp [fits.1, fits.2]
            rw [if_pos fits]
            simp only [firstFit, taken, if_true, lastAddr]
            rfl
          · have skip : (c.free && decide (n ≤ c.size)) = false := by
              rw [Bool.eq_false_iff]
              simpa [Bool.and_eq_true] using fits
            rw [if_neg fits, tail]
            simp only [firstFit, skip, Bool.false_eq_true, if_false]
            cases firstFit n L with
            | none => rfl
            | some z => rfl

theorem HeapOk.well {s : Heap} {lo : Nat} {L : List Chunk} (ok : HeapOk s lo L) :
    WellTiled blockSize alignment lo L s.brk :=
  ⟨ok.laid.tiles, ok.aligned, ok.settled⟩

theorem HeapHeld.edited {s : Heap} {lo : Nat} {L L' : List Chunk} {m' : Memory}
    (held : HeapHeld s lo L) (placed : Placed m' lo L' s.brk)
    (aligned : ∀ c ∈ L', Aligned alignment c) (first : firstAddr 0 L' = firstAddr 0 L)
    (bytes : total blockSize L' = total blockSize L) : HeapHeld { s with mem := m' } lo L' :=
  ⟨held.headed.trans first.symm, placed, aligned, held.accounted.trans bytes.symm⟩

/-- How much a request for `n` bytes that found no block asks sbrk for. -/
def growth (n : Nat) : Nat := if stdChunkSize < n then n else stdChunkSize

def newBlock (addr n : Nat) : Chunk := ⟨addr, growth n - blockSize, true⟩

theorem growth_facts {n : Nat} (small : n ≤ maxRequest) (unit : n % alignment = 0) :
    stdChunkSize ≤ growth n ∧ n ≤ growth n ∧ growth n < 2 ^ 63 ∧
      (growth n - blockSize) % alignment = 0 ∧ blockSize ≤ growth n := by
  have chunk : stdChunkSize = 65536 := rfl
  have wide : blockSize = 32 := rfl
  have sixteen : alignment = 16 := rfl
  have top : maxRequest = 2 ^ 63 - 16 := rfl
  simp only [growth, sixteen] at unit ⊢
  split <;> omega

theorem OnlyHeaders.mono {L K : List Chunk} {m m' : Memory} (only : OnlyHeaders L m m')
    (within : ∀ c ∈ L, ∃ d ∈ K, d.addr = c.addr) : OnlyHeaders K m m' := by
  intro x outside
  apply only
  intro c member
  obtain ⟨d, inK, same⟩ := within c member
  rw [← same]
  exact outside d inK

theorem growHeap_held {s : Heap} {lo n : Nat} {L : List Chunk} (held : HeapHeld s lo L)
    (some : L ≠ []) (small : n ≤ maxRequest) (unit : n % alignment = 0)
    (onUnit : s.brk % alignment = 0) :
    (∃ s', growHeap s (lastAddr 0 L) n = .ok (false, s') ∧ HeapHeld s' lo L ∧
        s'.mem = s.mem ∧ s'.brk = s.brk) ∨
      ∃ s', growHeap s (lastAddr 0 L) n = .ok (true, s') ∧
        HeapHeld s' lo (join blockSize L [newBlock s.brk n]) ∧ s'.brk = s.brk + growth n ∧
        Kept L s.mem s'.mem := by
  obtain ⟨_, _, growthSmall, growthUnit, growthHeader⟩ := growth_facts small unit
  have wide : blockSize = 32 := rfl
  rcases List.eq_nil_or_concat' L with rfl | ⟨A, c, rfl⟩
  · exact absurd rfl some
  have cReal : c.addr ≠ 0 := held.placed.real (by simp)
  have cBounds := held.placed.bounds (c := c) (by simp)
  have prevIs : lastAddr 0 (A ++ [c]) = c.addr := by simp [lastAddr]
  have newSize : (if stdChunkSize < n then n else stdChunkSize) = growth n := rfl
  simp only [growHeap, prevIs, newSize]
  rcases requestMem_cases (s := s) (growth n) (by omega) growthSmall with
    ⟨s', failed, sameBrk, sameMem, sameHead, sameRequested, _⟩ |
    ⟨s', granted, real, room, moved, sameMem, sameHead, counted⟩
  · have still := sameBrk (by omega)
    refine Or.inl ⟨s', ?_, held.congr sameMem sameHead still sameRequested, sameMem, still⟩
    simp only [failed, if_true]
  · right
    have subExact : sub64 (growth n) blockSize = growth n - blockSize :=
      sub64_of_le growthHeader (by omega)
    have stop : s.brk + blockSize + (growth n - blockSize) = s.brk + growth n := by omega
    have stopSmall : s.brk + blockSize + (growth n - blockSize) < 2 ^ 64 := by omega
    obtain ⟨placed, only⟩ := newHeader_concat (d := newBlock s.brk n)
      held.placed rfl stopSmall
    rw [stop] at placed
    have cHeader := placed.linked.header
    have aligned := aligned_join (h := blockSize) (by decide) held.aligned
      (List.forall_mem_singleton.mpr
        (show Aligned alignment (newBlock s.brk n) from ⟨onUnit, growthUnit⟩))
    have bytes : s'.requested =
        total blockSize (join blockSize (A ++ [c]) [newBlock s.brk n]) := by
      have size : (newBlock s.brk n).size = growth n - blockSize := rfl
      rw [total_join, counted, held.accounted, total_cons, total_nil, size]
      omega
    have head : s'.head = firstAddr 0 (join blockSize (A ++ [c]) [newBlock s.brk n]) := by
      rw [sameHead, held.headed, firstAddr_join]
      simp only [firstAddr_append, firstAddr_cons]
    obtain ⟨m', run, placed', only'⟩ := joinPrev_placed rfl placed
    have whole : OnlyHeaders (A ++ c :: [newBlock s.brk n]) s.mem m' := by
      refine only.trans (only'.mono ?_)
      intro x member
      obtain ⟨y, inBoth, same⟩ := join_addr member
      exact ⟨y, by simpa using inBoth, same⟩
    refine ⟨{ s' with mem := m' }, ?_, ⟨head, by simpa only [moved] using placed', aligned, bytes⟩,
      moved, (placed.kept whole).subset (by simp)⟩
    have fields : setNext (setFree (setSize (setPrev (setNext s'.mem s.brk 0) s.brk c.addr) s.brk
        (growth n - blockSize)) s.brk 1) c.addr s.brk =
        setNext (newHeader s.mem s.brk c.addr (growth n - blockSize)) c.addr s.brk := by
      rw [newHeader, sameMem]
    simp only [granted, if_neg real, writeNext_ok real, writePrev_ok real, writeSize_ok real,
      writeFree_ok real, ok_bind, subExact, if_neg cReal, writeNext_ok cReal, readFree_ok cReal,
      fields, cHeader]
    by_cases apart : flag c.free = 0
    · rw [if_pos apart] at run
      simp only [apart, ne_eq, not_true_eq_false, if_false]
      rw [← Except.ok.inj run]
      rfl
    · rw [if_neg apart] at run
      have run : absorbBlock (setNext (newHeader s.mem s.brk c.addr (growth n - blockSize))
          c.addr s.brk) c.addr s.brk = .ok m' := run
      simp only [apart, ne_eq, not_false_eq_true, if_true, run, ok_bind]
      rfl

theorem growHeap_spec {s : Heap} {lo n : Nat} {L : List Chunk} (ok : HeapOk s lo L)
    (some : L ≠ []) (small : n ≤ maxRequest) (unit : n % alignment = 0) :
    (∃ s', growHeap s (lastAddr 0 L) n = .ok (false, s') ∧ HeapOk s' lo L ∧
        s'.mem = s.mem) ∨
      ∃ s', growHeap s (lastAddr 0 L) n = .ok (true, s') ∧
        HeapOk s' lo (join blockSize L [newBlock s.brk n]) ∧
        Kept L s.mem s'.mem := by
  obtain ⟨_, _, _, growthUnit, growthHeader⟩ := growth_facts small unit
  have onUnit := ok.brk_aligned some
  have well := ok.well.extend (d := newBlock s.brk n) (by decide) rfl ⟨onUnit, growthUnit⟩
  rcases growHeap_held ok.held some small unit onUnit with
    ⟨s', run, held, same, still⟩ | ⟨s', run, held, moved, kept⟩
  · refine Or.inl ⟨s', run, held.ok ?_, same⟩
    rw [still]
    exact ok.well
  · refine Or.inr ⟨s', run, held.ok ?_, kept⟩
    have stop : (newBlock s.brk n).stop blockSize = s'.brk := by
      rw [moved]
      simp only [Chunk.stop, newBlock]
      omega
    rwa [← stop]

/-! ## malloc -/

theorem HeapHeld.scanned {s : Heap} {lo : Nat} {L : List Chunk} (held : HeapHeld s lo L)
    (n : Nat) : scan s.mem n walkLimit s.head 0 = .ok (match firstFit n L with
      | some (A, c, _) => (c.addr, lastAddr 0 A)
      | none => (0, lastAddr 0 L)) := by
  rw [held.headed]
  exact scan_spec held.placed.linked (fun c member => held.placed.real member)
    held.placed.length_lt

theorem HeapHeld.take {s : Heap} {lo n : Nat} {A B : List Chunk} {c : Chunk}
    (held : HeapHeld s lo (A ++ c :: B)) (unit : n % alignment = 0) (isFree : c.free = true)
    (room : n ≤ c.size) :
    ∃ m', takeBlock s.mem c.addr n = .ok m' ∧
      HeapHeld { s with mem := m' } lo (A ++ carve blockSize alignment n c ++ B) ∧
      Kept (busy (A ++ c :: B)) s.mem m' := by
  have cBounds := held.placed.bounds (c := c) (by simp)
  have cAligned := held.aligned c (by simp)
  have high : alignment ≤ c.addr := by
    have place := cAligned.1
    have sixteen : alignment = 16 := rfl
    rw [sixteen] at place ⊢
    omega
  obtain ⟨m', run, placed', only⟩ := takeBlock_placed room high held.placed
  refine ⟨m', run, held.edited placed' ?_ ?_ ?_, (placed'.kept only).subset ?_⟩
  · intro x member
    simp only [List.mem_append] at member
    rcases member with (member | member) | member
    · exact held.aligned x (by simp [member])
    · exact aligned_carve cAligned (by decide) unit x member
    · exact held.aligned x (by simp [member])
  · simp only [firstAddr_append, firstAddr_cons, carve]
    split <;> rfl
  · simp only [total_append, total_carve, total_cons, total_nil]
    omega
  · intro x member
    rw [busy_append, busy_cons_free B isFree] at member
    rcases List.mem_append.mp member with member | member
    · simp [(mem_busy.mp member).1]
    · simp [(mem_busy.mp member).1]

/-- Where a block fits, the pass takes the first such block and asks for nothing. -/
theorem mallocPass_fits {s : Heap} {lo n : Nat} {A B : List Chunk} {c : Chunk}
    (retry : Heap → Except Fault (Nat × Heap)) (asks : Heap → List Int)
    (ok : HeapOk s lo (A ++ c :: B)) (unit : n % alignment = 0)
    (found : firstFit n (A ++ c :: B) = some (A, c, B)) :
    ∃ s', mallocPass retry s n = .ok (c.payload blockSize, s') ∧ passAsks asks s n = [0] ∧
      HeapOk s' lo (A ++ carve blockSize alignment n c ++ B) ∧
      Kept (busy (A ++ c :: B)) s.mem s'.mem := by
  obtain ⟨_, isFree, room, _⟩ := firstFit_some found
  have cReal : c.addr ≠ 0 := ok.laid.real (by simp)
  have cBounds := ok.laid.bounds (c := c) (by simp)
  have bounded := ok.laid.bounded
  have scanned := ok.held.scanned n
  rw [found] at scanned
  have asked : HeapHeld { s with calls := s.calls + 1 } lo (A ++ c :: B) :=
    ok.held.congr rfl rfl rfl rfl
  obtain ⟨m', run, held', kept⟩ := asked.take unit isFree room
  have well := ok.well.carve (n := n) (by decide) isFree unit
  refine ⟨{ s with mem := m', calls := s.calls + 1 }, ?_, ?_, held'.ok well, kept⟩
  · simp only [mallocPass, alignHeap_ok ok (by simp), ok_bind, scanned, ne_eq, cReal,
      not_false_eq_true, if_true, run, add64_of_lt (show c.addr + blockSize < 2 ^ 64 by omega)]
    rfl
  · simp only [passAsks, alignHeap_ok ok (by simp), alignAsks_ok ok (by simp), scanned, ne_eq,
      cReal, not_false_eq_true, if_true, List.append_nil]

/-- One pass of malloc on an initialised heap: it takes the first fit, or the
heap cannot grow, or the heap has grown at its end and the call is made again. -/
theorem mallocPass_spec {s : Heap} {lo n : Nat} {L : List Chunk}
    (retry : Heap → Except Fault (Nat × Heap)) (asks : Heap → List Int) (ok : HeapOk s lo L)
    (some : L ≠ []) (small : n ≤ maxRequest) (unit : n % alignment = 0) :
    (∃ A c B s', firstFit n L = .some (A, c, B) ∧
        mallocPass retry s n = .ok (c.payload blockSize, s') ∧ passAsks asks s n = [0] ∧
        HeapOk s' lo (A ++ carve blockSize alignment n c ++ B) ∧ Kept (busy L) s.mem s'.mem) ∨
      (firstFit n L = none ∧ ¬ Granted (sbrk s 0).2 [growAsk n] ∧
        ∃ s', mallocPass retry s n = .ok (0, s') ∧ passAsks asks s n = [0, growAsk n] ∧
          HeapOk s' lo L ∧ s'.mem = s.mem) ∨
      (firstFit n L = none ∧ Granted (sbrk s 0).2 [growAsk n] ∧
        ∃ s', mallocPass retry s n = retry s' ∧ passAsks asks s n = 0 :: growAsk n :: asks s' ∧
          SameKernel (replay s [0, growAsk n]) s' ∧
          HeapOk s' lo (join blockSize L [newBlock s.brk n]) ∧ Kept L s.mem s'.mem) := by
  have asked : HeapOk { s with calls := s.calls + 1 } lo L := ok.congr rfl rfl rfl rfl
  cases found : firstFit n L with
  | some z =>
      obtain ⟨A, c, B⟩ := z
      obtain ⟨rfl, _⟩ := firstFit_some found
      obtain ⟨s', run, asked, ok', kept⟩ := mallocPass_fits retry asks ok unit found
      exact Or.inl ⟨A, c, B, s', rfl, run, asked, ok', kept⟩
  | none =>
      right
      have scanned := ok.held.scanned n
      rw [found] at scanned
      have still : SameKernel { s with calls := s.calls + 1 } (sbrk s 0).2 := sbrk_zero s
      simp only [mallocPass, passAsks, alignHeap_ok ok some, alignAsks_ok ok some, ok_bind,
        scanned, ne_eq, not_true_eq_false, if_false]
      rcases growHeap_spec asked some small unit with
        ⟨s', run, ok', same⟩ | ⟨s', run, ok', kept⟩
      · refine Or.inl ⟨trivial, ?_, s', ?_, ?_, ok', same⟩
        · rw [still.granted_iff, ← (growHeap_replays run).2]
          decide
        · simp only [run, ok_bind, Bool.false_eq_true, if_false]
          rfl
        · simp only [run]
          rfl
      · refine Or.inr ⟨trivial, ?_, s', ?_, ?_, ?_, ok', kept⟩
        · rw [still.granted_iff, ← (growHeap_replays run).2]
        · simp only [run, ok_bind, if_true]
        · simp only [run]
          rfl
        · exact (still.symm.replay [growAsk n]).trans (growHeap_replays run).1

/-- `k` extensions of the heap, each made because no block fits, take the first
list to the second. -/
inductive Grown (n : Nat) : Nat → List Chunk → List Chunk → Prop where
  | done (L : List Chunk) : Grown n 0 L L
  | more {k : Nat} {L L' : List Chunk} {brk : Nat} (missing : firstFit n L = none)
      (rest : Grown n k (join blockSize L [newBlock brk n]) L') : Grown n (k + 1) L L'

/-- What a request for `n` bytes answers on a list, and the list it leaves. -/
inductive Allocated (n : Nat) (L : List Chunk) : Nat → List Chunk → Prop where
  | taken {A B : List Chunk} {c : Chunk} (found : firstFit n L = some (A, c, B)) :
      Allocated n L (c.payload blockSize) (A ++ carve blockSize alignment n c ++ B)
  | refused (missing : firstFit n L = none) : Allocated n L 0 L

theorem Grown.busy_eq {n k : Nat} {L L' : List Chunk} (grown : Grown n k L L') :
    busy L' = busy L := by
  induction grown with
  | done L => rfl
  | @more k L L' brk _ _ ih =>
      rw [ih, busy_join, busy_cons_free (c := newBlock brk n) [] rfl, busy_nil, List.append_nil]

theorem grown_twice_fits {n brk brk' : Nat} {L : List Chunk} (small : n ≤ maxRequest)
    (unit : n % alignment = 0) :
    firstFit n (join blockSize (join blockSize L [newBlock brk n]) [newBlock brk' n]) ≠ none := by
  obtain ⟨_, enough, _, _, header⟩ := growth_facts small unit
  obtain ⟨A, c, first, cFree, _, _⟩ := join_free_last (h := blockSize) (L := L)
    (d := newBlock brk n) rfl
  obtain ⟨A', c', second, cFree', _, larger⟩ := join_free_last (h := blockSize) (L := A ++ [c])
    (d := newBlock brk' n) rfl
  rw [first, second]
  intro missing
  have size : (newBlock brk' n).size = growth n - blockSize := rfl
  have grew := larger c (by simp) cFree
  exact firstFit_none missing c' (by simp) ⟨cFree', by omega⟩

theorem Grown.twice_fits {n : Nat} {L L' : List Chunk} (small : n ≤ maxRequest)
    (unit : n % alignment = 0) (grown : Grown n 2 L L') : firstFit n L' ≠ none := by
  cases grown with
  | more _ rest =>
      cases rest with
      | more _ rest =>
          cases rest with
          | done => exact grown_twice_fits small unit

theorem walkLimit_eq {k : Nat} (few : k ≤ 3) : ∃ depth, walkLimit = depth + k := by
  refine ⟨walkLimit - k, ?_⟩
  simp only [walkLimit]
  omega

theorem mallocFrom_headed {s : Heap} {lo : Nat} {L : List Chunk} (held : HeapHeld s lo L)
    (some : L ≠ []) (depth size : Nat) :
    mallocFrom (depth + 1) s size =
        mallocPass (fun s => mallocFrom depth s size) s (alignedSize size) ∧
      mallocAsksFrom (depth + 1) s size =
        passAsks (fun s => mallocAsksFrom depth s size) s (alignedSize size) := by
  have headed : s.head ≠ 0 := by
    obtain ⟨c, rest, rfl⟩ := List.exists_cons_of_ne_nil some
    rw [held.headed]
    exact held.placed.real (by simp)
  rw [mallocFrom, if_neg headed, mallocAsksFrom, if_neg headed]
  exact ⟨rfl, rfl⟩

theorem payload_real (c : Chunk) : c.payload blockSize ≠ 0 := by
  have wide : blockSize = 32 := rfl
  simp only [Chunk.payload]
  omega

/-- The asks of `k` extensions, each with the question where the break is after it,
and of the one that is refused when the answer is NULL. -/
def passesAsks (n k p : Nat) : List Int :=
  0 :: ((List.replicate k [growAsk n, 0]).flatten ++ if p = 0 then [growAsk n] else [])

theorem passesAsks_succ (n k p : Nat) :
    passesAsks n (k + 1) p = 0 :: growAsk n :: passesAsks n k p := by
  simp [passesAsks, List.replicate_succ]

/-- Where `more` extensions always make room, malloc returns after at most that
many.  The induction is on the extensions still to come. -/
theorem mallocPass_total {lo size : Nat} (depth : Nat) (small : size ≤ maxRequest) (more : Nat) :
    ∀ {s : Heap} {L : List Chunk}, HeapOk s lo L → L ≠ [] →
      (∀ L₁, Grown (alignedSize size) more L L₁ → firstFit (alignedSize size) L₁ ≠ none) →
      ∃ p s' k L₁ L',
        mallocPass (fun s => mallocFrom (depth + more) s size) s (alignedSize size) =
          .ok (p, s') ∧ k ≤ more ∧ Grown (alignedSize size) k L L₁ ∧
        Allocated (alignedSize size) L₁ p L' ∧ HeapOk s' lo L' ∧ Kept (busy L) s.mem s'.mem ∧
        passAsks (fun s => mallocAsksFrom (depth + more) s size) s (alignedSize size) =
          passesAsks (alignedSize size) k p ∧
        (p = 0 → ¬ Granted s (passesAsks (alignedSize size) k p)) := by
  obtain ⟨_, alignedSmall, unit, _⟩ := alignedSize_facts small
  have taken : ∀ c : Chunk, passesAsks (alignedSize size) 0 (c.payload blockSize) = [0] :=
    fun c => by simp [passesAsks, payload_real]
  induction more with
  | zero =>
      intro s L ok some room
      rcases mallocPass_spec (fun s => mallocFrom (depth + 0) s size)
          (fun s => mallocAsksFrom (depth + 0) s size) ok some alignedSmall unit with
        ⟨A, c, B, s', found, run, asks, ok', kept⟩ | ⟨missing, _⟩ | ⟨missing, _⟩
      · exact ⟨_, s', 0, _, _, run, le_refl _, .done _, .taken found, ok', kept,
          asks.trans (taken c).symm, fun null => absurd null (payload_real c)⟩
      · exact absurd missing (room L (.done L))
      · exact absurd missing (room L (.done L))
  | succ more ih =>
      intro s L ok some room
      rcases mallocPass_spec (fun s => mallocFrom (depth + (more + 1)) s size)
          (fun s => mallocAsksFrom (depth + (more + 1)) s size) ok some alignedSmall unit with
        ⟨A, c, B, s', found, run, asks, ok', kept⟩ |
        ⟨missing, refused, s', run, asks, ok', same⟩ |
        ⟨missing, _, s', run, asks, kernel, ok', kept⟩
      · exact ⟨_, s', 0, _, _, run, by omega, .done _, .taken found, ok', kept,
          asks.trans (taken c).symm, fun null => absurd null (payload_real c)⟩
      · refine ⟨0, s', 0, L, L, run, by omega, .done L, .refused missing, ok', ?_, asks, ?_⟩
        · intro c _ x _ _
          rw [same]
        · intro _ granted
          exact refused granted.2.2
      · obtain ⟨A, c, last, _⟩ := join_free_last (h := blockSize) (L := L)
          (d := newBlock s.brk (alignedSize size)) rfl
        have some' : join blockSize L [newBlock s.brk (alignedSize size)] ≠ [] := by simp [last]
        obtain ⟨p, s'', k, L₁, L', run', within, grown, answered, ok'', kept', asks', refused⟩ :=
          ih ok' some' fun L₁ grown => room L₁ (.more missing grown)
        obtain ⟨again, asksAgain⟩ := mallocFrom_headed ok'.held some' (depth + more) size
        rw [busy_join, busy_cons_free (c := newBlock s.brk (alignedSize size)) [] rfl, busy_nil,
          List.append_nil] at kept'
        refine ⟨p, s'', k + 1, L₁, L', ?_, by omega, .more missing grown, answered, ok'',
          (kept.subset fun c member => (mem_busy.mp member).1).trans kept', ?_, ?_⟩
        · rw [run, ← Nat.add_assoc, again, run']
        · rw [asks, passesAsks_succ, ← Nat.add_assoc, asksAgain, asks']
        · intro null granted
          rw [passesAsks_succ] at granted
          apply refused null
          rw [kernel.granted_iff]
          exact ((granted_append [0, growAsk (alignedSize size)] _).mp granted).2

/-- NULL leaves the blocks in use as they are; any other answer is the payload
of one new block among them, of at least `n` bytes. -/
def Answer (n : Nat) (L L' : List Chunk) (p : Nat) : Prop :=
  (p = 0 ∧ busy L' = busy L) ∨
    (p ≠ 0 ∧ ∃ A B d, p = d.payload blockSize ∧ d.free = false ∧ n ≤ d.size ∧
      L' = A ++ d :: B ∧ busy L = busy A ++ busy B)

theorem Answer.mono {n n' p : Nat} {L L' : List Chunk} (answer : Answer n L L' p) (le : n' ≤ n) :
    Answer n' L L' p := by
  rcases answer with refused | ⟨real, A, B, d, start, dBusy, room, split, same⟩
  · exact Or.inl refused
  · exact Or.inr ⟨real, A, B, d, start, dBusy, le.trans room, split, same⟩

theorem Allocated.answer {n p : Nat} {L L' : List Chunk} (answered : Allocated n L p L') :
    Answer n L L' p := by
  cases answered with
  | refused _ => exact Or.inl ⟨rfl, rfl⟩
  | @taken A B c found =>
      obtain ⟨rfl, isFree, room, _⟩ := firstFit_some found
      obtain ⟨d, rest, carved, free, start, dBusy, large, _⟩ :=
        carve_cases (h := blockSize) (by decide) alignment room
      have split : A ++ carve blockSize alignment n c ++ B = A ++ d :: (rest ++ B) := by
        simp [carved]
      rw [split]
      refine Or.inr ⟨payload_real c, A, rest ++ B, d, ?_, dBusy, large, rfl, ?_⟩
      · rw [Chunk.payload, Chunk.payload, start]
      · rw [busy_append, busy_append, busy_cons_free B isFree, free, List.nil_append]

/-- How a call of malloc starts: on the list as it is, or with init_heap. -/
inductive Started (s : Heap) : List Chunk → List Int → List Chunk → Prop where
  | headed {L : List Chunk} (some : L ≠ []) : Started s L [] L
  | first (b : Nat) (granted : Granted s (initAsks s)) :
      Started s [] (initAsks s) [firstBlock b]

theorem Started.busy_eq {s : Heap} {L L₀ : List Chunk} {asks : List Int}
    (started : Started s L asks L₀) : busy L₀ = busy L := by
  cases started with
  | headed _ => rfl
  | first b _ => exact busy_cons_free [] rfl

/-- A call of malloc from start to end: the list after init_heap, the list after
`k` extensions, and the list it leaves. -/
inductive Ran (s : Heap) (n : Nat) (L : List Chunk) : Nat → List Int → List Chunk → Prop where
  | noHeap (none : L = []) (refused : ¬ Granted s (initAsks s)) : Ran s n L 0 (initAsks s) []
  | ran {p k : Nat} {asks : List Int} {L₀ L₁ L' : List Chunk} (started : Started s L asks L₀)
      (within : k ≤ 2) (grown : Grown n k L₀ L₁) (answered : Allocated n L₁ p L')
      (refused : p = 0 → ¬ Granted s (asks ++ passesAsks n k p)) :
      Ran s n L p (asks ++ passesAsks n k p) L'

/-- malloc returns on every well-formed heap, initialised or not, after at most two
extensions.  The blocks in use keep their payloads. -/
theorem malloc_run {s : Heap} {lo size : Nat} {L : List Chunk} (ok : HeapOk s lo L)
    (small : size ≤ maxRequest) :
    ∃ p s' lo' L', malloc s size = .ok (p, s') ∧ HeapOk s' lo' L' ∧
      Kept (busy L) s.mem s'.mem ∧ Ran s (alignedSize size) L p (mallocAsks s size) L' := by
  obtain ⟨_, alignedSmall, unit, _⟩ := alignedSize_facts small
  obtain ⟨depth, isLimit⟩ := walkLimit_eq (Nat.le_refl 3)
  have headed : ∀ {s : Heap} {lo : Nat} {L : List Chunk} (ok : HeapOk s lo L) (some : L ≠ []), _ :=
    fun ok some => mallocPass_total depth small 2 ok some
      fun L₁ grown => grown.twice_fits alignedSmall unit
  rw [malloc, mallocAsks, isLimit]
  cases L with
  | cons c L =>
      obtain ⟨p, s', k, L₁, L', run, within, grown, answered, ok', kept, asks, refused⟩ :=
        headed ok (by simp)
      obtain ⟨first, firstAsks⟩ := mallocFrom_headed ok.held (by simp) (depth + 2) size
      refine ⟨p, s', lo, L', by rw [first, run], ok', kept, ?_⟩
      rw [firstAsks, asks]
      rw [← List.nil_append (passesAsks _ _ _)]
      exact .ran (.headed (by simp)) within grown answered refused
  | nil =>
      have new := ok.untouched
      have nothing : ∀ m : Memory, Kept (busy []) s.mem m := by
        intro m c member
        simp at member
      rw [mallocFrom, if_pos new.headless, mallocAsksFrom, if_pos new.headless]
      rcases initHeap_spec new with ⟨s', run, new'⟩ | ⟨b, s', run, real, _, ok'⟩
      · refine ⟨0, { s' with head := 0 }, s'.brk, [], ?_, ?_, nothing _, ?_⟩
        · simp only [run, ok_bind, if_true]
          rfl
        · exact HeapOk.of_untouched ⟨rfl, new'.nothing, new'.bounded⟩
        · simp only [run, if_true, List.append_nil]
          exact .noHeap rfl fun granted => (initHeap_replays run).2.mpr granted rfl
      · obtain ⟨p, s'', k, L₁, L', pass, within, grown, answered, ok'', _, asks, refused⟩ :=
          headed ok' (by simp)
        obtain ⟨kernel, granted⟩ := initHeap_replays run
        have kernel : SameKernel (replay s (initAsks s)) { s' with head := b } :=
          ⟨kernel.brk, kernel.grant, kernel.calls⟩
        refine ⟨p, s'', b, L', ?_, ok'', nothing _, ?_⟩
        · simp only [run, ok_bind, if_neg real, pass]
        · simp only [run, if_neg real, asks]
          refine .ran (.first b (granted.mp real)) within grown answered ?_
          intro null all
          apply refused null
          rw [kernel.granted_iff]
          exact ((granted_append _ _).mp all).2

theorem Ran.answer {s : Heap} {n p : Nat} {asks : List Int} {L L' : List Chunk}
    (ran : Ran s n L p asks L') : Answer n L L' p := by
  cases ran with
  | noHeap none _ => exact Or.inl ⟨rfl, by rw [none]⟩
  | ran started _ grown answered _ =>
      have answer := answered.answer
      rwa [Answer, grown.busy_eq, started.busy_eq] at answer

/-- malloc returns on every well-formed heap, initialised or not.  The blocks in
use keep their payloads, and only the answer joins them. -/
theorem malloc_spec {s : Heap} {lo size : Nat} {L : List Chunk} (ok : HeapOk s lo L)
    (small : size ≤ maxRequest) :
    ∃ p s' lo' L', malloc s size = .ok (p, s') ∧ HeapOk s' lo' L' ∧
      Kept (busy L) s.mem s'.mem ∧ Answer (alignedSize size) L L' p := by
  obtain ⟨p, s', lo', L', run, ok', kept, ran⟩ := malloc_run ok small
  exact ⟨p, s', lo', L', run, ok', kept, ran.answer⟩

end Csc457.Malloc
