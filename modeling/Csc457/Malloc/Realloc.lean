import Csc457.Malloc.Free

/-!
# calloc and realloc

Both write into a payload they were just given, so first comes the frame rule
for that: bytes written inside one payload touch no header and no other payload.

realloc has five outcomes.  Four of them keep the invariant of the block list
and are specified here; `GrowsBackward` is the test that leads to the fifth.
-/

set_option autoImplicit false

namespace Csc457.Malloc

open Csc457.Lib.ByteMemory Csc457.Lib.Tiling

def OnlyPayload (c : Chunk) (m m' : Memory) : Prop :=
  ∀ x, x < c.payload blockSize ∨ c.payload blockSize + c.size ≤ x → m' x = m x

section Write
variable {s : Heap} {lo : Nat} {A B : List Chunk} {c : Chunk} {m' : Memory}

theorem HeapHeld.write (held : HeapHeld s lo (A ++ c :: B)) (only : OnlyPayload c s.mem m') :
    HeapHeld { s with mem := m' } lo (A ++ c :: B) ∧ Kept (A ++ B) s.mem m' := by
  have start : c.payload blockSize = c.addr + blockSize := rfl
  obtain ⟨before, after⟩ := held.placed.around
  have outside : ∀ d ∈ A ++ B, ∀ x, d.addr ≤ x → x < d.addr + blockSize + d.size →
      m' x = s.mem x := by
    intro d member x low high
    apply only
    rcases List.mem_append.mp member with member | member
    · have bound := before d member
      omega
    · have bound := after d member
      omega
  have headers : ∀ d ∈ A ++ c :: B, header m' d.addr = header s.mem d.addr := by
    intro d member
    have member : d ∈ A ++ B ∨ d = c := by
      simpa [or_comm, or_left_comm, or_assoc] using member
    apply header_congr
    intro x low high
    rcases member with member | rfl
    · exact outside d member x low (by omega)
    · exact only x (Or.inl (by omega))
  refine ⟨⟨held.headed, ⟨held.placed.linked.congr headers, held.placed.spread,
    held.placed.positive, held.placed.bounded⟩, held.aligned, held.accounted⟩, ?_⟩
  intro d member x low high
  exact outside d member x (by omega) high

theorem HeapOk.write (ok : HeapOk s lo (A ++ c :: B)) (only : OnlyPayload c s.mem m') :
    HeapOk { s with mem := m' } lo (A ++ c :: B) ∧ Kept (A ++ B) s.mem m' := by
  obtain ⟨held, kept⟩ := ok.held.write only
  exact ⟨held.ok ok.well, kept⟩

theorem onlyPayload_fill {m : Memory} (value : UInt8) {count : Nat} (fits : count ≤ c.size) :
    OnlyPayload c m (fill m (c.payload blockSize) value count) := by
  intro x outside
  exact fill_outside (by omega)

theorem onlyPayload_copy {m : Memory} (source count : Nat) (fits : count ≤ c.size) :
    OnlyPayload c m (copy m (c.payload blockSize) source count) := by
  intro x outside
  exact copy_outside (by omega)

theorem onlyPayload_store {m : Memory} {a v : Nat} (inside : Inside a c) :
    OnlyPayload c m (store8 m a v) := by
  intro x outside
  obtain ⟨low, high⟩ := inside
  exact storeBytes_outside (by omega)

end Write

/-- The requests calloc is asked to serve: two `size_t` whose product either
fits a request or overflows. -/
def CallocRequest (nmemb size : Nat) : Prop :=
  nmemb < 2 ^ 64 ∧ size < 2 ^ 64 ∧ (nmemb * size ≤ maxRequest ∨ sizeMax < nmemb * size)

/-- The test of calloc, unless a factor is zero, is whether the product overflows. -/
theorem calloc_overflow_iff {nmemb size : Nat} (some : ¬ (nmemb = 0 ∨ size = 0)) :
    (size ≠ 0 ∧ sizeMax / size < nmemb) ↔ sizeMax < nmemb * size := by
  have sizeSome : size ≠ 0 := fun isZero => some (Or.inr isZero)
  rw [Nat.div_lt_iff_lt_mul (Nat.pos_of_ne_zero sizeSome)]
  exact and_iff_right sizeSome

theorem calloc_run {s : Heap} {nmemb size : Nat} (some : ¬ (nmemb = 0 ∨ size = 0))
    (fits : nmemb * size ≤ sizeMax) :
    calloc s nmemb size = (do
      let (mem, s) ← malloc s (nmemb * size)
      if mem = 0 then return (0, s)
      else return (mem, { s with mem := fill s.mem mem 0 (nmemb * size) })) ∧
    callocAsks s nmemb size = mallocAsks s (nmemb * size) := by
  have noOverflow : ¬ (size ≠ 0 ∧ sizeMax / size < nmemb) := by
    rw [calloc_overflow_iff some]
    omega
  have product : mul64 nmemb size = nmemb * size := by
    apply mul64_of_lt
    have top : sizeMax = 2 ^ 64 - 1 := rfl
    omega
  rw [calloc, if_neg some, if_neg noOverflow, callocAsks, if_neg some, if_neg noOverflow, product]
  exact ⟨rfl, rfl⟩

theorem HeapHeld.zeroed {s s' : Heap} {lo n p : Nat} {L L' : List Chunk} (held : HeapHeld s' lo L')
    (kept : Kept (busy L) s.mem s'.mem) (answer : Answer n L L' p) (real : p ≠ 0) :
    HeapHeld { s' with mem := fill s'.mem p 0 n } lo L' ∧
      Kept (busy L) s.mem (fill s'.mem p 0 n) ∧
      ∃ d ∈ L', p = d.payload blockSize ∧ OnlyPayload d s'.mem (fill s'.mem p 0 n) := by
  rcases answer with ⟨null, _⟩ | ⟨_, A, B, d, rfl, dBusy, room, rfl, same⟩
  · exact absurd null real
  · have only := onlyPayload_fill (c := d) (m := s'.mem) 0 room
    obtain ⟨held', keptFill⟩ := held.write only
    refine ⟨held', kept.trans (keptFill.subset ?_), d, by simp, rfl, only⟩
    rw [same]
    intro x member
    rcases List.mem_append.mp member with member | member
    · simp [(mem_busy.mp member).1]
    · simp [(mem_busy.mp member).1]

theorem HeapOk.zeroed {s s' : Heap} {lo n p : Nat} {L L' : List Chunk} (ok : HeapOk s' lo L')
    (kept : Kept (busy L) s.mem s'.mem) (answer : Answer n L L' p) (real : p ≠ 0) :
    HeapOk { s' with mem := fill s'.mem p 0 n } lo L' ∧
      Kept (busy L) s.mem (fill s'.mem p 0 n) ∧
      ∃ d ∈ L', p = d.payload blockSize ∧ OnlyPayload d s'.mem (fill s'.mem p 0 n) := by
  obtain ⟨held, others⟩ := ok.held.zeroed kept answer real
  exact ⟨held.ok ok.well, others⟩

theorem calloc_spec {s : Heap} {lo nmemb size : Nat} {L : List Chunk} (ok : HeapOk s lo L)
    (request : CallocRequest nmemb size) :
    ∃ p s' lo' L', calloc s nmemb size = .ok (p, s') ∧ HeapOk s' lo' L' ∧
      Kept (busy L) s.mem s'.mem ∧ Answer (nmemb * size) L L' p := by
  obtain ⟨_, _, fits⟩ := request
  have unchanged : Kept (busy L) s.mem s.mem := fun _ _ _ _ _ => rfl
  by_cases none : nmemb = 0 ∨ size = 0
  · exact ⟨0, s, lo, L, if_pos none, ok, unchanged, Or.inl ⟨rfl, rfl⟩⟩
  by_cases large : sizeMax < nmemb * size
  · refine ⟨0, s, lo, L, ?_, ok, unchanged, Or.inl ⟨rfl, rfl⟩⟩
    rw [calloc, if_neg none, if_pos ((calloc_overflow_iff none).mpr large)]
  have small : nmemb * size ≤ maxRequest := fits.resolve_right large
  obtain ⟨p, s', lo', L', run, ok', kept, answer⟩ := malloc_spec ok small
  have answer := answer.mono (alignedSize_facts small).1
  rw [(calloc_run none (by omega)).1]
  by_cases null : p = 0
  · refine ⟨p, s', lo', L', ?_, ok', kept, answer⟩
    simp only [run, ok_bind, null, if_true]
    rfl
  · obtain ⟨ok'', keptFill, _⟩ := ok'.zeroed kept answer null
    refine ⟨p, _, lo', L', ?_, ok'', keptFill, answer⟩
    simp only [run, ok_bind, if_neg null]
    rfl

/-- The block after is free and the two together are large enough. -/
def FitsNext (m : Memory) (block size : Nat) : Prop :=
  (header m block).next ≠ 0 ∧ (header m (header m block).next).free ≠ 0 ∧
    size ≤ (header m block).size + (header m (header m block).next).size + blockSize

/-- The block before is free and the two together are large enough. -/
def FitsPrev (m : Memory) (block size : Nat) : Prop :=
  (header m block).prev ≠ 0 ∧ (header m (header m block).prev).free ≠ 0 ∧
    size ≤ (header m (header m block).prev).size + (header m block).size + blockSize

/-- The block is too small, the block after does not help, and the block before
does: what takes realloc to its backward expansion. -/
def GrowsBackward (m : Memory) (block size : Nat) : Prop :=
  (header m block).size < size ∧ ¬ FitsNext m block size ∧ FitsPrev m block size

instance (m : Memory) (block size : Nat) : Decidable (FitsNext m block size) :=
  inferInstanceAs (Decidable (_ ∧ _ ∧ _))

instance (m : Memory) (block size : Nat) : Decidable (FitsPrev m block size) :=
  inferInstanceAs (Decidable (_ ∧ _ ∧ _))

instance (m : Memory) (block size : Nat) : Decidable (GrowsBackward m block size) :=
  inferInstanceAs (Decidable (_ ∧ _ ∧ _))

section Tests
variable {m : Memory} {lo hi size : Nat} {A B : List Chunk} {c : Chunk}

theorem Laid.fitsForward (laid : Laid m lo (A ++ c :: B) hi) :
    fitsForward m c.addr size = .ok (decide (FitsNext m c.addr size)) := by
  have real : c.addr ≠ 0 := laid.real (by simp)
  have cHeader := laid.linked.header
  have bounds := laid.bounds (c := c) (by simp)
  have bounded := laid.bounded
  cases B with
  | nil => simp [Malloc.fitsForward, FitsNext, readNext_ok real, cHeader]
  | cons d B =>
      have dReal : d.addr ≠ 0 := laid.real (by simp)
      have atD : Linked m 0 ((A ++ [c]) ++ d :: B) 0 := by simpa using laid.linked
      have dHeader := atD.header
      have order := laid.around.2 d (by simp)
      have dBounds := laid.bounds (c := d) (by simp)
      have wide : add64 (add64 c.size d.size) blockSize = c.size + d.size + blockSize := by
        rw [add64_of_lt (a := c.size) (by omega), add64_of_lt (by omega)]
      simp [Malloc.fitsForward, FitsNext, readNext_ok real, readSize_ok real, readFree_ok dReal,
        readSize_ok dReal, cHeader, dHeader, dReal, wide, pure, Except.pure]

theorem Laid.fitsBackward (laid : Laid m lo (A ++ c :: B) hi) :
    fitsBackward m c.addr size = .ok (decide (FitsPrev m c.addr size)) := by
  have real : c.addr ≠ 0 := laid.real (by simp)
  have cHeader := laid.linked.header
  have bounds := laid.bounds (c := c) (by simp)
  have bounded := laid.bounded
  rcases List.eq_nil_or_concat' A with rfl | ⟨A, a, rfl⟩
  · simp [Malloc.fitsBackward, FitsPrev, readPrev_ok real, cHeader, lastAddr]
  · have aReal : a.addr ≠ 0 := laid.real (by simp)
    have atA : Laid m lo (A ++ a :: c :: B) hi := by simpa using laid
    have aHeader := atA.linked.header
    have order := atA.around.2 c (by simp)
    have wide : add64 (add64 a.size c.size) blockSize = a.size + c.size + blockSize := by
      rw [add64_of_lt (a := a.size) (by omega), add64_of_lt (by omega)]
    simp [Malloc.fitsBackward, FitsPrev, readPrev_ok real, readSize_ok real, readFree_ok aReal,
      readSize_ok aReal, cHeader, aHeader, aReal, lastAddr, wide, pure, Except.pure]

theorem Laid.next_fits (laid : Laid m lo (A ++ c :: B) hi) (fits : FitsNext m c.addr size) :
    ∃ d B', B = d :: B' ∧ d.free = true ∧ size ≤ c.size + (d.size + blockSize) := by
  obtain ⟨next, free, room⟩ := fits
  rw [laid.linked.header] at next free room
  cases B with
  | nil => exact absurd rfl next
  | cons d B =>
      have atD : Linked m 0 ((A ++ [c]) ++ d :: B) 0 := by simpa using laid.linked
      simp only [firstAddr_cons] at free room
      rw [atD.header] at free room
      refine ⟨d, B, rfl, ?_, by simp only at room; omega⟩
      cases isFree : d.free with
      | true => rfl
      | false => simp [isFree, flag] at free

end Tests

/-- The three writes of the forward expansion come in another order than those
of free's merge, and leave the same memory. -/
theorem expandForward_laid {m : Memory} {lo hi : Nat} {A B : List Chunk} {c d : Chunk}
    (laid : Laid m lo (A ++ c :: d :: B) hi) :
    ∃ m', expandForward m c.addr = .ok m' ∧ Laid m' lo (A ++ absorb blockSize c d :: B) hi ∧
      OnlyHeaders (A ++ absorb blockSize c d :: B) m m' := by
  have cReal : c.addr ≠ 0 := laid.real (by simp)
  have dReal : d.addr ≠ 0 := laid.real (by simp)
  have cHeader := laid.linked.header
  have atD : Linked m 0 ((A ++ [c]) ++ d :: B) 0 := by simpa using laid.linked
  have dHeader := atD.header
  have cBounds := laid.bounds (c := c) (by simp)
  have dBounds := laid.bounds (c := d) (by simp)
  have order : c.addr + blockSize + c.size ≤ d.addr := laid.around.2 d (by simp)
  have bounded := laid.bounded
  have apart : HeaderApart c.addr d.addr := laid.apart (by simp)
  have grown : add64 c.size (add64 d.size blockSize) = c.size + (d.size + blockSize) := by
    rw [add64_of_lt (a := d.size) (by omega), add64_of_lt (by omega)]
  obtain ⟨placed, only⟩ := absorbed_placed laid.placed
  refine ⟨_, ?_, placed.laid (tiles_absorb laid.tiles), only⟩
  simp only [expandForward, readNext_ok cReal, readSize_ok cReal, readSize_ok dReal,
    readNext_ok dReal, writeSize_ok cReal, writeNext_ok cReal, ok_bind, cHeader, dHeader, grown,
    firstAddr_cons, (header_set_apart apart).2.2.1]
  cases B with
  | nil =>
      simp only [firstAddr_nil, ne_eq, not_true_eq_false, if_false, absorbed]
  | cons b B =>
      have bReal : b.addr ≠ 0 := laid.real (by simp)
      have atB : Laid m lo ((A ++ [c, d]) ++ b :: B) hi := by simpa using laid
      have bd : HeaderApart b.addr d.addr := atB.apart (by simp)
      have bc : HeaderApart b.addr c.addr := atB.apart (by simp)
      simp only [firstAddr_cons, ne_eq, bReal, not_false_eq_true, if_true, writePrev_ok bReal,
        ok_bind, (header_set_apart bd).2.1, (header_set_apart apart).2.2.1, dHeader, absorbed]
      rw [setNext_setPrev_comm bc]

/-! ## realloc -/

/-- What realloc answers for the block `c` of the list `A ++ c :: B`, and the
list it leaves. -/
inductive Reallocated (size : Nat) (A B : List Chunk) (c : Chunk) : Nat → List Chunk → Prop where
  | released {L' : List Chunk} (none : size = 0) (rest : busy L' = busy A ++ busy B) :
      Reallocated size A B c 0 L'
  | refused {L' : List Chunk} (some : size ≠ 0) (same : busy L' = busy A ++ c :: busy B) :
      Reallocated size A B c 0 L'
  | inPlace {L' : List Chunk} {d : Chunk} (some : size ≠ 0) (start : d.addr = c.addr)
      (room : size ≤ d.size) (inUse : busy L' = busy A ++ d :: busy B) :
      Reallocated size A B c (c.payload blockSize) L'
  | moved {L' : List Chunk} {d : Chunk} (some : size ≠ 0) (room : size ≤ d.size)
      (inUse : (busy L').Perm (d :: (busy A ++ busy B))) :
      Reallocated size A B c (d.payload blockSize) L'

/-- The first `count` bytes at `q` are those that were at `p`. -/
def Carried (m m' : Memory) (p q count : Nat) : Prop := ∀ i < count, m' (q + i) = m (p + i)

section Realloc
variable {s : Heap} {lo size : Nat} {A B : List Chunk} {c : Chunk}

theorem widen_spec {d : Chunk} (ok : HeapOk s lo (A ++ c :: d :: B)) (isBusy : c.free = false) :
    ∃ m', expandForward s.mem c.addr = .ok m' ∧
      HeapOk { s with mem := m' } lo (A ++ absorb blockSize c d :: B) ∧
      Kept (A ++ c :: B) s.mem m' := by
  obtain ⟨m', run, laid', only⟩ := expandForward_laid ok.laid
  have well := ok.well.widen (by decide) isBusy
  have kept := laid'.kept only
  have first : firstAddr 0 (A ++ absorb blockSize c d :: B) = firstAddr 0 (A ++ c :: d :: B) := by
    rw [firstAddr_append, firstAddr_append]
    rfl
  have bytes : total blockSize (A ++ absorb blockSize c d :: B) =
      total blockSize (A ++ c :: d :: B) := by
    simp only [total_append, total_cons, absorb]
    omega
  refine ⟨m', run, (ok.held.edited laid'.placed well.aligned first bytes).ok well, ?_⟩
  intro x member
  have member : x ∈ A ++ B ∨ x = c := by
    simpa [or_comm, or_left_comm, or_assoc] using member
  rcases member with member | rfl
  · apply kept x
    rcases List.mem_append.mp member with member | member <;> simp [member]
  · intro y low high
    exact kept (absorb blockSize x d) (by simp) y low
      (by simp only [absorb]; omega)

/-- The move: a new block is taken, the old payload copied into it, the old
block freed.  Where there is no new block the old one stays. -/
theorem moveBlock_spec (ok : HeapOk s lo (A ++ c :: B)) (isBusy : c.free = false)
    (some : size ≠ 0) (small : size ≤ maxRequest) (tooSmall : c.size < size) :
    ∃ q s' lo' L', moveBlock s (c.payload blockSize) c.addr size = .ok (q, s') ∧
      HeapOk s' lo' L' ∧ Reallocated size A B c q L' ∧ Kept (busy A ++ busy B) s.mem s'.mem ∧
      (q ≠ 0 → Carried s.mem s'.mem (c.payload blockSize) q (min c.size size)) := by
  have oldBusy : busy (A ++ c :: B) = busy A ++ c :: busy B := by
    rw [busy_append, busy_cons_busy B isBusy]
  have others : busy A ++ busy B ⊆ busy (A ++ c :: B) := by
    rw [oldBusy]
    intro x member
    rcases List.mem_append.mp member with member | member <;> simp [member]
  obtain ⟨q, s₁, lo₁, L₁, run, ok₁, kept, answer⟩ := malloc_spec ok small
  rcases answer with ⟨rfl, same⟩ | ⟨real, X, Y, d, rfl, dBusy, room, rfl, same⟩
  · refine ⟨0, s₁, lo₁, L₁, ?_, ok₁, .refused some (same.trans oldBusy), kept.subset others,
      fun real => absurd rfl real⟩
    simp only [moveBlock, run, ok_bind, if_true]
    rfl
  · have large : size ≤ d.size := (alignedSize_facts small).1.trans room
    -- the old block is one of the blocks in use, and not the new one
    have cInUse : c ∈ busy X ++ busy Y := by rw [← same, oldBusy]; simp
    have inUse_member : ∀ x ∈ busy X ++ busy Y, x ∈ X ++ Y := by
      intro x member
      rw [← busy_append] at member
      exact (mem_busy.mp member).1
    obtain ⟨P, Q, split⟩ := List.append_of_mem (show c ∈ X ++ d :: Y by
      rcases List.mem_append.mp (inUse_member c cInUse) with member | member <;> simp [member])
    obtain ⟨ok₂, keptCopy⟩ := ok₁.write
      (onlyPayload_copy (m := s₁.mem) (c.payload blockSize) c.size (by omega))
    rw [split] at ok₁ ok₂
    obtain ⟨s₃, runFree, ok₃, keptFree⟩ := free_spec ok₂ (Or.inl rfl)
    have cReal : c.addr ≠ 0 := ok₁.laid.real (by simp)
    have exchange : (busy P ++ busy Q).Perm (d :: (busy A ++ busy B)) := by
      have same' : busy P ++ c :: busy Q = busy X ++ d :: busy Y := by
        have both := congrArg busy split
        rw [busy_append, busy_append, busy_cons_busy Y dBusy, busy_cons_busy Q isBusy] at both
        exact both.symm
      apply List.Perm.cons_inv (a := c)
      calc (c :: (busy P ++ busy Q)).Perm (busy P ++ c :: busy Q) := List.perm_middle.symm
        _ = busy X ++ d :: busy Y := same'
        List.Perm _ (d :: (busy X ++ busy Y)) := List.perm_middle
        _ = d :: (busy A ++ c :: busy B) := by rw [← same, oldBusy]
        List.Perm _ (d :: c :: (busy A ++ busy B)) := List.perm_middle.cons d
        List.Perm _ (c :: d :: (busy A ++ busy B)) := List.Perm.swap c d _
    refine ⟨d.payload blockSize, s₃, lo₁, _, ?_, ok₃, .moved some large ?_, ?_, ?_⟩
    · have size_read : readSize s₁.mem c.addr = .ok c.size := by
        rw [readSize_ok cReal, ok₁.laid.linked.header]
      simp only [moveBlock, run, ok_bind, if_neg real, size_read, runFree]
      rfl
    · rw [busy_release]
      exact exchange
    · refine ((kept.subset others).trans (keptCopy.subset ?_)).trans (keptFree.subset ?_)
      · exact fun x member => inUse_member x (same ▸ others member)
      · exact fun x member => exchange.symm.subset (List.mem_cons_of_mem d member)
    · intro _ i within
      have within : i < c.size := lt_of_lt_of_le within (min_le_left _ _)
      have start : d.payload blockSize = d.addr + blockSize := rfl
      have cStart : c.payload blockSize = c.addr + blockSize := rfl
      have atNew := keptFree d (exchange.symm.subset (by simp)) (d.payload blockSize + i)
        (by omega) (by omega)
      have atOld := kept c (by rw [oldBusy]; simp) (c.payload blockSize + i) (by omega) (by omega)
      have hit : d.payload blockSize ≤ d.payload blockSize + i ∧
          d.payload blockSize + i < d.payload blockSize + c.size := by omega
      rw [atNew, ← atOld]
      simp only [copy, if_pos hit, Nat.add_sub_cancel_left]

theorem realloc_found {p : Nat} (laid : Laid s.mem lo (A ++ c :: B) s.brk)
    (headed : s.head = firstAddr 0 (A ++ c :: B)) (owner : Owns c p) (real : p ≠ 0)
    (some : size ≠ 0) :
    realloc s p size =
      if size ≤ c.size then .ok (c.payload blockSize, s)
      else if FitsNext s.mem c.addr size then do
        let m ← expandForward s.mem c.addr
        return (c.payload blockSize, { s with mem := m })
      else if FitsPrev s.mem c.addr size then do
        let (newPtr, m) ← expandBackward s.mem c.addr
        return (newPtr, { s with mem := m })
      else moveBlock s (c.payload blockSize) c.addr size := by
  have cReal : c.addr ≠ 0 := laid.real (by simp)
  have cBounds := laid.bounds (c := c) (by simp)
  have bounded := laid.bounded
  have found : findBlock s.mem p walkLimit s.head = .ok (c.payload blockSize) := by
    rw [headed]
    exact laid.placed.findBlock_owner owner
  have back : sub64 (c.payload blockSize) blockSize = c.addr := by
    have start : c.payload blockSize = c.addr + blockSize := rfl
    rw [sub64_of_le (by omega) (by omega)]
    omega
  have size_read : readSize s.mem c.addr = .ok c.size := by
    rw [readSize_ok cReal, laid.linked.header]
  rw [realloc, if_neg real, if_neg some, found, ok_bind]
  generalize sub64 (c.payload blockSize) blockSize = block at back
  subst back
  simp only [size_read, laid.fitsForward, laid.fitsBackward, ok_bind, decide_eq_true_eq]
  rfl

/-- realloc of a block in use returns and keeps the invariant, wherever it does
not grow the block backward. -/
theorem realloc_spec (ok : HeapOk s lo (A ++ c :: B)) (isBusy : c.free = false)
    (small : size ≤ maxRequest) (stays : ¬ GrowsBackward s.mem c.addr size) :
    ∃ q s' lo' L', realloc s (c.payload blockSize) size = .ok (q, s') ∧ HeapOk s' lo' L' ∧
      Reallocated size A B c q L' ∧ Kept (busy A ++ busy B) s.mem s'.mem ∧
      (q ≠ 0 → Carried s.mem s'.mem (c.payload blockSize) q (min c.size size)) := by
  have cReal : c.addr ≠ 0 := ok.laid.real (by simp)
  have start : c.payload blockSize = c.addr + blockSize := rfl
  have real : c.payload blockSize ≠ 0 := payload_real c
  by_cases none : size = 0
  · obtain ⟨s', run, ok', kept⟩ := free_spec ok (Or.inl rfl)
    refine ⟨0, s', lo, _, ?_, ok', .released none (by rw [busy_release]), kept,
      fun real => absurd rfl real⟩
    rw [realloc, if_neg real, if_pos none, run, ok_bind]
    rfl
  rw [realloc_found ok.laid ok.headed (Or.inl rfl) real none]
  have oldBusy : busy (A ++ c :: B) = busy A ++ c :: busy B := by
    rw [busy_append, busy_cons_busy B isBusy]
  by_cases enough : size ≤ c.size
  · rw [if_pos enough]
    exact ⟨_, s, lo, _, rfl, ok, .inPlace none rfl enough oldBusy, fun _ _ _ _ _ => rfl,
      fun _ _ _ => rfl⟩
  rw [if_neg enough]
  by_cases next : FitsNext s.mem c.addr size
  · obtain ⟨d, B', rfl, dFree, room⟩ := ok.laid.next_fits next
    obtain ⟨m', run, ok', kept⟩ := widen_spec ok isBusy
    have cKept := kept c (by simp)
    rw [if_pos next, run, ok_bind]
    refine ⟨_, _, lo, _, rfl, ok', .inPlace (d := absorb blockSize c d) none rfl room ?_, ?_, ?_⟩
    · rw [busy_append, busy_cons_busy B' (c := absorb blockSize c d) isBusy,
        busy_cons_free B' dFree]
    · apply kept.subset
      intro x member
      rw [busy_cons_free B' dFree, ← busy_append] at member
      rcases List.mem_append.mp (mem_busy.mp member).1 with member | member <;> simp [member]
    · intro _ i within
      have within : i < c.size := lt_of_lt_of_le within (min_le_left _ _)
      exact cKept _ (by omega) (by omega)
  rw [if_neg next]
  have notPrev : ¬ FitsPrev s.mem c.addr size := by
    intro prev
    refine stays ⟨?_, next, prev⟩
    rw [ok.laid.linked.header]
    simp only
    omega
  rw [if_neg notPrev]
  exact moveBlock_spec ok isBusy none small (by omega)

/-- The memory after a backward expansion of `c` into `a`, with `b` the block after. -/
def grownBackward (m : Memory) (a c b : Chunk) : Memory :=
  setPrev (setNext (setSize m a.addr (a.size + (c.size + blockSize))) a.addr b.addr) b.addr a.addr

/-- The backward expansion follows the missing link at the end of the list;
elsewhere it writes into two headers and moves no payload. -/
theorem realloc_backward_run (ok : HeapOk s lo (A ++ c :: B))
    (backward : GrowsBackward s.mem c.addr size) :
    ∃ A' a, A = A' ++ [a] ∧ a.free = true ∧ size ≤ a.size + (c.size + blockSize) ∧
      (B = [] ∧ realloc s (c.payload blockSize) size = .error .nullDeref ∨
        ∃ b B', B = b :: B' ∧ realloc s (c.payload blockSize) size =
          .ok (a.payload blockSize, { s with mem := grownBackward s.mem a c b })) := by
  obtain ⟨tooSmall, noNext, prev⟩ := backward
  have start : c.payload blockSize = c.addr + blockSize := rfl
  have cReal : c.addr ≠ 0 := ok.laid.real (by simp)
  have cHeader := ok.laid.linked.header
  have bounded := ok.laid.bounded
  rw [cHeader] at tooSmall
  rw [realloc_found ok.laid ok.headed (Or.inl rfl) (by omega) (by omega),
    if_neg (by simpa using tooSmall), if_neg noNext, if_pos prev]
  obtain ⟨hasPrev, isFree, room⟩ := prev
  rw [cHeader] at hasPrev isFree room
  rcases List.eq_nil_or_concat' A with rfl | ⟨A, a, rfl⟩
  · exact absurd rfl hasPrev
  have atA : Laid s.mem lo (A ++ a :: c :: B) s.brk := by simpa using ok.laid
  have aReal : a.addr ≠ 0 := atA.real (by simp)
  have aHeader := atA.linked.header
  have aBounds := atA.bounds (c := a) (by simp)
  have cBounds := atA.bounds (c := c) (by simp)
  have order := atA.around.2 c (by simp)
  have isLast : lastAddr 0 (A ++ [a]) = a.addr := by simp [lastAddr]
  have ac : HeaderApart a.addr c.addr := atA.apart (by simp)
  simp only [isLast, aHeader, flag_ne_zero] at cHeader isFree room
  have grown : add64 a.size (add64 c.size blockSize) = a.size + (c.size + blockSize) := by
    rw [add64_of_lt (a := c.size) (by omega), add64_of_lt (by omega)]
  have returned : add64 a.addr blockSize = a.addr + blockSize := add64_of_lt (by omega)
  refine ⟨A, a, rfl, isFree, by omega, ?_⟩
  simp only [expandBackward, readPrev_ok cReal, readSize_ok cReal, readNext_ok cReal,
    readSize_ok aReal, writeSize_ok aReal, writeNext_ok aReal, ok_bind, cHeader, aHeader, grown,
    (header_set_apart ac).2.2.1]
  cases B with
  | nil => exact Or.inl ⟨rfl, rfl⟩
  | cons b B =>
      have bReal : b.addr ≠ 0 := atA.real (by simp)
      have atB : Laid s.mem lo ((A ++ [a, c]) ++ b :: B) s.brk := by simpa using ok.laid
      have bc : HeaderApart b.addr c.addr := atB.apart (by simp)
      refine Or.inr ⟨b, B, rfl, ?_⟩
      simp only [firstAddr_cons, writePrev_ok bReal, ok_bind, (header_set_apart bc).2.1,
        (header_set_apart ac).1, (header_set_apart ac).2.2.1, cHeader, returned]
      rfl

theorem grownBackward_header {m : Memory} {hi : Nat} {A B : List Chunk} {a c b : Chunk}
    (laid : Laid m lo (A ++ a :: c :: b :: B) hi) :
    header (grownBackward m a c b) a.addr =
      ⟨b.addr, lastAddr 0 A, a.size + (c.size + blockSize), flag a.free⟩ := by
  have atB : Laid m lo ((A ++ [a, c]) ++ b :: B) hi := by simpa using laid
  have aBounds := laid.bounds (c := a) (by simp)
  have cBounds := laid.bounds (c := c) (by simp)
  have bBounds := laid.bounds (c := b) (by simp)
  have order := laid.around.2 c (by simp)
  have bounded := laid.bounded
  have ba : HeaderApart b.addr a.addr := atB.apart (by simp)
  rw [grownBackward, (header_set_apart ba).2.1, header_setNext_same (by omega),
    header_setSize_same (by omega), laid.linked.header]

/-- What the backward expansion does instead: at the end of the list it follows
the missing link, and elsewhere the block it returns is still marked free. -/
theorem realloc_backward (ok : HeapOk s lo (A ++ c :: B))
    (backward : GrowsBackward s.mem c.addr size) :
    realloc s (c.payload blockSize) size = .error .nullDeref ∨
      ∃ a s', realloc s (c.payload blockSize) size = .ok (a + blockSize, s') ∧
        (header s'.mem a).free = 1 := by
  obtain ⟨A', a, rfl, isFree, _, ⟨_, fault⟩ | ⟨b, B', rfl, run⟩⟩ :=
    realloc_backward_run ok backward
  · exact Or.inl fault
  · have atA : Laid s.mem lo (A' ++ a :: c :: b :: B') s.brk := by simpa using ok.laid
    refine Or.inr ⟨a.addr, _, run, ?_⟩
    rw [grownBackward_header atA, isFree]
    rfl

end Realloc

end Csc457.Malloc
