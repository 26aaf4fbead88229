import Csc457.Malloc.Calls

/-!
# free

The walk that turns an interior pointer into the start of its payload, and what
free does on a well-formed heap to the block that owns the pointer.
-/

set_option autoImplicit false

namespace Csc457.Malloc

open Csc457.Lib.ByteMemory Csc457.Lib.Tiling

def Inside (a : Nat) (c : Chunk) : Prop :=
  c.payload blockSize ≤ a ∧ a < c.payload blockSize + c.size

theorem findBlock_inside {m : Memory} {ptr fuel p : Nat} {A B : List Chunk} {c : Chunk}
    (linked : Linked m p (A ++ c :: B) 0) (real : ∀ d ∈ A ++ c :: B, d.addr ≠ 0)
    (bounded : ∀ d ∈ A ++ c :: B, d.addr + blockSize + d.size < 2 ^ 64)
    (before : ∀ d ∈ A, ¬ Inside ptr d) (inside : Inside ptr c) (enough : A.length < fuel) :
    findBlock m ptr fuel (firstAddr 0 (A ++ c :: B)) = .ok (c.payload blockSize) := by
  induction A generalizing fuel p with
  | nil =>
      cases fuel with
      | zero => simp at enough
      | succ fuel =>
          obtain ⟨here, _⟩ := linked
          have cReal : c.addr ≠ 0 := real c (by simp)
          have cBounded := bounded c (by simp)
          simp only [List.nil_append, findBlock, firstAddr_cons, if_neg cReal, readSize_ok cReal,
            ok_bind, here, add64_of_lt (show c.addr + blockSize < 2 ^ 64 by omega),
            add64_of_lt cBounded]
          have inside : c.addr + blockSize ≤ ptr ∧ ptr < c.addr + blockSize + c.size := inside
          rw [if_pos inside]
          rfl
  | cons d A ih =>
      cases fuel with
      | zero => simp at enough
      | succ fuel =>
          obtain ⟨here, rest⟩ := linked
          have dReal : d.addr ≠ 0 := real d (by simp)
          have dBounded := bounded d (by simp)
          have outside := before d (by simp)
          have tail := ih rest (fun x member => real x (List.mem_cons_of_mem _ member))
            (fun x member => bounded x (List.mem_cons_of_mem _ member))
            (fun x member => before x (by simp [member])) (by simpa using enough)
          simp only [List.cons_append, findBlock, firstAddr_cons, if_neg dReal, readSize_ok dReal,
            readNext_ok dReal, ok_bind, here,
            add64_of_lt (show d.addr + blockSize < 2 ^ 64 by omega),
            add64_of_lt dBounded]
          have outside : ¬ (d.addr + blockSize ≤ ptr ∧ ptr < d.addr + blockSize + d.size) :=
            outside
          rw [if_neg outside]
          exact tail

theorem findBlock_outside {m : Memory} {ptr fuel p : Nat} {L : List Chunk}
    (linked : Linked m p L 0) (real : ∀ d ∈ L, d.addr ≠ 0)
    (bounded : ∀ d ∈ L, d.addr + blockSize + d.size < 2 ^ 64)
    (outside : ∀ d ∈ L, ¬ Inside ptr d) (enough : L.length < fuel) :
    findBlock m ptr fuel (firstAddr 0 L) = .ok ptr := by
  induction L generalizing fuel p with
  | nil =>
      cases fuel with
      | zero => simp at enough
      | succ fuel => simp [findBlock]
  | cons d L ih =>
      cases fuel with
      | zero => simp at enough
      | succ fuel =>
          obtain ⟨here, rest⟩ := linked
          have dReal : d.addr ≠ 0 := real d (by simp)
          have dBounded := bounded d (by simp)
          have away := outside d (by simp)
          have tail := ih rest (fun x member => real x (by simp [member]))
            (fun x member => bounded x (by simp [member]))
            (fun x member => outside x (by simp [member])) (by simpa using enough)
          simp only [findBlock, firstAddr_cons, if_neg dReal, readSize_ok dReal,
            readNext_ok dReal, ok_bind, here,
            add64_of_lt (show d.addr + blockSize < 2 ^ 64 by omega),
            add64_of_lt dBounded]
          have away : ¬ (d.addr + blockSize ≤ ptr ∧ ptr < d.addr + blockSize + d.size) := away
          rw [if_neg away]
          exact tail

/-- A pointer free and realloc accept for a block: the start of its payload, or
an address inside it. -/
def Owns (c : Chunk) (a : Nat) : Prop := a = c.payload blockSize ∨ Inside a c

theorem Owns.real {c : Chunk} {a : Nat} (owner : Owns c a) : a ≠ 0 := by
  have start := payload_real c
  rcases owner with rfl | inside
  · exact start
  · have low := inside.1
    omega

theorem Placed.findBlock_owner {m : Memory} {lo hi a : Nat} {A B : List Chunk} {c : Chunk}
    (placed : Placed m lo (A ++ c :: B) hi) (owner : Owns c a) :
    findBlock m a walkLimit (firstAddr 0 (A ++ c :: B)) = .ok (c.payload blockSize) := by
  have real : ∀ d ∈ A ++ c :: B, d.addr ≠ 0 := fun d member => placed.real member
  have bounded : ∀ d ∈ A ++ c :: B, d.addr + blockSize + d.size < 2 ^ 64 := by
    intro d member
    have bounds := placed.bounds member
    have high := placed.bounded
    omega
  obtain ⟨before, after⟩ := placed.around
  have low : c.payload blockSize ≤ a := by
    rcases owner with rfl | inside
    · exact le_refl _
    · exact inside.1
  have start : c.payload blockSize = c.addr + blockSize := rfl
  have left : ∀ d ∈ A, ¬ Inside a d := by
    intro d member inside
    have bound := before d member
    have high : a < d.addr + blockSize + d.size := inside.2
    omega
  have short := placed.length_lt
  by_cases inside : Inside a c
  · apply findBlock_inside placed.linked real bounded left inside
    simp only [List.length_append, List.length_cons] at short
    omega
  · -- the payload is empty: no block contains its start, which is returned as it is
    have here : a = c.payload blockSize := owner.resolve_right inside
    have same : findBlock _ a _ _ = .ok a :=
      findBlock_outside placed.linked real bounded (fun d member => ?_) short
    · rw [same, here]
    · rcases List.mem_append.mp member with member | member
      · exact left d member
      · rcases List.mem_cons.mp member with rfl | member
        · exact inside
        · have bound := after d member
          rintro ⟨lower, _⟩
          have lower : d.addr + blockSize ≤ a := lower
          have wide : blockSize = 32 := rfl
          omega

theorem free_null (s : Heap) : free s 0 = .ok s := if_pos rfl

/-- free returns for every pointer into a block, and the block joins the free
ones, merged with its neighbours in the list. -/
theorem HeapHeld.freed {s : Heap} {lo a : Nat} {A B : List Chunk} {c : Chunk}
    (held : HeapHeld s lo (A ++ c :: B)) (owner : Owns c a) :
    ∃ s', free s a = .ok s' ∧ HeapHeld s' lo (release blockSize A c B) ∧ s'.brk = s.brk ∧
      Kept (busy A ++ busy B) s.mem s'.mem := by
  have placed := held.placed
  have cReal : c.addr ≠ 0 := placed.real (by simp)
  have cBounds := placed.bounds (c := c) (by simp)
  have bounded := placed.bounded
  have aReal : a ≠ 0 := owner.real
  have found : findBlock s.mem a walkLimit s.head = .ok (c.addr + blockSize) := by
    rw [held.headed]
    exact placed.findBlock_owner owner
  have back : sub64 (c.addr + blockSize) blockSize = c.addr := by
    rw [sub64_of_le (by omega) (by omega)]
    omega
  obtain ⟨marked, onlyMark⟩ := setFree_placed true placed
  obtain ⟨m₁, runNext, placedNext, onlyNext⟩ := mergeNext_placed rfl marked
  obtain ⟨d, rest, joined, dAddr, dFree⟩ :=
    join_single (h := blockSize) (R := B) (c := { c with free := true }) rfl
  rw [joined] at placedNext onlyNext
  obtain ⟨m₂, runPrev, placedPrev, onlyPrev⟩ := mergePrev_placed dFree placedNext
  have isRelease : join blockSize A (d :: rest) = release blockSize A c B := by
    rw [release, joined]
  rw [isRelease] at placedPrev onlyPrev
  have first : firstAddr 0 (release blockSize A c B) = firstAddr 0 (A ++ c :: B) := by
    rw [release, firstAddr_join, firstAddr_append, firstAddr_append, firstAddr_join]
    rfl
  have aligned : ∀ x ∈ release blockSize A c B, Aligned alignment x := by
    refine aligned_join (by decide) (fun x member => held.aligned x (by simp [member]))
      (aligned_join (by decide) ?_ (fun x member => held.aligned x (by simp [member])))
    exact List.forall_mem_singleton.mpr (held.aligned c (by simp))
  refine ⟨{ s with mem := m₂ }, ?_, held.edited placedPrev aligned first (total_release A B c),
    rfl, ?_⟩
  · have runPrev : mergePrev m₁ c.addr = .ok m₂ := by rw [← dAddr, runPrev]
    have runNext : mergeNext (setFree s.mem c.addr 1) c.addr = .ok m₁ := runNext
    rw [free, if_neg aReal, found, ok_bind]
    -- named first: the subtraction is over literals the kernel must not unfold
    generalize sub64 (c.addr + blockSize) blockSize = block at back
    subst back
    simp only [writeFree_ok cReal, runNext, runPrev, ok_bind]
    rfl
  · have keptMark := (marked.kept onlyMark).busy
    have keptNext := (placedNext.kept onlyNext).busy
    have keptPrev := (placedPrev.kept onlyPrev).busy
    rw [← joined] at keptNext
    have skip : ∀ R, busy ({ c with free := true } :: R) = busy R := fun R => busy_cons_free R rfl
    simp only [busy_append, busy_join, busy_release, skip, busy_nil, List.nil_append]
      at keptMark keptNext keptPrev
    exact (keptMark.trans keptNext).trans keptPrev

/-- free returns for every pointer into a block in use, and the block joins the
free ones, merged with its neighbours. -/
theorem free_spec {s : Heap} {lo a : Nat} {A B : List Chunk} {c : Chunk}
    (ok : HeapOk s lo (A ++ c :: B)) (owner : Owns c a) :
    ∃ s', free s a = .ok s' ∧ HeapOk s' lo (release blockSize A c B) ∧
      Kept (busy A ++ busy B) s.mem s'.mem := by
  obtain ⟨s', run, held, still, kept⟩ := ok.held.freed owner
  refine ⟨s', run, held.ok ?_, kept⟩
  rw [still]
  exact ok.well.release (by decide)

end Csc457.Malloc
