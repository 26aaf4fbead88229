import Csc457.Malloc.ForeignBreak
import Csc457.Malloc.Growth

/-!
# The laws of free

Frees can be made in any order, a free takes a malloc back, and a pointer anywhere
into a payload will do.  All three come from one fact about lists: what a free leaves
is the list with the block marked, its free neighbours merged, and merging is
associative.
-/

set_option autoImplicit false

namespace Csc457.Malloc

open Csc457.Lib.ByteMemory Csc457.Lib.Tiling Csc457.Lib.Transition

theorem free_mem {s s' : Heap} {p : Nat} (run : free s p = .ok s') :
    s' = { s with mem := s'.mem } := by
  unfold free at run
  split at run
  · cases run
    rfl
  · obtain ⟨_, _, run⟩ := bind_ok_iff.mp run
    obtain ⟨_, _, run⟩ := bind_ok_iff.mp run
    obtain ⟨_, _, run⟩ := bind_ok_iff.mp run
    obtain ⟨_, _, run⟩ := bind_ok_iff.mp run
    cases run
    rfl

def freeAll (s : Heap) (ptrs : List Nat) : Except Fault Heap := ptrs.foldlM free s

def marked (ptrs : List Nat) (L : List Chunk) : List Chunk :=
  L.map fun c => if c.payload blockSize ∈ ptrs then { c with free := true } else c

section Marked
variable {ps qs : List Nat} {L A B : List Chunk} {c : Chunk} {lo hi p : Nat}

theorem marked_nil (L : List Chunk) : marked [] L = L := by simp [marked]

theorem marked_congr (same : ∀ c ∈ L, c.payload blockSize ∈ ps ↔ c.payload blockSize ∈ qs) :
    marked ps L = marked qs L := by
  refine List.map_congr_left fun c member => ?_
  simp only [same c member]

theorem tiles_marked (ps : List Nat) (tiles : Tiles blockSize lo L hi) :
    Tiles blockSize lo (marked ps L) hi := by
  induction L generalizing lo with
  | nil => exact tiles
  | cons c L ih =>
      obtain ⟨here, rest⟩ := tiles
      simp only [marked, List.map_cons, Tiles]
      split
      · exact ⟨here, ih rest⟩
      · exact ⟨here, ih rest⟩

theorem payload_apart (spread : Spread blockSize lo (A ++ c :: B) hi) :
    ∀ d ∈ A ++ B, d.payload blockSize ≠ c.payload blockSize := by
  intro d member same
  obtain ⟨before, after⟩ := spread_around spread
  simp only [Chunk.payload, Chunk.stop] at same before after
  have wide : blockSize = 32 := rfl
  rcases List.mem_append.mp member with member | member
  · have bound := before d member
    omega
  · have bound := after d member
    omega

theorem marked_concat (spread : Spread blockSize lo (A ++ c :: B) hi)
    (new : c.payload blockSize ∉ ps) :
    marked ps (A ++ c :: B) = marked ps A ++ c :: marked ps B ∧
      marked (ps ++ [c.payload blockSize]) (A ++ c :: B) =
        marked ps A ++ { c with free := true } :: marked ps B := by
  have others : ∀ d ∈ A ++ B, d.payload blockSize ∈ ps ++ [c.payload blockSize] ↔
      d.payload blockSize ∈ ps := by
    intro d member
    simp [payload_apart spread d member]
  have left := marked_congr fun d member => others d (List.mem_append_left B member)
  have right := marked_congr fun d member => others d (List.mem_append_right A member)
  constructor
  · simp [marked, new]
  · rw [← left, ← right]
    simp [marked]

theorem free_marked {s : Heap} (spread : Spread blockSize lo L hi)
    (ok : HeapOk s lo (coalesce blockSize (marked ps L))) (live : p ∈ used blockSize L)
    (new : p ∉ ps) :
    ∃ s', free s p = .ok s' ∧ HeapOk s' lo (coalesce blockSize (marked (ps ++ [p]) L)) := by
  obtain ⟨c, inUse, rfl⟩ := List.mem_map.mp live
  obtain ⟨member, isBusy⟩ := mem_busy.mp inUse
  obtain ⟨A, B, rfl⟩ := List.append_of_mem member
  obtain ⟨before, after⟩ := marked_concat spread new
  rw [before, coalesce_around _ _ isBusy] at ok
  obtain ⟨s', run, ok', _⟩ := free_spec ok (.inl rfl)
  rw [release_coalesce, ← after] at ok'
  exact ⟨s', run, ok'⟩

theorem freeAll_marked {s : Heap} (ps qs : List Nat) (spread : Spread blockSize lo L hi)
    (ok : HeapOk s lo (coalesce blockSize (marked ps L))) (live : ∀ q ∈ qs, q ∈ used blockSize L)
    (nodup : (ps ++ qs).Nodup) :
    ∃ s', freeAll s qs = .ok s' ∧ HeapOk s' lo (coalesce blockSize (marked (ps ++ qs) L)) ∧
      s' = { s with mem := s'.mem } := by
  induction qs generalizing s ps with
  | nil => exact ⟨s, rfl, by simpa using ok, rfl⟩
  | cons q qs ih =>
      have new : q ∉ ps := fun member => (List.nodup_append.mp nodup).2.2 q member q (by simp) rfl
      obtain ⟨s₁, run, ok₁⟩ := free_marked spread ok (live q (by simp)) new
      obtain ⟨s', rest, ok', same⟩ := ih _ ok₁ (fun x member => live x (by simp [member]))
        (by simpa using nodup)
      refine ⟨s', ?_, by simpa using ok', ?_⟩
      · rw [freeAll, List.foldlM_cons, run, ok_bind]
        exact rest
      · rw [same, free_mem run]

end Marked

/-- Freeing a set of live pointers in two orders leaves the same list of blocks, field by
field; where it is all of them, one free block is left that covers the heap. -/
theorem free_order_irrelevant {s : Heap} {lo : Nat} {L : List Chunk} {ps qs : List Nat}
    (ok : HeapOk s lo L) (live : ∀ p ∈ ps, p ∈ used blockSize L) (nodup : ps.Nodup)
    (perm : ps.Perm qs) :
    ∃ m₁ m₂ L', freeAll s ps = .ok { s with mem := m₁ } ∧ freeAll s qs = .ok { s with mem := m₂ } ∧
      HeapOk { s with mem := m₁ } lo L' ∧ HeapOk { s with mem := m₂ } lo L' ∧
      (∀ c ∈ L', header m₁ c.addr = header m₂ c.addr) ∧
      (ps.Perm (used blockSize L) →
        s.requested = 0 ∧ L' = [] ∨ s.requested ≠ 0 ∧ lo + s.requested = s.brk ∧
          L' = [⟨lo, s.requested - blockSize, true⟩]) := by
  have spread := ok.laid.placed.spread
  have start : HeapOk s lo (coalesce blockSize (marked [] L)) := by
    rwa [marked_nil, coalesce_of_settled ok.settled]
  obtain ⟨s₁, run₁, ok₁, same₁⟩ := freeAll_marked [] ps spread start live nodup
  obtain ⟨s₂, run₂, ok₂, same₂⟩ := freeAll_marked [] qs spread start
    (fun q member => live q (perm.symm.subset member)) (perm.nodup_iff.mp nodup)
  simp only [List.nil_append] at ok₁ ok₂
  rw [← marked_congr fun c _ => perm.mem_iff] at ok₂
  rw [same₁] at run₁ ok₁
  rw [same₂] at run₂ ok₂
  refine ⟨s₁.mem, s₂.mem, _, run₁, run₂, ok₁, ok₂, ?_, ?_⟩
  · intro c member
    obtain ⟨A, B, split⟩ := List.append_of_mem member
    have first := ok₁.laid.linked
    have second := ok₂.laid.linked
    rw [split] at first second
    rw [first.header, second.header]
  · intro all
    have bytes := tiles_total ok.laid.tiles
    rw [← ok.accounted] at bytes
    rcases L with _ | ⟨c, L⟩
    · exact .inl ⟨ok.accounted, rfl⟩
    · have some : s.requested ≠ 0 := by
        rw [ok.accounted, total_cons]
        have wide : blockSize = 32 := rfl
        omega
      refine .inr ⟨some, bytes, ?_⟩
      have free : ∀ x ∈ marked ps (c :: L), x.free = true := by
        intro x member
        obtain ⟨y, inList, rfl⟩ := List.mem_map.mp member
        split
        · rfl
        · next unmarked =>
            by_contra isBusy
            refine unmarked (all.symm.subset (List.mem_map.mpr ⟨y, mem_busy.mpr ⟨inList, ?_⟩, rfl⟩))
            simpa using isBusy
      rw [coalesce_all_free (tiles_marked ps ok.laid.tiles) (by simp [marked]) free]
      simp only [List.cons.injEq, Chunk.mk.injEq, true_and, and_true]
      omega

theorem played_ok (ops : List Op) (c : Chunk) (L : List Chunk)
    (playable : Playable (fun w op => Calls w op ∧ isRealloc op = false) after emptyWorld ops)
    (list : blocks (ops.foldl after emptyWorld).heap = c :: L) :
    HeapOk (ops.foldl after emptyWorld).heap c.addr (c :: L) := by
  obtain ⟨lo, M, sound⟩ := played_sound ops playable
  have same : M = c :: L := sound.heap.held.blocks_eq.symm.trans list
  have ok : HeapOk (ops.foldl after emptyWorld).heap lo (c :: L) := same ▸ sound.heap
  rwa [show c.addr = lo from ok.laid.tiles.1]

/-- The heap after three calls of malloc, one of them for no bytes. -/
def threeBlocks : Heap := ([.malloc 16, .malloc 0, .malloc 40].foldl after emptyWorld).heap

theorem threeBlocks_ok : HeapOk threeBlocks 4096
    [⟨4096, 16, false⟩, ⟨4144, 0, false⟩, ⟨4176, 48, false⟩, ⟨4256, 65344, true⟩] :=
  played_ok [.malloc 16, .malloc 0, .malloc 40] ⟨4096, 16, false⟩ _ (by decide +kernel)
    (by decide +kernel)

theorem free_order_irrelevant_threeBlocks :
    ∃ m₁ m₂, freeAll threeBlocks [4128, 4176, 4208] = .ok { threeBlocks with mem := m₁ } ∧
      freeAll threeBlocks [4176, 4208, 4128] = .ok { threeBlocks with mem := m₂ } ∧
      HeapOk { threeBlocks with mem := m₁ } 4096 [⟨4096, 65504, true⟩] ∧
      HeapOk { threeBlocks with mem := m₂ } 4096 [⟨4096, 65504, true⟩] := by
  have perm : [4128, 4176, 4208].Perm [4176, 4208, 4128] := by decide
  obtain ⟨m₁, m₂, L', run₁, run₂, ok₁, ok₂, _, whole⟩ :=
    free_order_irrelevant threeBlocks_ok (by decide) (by decide) perm
  have bytes : threeBlocks.requested = 65536 := by decide +kernel
  rcases whole (by decide) with ⟨none, _⟩ | ⟨_, _, rfl⟩
  · exact absurd (bytes.symm.trans none) (by decide)
  · have size : threeBlocks.requested - blockSize = 65504 := by rw [bytes]; rfl
    rw [← size]
    exact ⟨m₁, m₂, run₁, run₂, ok₁, ok₂⟩

/-! ## free undoes malloc -/

section Undo
variable {s s' : Heap} {lo size n p k : Nat} {L L₁ : List Chunk}

theorem Grown.as_one (grown : Grown n k L L₁) :
    k = 0 ∧ L₁ = L ∨ k ≠ 0 ∧ ∃ d, d.free = true ∧ L₁ = join blockSize L [d] := by
  induction grown with
  | done L => exact .inl ⟨rfl, rfl⟩
  | @more k L L₁ brk missing rest ih =>
      refine .inr ⟨by omega, ?_⟩
      rcases ih with ⟨_, rfl⟩ | ⟨_, d, dFree, rfl⟩
      · exact ⟨newBlock brk n, rfl, rfl⟩
      · refine ⟨absorb blockSize (newBlock brk n) d, rfl, ?_⟩
        rw [join_assoc]
        simp [join, newBlock, dFree]

/-- The block list with the bytes from `start` to `stop` appended as free space. -/
def appended (L : List Chunk) (start stop : Nat) : List Chunk :=
  match L.getLast? with
  | some last =>
      if last.free then L.dropLast ++ [{ last with size := last.size + (stop - start) }]
      else L ++ [⟨start, stop - start - blockSize, true⟩]
  | none => [⟨start, stop - start - blockSize, true⟩]

/-- Free space joined to a tiling is what lies between its end and the new end. -/
theorem join_appended {d : Chunk} {lo' hi hi' : Nat} (before : Tiles blockSize lo L hi)
    (some : L ≠ []) (dFree : d.free = true)
    (after : Tiles blockSize lo' (join blockSize L [d]) hi') :
    lo' = lo ∧ join blockSize L [d] = appended L hi hi' := by
  obtain ⟨L, a, rfl⟩ := (List.eq_nil_or_concat' L).resolve_left some
  have starts : lo' = lo := by
    have merged : join blockSize (L ++ [a]) [d] ≠ [] := by
      obtain ⟨A, c, last, _⟩ := join_free_last (h := blockSize) (L := L ++ [a]) dFree
      simp [last]
    rw [← firstAddr_tiles 0 merged after, ← firstAddr_tiles 0 some before, firstAddr_join,
      firstAddr_append, firstAddr_append, firstAddr_append]
    cases L <;> rfl
  subst starts
  have whole := tiles_total after
  have part := tiles_total before
  rw [total_join, total_cons, total_nil] at whole
  refine ⟨rfl, ?_⟩
  have size : hi' - hi = d.size + blockSize := by omega
  simp only [appended, List.getLast?_append, List.getLast?_singleton, Option.some_or,
    List.dropLast_concat, size]
  cases aFree : a.free with
  | true => simp [join, aFree, dFree, absorb]
  | false =>
      have apart : join blockSize (L ++ [a]) [d] = L ++ [a] ++ [d] := by simp [join, aFree]
      rw [apart] at after ⊢
      obtain ⟨mid, left, here, _⟩ := tiles_append.mp after
      have same : mid = hi := by
        have first := tiles_total left
        omega
      cases d
      simp_all

theorem Grown.settled (grown : Grown n k L L₁) (settled : L.IsChain Settled) :
    L₁.IsChain Settled := by
  induction grown with
  | done L => exact settled
  | more _ _ ih => exact ih (settled_join settled (List.isChain_singleton _))

/-- After malloc and free of its answer the list is the one malloc took the block from. -/
theorem free_taken {A B : List Chunk} {c : Chunk} {lo' : Nat}
    (ok : HeapOk s' lo' (A ++ carve blockSize alignment n c ++ B))
    (settled : (A ++ c :: B).IsChain Settled) (isFree : c.free = true) (room : n ≤ c.size) :
    ∃ s'', free s' (c.payload blockSize) = .ok s'' ∧ HeapOk s'' lo' (A ++ c :: B) := by
  obtain ⟨d, rest, carved, _, start, _⟩ :=
    carve_cases (h := blockSize) (by decide) alignment room
  have split : A ++ carve blockSize alignment n c ++ B = A ++ d :: (rest ++ B) := by
    simp [carved]
  have owner : Owns d (c.payload blockSize) := .inl (by rw [Chunk.payload, Chunk.payload, start])
  rw [split] at ok
  obtain ⟨s'', run, ok', _⟩ := free_spec ok owner
  rw [release_carve settled isFree carved] at ok'
  exact ⟨s'', run, ok'⟩

theorem Grown.of_first {b : Nat} (grown : Grown n k [firstBlock b] L₁) :
    ∃ d, d.free = true ∧ L₁ = [d] := by
  rcases grown.as_one with ⟨_, same⟩ | ⟨_, d, dFree, same⟩
  · exact ⟨firstBlock b, rfl, same⟩
  · refine ⟨absorb blockSize (firstBlock b) d, rfl, ?_⟩
    rw [same]
    simp [join, firstBlock, dFree]

theorem HeapOk.one_free {d : Chunk} (ok : HeapOk s lo [d]) (dFree : d.free = true) :
    lo < s.brk ∧ s.requested = s.brk - lo ∧ appended [] lo s.brk = [d] := by
  have whole := tiles_total ok.laid.tiles
  have bytes := ok.accounted
  have here : d.addr = lo := ok.laid.tiles.1
  have wide : blockSize = 32 := rfl
  simp only [total_cons, total_nil] at whole bytes
  refine ⟨by omega, by omega, ?_⟩
  simp only [appended, List.getLast?_nil, List.cons.injEq, and_true]
  cases d
  simp only [Chunk.mk.injEq] at here dFree whole ⊢
  exact ⟨here.symm, by omega, dFree.symm⟩

theorem HeapOk.extended {d : Chunk} {lo' : Nat} (ok : HeapOk s lo L) (some : L ≠ [])
    (dFree : d.free = true) (ok' : HeapOk s' lo' (join blockSize L [d])) :
    lo' = lo ∧ s.brk < s'.brk ∧ s'.requested = s.requested + (s'.brk - s.brk) ∧
      HeapOk s' lo' (appended L s.brk s'.brk) := by
  obtain ⟨start, isWhole⟩ := join_appended ok.laid.tiles some dFree ok'.laid.tiles
  have whole := tiles_total ok'.laid.tiles
  have before := tiles_total ok.laid.tiles
  have bytes := ok'.accounted
  have bytesBefore := ok.accounted
  have wide : blockSize = 32 := rfl
  rw [total_join, total_cons, total_nil] at whole bytes
  exact ⟨start, by omega, by omega, isWhole ▸ ok'⟩

/-- free takes malloc back: to the list there was where a block of it was large enough, and
else to that list with the bytes obtained appended as free space. -/
theorem free_undoes_malloc (ok : HeapOk s lo L) (small : size ≤ maxRequest)
    (run : malloc s size = .ok (p, s')) (answered : p ≠ 0) :
    ∃ s'', free s' p = .ok s'' ∧
      ((∃ c ∈ L, c.free = true ∧ alignedSize size ≤ c.size) → HeapOk s'' lo L) ∧
      ((¬ ∃ c ∈ L, c.free = true ∧ alignedSize size ≤ c.size) →
        ∃ lo' start, (L ≠ [] → lo' = lo ∧ start = s.brk) ∧ (L = [] → lo' = start) ∧
          start < s''.brk ∧ s''.requested = s.requested + (s''.brk - start) ∧
          HeapOk s'' lo' (appended L start s''.brk)) := by
  obtain ⟨q, t, lo', L', ran, ok', _, steps⟩ := malloc_run ok small
  obtain ⟨rfl, rfl⟩ := Prod.mk.inj (Except.ok.inj (run.symm.trans ran))
  generalize mallocAsks s size = asks at steps
  cases steps with
  | noHeap _ _ => exact absurd rfl answered
  | @ran p k asks L₀ L₁ L' started _ grown taken _ =>
      cases taken with
      | refused _ => exact absurd rfl answered
      | @taken A B c found =>
          obtain ⟨rfl, isFree, room, _⟩ := firstFit_some found
          have settled₀ : L₀.IsChain Settled := by
            cases started with
            | headed _ => exact ok.settled
            | first b _ => exact List.isChain_singleton _
          obtain ⟨s'', back, ok''⟩ := free_taken ok' (grown.settled settled₀) isFree room
          refine ⟨s'', back, ?_, ?_⟩
          · intro fits
            have some : L ≠ [] := by
              rintro rfl
              simp at fits
            cases started with
            | first b _ => exact absurd rfl some
            | headed _ =>
                have none := grown.none_of_fits fits
                obtain ⟨_, same⟩ := grown.as_one.resolve_right fun more => more.1 none
                rw [same] at ok''
                have starts := (firstAddr_tiles 0 some ok''.laid.tiles).symm.trans
                  (firstAddr_tiles 0 some ok.laid.tiles)
                rwa [starts] at ok''
          · intro noFit
            cases started with
            | first b _ =>
                obtain ⟨d, dFree, same⟩ := grown.of_first
                rw [same] at ok''
                obtain ⟨raised, bytes, isWhole⟩ := ok''.one_free dFree
                have none : s.requested = 0 := ok.accounted
                exact ⟨lo', lo', fun some => absurd rfl some, fun _ => rfl, raised, by omega,
                  isWhole ▸ ok''⟩
            | headed some =>
                obtain ⟨_, d, dFree, same⟩ := grown.as_one.resolve_left fun none =>
                  noFit ⟨c, by rw [← none.2]; simp, isFree, room⟩
                rw [same] at ok''
                obtain ⟨starts, raised, bytes, whole⟩ := ok.extended some dFree ok''
                exact ⟨lo', s.brk, fun _ => ⟨starts, rfl⟩, fun none => absurd none some, raised,
                  bytes, whole⟩

end Undo

theorem fullHeap_ok : HeapOk fullHeap 4096 [⟨4096, 65504, false⟩] :=
  played_ok [.malloc 65504] ⟨4096, 65504, false⟩ [] (by decide +kernel) (by decide +kernel)

/-- Two extensions, which a free leaves as one free block. -/
theorem free_undoes_malloc_fullHeap :
    ∃ p s' s'', malloc fullHeap 100000 = .ok (p, s') ∧ free s' p = .ok s'' ∧
      HeapOk s'' 4096 [⟨4096, 65504, false⟩, ⟨69632, s''.brk - 69632 - 32, true⟩] := by
  obtain ⟨p, s', _, _, run, _⟩ := malloc_run fullHeap_ok (show 100000 ≤ maxRequest by decide)
  have some : p ≠ 0 := by
    have answer : (malloc fullHeap 100000).map Prod.fst = .ok 69664 := by decide +kernel
    rw [run] at answer
    have same : p = 69664 := Except.ok.inj answer
    omega
  obtain ⟨s'', back, _, extended⟩ := free_undoes_malloc fullHeap_ok (by decide) run some
  obtain ⟨lo', start, known, _, _, _, ok⟩ := extended (by decide)
  obtain ⟨rfl, rfl⟩ := known (by simp)
  have brk : fullHeap.brk = 69632 := by decide +kernel
  rw [brk] at ok
  exact ⟨p, s', s'', run, back, ok⟩

/-! ## Pointers into a block -/

section Interior
variable {s : Heap} {lo a : Nat} {L A B : List Chunk} {c : Chunk}

theorem free_same (ok : HeapOk s lo (A ++ c :: B)) (inside : Inside a c) :
    free s a = free s (c.payload blockSize) := by
  have found := fun {b : Nat} (owner : Owns c b) => ok.laid.placed.findBlock_owner owner
  have real : a ≠ 0 := Owns.real (.inr inside)
  rw [free, free, if_neg real, if_neg (payload_real c), ok.headed, found (.inr inside),
    found (.inl rfl)]

theorem free_unused (ok : HeapOk s lo L) (low : lo ≤ c.addr) (high : c.stop blockSize ≤ s.brk)
    (unused : ∀ d ∈ busy L, d.stop blockSize ≤ c.addr ∨ c.stop blockSize ≤ d.addr)
    (inside : Inside a c) : ∃ s', free s a = .ok s' ∧ HeapOk s' lo L := by
  have wide : blockSize = 32 := rfl
  obtain ⟨A, d, B, rfl, dFree, start, stop⟩ := ok.well.unused low high
    (by simp only [Chunk.stop]; omega) unused
  have owner : Owns d a := by
    refine .inr ⟨?_, ?_⟩
    · exact le_trans (Nat.add_le_add_right start _) inside.1
    · exact lt_of_lt_of_le inside.2 stop
  obtain ⟨s', run, ok', _⟩ := free_spec ok owner
  rw [release_free ok.settled dFree] at ok'
  exact ⟨s', run, ok'⟩

/-- Once there are blocks, malloc keeps the first where it is and only raises the break. -/
theorem malloc_grows {s' : Heap} {size p : Nat} (ok : HeapOk s lo L) (some : L ≠ [])
    (small : size ≤ maxRequest) (run : malloc s size = .ok (p, s')) :
    s'.head = s.head ∧ s.brk ≤ s'.brk := by
  obtain ⟨q, t, lo', L', ran, ok', _, steps⟩ := malloc_run ok small
  obtain ⟨rfl, rfl⟩ := Prod.mk.inj (Except.ok.inj (run.symm.trans ran))
  obtain ⟨first, bytes⟩ : firstAddr 0 L' = firstAddr 0 L ∧
      total blockSize L ≤ total blockSize L' := by
    generalize mallocAsks s size = asks at steps
    cases steps with
    | noHeap none _ => exact absurd none some
    | @ran p k asks L₀ L₁ L' started _ grown answered _ =>
        cases started with
        | first b _ => exact absurd rfl some
        | headed _ =>
            obtain ⟨first, bytes⟩ : firstAddr 0 L₁ = firstAddr 0 L ∧
                total blockSize L ≤ total blockSize L₁ := by
              rcases grown.as_one with ⟨_, rfl⟩ | ⟨_, d, _, rfl⟩
              · exact ⟨rfl, le_refl _⟩
              · obtain ⟨x, rest, rfl⟩ := List.exists_cons_of_ne_nil some
                exact ⟨by rw [firstAddr_join]; rfl, by rw [total_join]; omega⟩
            cases answered with
            | refused _ => exact ⟨first, bytes⟩
            | @taken A B c found =>
                obtain ⟨rfl, _⟩ := firstFit_some found
                refine ⟨?_, ?_⟩
                · rw [← first]
                  simp only [firstAddr_append, firstAddr_cons, carve]
                  split <;> rfl
                · simp only [total_append, total_carve, total_cons, total_nil] at bytes ⊢
                  omega
  have before := tiles_total ok.laid.tiles
  have after := tiles_total ok'.laid.tiles
  have some' : L' ≠ [] := by
    rintro rfl
    obtain ⟨x, rest, rfl⟩ := List.exists_cons_of_ne_nil some
    simp only [total_cons, total_nil] at bytes
    have wide : blockSize = 32 := rfl
    omega
  have starts := (firstAddr_tiles 0 some' ok'.laid.tiles).symm.trans
    (first.trans (firstAddr_tiles 0 some ok.laid.tiles))
  exact ⟨ok'.headed.trans (first.trans ok.headed.symm), by omega⟩

theorem calloc_grows {s' : Heap} {nmemb size p : Nat} (ok : HeapOk s lo L) (some : L ≠ [])
    (request : CallocRequest nmemb size) (run : calloc s nmemb size = .ok (p, s')) :
    s'.head = s.head ∧ s.brk ≤ s'.brk := by
  by_cases none : nmemb = 0 ∨ size = 0
  · rw [calloc, if_pos none] at run
    cases run
    exact ⟨rfl, le_refl _⟩
  by_cases large : sizeMax < nmemb * size
  · rw [calloc, if_neg none, if_pos ((calloc_overflow_iff none).mpr large)] at run
    cases run
    exact ⟨rfl, le_refl _⟩
  have small : nmemb * size ≤ maxRequest := request.2.2.resolve_right large
  rw [(calloc_run none (by omega)).1] at run
  obtain ⟨⟨q, s₁⟩, inner, run⟩ := bind_ok_iff.mp run
  have grows := malloc_grows ok some small inner
  simp only at run
  split at run
  · cases run
    exact grows
  · cases run
    exact grows

theorem HeapOk.start_eq {s' : Heap} {lo' : Nat} {L' : List Chunk} (ok : HeapOk s lo L)
    (some : L ≠ []) (ok' : HeapOk s' lo' L') (head : s'.head = s.head) : lo' = lo := by
  have first := firstAddr_tiles 0 some ok.laid.tiles
  have real := ok.laid.positive some
  have headed := ok'.headed
  rw [head, ok.headed, first] at headed
  have some' : L' ≠ [] := by
    rintro rfl
    rw [firstAddr_nil] at headed
    omega
  rw [headed, firstAddr_tiles 0 some' ok'.laid.tiles]

theorem HeapOk.some_of_spans (ok : HeapOk s lo L) (low : lo ≤ c.addr)
    (high : c.stop blockSize ≤ s.brk) : L ≠ [] := by
  rintro rfl
  have none : lo = s.brk := ok.laid.tiles
  have wide : blockSize = 32 := rfl
  simp only [Chunk.stop] at high
  omega

/-- The heap has blocks, and spans the bytes of `c`. -/
def SpansBlock (c : Chunk) (w : World) : Prop :=
  ∃ lo L, Sound w lo L ∧ lo ≤ c.addr ∧ c.stop blockSize ≤ w.heap.brk

theorem plain_spans {w w' : World} {op : Op} (before : SpansBlock c w)
    (next : plainStep w op w') : SpansBlock c w' := by
  obtain ⟨lo, L, sound, low, high⟩ := before
  obtain ⟨lo', L', sound'⟩ := plain_sound ⟨lo, L, sound⟩ next
  have some := sound.heap.some_of_spans low high
  obtain ⟨⟨⟨_, valid⟩, rfl⟩, plain⟩ := next
  obtain ⟨head, brk⟩ : (after w op).heap.head = w.heap.head ∧
      w.heap.brk ≤ (after w op).heap.brk := by
    cases ran : perform w op with
    | error fault =>
        simp only [after, ran]
        exact ⟨trivial, le_refl _⟩
    | ok w' =>
        simp only [after, ran]
        cases op with
        | malloc size =>
            obtain ⟨⟨p, s'⟩, run, ran⟩ := bind_ok_iff.mp ran
            cases ran
            exact malloc_grows sound.heap some valid run
        | calloc nmemb size =>
            obtain ⟨⟨p, s'⟩, run, ran⟩ := bind_ok_iff.mp ran
            cases ran
            exact calloc_grows sound.heap some valid run
        | free ptr =>
            obtain ⟨s', run, ran⟩ := bind_ok_iff.mp ran
            cases ran
            rw [free_mem run]
            exact ⟨rfl, le_refl _⟩
        | store address value =>
            cases ran
            exact ⟨rfl, le_refl _⟩
        | realloc ptr size => cases plain
  have starts := sound.heap.start_eq some sound'.heap head
  exact ⟨lo', L', sound', by omega, by omega⟩

/-- A pointer into a payload frees its block: one free block takes the place of it and of
its free neighbours.  A pointer into free memory changes nothing, so neither does one into
a block that was freed, as long as no block in use overlaps that block again. -/
theorem free_interior (ok : HeapOk s lo (A ++ c :: B)) (inside : Inside a c) :
    ∃ s', free s a = .ok s' ∧ free s (c.payload blockSize) = .ok s' ∧
      (c.free = true → HeapOk s' lo (A ++ c :: B)) ∧
      (c.free = false → ∃ A' X Y B' d, A = A' ++ X ∧ B = Y ++ B' ∧
        (∀ x ∈ X ++ Y, x.free = true) ∧ (∀ x ∈ A'.getLast?, x.free = false) ∧
        (∀ y ∈ B'.head?, y.free = false) ∧ d.free = true ∧
        Tiles blockSize d.addr (X ++ c :: Y) (d.stop blockSize) ∧
        HeapOk s' lo (A' ++ d :: B')) ∧
      ∀ w run last, w.heap = s' → (∃ lo' L', Sound w lo' L') → Exec plainStep w run last →
        ∀ lo' L', HeapOk last.heap lo' L' →
          (∀ d ∈ busy L', d.stop blockSize ≤ c.addr ∨ c.stop blockSize ≤ d.addr) →
          ∀ b, Inside b c → ∃ s'', free last.heap b = .ok s'' ∧ HeapOk s'' lo' L' := by
  obtain ⟨s', run, ok', _⟩ := free_spec ok (.inr inside)
  refine ⟨s', run, (free_same ok inside).symm.trans run, ?_, ?_, ?_⟩
  · intro isFree
    rwa [release_free ok.settled isFree] at ok'
  · intro _
    obtain ⟨A', X, Y, B', d, left, right, free, before, after, dFree, span, released⟩ :=
      release_span ok.laid.tiles ok.settled
    rw [released] at ok'
    exact ⟨A', X, Y, B', d, left, right, free, before, after, dFree, span, ok'⟩
  · intro w steps last isAfter sound exec lo' L' okLast unused b insideB
    have spans : SpansBlock c w := by
      obtain ⟨lo₁, L₁, sound⟩ := sound
      have bounds := ok.laid.bounds (c := c) (by simp)
      have same := free_mem run
      rw [← isAfter] at same
      have starts := ok.start_eq (by simp) sound.heap (by rw [same])
      refine ⟨lo₁, L₁, sound, by omega, ?_⟩
      rw [same]
      exact bounds.2.2
    obtain ⟨_, lo₁, L₁, sound', low, high⟩ :=
      exec.invariant (I := SpansBlock c) (fun _ _ _ before next => plain_spans before next) spans
    have starts := sound'.heap.start_eq (sound'.heap.some_of_spans low high) okLast rfl
    exact free_unused okLast (by omega) high unused insideB

end Interior

theorem free_interior_threeBlocks :
    ∃ s' A' d B', free threeBlocks 4220 = .ok s' ∧ free threeBlocks 4208 = .ok s' ∧
      d.free = true ∧ HeapOk s' 4096 (A' ++ d :: B') := by
  obtain ⟨s', inside, start, _, freed, _⟩ :=
    free_interior (a := 4220) (A := [⟨4096, 16, false⟩, ⟨4144, 0, false⟩])
      (c := ⟨4176, 48, false⟩) (B := [⟨4256, 65344, true⟩]) threeBlocks_ok
      ⟨by decide, by decide⟩
  obtain ⟨A', _, _, B', d, _, _, _, _, _, dFree, _, ok⟩ := freed rfl
  exact ⟨s', A', d, B', inside, start, dFree, ok⟩

end Csc457.Malloc
