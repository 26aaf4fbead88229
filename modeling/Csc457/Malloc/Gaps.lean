import Csc457.Malloc.Realloc

/-!
# malloc and calloc where there are gaps between the blocks

Other code moves the break between two calls.  The blocks are then still a list
in order, and malloc keeps it one as long as it does not pad, and extends the
heap only from an aligned break, and only past a last block that is in use or
ends there: what it merges is then adjacent, and no byte joins a block but those
it obtained.
-/

set_option autoImplicit false

namespace Csc457.Malloc

open Csc457.Lib.ByteMemory Csc457.Lib.Tiling

/-- A block made at the break is aligned, and is merged with an adjacent one only. -/
structure Extensible (s : Heap) (L : List Chunk) : Prop where
  onUnit : s.brk % alignment = 0
  ends : ∀ c ∈ L.getLast?, c.free = true → c.stop blockSize = s.brk

instance (s : Heap) (L : List Chunk) : Decidable (Extensible s L) :=
  decidable_of_iff (s.brk % alignment = 0 ∧
      ∀ c ∈ L.getLast?, c.free = true → c.stop blockSize = s.brk)
    ⟨fun both => ⟨both.1, both.2⟩, fun extensible => ⟨extensible.onUnit, extensible.ends⟩⟩

def ExtensionRefused (s : Heap) (n : Nat) : Prop := (sbrk s (growAsk n)).2.brk = s.brk

instance (s : Heap) (n : Nat) : Decidable (ExtensionRefused s n) :=
  inferInstanceAs (Decidable (_ = _))

/-- The request finds a block, or can extend the heap, or is refused. -/
def Answerable (n : Nat) (s : Heap) (L : List Chunk) (asks : List Int) : Prop :=
  firstFit n L = none → (n ≤ maxRequest ∧ Extensible s L) ∨ ExtensionRefused (replay s asks) n

instance (n : Nat) (s : Heap) (L : List Chunk) (asks : List Int) :
    Decidable (Answerable n s L asks) :=
  inferInstanceAs (Decidable (firstFit n L = none →
    (n ≤ maxRequest ∧ Extensible s L) ∨ ExtensionRefused (replay s asks) n))

/-- A request was served from the first list, which left the second. -/
structure Served (n p : Nat) (s : Heap) (L : List Chunk) (s' : Heap) (L' : List Chunk) : Prop where
  kept : Kept (busy L) s.mem s'.mem
  answer : Answer n L L' p
  /-- Only bytes above the break join the blocks. -/
  fresh : ∀ x, Within blockSize L' x → Within blockSize L x ∨ s.brk ≤ x

section Gaps
variable {s : Heap} {lo n : Nat} {L : List Chunk}

theorem growAsk_ne_zero (small : n < 2 ^ 64) : growAsk n ≠ 0 := by
  have chunk : stdChunkSize = 65536 := rfl
  unfold growAsk asIntptr
  split <;> split <;> omega

theorem growHeap_refused {prev : Nat} (small : n < 2 ^ 64) (refused : ExtensionRefused s n) :
    growHeap s prev n = .ok (false, { s with calls := s.calls + 1 }) := by
  have failed : sbrk s (growAsk n) = (sbrkFailed, { s with calls := s.calls + 1 }) := by
    have nonzero := growAsk_ne_zero small
    unfold ExtensionRefused sbrk at refused
    unfold sbrk
    split at refused
    · next granted =>
        simp only at refused
        omega
    · next denied => rw [if_neg denied]
  unfold growAsk at failed
  simp only [growHeap, requestMem, failed, if_true]

theorem extended_extensible {brk : Nat} (small : n ≤ maxRequest) (unit : n % alignment = 0)
    (onUnit : brk % alignment = 0) (touching : Touching blockSize L [newBlock brk n]) {s' : Heap}
    (moved : s'.brk = brk + growth n) :
    Extensible s' (join blockSize L [newBlock brk n]) := by
  obtain ⟨_, _, _, growthUnit, growthHeader⟩ := growth_facts small unit
  have wide : blockSize = 32 := rfl
  have sixteen : alignment = 16 := rfl
  have stop : (newBlock brk n).stop blockSize = s'.brk := by
    rw [moved]
    simp only [Chunk.stop, newBlock]
    omega
  refine ⟨?_, ?_⟩
  · rw [moved]
    rw [sixteen] at onUnit growthUnit ⊢
    omega
  · intro c last _
    rcases join_cases blockSize L [newBlock brk n] with
      ⟨same, _⟩ | ⟨A, a, r, B, rfl, single, aFree, rFree, merged⟩
    · rw [same, List.getLast?_concat] at last
      obtain rfl := Option.some.inj last
      exact stop
    · obtain ⟨rfl, rfl⟩ := List.cons.inj single
      rw [merged, List.getLast?_concat] at last
      obtain rfl := Option.some.inj last
      have adjacent := touching a (by simp) (newBlock brk n) (by simp) aFree rFree
      rw [← stop]
      simp only [absorb, Chunk.stop] at adjacent ⊢
      omega

theorem Extensible.touching (extensible : Extensible s L) :
    Touching blockSize L [newBlock s.brk n] := by
  intro a last r first aFree _
  obtain rfl : newBlock s.brk n = r := by simpa using first
  exact extensible.ends a last aFree

/-- One pass of malloc: it takes the first fit, or the heap does not grow, or the
heap has grown at its end and the call is made again. -/
theorem mallocPass_held (retry : Heap → Except Fault (Nat × Heap)) (held : HeapHeld s lo L)
    (some : L ≠ []) (small : n < 2 ^ 64) (unit : n % alignment = 0) (unpadded : ¬ Padded s)
    (answerable : Answerable n s L (alignAsks s)) :
    (∃ A c B s', firstFit n L = .some (A, c, B) ∧
        mallocPass retry s n = .ok (c.payload blockSize, s') ∧
        HeapHeld s' lo (A ++ carve blockSize alignment n c ++ B) ∧
        Kept (busy L) s.mem s'.mem) ∨
      (∃ s', firstFit n L = none ∧ mallocPass retry s n = .ok (0, s') ∧ HeapHeld s' lo L ∧
        s'.mem = s.mem) ∨
      (∃ s', firstFit n L = none ∧ n ≤ maxRequest ∧ Extensible s L ∧
        mallocPass retry s n = retry s' ∧ s'.brk = s.brk + growth n ∧
        HeapHeld s' lo (join blockSize L [newBlock s.brk n]) ∧ Kept L s.mem s'.mem) := by
  obtain ⟨calls, aligned⟩ := alignHeap_unpadded unpadded
  have asked : HeapHeld { s with calls := calls } lo L := held.congr rfl rfl rfl rfl
  have scanned := held.scanned n
  cases found : firstFit n L with
  | some z =>
      obtain ⟨A, c, B⟩ := z
      obtain ⟨rfl, isFree, room, _⟩ := firstFit_some found
      have cReal : c.addr ≠ 0 := held.placed.real (by simp)
      have cBounds := held.placed.bounds (c := c) (by simp)
      have bounded := held.placed.bounded
      obtain ⟨m', run, held', kept⟩ := asked.take unit isFree room
      refine Or.inl ⟨A, c, B, { s with mem := m', calls := calls }, rfl, ?_, held', kept⟩
      rw [found] at scanned
      simp only [mallocPass, aligned, ok_bind, scanned, ne_eq, cReal, not_false_eq_true, if_true,
        run, add64_of_lt (show c.addr + blockSize < 2 ^ 64 by omega)]
      rfl
  | none =>
      right
      rw [found] at scanned
      simp only [mallocPass, aligned, ok_bind, scanned, ne_eq, not_true_eq_false, if_false]
      rcases answerable found with ⟨bounded, extensible⟩ | refused
      · rcases growHeap_held asked some bounded unit extensible.onUnit with
          ⟨s', run, held', same, _⟩ | ⟨s', run, held', moved, kept⟩
        · refine Or.inl ⟨s', trivial, ?_, held', same⟩
          simp only [run, ok_bind, Bool.false_eq_true, if_false]
          rfl
        · refine Or.inr ⟨s', trivial, bounded, extensible, ?_, moved, held', kept⟩
          simp only [run, ok_bind, if_true]
      · have kernel := alignHeap_replays aligned
        have refused : ExtensionRefused { s with calls := calls } n := by
          have brk := (kernel.sbrk (growAsk n)).2.brk
          rw [ExtensionRefused, brk, refused, ← kernel.brk]
        refine Or.inl ⟨{ s with calls := calls + 1 }, trivial, ?_, held.congr rfl rfl rfl rfl, rfl⟩
        simp only [growHeap_refused small refused, ok_bind, Bool.false_eq_true, if_false]
        rfl

theorem served_taken {A B : List Chunk} {c : Chunk} {s' : Heap}
    (found : firstFit n L = some (A, c, B)) (kept : Kept (busy L) s.mem s'.mem) :
    Served n (c.payload blockSize) s L s' (A ++ carve blockSize alignment n c ++ B) := by
  refine ⟨kept, (Allocated.taken found).answer, ?_⟩
  obtain ⟨rfl, _⟩ := firstFit_some found
  intro x within
  left
  simp only [within_append, within_carve, within_cons, within_nil, or_false] at within ⊢
  simpa only [or_assoc] using within

theorem served_null {s' : Heap} (same : s'.mem = s.mem) : Served n 0 s L s' L := by
  refine ⟨?_, Or.inl ⟨rfl, rfl⟩, fun x within => Or.inl within⟩
  intro c _ x _ _
  rw [same]

theorem Served.extended {p : Nat} {s₁ s' : Heap} {L' : List Chunk} (extensible : Extensible s L)
    (grown : s₁.brk = s.brk + growth n) (kept : Kept L s.mem s₁.mem)
    (served : Served n p s₁ (join blockSize L [newBlock s.brk n]) s' L') :
    Served n p s L s' L' := by
  have sameBusy : busy (join blockSize L [newBlock s.brk n]) = busy L := by
    rw [busy_join, busy_cons_free (c := newBlock s.brk n) [] rfl, busy_nil, List.append_nil]
  obtain ⟨kept', answer, fresh⟩ := served
  rw [sameBusy] at kept'
  rw [Answer, sameBusy] at answer
  refine ⟨(kept.subset fun c member => (mem_busy.mp member).1).trans kept', answer, ?_⟩
  intro x within
  rcases fresh x within with joined | above
  · rw [within_join extensible.touching, within_append, within_cons] at joined
    rcases joined with old | new | none
    · exact Or.inl old
    · exact Or.inr new.1
    · exact absurd none within_nil
  · exact Or.inr (by omega)

/-- On a heap that can be extended, malloc returns.  The induction is on the
extensions that are still to come. -/
theorem mallocPass_extensible {size : Nat} (depth : Nat)
    (small : alignedSize size ≤ maxRequest) (unit : alignedSize size % alignment = 0) (more : Nat) :
    ∀ {s : Heap} {L : List Chunk}, HeapHeld s lo L → L ≠ [] → Extensible s L →
      (∀ L₁, Grown (alignedSize size) more L L₁ → firstFit (alignedSize size) L₁ ≠ none) →
      ∃ p s' L',
        mallocPass (fun s => mallocFrom (depth + more) s size) s (alignedSize size) =
          .ok (p, s') ∧
        HeapHeld s' lo L' ∧ Served (alignedSize size) p s L s' L' := by
  have bounded : alignedSize size < 2 ^ 64 := by
    have top : maxRequest = 2 ^ 63 - 16 := rfl
    omega
  have unpadded : ∀ {s : Heap} {L : List Chunk}, Extensible s L → ¬ Padded s :=
    fun extensible padded => padded.1 extensible.onUnit
  induction more with
  | zero =>
      intro s L held some extensible room
      have fits := room L (.done L)
      rcases mallocPass_held (fun s => mallocFrom (depth + 0) s size) held some bounded unit
          (unpadded extensible) (fun _ => .inl ⟨small, extensible⟩) with
        ⟨A, c, B, s', found, run, held', kept⟩ | ⟨_, missing, _⟩ | ⟨_, missing, _⟩
      · exact ⟨_, s', _, run, held', served_taken found kept⟩
      · exact absurd missing fits
      · exact absurd missing fits
  | succ more ih =>
      intro s L held some extensible room
      rcases mallocPass_held (fun s => mallocFrom (depth + (more + 1)) s size) held some bounded
          unit (unpadded extensible) (fun _ => .inl ⟨small, extensible⟩) with
        ⟨A, c, B, s', found, run, held', kept⟩ | ⟨s', _, run, held', same⟩ |
        ⟨s', missing, _, _, run, moved, held', kept⟩
      · exact ⟨_, s', _, run, held', served_taken found kept⟩
      · exact ⟨0, s', L, run, held', served_null same⟩
      · obtain ⟨A, c, last, _⟩ := join_free_last (h := blockSize) (L := L)
          (d := newBlock s.brk (alignedSize size)) rfl
        have some' : join blockSize L [newBlock s.brk (alignedSize size)] ≠ [] := by simp [last]
        have extensible' :=
          extended_extensible small unit extensible.onUnit extensible.touching moved
        obtain ⟨p, s'', L', run', held'', served⟩ :=
          ih held' some' extensible' fun L₁ grown => room L₁ (.more missing grown)
        refine ⟨p, s'', L', ?_, held'', served.extended extensible moved kept⟩
        rw [run, ← Nat.add_assoc, (mallocFrom_headed held' some' (depth + more) size).1, run']

/-- A request for `n` bytes does no harm, wherever other code has moved the break. -/
def Tolerated (n : Nat) (s : Heap) (L : List Chunk) : Prop :=
  if s.head = 0 then
    n ≤ maxRequest ∨ ¬ Granted s (initAsks s) ∨
      ExtensionRefused (replay s (initAsks s ++ [0])) n
  else ¬ Padded s ∧ Answerable n s L (alignAsks s)

instance : Decidable (Tolerated n s L) :=
  inferInstanceAs (Decidable (if s.head = 0 then
    n ≤ maxRequest ∨ ¬ Granted s (initAsks s) ∨
      ExtensionRefused (replay s (initAsks s ++ [0])) n
    else ¬ Padded s ∧ Answerable n s L (alignAsks s)))

theorem SameKernel.refused_iff {s' : Heap} (same : SameKernel s s') :
    ExtensionRefused s' n ↔ ExtensionRefused s n := by
  rw [ExtensionRefused, ExtensionRefused, (same.sbrk (growAsk n)).2.brk, same.brk]

theorem alignedSize_unit (size : Nat) :
    alignedSize size % alignment = 0 ∧ alignedSize size < 2 ^ 64 := by
  have sixteen : alignment = 16 := rfl
  have sum : add64 size 15 < 2 ^ 64 := Nat.mod_lt _ (by decide)
  simp only [alignedSize, sixteen]
  omega

theorem mallocPass_answered {size : Nat} (depth : Nat) (held : HeapHeld s lo L) (some : L ≠ [])
    (unpadded : ¬ Padded s) (answerable : Answerable (alignedSize size) s L (alignAsks s)) :
    ∃ p s' L',
      mallocPass (fun s => mallocFrom (depth + 2) s size) s (alignedSize size) = .ok (p, s') ∧
      HeapHeld s' lo L' ∧ Served (alignedSize size) p s L s' L' := by
  obtain ⟨unit, small⟩ := alignedSize_unit size
  rcases mallocPass_held (fun s => mallocFrom (depth + 2) s size) held some small unit unpadded
      answerable with
    ⟨A, c, B, s', found, run, held', kept⟩ | ⟨s', _, run, held', same⟩ |
    ⟨s', missing, bounded, extensible, run, moved, held', kept⟩
  · exact ⟨_, s', _, run, held', served_taken found kept⟩
  · exact ⟨0, s', L, run, held', served_null same⟩
  · obtain ⟨A, c, last, _⟩ := join_free_last (h := blockSize) (L := L)
      (d := newBlock s.brk (alignedSize size)) rfl
    have some' : join blockSize L [newBlock s.brk (alignedSize size)] ≠ [] := by simp [last]
    have extensible' :=
      extended_extensible bounded unit extensible.onUnit extensible.touching moved
    obtain ⟨p, s'', L', run', held'', served⟩ :=
      mallocPass_extensible depth bounded unit 1 held' some' extensible'
        fun L₁ grown => (Grown.more missing grown).twice_fits bounded unit
    refine ⟨p, s'', L', ?_, held'', served.extended extensible moved kept⟩
    rw [run, (mallocFrom_headed held' some' (depth + 1) size).1, run']

/-- malloc returns, wherever other code has moved the break, and the blocks stay a
list in order. -/
theorem malloc_held {size : Nat} (held : HeapHeld s lo L)
    (tolerated : Tolerated (alignedSize size) s L) :
    ∃ p s' lo' L', malloc s size = .ok (p, s') ∧ HeapHeld s' lo' L' ∧
      Served (alignedSize size) p s L s' L' := by
  obtain ⟨depth, isLimit⟩ := walkLimit_eq (Nat.le_refl 3)
  unfold Tolerated at tolerated
  rw [malloc, isLimit]
  cases L with
  | cons c L =>
      have headed : s.head ≠ 0 := by
        rw [held.headed]
        exact held.placed.real (by simp)
      rw [if_neg headed] at tolerated
      rw [(mallocFrom_headed held (by simp) (depth + 2) size).1]
      obtain ⟨p, s', L', run, held', served⟩ :=
        mallocPass_answered depth held (by simp) tolerated.1 tolerated.2
      exact ⟨p, s', lo, L', run, held', served⟩
  | nil =>
      have new : Untouched s := ⟨held.headed, held.accounted, held.placed.bounded⟩
      have nothing : ∀ m : Memory, Kept (busy []) s.mem m := by
        intro m c member
        simp at member
      rw [if_pos new.headless] at tolerated
      rw [mallocFrom, if_pos new.headless]
      rcases initHeap_spec new with ⟨s', run, new'⟩ | ⟨b, s', run, real, low, ok'⟩
      · refine ⟨0, { s' with head := 0 }, s'.brk, [], ?_, ?_, ?_⟩
        · simp only [run, ok_bind, if_true]
          rfl
        · have empty : Untouched { s' with head := 0 } := ⟨rfl, new'.nothing, new'.bounded⟩
          exact (HeapOk.of_untouched empty).held
        · exact ⟨nothing _, Or.inl ⟨rfl, rfl⟩, fun x within => absurd within within_nil⟩
      · obtain ⟨kernel, granted⟩ := initHeap_replays run
        have kernel : SameKernel (replay s (initAsks s)) { s' with head := b } :=
          ⟨kernel.brk, kernel.grant, kernel.calls⟩
        obtain ⟨stop, _, _⟩ := firstBlock_facts b
        have ends : (firstBlock b).stop blockSize = s'.brk := ok'.laid.tiles.2
        have extensible : Extensible { s' with head := b } [firstBlock b] := by
          refine ⟨ok'.brk_aligned (by simp), ?_⟩
          intro c last _
          obtain rfl : firstBlock b = c := by simpa using last
          exact ends
        have answerable : Answerable (alignedSize size) { s' with head := b } [firstBlock b]
            (alignAsks { s' with head := b }) := by
          intro _
          rcases tolerated with small | refused | refused
          · exact Or.inl ⟨small, extensible⟩
          · exact absurd (granted.mp real) refused
          · right
            rw [alignAsks_ok ok' (by simp), (kernel.replay [0]).refused_iff, ← replay_append]
            exact refused
        obtain ⟨p, s'', L', pass, held', served⟩ := mallocPass_answered depth ok'.held (by simp)
          (fun padded => padded.1 extensible.onUnit) answerable
        have isFree : busy [firstBlock b] = busy [] := busy_cons_free [] rfl
        have answer := served.answer
        rw [Answer, isFree] at answer
        refine ⟨p, s'', b, L', ?_, held', nothing _, answer, ?_⟩
        · simp only [run, ok_bind, if_neg real, pass]
        · intro x within
          right
          rcases served.fresh x within with first | above
          · rw [within_cons] at first
            have start : (firstBlock b).addr = b := rfl
            rcases first with inside | none
            · omega
            · exact absurd none within_nil
          · have above : s'.brk ≤ x := above
            omega

/-- The call of calloc has no product to allocate, or does no harm and fills no more
than it was given. -/
def CallocTolerated (nmemb size : Nat) (s : Heap) (L : List Chunk) : Prop :=
  (nmemb = 0 ∨ size = 0) ∨ sizeMax < nmemb * size ∨
    (nmemb * size ≤ alignedSize (nmemb * size) ∧ Tolerated (alignedSize (nmemb * size)) s L)

instance (nmemb size : Nat) : Decidable (CallocTolerated nmemb size s L) :=
  inferInstanceAs (Decidable ((_ ∨ _) ∨ _ ∨ _ ∧ _))

theorem calloc_held {nmemb size : Nat} (held : HeapHeld s lo L)
    (tolerated : CallocTolerated nmemb size s L) :
    ∃ p s' lo' L', calloc s nmemb size = .ok (p, s') ∧ HeapHeld s' lo' L' ∧
      Served (nmemb * size) p s L s' L' := by
  by_cases none : nmemb = 0 ∨ size = 0
  · exact ⟨0, s, lo, L, if_pos none, held, served_null rfl⟩
  by_cases large : sizeMax < nmemb * size
  · refine ⟨0, s, lo, L, ?_, held, served_null rfl⟩
    rw [calloc, if_neg none, if_pos ((calloc_overflow_iff none).mpr large)]
  obtain ⟨whole, tolerated⟩ := (tolerated.resolve_left none).resolve_left large
  obtain ⟨p, s', lo', L', run, held', served⟩ := malloc_held held tolerated
  have answer := served.answer.mono whole
  rw [(calloc_run none (by omega)).1]
  by_cases null : p = 0
  · refine ⟨p, s', lo', L', ?_, held', served.kept, answer, served.fresh⟩
    simp only [run, ok_bind, null, if_true]
    rfl
  · obtain ⟨held'', kept, _⟩ := held'.zeroed served.kept answer null
    refine ⟨p, _, lo', L', ?_, held'', kept, answer, served.fresh⟩
    simp only [run, ok_bind, if_neg null]
    rfl

end Gaps

end Csc457.Malloc
