import Csc457.Malloc.Model
import Csc457.Lib.Tiling

/-!
# The block list in memory

`Linked m p L n` says that the headers of the chunks of `L` are those of a
doubly linked list: `prev` of the first is `p`, `next` of the last is `n`, and
between them the links are each other's inverse.  `HeapOk` is the invariant of
the heap: the list from `head` is `Linked`, tiles the memory up to the break,
and has no two free neighbours.  `HeapHeld` is what is left of it where somebody else
moves the break as well, so that there are gaps between the blocks.
-/

set_option autoImplicit false

namespace Csc457.Malloc

open Csc457.Lib.ByteMemory
open Csc457.Lib.Tiling

def flag (free : Bool) : Nat := if free then 1 else 0

def firstAddr (n : Nat) : List Chunk → Nat
  | [] => n
  | c :: _ => c.addr

def lastAddr (p : Nat) : List Chunk → Nat
  | [] => p
  | c :: rest => lastAddr c.addr rest

def Linked (m : Memory) : Nat → List Chunk → Nat → Prop
  | _, [], _ => True
  | p, c :: rest, n =>
      header m c.addr = ⟨firstAddr n rest, p, c.size, flag c.free⟩ ∧ Linked m c.addr rest n

/-- `L` is the list of blocks in memory, end to end from `lo` to `hi`. -/
structure Laid (m : Memory) (lo : Nat) (L : List Chunk) (hi : Nat) : Prop where
  linked : Linked m 0 L 0
  tiles : Tiles blockSize lo L hi
  positive : L ≠ [] → 0 < lo
  bounded : hi < 2 ^ 64

/-- `L` is the list of blocks in memory, in order from `lo` to `hi`, with gaps
between them where somebody else has moved the break. -/
structure Placed (m : Memory) (lo : Nat) (L : List Chunk) (hi : Nat) : Prop where
  linked : Linked m 0 L 0
  spread : Spread blockSize lo L hi
  positive : L ≠ [] → 0 < lo
  bounded : hi < 2 ^ 64

/-- The invariant of the block list: `L` is the list from `head`, it is laid
out up to the break, and no two free blocks are neighbours. -/
structure HeapOk (s : Heap) (lo : Nat) (L : List Chunk) : Prop where
  headed : s.head = firstAddr 0 L
  laid : Laid s.mem lo L s.brk
  aligned : ∀ c ∈ L, Aligned alignment c
  settled : L.IsChain Settled
  accounted : s.requested = total blockSize L

/-- What is left of the invariant where the blocks need not be adjacent. -/
structure HeapHeld (s : Heap) (lo : Nat) (L : List Chunk) : Prop where
  headed : s.head = firstAddr 0 L
  placed : Placed s.mem lo L s.brk
  aligned : ∀ c ∈ L, Aligned alignment c
  accounted : s.requested = total blockSize L

def OnlyHeaders (L : List Chunk) (m m' : Memory) : Prop :=
  ∀ x, (∀ c ∈ L, x < c.addr ∨ c.addr + blockSize ≤ x) → m' x = m x

/-- The payload bytes of the chunks of the list are the same in both memories. -/
def Kept (L : List Chunk) (m m' : Memory) : Prop :=
  ∀ c ∈ L, AgreeOn m m' (c.addr + blockSize) c.size

@[simp] theorem firstAddr_nil (n : Nat) : firstAddr n [] = n := rfl

@[simp] theorem firstAddr_cons (n : Nat) (c : Chunk) (L : List Chunk) :
    firstAddr n (c :: L) = c.addr := rfl

@[simp] theorem firstAddr_append (n : Nat) (A B : List Chunk) :
    firstAddr n (A ++ B) = firstAddr (firstAddr n B) A := by
  cases A <;> rfl

@[simp] theorem firstAddr_join (n h : Nat) (L R : List Chunk) :
    firstAddr n (join h L R) = firstAddr n (L ++ R) := by
  rcases join_cases h L R with ⟨same, _⟩ | ⟨A, a, r, B, rfl, rfl, _, _, merged⟩
  · rw [same]
  · rw [merged, firstAddr_append, firstAddr_append, firstAddr_append]
    rfl

theorem firstAddr_tiles {lo hi : Nat} (n : Nat) {L : List Chunk} (some : L ≠ [])
    (tiles : Tiles blockSize lo L hi) : firstAddr n L = lo := by
  obtain ⟨c, L, rfl⟩ := List.exists_cons_of_ne_nil some
  exact tiles.1

@[simp] theorem lastAddr_append (p : Nat) (A B : List Chunk) :
    lastAddr p (A ++ B) = lastAddr (lastAddr p A) B := by
  induction A generalizing p with
  | nil => rfl
  | cons a A ih => exact ih a.addr

section Linked
variable {m m' : Memory} {p n : Nat}

theorem linked_append {A B : List Chunk} :
    Linked m p (A ++ B) n ↔ Linked m p A (firstAddr n B) ∧ Linked m (lastAddr p A) B n := by
  induction A generalizing p with
  | nil => simp [Linked, lastAddr]
  | cons a A ih =>
      simp only [List.cons_append, Linked, lastAddr, ih, firstAddr_append]
      exact and_assoc.symm

theorem Linked.congr {L : List Chunk} (linked : Linked m p L n)
    (same : ∀ c ∈ L, header m' c.addr = header m c.addr) : Linked m' p L n := by
  induction L generalizing p with
  | nil => trivial
  | cons c L ih =>
      obtain ⟨here, rest⟩ := linked
      exact ⟨(same c (by simp)).trans here, ih rest fun d member => same d (by simp [member])⟩

theorem Linked.setPrev {L : List Chunk} {p' : Nat} (linked : Linked m p L n)
    (first : ∀ c ∈ L.head?, header m' c.addr = { header m c.addr with prev := p' })
    (others : ∀ c ∈ L.tail, header m' c.addr = header m c.addr) : Linked m' p' L n := by
  cases L with
  | nil => trivial
  | cons c L =>
      obtain ⟨here, rest⟩ := linked
      refine ⟨?_, rest.congr others⟩
      rw [first c rfl, here]

theorem Linked.setNext {L : List Chunk} {n' : Nat} (linked : Linked m p L n)
    (last : ∀ c ∈ L.getLast?, header m' c.addr = { header m c.addr with next := n' })
    (others : ∀ c ∈ L.dropLast, header m' c.addr = header m c.addr) : Linked m' p L n' := by
  rcases List.eq_nil_or_concat' L with rfl | ⟨A, a, rfl⟩
  · trivial
  · obtain ⟨left, here, _⟩ := linked_append.mp linked
    refine linked_append.mpr ⟨?_, ?_, trivial⟩
    · exact left.congr fun c member => others c (by simpa using member)
    · rw [last a (by simp), here]
      rfl

theorem Linked.header {A B : List Chunk} {c : Chunk} (linked : Linked m p (A ++ c :: B) n) :
    header m c.addr = ⟨firstAddr n B, lastAddr p A, c.size, flag c.free⟩ :=
  (linked_append.mp linked).2.1

theorem Linked.setFree {A B : List Chunk} {c : Chunk} {free : Bool}
    (linked : Linked m p (A ++ c :: B) n)
    (here : Malloc.header m' c.addr = { Malloc.header m c.addr with free := flag free })
    (others : ∀ d ∈ A ++ B, Malloc.header m' d.addr = Malloc.header m d.addr) :
    Linked m' p (A ++ { c with free := free } :: B) n := by
  obtain ⟨left, old, right⟩ := linked_append.mp linked
  refine linked_append.mpr ⟨left.congr fun d member => others d (by simp [member]), ?_,
    right.congr fun d member => others d (by simp [member])⟩
  change Malloc.header m' c.addr = _
  rw [here, old]

theorem Linked.absorb {A B : List Chunk} {c d : Chunk}
    (linked : Linked m p (A ++ c :: d :: B) n)
    (here : Malloc.header m' c.addr =
      { Malloc.header m c.addr with next := firstAddr n B, size := c.size + (d.size + blockSize) })
    (after : ∀ b ∈ B.head?,
      Malloc.header m' b.addr = { Malloc.header m b.addr with prev := c.addr })
    (others : ∀ b ∈ A ++ B.tail, Malloc.header m' b.addr = Malloc.header m b.addr) :
    Linked m' p (A ++ absorb blockSize c d :: B) n := by
  obtain ⟨left, old, _, right⟩ := linked_append.mp linked
  refine linked_append.mpr ⟨left.congr fun b member => others b (by simp [member]), ?_, ?_⟩
  · change Malloc.header m' c.addr = _
    rw [here, old]
    rfl
  · exact right.setPrev after fun b member => others b (by simp [member])

theorem Linked.split {A B : List Chunk} {c right : Chunk} (left : Chunk)
    (linked : Linked m p (A ++ c :: B) n) (start : left.addr = c.addr)
    (here : Malloc.header m' c.addr =
      ⟨right.addr, (Malloc.header m c.addr).prev, left.size, flag left.free⟩)
    (new : Malloc.header m' right.addr = ⟨firstAddr n B, c.addr, right.size, flag right.free⟩)
    (after : ∀ b ∈ B.head?,
      Malloc.header m' b.addr = { Malloc.header m b.addr with prev := right.addr })
    (others : ∀ b ∈ A ++ B.tail, Malloc.header m' b.addr = Malloc.header m b.addr) :
    Linked m' p (A ++ left :: right :: B) n := by
  obtain ⟨before, old, rest⟩ := linked_append.mp linked
  refine linked_append.mpr ⟨?_, ?_, ?_, ?_⟩
  · simp only [firstAddr] at before ⊢
    rw [start]
    exact before.congr fun b member => others b (by simp [member])
  · rw [start, here, old]
    rfl
  · rw [new, start]
  · exact rest.setPrev after fun b member => others b (by simp [member])

theorem Linked.concat {L : List Chunk} {d : Chunk} (linked : Linked m p L n)
    (last : ∀ c ∈ L.getLast?,
      Malloc.header m' c.addr = { Malloc.header m c.addr with next := d.addr })
    (new : Malloc.header m' d.addr = ⟨n, lastAddr p L, d.size, flag d.free⟩)
    (others : ∀ b ∈ L.dropLast, Malloc.header m' b.addr = Malloc.header m b.addr) :
    Linked m' p (L ++ [d]) n :=
  linked_append.mpr ⟨linked.setNext last others, new, trivial⟩

end Linked

/-! ## Where the headers lie -/

section Layout
variable {m m' m'' : Memory} {lo hi : Nat} {L A B : List Chunk} {c : Chunk}

theorem Laid.placed (laid : Laid m lo L hi) : Placed m lo L hi :=
  ⟨laid.linked, tiles_spread laid.tiles, laid.positive, laid.bounded⟩

theorem Placed.laid (placed : Placed m lo L hi) (tiles : Tiles blockSize lo L hi) :
    Laid m lo L hi := ⟨placed.linked, tiles, placed.positive, placed.bounded⟩

theorem HeapOk.held {s : Heap} (ok : HeapOk s lo L) : HeapHeld s lo L :=
  ⟨ok.headed, ok.laid.placed, ok.aligned, ok.accounted⟩

theorem HeapHeld.ok {s : Heap} (held : HeapHeld s lo L)
    (well : WellTiled blockSize alignment lo L s.brk) : HeapOk s lo L :=
  ⟨held.headed, held.placed.laid well.tiles, held.aligned, well.settled, held.accounted⟩

theorem Placed.bounds (placed : Placed m lo L hi) {c : Chunk} (member : c ∈ L) :
    0 < c.addr ∧ lo ≤ c.addr ∧ c.addr + blockSize + c.size ≤ hi := by
  obtain ⟨low, high⟩ := spread_mem placed.spread member
  have real := placed.positive (List.ne_nil_of_mem member)
  exact ⟨by omega, low, high⟩

theorem Laid.bounds (laid : Laid m lo L hi) {c : Chunk} (member : c ∈ L) :
    0 < c.addr ∧ lo ≤ c.addr ∧ c.addr + blockSize + c.size ≤ hi := laid.placed.bounds member

theorem Placed.real (placed : Placed m lo L hi) {c : Chunk} (member : c ∈ L) : c.addr ≠ 0 := by
  have bounds := placed.bounds member
  omega

theorem Laid.real (laid : Laid m lo L hi) {c : Chunk} (member : c ∈ L) : c.addr ≠ 0 :=
  laid.placed.real member

theorem Placed.around (placed : Placed m lo (A ++ c :: B) hi) :
    (∀ a ∈ A, a.addr + blockSize + a.size ≤ c.addr) ∧
      (∀ b ∈ B, c.addr + blockSize + c.size ≤ b.addr) :=
  spread_around placed.spread

theorem Laid.around (laid : Laid m lo (A ++ c :: B) hi) :
    (∀ a ∈ A, a.addr + blockSize + a.size ≤ c.addr) ∧
      (∀ b ∈ B, c.addr + blockSize + c.size ≤ b.addr) := laid.placed.around

theorem Placed.length_lt (placed : Placed m lo L hi) : L.length < walkLimit := by
  have count := spread_length placed.spread
  have bound := placed.bounded
  simp only [walkLimit, blockSize] at count ⊢
  omega

theorem Placed.apart (placed : Placed m lo (A ++ c :: B) hi) {d : Chunk} (member : d ∈ A ++ B) :
    HeaderApart c.addr d.addr := by
  obtain ⟨before, after⟩ := placed.around
  rcases List.mem_append.mp member with member | member
  · have bound := before d member
    exact Or.inr (by omega)
  · have bound := after d member
    exact Or.inl (by omega)

theorem Laid.apart (laid : Laid m lo (A ++ c :: B) hi) {d : Chunk} (member : d ∈ A ++ B) :
    HeaderApart c.addr d.addr := laid.placed.apart member

theorem OnlyHeaders.refl (L : List Chunk) (m : Memory) : OnlyHeaders L m m := fun _ _ => rfl

theorem OnlyHeaders.trans (first : OnlyHeaders L m m') (second : OnlyHeaders L m' m'') :
    OnlyHeaders L m m'' := fun x outside => (second x outside).trans (first x outside)

theorem onlyHeaders_set {v : Nat} (member : c ∈ L) :
    OnlyHeaders L m (setNext m c.addr v) ∧ OnlyHeaders L m (setPrev m c.addr v) ∧
      OnlyHeaders L m (setSize m c.addr v) ∧ OnlyHeaders L m (setFree m c.addr v) :=
  ⟨fun _ outside => (set_outside (outside c member)).1,
    fun _ outside => (set_outside (outside c member)).2.1,
    fun _ outside => (set_outside (outside c member)).2.2.1,
    fun _ outside => (set_outside (outside c member)).2.2.2⟩

theorem Placed.kept (placed : Placed m'' lo L hi) (only : OnlyHeaders L m m') :
    Kept L m m' := by
  intro c member x low high
  apply only
  intro d other
  obtain ⟨A, B, rfl⟩ := List.append_of_mem member
  obtain ⟨before, after⟩ := placed.around
  rcases List.mem_append.mp other with other | other
  · have bound := before d other
    omega
  · rcases List.mem_cons.mp other with rfl | other
    · omega
    · have bound := after d other
      omega

theorem Laid.kept (laid : Laid m'' lo L hi) (only : OnlyHeaders L m m') : Kept L m m' :=
  laid.placed.kept only

theorem Kept.trans (first : Kept L m m') (second : Kept L m' m'') : Kept L m m'' :=
  fun c member x low high =>
    (second c member x low high).trans (first c member x low high)

theorem Kept.subset {K : List Chunk} (kept : Kept L m m') (sub : K ⊆ L) : Kept K m m' :=
  fun c member => kept c (sub member)

theorem Kept.busy (kept : Kept L m m') : Kept (Csc457.Lib.Tiling.busy L) m m' :=
  kept.subset fun _ member => (mem_busy.mp member).1

end Layout

end Csc457.Malloc
