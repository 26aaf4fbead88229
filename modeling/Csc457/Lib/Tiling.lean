import Mathlib.Data.List.Chain
import Mathlib.Data.List.Nodup
import Mathlib.Tactic.Ring

/-!
# Tilings of an interval by headed chunks

The abstract side of a boundary-walking allocator: a list of chunks, each a
header of `h` bytes followed by its payload, laid end to end.  A chunk is cut
in two, joined to its neighbour, or appended, and each of these edits keeps the
tiling, the alignment, and the rule that no two neighbours are both free.

`join` is the only place where chunks are merged.  `join_cases` says once what
it can do, and every invariant of it is read off from there.
-/

set_option autoImplicit false

namespace Csc457.Lib.Tiling

structure Chunk where
  addr : Nat
  size : Nat
  free : Bool
  deriving DecidableEq, Repr

def Chunk.payload (h : Nat) (c : Chunk) : Nat := c.addr + h

def Chunk.stop (h : Nat) (c : Chunk) : Nat := c.addr + h + c.size

/-- The chunks lie end to end from the first address to the second. -/
def Tiles (h : Nat) : Nat → List Chunk → Nat → Prop
  | start, [], stop => start = stop
  | start, c :: rest, stop => c.addr = start ∧ Tiles h (c.stop h) rest stop

/-- The chunks lie in this order between the two addresses, with gaps allowed. -/
def Spread (h : Nat) : Nat → List Chunk → Nat → Prop
  | start, [], stop => start ≤ stop
  | start, c :: rest, stop => start ≤ c.addr ∧ Spread h (c.stop h) rest stop

/-- The byte belongs to a chunk, to its header or to its payload. -/
def Within (h : Nat) (L : List Chunk) (x : Nat) : Prop := ∃ c ∈ L, c.addr ≤ x ∧ x < c.stop h

instance (h : Nat) (L : List Chunk) (x : Nat) : Decidable (Within h L x) :=
  inferInstanceAs (Decidable (∃ c ∈ L, _))

/-- Where both chunks at the seam of the lists are free, they are adjacent. -/
def Touching (h : Nat) (L R : List Chunk) : Prop :=
  ∀ a ∈ L.getLast?, ∀ r ∈ R.head?, a.free = true → r.free = true → a.stop h = r.addr

/-- Neighbours that may stand side by side. -/
def Settled (x y : Chunk) : Prop := ¬ (x.free = true ∧ y.free = true)

/-- Both header addresses and sizes are multiples of the alignment. -/
def Aligned (align : Nat) (c : Chunk) : Prop := c.addr % align = 0 ∧ c.size % align = 0

def total (h : Nat) (L : List Chunk) : Nat := (L.map fun c => c.size + h).sum

def busy (L : List Chunk) : List Chunk := L.filter fun c => !c.free

/-- Payload addresses of the chunks in use, in list order. -/
def used (h : Nat) (L : List Chunk) : List Nat := (busy L).map (Chunk.payload h)

/-- The chunk grown by its right neighbour, header included. -/
def absorb (h : Nat) (c d : Chunk) : Chunk := { c with size := c.size + (d.size + h) }

/-- Put two lists side by side, merging at the seam where both ends are free. -/
def join (h : Nat) (L R : List Chunk) : List Chunk :=
  match L.getLast?, R with
  | some a, r :: B => if a.free && r.free then L.dropLast ++ absorb h a r :: B else L ++ r :: B
  | _, _ => L ++ R

/-- The first free chunk of at least `n` payload bytes, with what lies around it. -/
def firstFit (n : Nat) : List Chunk → Option (List Chunk × Chunk × List Chunk)
  | [] => none
  | c :: rest =>
      if c.free && decide (n ≤ c.size) then some ([], c, rest)
      else (firstFit n rest).map fun z => (c :: z.1, z.2.1, z.2.2)

/-- Take `n` bytes of a free chunk, leaving the rest as a free chunk of its own
when it has room for a header and one unit of alignment. -/
def carve (h align n : Nat) (c : Chunk) : List Chunk :=
  if n + h + align ≤ c.size then
    [{ c with size := n, free := false }, ⟨c.addr + h + n, c.size - n - h, true⟩]
  else [{ c with free := false }]

/-- Free a chunk and merge it with whichever neighbours are free. -/
def release (h : Nat) (A : List Chunk) (c : Chunk) (B : List Chunk) : List Chunk :=
  join h A (join h [{ c with free := true }] B)

@[simp] theorem total_nil (h : Nat) : total h [] = 0 := rfl

@[simp] theorem total_cons (h : Nat) (c : Chunk) (L : List Chunk) :
    total h (c :: L) = c.size + h + total h L := by
  simp [total]

@[simp] theorem total_append (h : Nat) (L R : List Chunk) :
    total h (L ++ R) = total h L + total h R := by
  simp [total]

section Spread
variable {h : Nat}

theorem spread_le {L : List Chunk} {start stop : Nat} (spread : Spread h start L stop) :
    start ≤ stop := by
  induction L generalizing start with
  | nil => exact spread
  | cons c L ih =>
      obtain ⟨low, rest⟩ := spread
      have tail := ih rest
      simp only [Chunk.stop] at tail
      omega

theorem spread_mono {L : List Chunk} {start start' stop stop' : Nat}
    (spread : Spread h start L stop) (low : start' ≤ start) (high : stop ≤ stop') :
    Spread h start' L stop' := by
  induction L generalizing start start' with
  | nil => exact low.trans (le_trans spread high)
  | cons c L ih => exact ⟨low.trans spread.1, ih spread.2 (le_refl _)⟩

theorem spread_append {L R : List Chunk} {start stop : Nat} :
    Spread h start (L ++ R) stop ↔ ∃ mid, Spread h start L mid ∧ Spread h mid R stop := by
  induction L generalizing start with
  | nil =>
      constructor
      · intro spread
        exact ⟨start, le_refl _, spread⟩
      · rintro ⟨mid, low, spread⟩
        exact spread_mono spread low (le_refl _)
  | cons c L ih =>
      simp only [List.cons_append, Spread, ih]
      constructor
      · rintro ⟨low, mid, left, right⟩
        exact ⟨mid, ⟨low, left⟩, right⟩
      · rintro ⟨mid, ⟨low, left⟩, right⟩
        exact ⟨low, mid, left, right⟩

theorem spread_mem {L : List Chunk} {start stop : Nat} (spread : Spread h start L stop)
    {c : Chunk} (member : c ∈ L) : start ≤ c.addr ∧ c.stop h ≤ stop := by
  obtain ⟨A, B, rfl⟩ := List.append_of_mem member
  obtain ⟨mid, left, low, right⟩ := spread_append.mp spread
  exact ⟨(spread_le left).trans low, spread_le right⟩

/-- Around a chunk: everything to its left ends before it, and everything to
its right starts after it. -/
theorem spread_around {A B : List Chunk} {c : Chunk} {start stop : Nat}
    (spread : Spread h start (A ++ c :: B) stop) :
    (∀ a ∈ A, a.stop h ≤ c.addr) ∧ (∀ b ∈ B, c.stop h ≤ b.addr) := by
  obtain ⟨mid, left, low, right⟩ := spread_append.mp spread
  exact ⟨fun a member => (spread_mem left member).2.trans low,
    fun b member => (spread_mem right member).1⟩

theorem spread_length {L : List Chunk} {start stop : Nat} (spread : Spread h start L stop) :
    h * L.length ≤ stop - start := by
  induction L generalizing start with
  | nil => simp
  | cons c L ih =>
      obtain ⟨low, rest⟩ := spread
      have tail := ih rest
      have bound := spread_le rest
      simp only [List.length_cons, Chunk.stop] at tail bound ⊢
      rw [Nat.mul_succ]
      omega

theorem spread_pairwise {L : List Chunk} {start stop : Nat} (spread : Spread h start L stop) :
    L.Pairwise fun x y => x.stop h ≤ y.addr := by
  induction L generalizing start with
  | nil => exact List.Pairwise.nil
  | cons c L ih =>
      obtain ⟨low, rest⟩ := spread
      exact List.pairwise_cons.mpr ⟨fun y member => (spread_mem rest member).1, ih rest⟩

/-- A chunk that takes in the size of its neighbour ends before the neighbour did. -/
theorem spread_absorb {A B : List Chunk} {c d : Chunk} {start stop : Nat}
    (spread : Spread h start (A ++ c :: d :: B) stop) :
    Spread h start (A ++ absorb h c d :: B) stop := by
  obtain ⟨mid, left, low, next, right⟩ := spread_append.mp spread
  refine spread_append.mpr ⟨mid, left, low, spread_mono right ?_ (le_refl _)⟩
  simp only [absorb, Chunk.stop] at next ⊢
  omega

theorem spread_flag {A B : List Chunk} {c : Chunk} {start stop : Nat} (flag : Bool)
    (spread : Spread h start (A ++ c :: B) stop) :
    Spread h start (A ++ { c with free := flag } :: B) stop := by
  obtain ⟨mid, left, low, right⟩ := spread_append.mp spread
  exact spread_append.mpr ⟨mid, left, low, right⟩

theorem spread_cut {A B : List Chunk} {c : Chunk} {start stop n : Nat} (room : n + h ≤ c.size)
    (spread : Spread h start (A ++ c :: B) stop) :
    Spread h start (A ++ { c with size := n } :: ⟨c.addr + h + n, c.size - n - h, true⟩ :: B)
      stop := by
  obtain ⟨mid, left, low, right⟩ := spread_append.mp spread
  refine spread_append.mpr ⟨mid, left, low, le_refl _, ?_⟩
  have same : (Chunk.mk (c.addr + h + n) (c.size - n - h) true).stop h = c.stop h := by
    simp only [Chunk.stop]
    omega
  rw [same]
  exact right

end Spread

section Tiles
variable {h : Nat}

theorem tiles_spread {L : List Chunk} {start stop : Nat} (tiles : Tiles h start L stop) :
    Spread h start L stop := by
  induction L generalizing start with
  | nil => exact le_of_eq tiles
  | cons c L ih => exact ⟨le_of_eq tiles.1.symm, ih tiles.2⟩

theorem tiles_append {L R : List Chunk} {start stop : Nat} :
    Tiles h start (L ++ R) stop ↔ ∃ mid, Tiles h start L mid ∧ Tiles h mid R stop := by
  induction L generalizing start with
  | nil =>
      constructor
      · intro tiles
        exact ⟨start, rfl, tiles⟩
      · rintro ⟨mid, here, tiles⟩
        have same : start = mid := here
        rw [same]
        exact tiles
  | cons c L ih =>
      simp only [List.cons_append, Tiles, ih]
      constructor
      · rintro ⟨here, mid, left, right⟩
        exact ⟨mid, ⟨here, left⟩, right⟩
      · rintro ⟨mid, ⟨here, left⟩, right⟩
        exact ⟨here, mid, left, right⟩

theorem tiles_total {L : List Chunk} {start stop : Nat} (tiles : Tiles h start L stop) :
    start + total h L = stop := by
  induction L generalizing start with
  | nil => exact tiles
  | cons c L ih =>
      obtain ⟨here, rest⟩ := tiles
      have tail := ih rest
      simp only [total_cons, Chunk.stop] at tail ⊢
      omega

theorem tiles_cover {L : List Chunk} {start stop x : Nat} (tiles : Tiles h start L stop)
    (low : start ≤ x) (high : x < stop) :
    ∃ A c B, L = A ++ c :: B ∧ c.addr ≤ x ∧ x < c.stop h := by
  induction L generalizing start with
  | nil =>
      have same : start = stop := tiles
      omega
  | cons c L ih =>
      obtain ⟨here, rest⟩ := tiles
      by_cases inside : x < c.stop h
      · exact ⟨[], c, L, rfl, by omega, inside⟩
      · obtain ⟨A, d, B, rfl, bounds⟩ := ih rest (by omega)
        exact ⟨c :: A, d, B, rfl, bounds⟩

theorem tiles_absorb {A B : List Chunk} {c d : Chunk} {start stop : Nat}
    (tiles : Tiles h start (A ++ c :: d :: B) stop) :
    Tiles h start (A ++ absorb h c d :: B) stop := by
  obtain ⟨mid, left, here, next, right⟩ := tiles_append.mp tiles
  refine tiles_append.mpr ⟨mid, left, here, ?_⟩
  have same : (absorb h c d).stop h = d.stop h := by
    simp only [absorb, Chunk.stop] at next ⊢
    omega
  rw [same]
  exact right

theorem tiles_flag {A B : List Chunk} {c : Chunk} {start stop : Nat} (flag : Bool)
    (tiles : Tiles h start (A ++ c :: B) stop) :
    Tiles h start (A ++ { c with free := flag } :: B) stop := by
  obtain ⟨mid, left, here, right⟩ := tiles_append.mp tiles
  exact tiles_append.mpr ⟨mid, left, here, right⟩

theorem tiles_cut {A B : List Chunk} {c : Chunk} {start stop n : Nat} (room : n + h ≤ c.size)
    (tiles : Tiles h start (A ++ c :: B) stop) :
    Tiles h start (A ++ { c with size := n } :: ⟨c.addr + h + n, c.size - n - h, true⟩ :: B)
      stop := by
  obtain ⟨mid, left, here, right⟩ := tiles_append.mp tiles
  refine tiles_append.mpr ⟨mid, left, here, rfl, ?_⟩
  have same : (Chunk.mk (c.addr + h + n) (c.size - n - h) true).stop h = c.stop h := by
    simp only [Chunk.stop]
    omega
  rw [same]
  exact right

theorem tiles_carve {A B : List Chunk} {c : Chunk} {start stop align n : Nat}
    (tiles : Tiles h start (A ++ c :: B) stop) :
    Tiles h start (A ++ carve h align n c ++ B) stop := by
  have marked := tiles_flag false tiles
  rw [List.append_assoc]
  simp only [carve]
  split
  · rename_i room
    exact tiles_cut (c := { c with free := false }) (by simp only; omega) marked
  · exact marked

end Tiles

/-! ## Joining two lists -/

section Join
variable {h : Nat}

theorem join_cases (h : Nat) (L R : List Chunk) :
    (join h L R = L ++ R ∧ ∀ a ∈ L.getLast?, ∀ r ∈ R.head?, Settled a r) ∨
    ∃ A a r B, L = A ++ [a] ∧ R = r :: B ∧ a.free = true ∧ r.free = true ∧
      join h L R = A ++ absorb h a r :: B := by
  rcases List.eq_nil_or_concat' L with rfl | ⟨A, a, rfl⟩
  · exact Or.inl ⟨rfl, by simp⟩
  · cases R with
    | nil => exact Or.inl ⟨by simp [join], by simp⟩
    | cons r B =>
        by_cases both : a.free = true ∧ r.free = true
        · exact Or.inr ⟨A, a, r, B, by simp, rfl, both.1, both.2, by simp [join, both.1, both.2]⟩
        · refine Or.inl ⟨?_, by simpa [Settled] using both⟩
          have notBoth : (a.free && r.free) = false := by
            simpa only [Bool.and_eq_true, Bool.not_eq_true] using
              (Bool.eq_false_iff.mpr (by simpa [Bool.and_eq_true] using both))
          simp [join, notBoth]

theorem tiles_join {L R : List Chunk} {start stop : Nat}
    (tiles : Tiles h start (L ++ R) stop) : Tiles h start (join h L R) stop := by
  rcases join_cases h L R with ⟨same, _⟩ | ⟨A, a, r, B, rfl, rfl, _, _, merged⟩
  · rw [same]
    exact tiles
  · rw [merged]
    rw [List.append_assoc] at tiles
    exact tiles_absorb tiles

theorem aligned_absorb {align : Nat} {c d : Chunk} (unit : h % align = 0)
    (left : Aligned align c) (right : Aligned align d) : Aligned align (absorb h c d) := by
  refine ⟨left.1, ?_⟩
  have inner : (d.size + h) % align = 0 := by rw [Nat.add_mod, right.2, unit]; simp
  simp only [absorb]
  rw [Nat.add_mod, left.2, inner]
  simp

theorem aligned_carve {align n : Nat} {c : Chunk} (fits : Aligned align c) (unit : h % align = 0)
    (whole : n % align = 0) : ∀ x ∈ carve h align n c, Aligned align x := by
  intro x member
  simp only [carve] at member
  split at member
  · have cut : (c.addr + h + n) % align = 0 := by
      rw [Nat.add_mod, Nat.add_mod c.addr h, fits.1, unit, whole]; simp
    have left : (c.size - n - h) % align = 0 :=
      Nat.mod_eq_zero_of_dvd (Nat.dvd_sub (Nat.dvd_sub (Nat.dvd_of_mod_eq_zero fits.2)
        (Nat.dvd_of_mod_eq_zero whole)) (Nat.dvd_of_mod_eq_zero unit))
    simp only [List.mem_cons, List.not_mem_nil, or_false] at member
    rcases member with rfl | rfl
    · exact ⟨fits.1, whole⟩
    · exact ⟨cut, left⟩
  · simp only [List.mem_singleton] at member
    subst member
    exact fits

/-- Every chunk of the joined list starts where one of the two lists has a chunk. -/
theorem join_addr {L R : List Chunk} {c : Chunk} (member : c ∈ join h L R) :
    ∃ d ∈ L ++ R, d.addr = c.addr := by
  rcases join_cases h L R with ⟨same, _⟩ | ⟨A, a, r, B, rfl, rfl, _, _, merged⟩
  · rw [same] at member
    exact ⟨c, member, rfl⟩
  · rw [merged] at member
    rcases List.mem_append.mp member with before | later
    · exact ⟨c, by simp [before], rfl⟩
    · rcases List.mem_cons.mp later with rfl | after
      · exact ⟨a, by simp, rfl⟩
      · exact ⟨c, by simp [after], rfl⟩

theorem aligned_join {align : Nat} {L R : List Chunk} (unit : h % align = 0)
    (left : ∀ c ∈ L, Aligned align c) (right : ∀ c ∈ R, Aligned align c) :
    ∀ c ∈ join h L R, Aligned align c := by
  rcases join_cases h L R with ⟨same, _⟩ | ⟨A, a, r, B, rfl, rfl, _, _, merged⟩
  · rw [same]
    intro c member
    exact (List.mem_append.mp member).elim (left c) (right c)
  · rw [merged]
    intro c member
    rcases List.mem_append.mp member with member | member
    · exact left c (by simp [member])
    · rcases List.mem_cons.mp member with rfl | member
      · exact aligned_absorb unit (left a (by simp)) (right r (by simp))
      · exact right c (by simp [member])

theorem settled_join {L R : List Chunk} (left : L.IsChain Settled) (right : R.IsChain Settled) :
    (join h L R).IsChain Settled := by
  rcases join_cases h L R with ⟨same, seam⟩ | ⟨A, a, r, B, rfl, rfl, aFree, rFree, merged⟩
  · rw [same]
    exact List.isChain_append.mpr ⟨left, right, seam⟩
  · rw [merged]
    obtain ⟨before, _, last⟩ := List.isChain_append.mp left
    obtain ⟨first, after⟩ := List.isChain_cons.mp right
    refine List.isChain_append.mpr ⟨before, List.isChain_cons.mpr ⟨?_, after⟩, ?_⟩
    · intro y member both
      exact first y member ⟨rFree, both.2⟩
    · intro x member y head both
      have isMerged : y = absorb h a r := by simpa using head.symm
      exact last x member a (by simp) ⟨both.1, aFree⟩

@[simp] theorem busy_nil : busy [] = [] := rfl

@[simp] theorem busy_append (L R : List Chunk) : busy (L ++ R) = busy L ++ busy R := by
  simp [busy]

theorem busy_cons_free {c : Chunk} (L : List Chunk) (isFree : c.free = true) :
    busy (c :: L) = busy L := by
  simp [busy, isFree]

theorem busy_cons_busy {c : Chunk} (L : List Chunk) (isBusy : c.free = false) :
    busy (c :: L) = c :: busy L := by
  simp [busy, isBusy]

theorem mem_busy {L : List Chunk} {c : Chunk} : c ∈ busy L ↔ c ∈ L ∧ c.free = false := by
  simp [busy]

@[simp] theorem busy_join (L R : List Chunk) : busy (join h L R) = busy L ++ busy R := by
  rcases join_cases h L R with ⟨same, _⟩ | ⟨A, a, r, B, rfl, rfl, aFree, rFree, merged⟩
  · rw [same, busy_append]
  · have grownFree : (absorb h a r).free = true := aFree
    rw [merged, busy_append, busy_cons_free B grownFree, busy_append,
      busy_cons_free [] aFree, busy_cons_free B rFree]
    simp

@[simp] theorem busy_release (A B : List Chunk) (c : Chunk) :
    busy (release h A c B) = busy A ++ busy B := by
  rw [release, busy_join, busy_join, busy_cons_free [] rfl, busy_nil, List.nil_append]

theorem total_join (L R : List Chunk) : total h (join h L R) = total h L + total h R := by
  rcases join_cases h L R with ⟨same, _⟩ | ⟨A, a, r, B, rfl, rfl, _, _, merged⟩
  · rw [same, total_append]
  · rw [merged]
    simp only [total_append, total_cons, total_nil, absorb]
    omega

theorem total_carve {align n : Nat} {c : Chunk} :
    total h (carve h align n c) = total h [c] := by
  simp only [carve]
  split
  · simp only [total_cons, total_nil]
    omega
  · rfl

theorem total_release (A B : List Chunk) (c : Chunk) :
    total h (release h A c B) = total h (A ++ c :: B) := by
  rw [release, total_join, total_join]
  simp only [total_append, total_cons, total_nil]
  omega

theorem join_single {R : List Chunk} {c : Chunk} (isFree : c.free = true) :
    ∃ d rest, join h [c] R = d :: rest ∧ d.addr = c.addr ∧ d.free = true := by
  rcases join_cases h [c] R with ⟨same, _⟩ | ⟨A, a, r, B, single, rfl, _, _, merged⟩
  · exact ⟨c, R, same, rfl, isFree⟩
  · cases A with
    | nil =>
        obtain ⟨rfl, _⟩ := List.cons.inj single
        exact ⟨_, B, merged, rfl, isFree⟩
    | cons x A => simp at single

/-- A free chunk put at the end makes the last chunk free, and at least as
large; where the last chunk was free already, larger by the header as well. -/
theorem join_free_last {L : List Chunk} {d : Chunk} (isFree : d.free = true) :
    ∃ A c, join h L [d] = A ++ [c] ∧ c.free = true ∧ d.size ≤ c.size ∧
      ∀ a ∈ L.getLast?, a.free = true → d.size + h ≤ c.size := by
  rcases join_cases h L [d] with ⟨same, seam⟩ | ⟨A, a, r, B, rfl, single, aFree, _, merged⟩
  · refine ⟨L, d, same, isFree, le_refl _, ?_⟩
    intro a member aFree
    exact absurd ⟨aFree, isFree⟩ (seam a member d rfl)
  · obtain ⟨rfl, rfl⟩ := List.cons.inj single
    refine ⟨A, absorb h a d, merged, aFree, ?_, ?_⟩
    · simp only [absorb]
      omega
    · intro x _ _
      simp only [absorb]
      omega

theorem touching_join {A R : List Chunk} {c : Chunk} (isFree : c.free = true)
    (touching : Touching h A [c]) : Touching h A (join h [c] R) := by
  obtain ⟨d, rest, joined, dAddr, _⟩ := join_single (h := h) (R := R) isFree
  intro x last y first xFree _
  rw [joined] at first
  obtain rfl : d = y := by simpa using first
  rw [dAddr]
  exact touching x last c rfl xFree isFree

/-! ### Joining is associative

Lists of chunks are a monoid under `join`, and `coalesce` takes the chunks of a list
together in it: what it gives does not depend on the order in which they are merged. -/

@[simp] theorem join_nil_left (R : List Chunk) : join h [] R = R := rfl

@[simp] theorem join_nil_right (L : List Chunk) : join h L [] = L := by
  unfold join
  split <;> simp_all

theorem join_append_left (A : List Chunk) {L : List Chunk} (some : L ≠ []) (R : List Chunk) :
    join h (A ++ L) R = A ++ join h L R := by
  obtain ⟨L, a, rfl⟩ := (List.eq_nil_or_concat' L).resolve_left some
  cases R with
  | nil => simp
  | cons r B =>
      by_cases both : a.free = true ∧ r.free = true
      · simp [join, both.1, both.2, List.dropLast_append_of_ne_nil]
      · have apart : (a.free && r.free) = false := by
          rw [Bool.eq_false_iff]
          simpa [Bool.and_eq_true] using both
        simp [join, apart]

theorem join_append_right (L : List Chunk) {R : List Chunk} (some : R ≠ []) (B : List Chunk) :
    join h L (R ++ B) = join h L R ++ B := by
  obtain ⟨r, R, rfl⟩ := List.exists_cons_of_ne_nil some
  unfold join
  cases L.getLast? with
  | none => simp
  | some a =>
      simp only [List.cons_append]
      split <;> simp

theorem join_of_settled {L R : List Chunk}
    (seam : ∀ a ∈ L.getLast?, ∀ r ∈ R.head?, Settled a r) : join h L R = L ++ R := by
  rcases join_cases h L R with ⟨same, _⟩ | ⟨A, a, r, B, rfl, rfl, aFree, rFree, _⟩
  · exact same
  · exact absurd ⟨aFree, rFree⟩ (seam a (by simp) r (by simp))

theorem join_assoc (X Y Z : List Chunk) : join h (join h X Y) Z = join h X (join h Y Z) := by
  rcases Y with _ | ⟨y, _ | ⟨y', Y⟩⟩
  · simp
  · -- one chunk in the middle, which may be merged on both sides
    rcases List.eq_nil_or_concat' X with rfl | ⟨A, x, rfl⟩
    · simp
    · rcases Z with _ | ⟨z, B⟩
      · simp
      · have left := join_append_left (h := h) A (L := [x]) (by simp)
        have right := join_append_right (h := h) [x] (R := [absorb h y z]) (by simp) B
        rw [left]
        cases xFree : x.free <;> cases yFree : y.free <;> cases zFree : z.free <;>
          simp [join, absorb, xFree, yFree, zFree, Nat.add_assoc, Nat.add_left_comm]
  · -- more than one: the two seams are apart
    have split : y :: y' :: Y = [y] ++ (y' :: Y) := rfl
    have some : join h (y' :: Y) Z ≠ [] := by
      rcases join_cases h (y' :: Y) Z with ⟨same, _⟩ | ⟨A, a, r, B, _, _, _, _, merged⟩
      · simp [same]
      · simp [merged]
    rw [split, join_append_right X (by simp), join_append_left [y] (by simp),
      join_append_right X (by simp), join_append_left _ (by simp)]

def coalesce (h : Nat) (L : List Chunk) : List Chunk := L.foldr (fun c rest => join h [c] rest) []

@[simp] theorem coalesce_nil : coalesce h [] = [] := rfl

theorem coalesce_cons (c : Chunk) (L : List Chunk) :
    coalesce h (c :: L) = join h [c] (coalesce h L) := rfl

theorem coalesce_append (L R : List Chunk) :
    coalesce h (L ++ R) = join h (coalesce h L) (coalesce h R) := by
  induction L with
  | nil => rfl
  | cons c L ih => rw [List.cons_append, coalesce_cons, ih, coalesce_cons, join_assoc]

theorem coalesce_of_settled {L : List Chunk} (settled : L.IsChain Settled) :
    coalesce h L = L := by
  induction L with
  | nil => rfl
  | cons c L ih =>
      obtain ⟨first, rest⟩ := List.isChain_cons.mp settled
      rw [coalesce_cons, ih rest]
      exact join_of_settled fun a last r head => by
        obtain rfl : c = a := by simpa using last
        exact first r head

/-- A chunk in use keeps its place between what is merged to its left and to its right. -/
theorem coalesce_around (X Y : List Chunk) {c : Chunk} (isBusy : c.free = false) :
    coalesce h (X ++ c :: Y) = coalesce h X ++ c :: coalesce h Y := by
  have right : join h [c] (coalesce h Y) = c :: coalesce h Y :=
    join_of_settled fun a last r _ both => by
      obtain rfl : c = a := by simpa using last
      exact absurd both.1 (by simp [isBusy])
  rw [coalesce_append, coalesce_cons, right]
  exact join_of_settled fun a _ r head both => by
    obtain rfl : c = r := by simpa using head
    exact absurd both.2 (by simp [isBusy])

theorem release_coalesce (X Y : List Chunk) (c : Chunk) :
    release h (coalesce h X) c (coalesce h Y) =
      coalesce h (X ++ { c with free := true } :: Y) := by
  rw [release, coalesce_append, coalesce_cons]

theorem coalesce_all_free {L : List Chunk} {start stop : Nat} (tiles : Tiles h start L stop)
    (some : L ≠ []) (free : ∀ c ∈ L, c.free = true) :
    coalesce h L = [⟨start, stop - start - h, true⟩] := by
  induction L generalizing start with
  | nil => exact absurd rfl some
  | cons c L ih =>
      have cFree := free c (by simp)
      obtain ⟨here, rest⟩ := tiles
      rcases L with _ | ⟨d, L⟩
      · have stops : c.stop h = stop := rest
        simp only [coalesce_cons, coalesce_nil, join_nil_right, List.cons.injEq, and_true]
        cases c
        simp only [Chunk.stop] at here stops cFree
        simp only [Chunk.mk.injEq, cFree, and_true]
        omega
      · rw [coalesce_cons, ih rest (by simp) fun x member => free x (by simp [member])]
        have bound := tiles_total rest
        simp only [total_cons] at bound
        simp only [join, List.getLast?_singleton, cFree, Bool.and_self, if_true, absorb,
          List.dropLast_singleton, List.nil_append, List.cons.injEq, and_true, Chunk.mk.injEq, here,
          true_and, Chunk.stop] at bound ⊢
        omega

/-- A free list around a chunk that is freed becomes one chunk, and the chunks beyond it
stay as they are. -/
theorem release_span {A B : List Chunk} {c : Chunk} {start stop : Nat}
    (tiles : Tiles h start (A ++ c :: B) stop) (settled : (A ++ c :: B).IsChain Settled) :
    ∃ A' X Y B' d, A = A' ++ X ∧ B = Y ++ B' ∧ (∀ x ∈ X ++ Y, x.free = true) ∧
      (∀ x ∈ A'.getLast?, x.free = false) ∧ (∀ y ∈ B'.head?, y.free = false) ∧
      d.free = true ∧ Tiles h d.addr (X ++ c :: Y) (d.stop h) ∧
      release h A c B = A' ++ d :: B' := by
  obtain ⟨before, rest, _⟩ := List.isChain_append.mp settled
  obtain ⟨_, after⟩ := List.isChain_cons.mp rest
  obtain ⟨A', X, rfl, xFree, xEnd⟩ : ∃ A' X, A = A' ++ X ∧ (∀ x ∈ X, x.free = true) ∧
      ∀ x ∈ A'.getLast?, x.free = false := by
    rcases List.eq_nil_or_concat' A with rfl | ⟨A', a, rfl⟩
    · exact ⟨[], [], rfl, by simp, by simp⟩
    · cases aFree : a.free with
      | false => exact ⟨A' ++ [a], [], by simp, by simp, by simpa using aFree⟩
      | true =>
          refine ⟨A', [a], rfl, by simpa using aFree, fun x last => ?_⟩
          have seam := (List.isChain_append.mp before).2.2 x last a rfl
          by_contra both
          exact seam ⟨by simpa using both, aFree⟩
  obtain ⟨Y, B', rfl, yFree, yEnd⟩ : ∃ Y B', B = Y ++ B' ∧ (∀ y ∈ Y, y.free = true) ∧
      ∀ y ∈ B'.head?, y.free = false := by
    cases B with
    | nil => exact ⟨[], [], rfl, by simp, by simp⟩
    | cons b B' =>
        cases bFree : b.free with
        | false => exact ⟨[], b :: B', rfl, by simp, by simpa using bFree⟩
        | true =>
            refine ⟨[b], B', rfl, by simpa using bFree, fun y head => ?_⟩
            have seam := (List.isChain_cons.mp after).1 y head
            by_contra both
            exact seam ⟨bFree, by simpa using both⟩
  obtain ⟨mid, _, inner⟩ := tiles_append.mp
    (show Tiles h start (A' ++ ((X ++ c :: Y) ++ B')) stop by simpa using tiles)
  obtain ⟨mid', span, _⟩ := tiles_append.mp inner
  have allFree : ∀ x ∈ X ++ { c with free := true } :: Y, x.free = true := by
    intro x member
    rcases List.mem_append.mp member with inX | inY
    · exact xFree x inX
    · rcases List.mem_cons.mp inY with rfl | inY
      · rfl
      · exact yFree x inY
  have whole := coalesce_all_free (tiles_flag true span) (by simp) allFree
  have bound := tiles_total span
  simp only [total_append, total_cons] at bound
  refine ⟨A', X, Y, B', ⟨mid, mid' - mid - h, true⟩, rfl, rfl, ?_, xEnd, yEnd, rfl, ?_, ?_⟩
  · intro x member
    exact (List.mem_append.mp member).elim (xFree x) (yFree x)
  · have stops : (Chunk.mk mid (mid' - mid - h) true).stop h = mid' := by
      simp only [Chunk.stop]
      omega
    rw [stops]
    exact span
  · have seamRight : join h [⟨mid, mid' - mid - h, true⟩] B' = ⟨mid, mid' - mid - h, true⟩ :: B' :=
      join_of_settled fun _ _ y head both => absurd both.2 (by simp [yEnd y head])
    have seamLeft : join h A' (⟨mid, mid' - mid - h, true⟩ :: B') =
        A' ++ ⟨mid, mid' - mid - h, true⟩ :: B' :=
      join_of_settled fun x last _ _ both => absurd both.1 (by simp [xEnd x last])
    have pieces : A' ++ X ++ { c with free := true } :: (Y ++ B') =
        A' ++ ((X ++ { c with free := true } :: Y) ++ B') := by simp
    have leftSettled := (List.isChain_append.mp before).1
    have rightSettled := (List.isChain_append.mp after).2.1
    rw [← coalesce_of_settled (h := h) before, ← coalesce_of_settled (h := h) after,
      release_coalesce, pieces, coalesce_append, coalesce_append, whole,
      coalesce_of_settled leftSettled, coalesce_of_settled rightSettled, seamRight, seamLeft]

theorem release_free {A B : List Chunk} {c : Chunk} (settled : (A ++ c :: B).IsChain Settled)
    (isFree : c.free = true) : release h A c B = A ++ c :: B := by
  obtain ⟨before, rest, _⟩ := List.isChain_append.mp settled
  obtain ⟨_, after⟩ := List.isChain_cons.mp rest
  have same : { c with free := true } = c := by rw [← isFree]
  rw [← coalesce_of_settled (h := h) before, ← coalesce_of_settled (h := h) after,
    release_coalesce, same, coalesce_of_settled settled, coalesce_of_settled before,
    coalesce_of_settled after]

theorem release_carve {A B rest : List Chunk} {c d : Chunk} {align n : Nat}
    (settled : (A ++ c :: B).IsChain Settled) (isFree : c.free = true)
    (carved : carve h align n c = d :: rest) : release h A d (rest ++ B) = A ++ c :: B := by
  have same : { c with free := true } = c := by rw [← isFree]
  have kept := release_free (h := h) settled isFree
  rw [release, same] at kept
  have right : join h [c] B = c :: B := by
    obtain ⟨_, rest, _⟩ := List.isChain_append.mp settled
    exact join_of_settled fun a last b head => by
      obtain rfl : c = a := by simpa using last
      exact (List.isChain_cons.mp rest).1 b head
  have back : join h [{ d with free := true }] (rest ++ B) = c :: B := by
    simp only [carve] at carved
    split at carved
    · next room =>
        obtain ⟨rfl, rfl⟩ := List.cons.inj carved
        have whole : n + (c.size - n - h + h) = c.size := by omega
        rw [join_append_right _ (by simp)]
        simp [join, absorb, whole, same]
    · obtain ⟨rfl, rfl⟩ := List.cons.inj carved
      simpa [same] using right
  rw [release, back]
  rwa [right] at kept

end Join

/-! ## The bytes of a list -/

section Within
variable {h x : Nat}

@[simp] theorem within_nil : ¬ Within h [] x := by simp [Within]

@[simp] theorem within_cons {c : Chunk} {L : List Chunk} :
    Within h (c :: L) x ↔ (c.addr ≤ x ∧ x < c.stop h) ∨ Within h L x := by
  simp [Within]

@[simp] theorem within_append {L R : List Chunk} :
    Within h (L ++ R) x ↔ Within h L x ∨ Within h R x := by
  simp [Within, or_and_right, exists_or]

theorem within_join {L R : List Chunk} (touching : Touching h L R) :
    Within h (join h L R) x ↔ Within h (L ++ R) x := by
  rcases join_cases h L R with ⟨same, _⟩ | ⟨A, a, r, B, rfl, rfl, aFree, rFree, merged⟩
  · rw [same]
  · have adjacent := touching a (by simp) r (by simp) aFree rFree
    have left : (absorb h a r).addr = a.addr := rfl
    have right : (absorb h a r).stop h = r.stop h := by
      simp only [absorb, Chunk.stop] at adjacent ⊢
      omega
    have low : a.addr ≤ a.stop h := by simp only [Chunk.stop]; omega
    have high : r.addr ≤ r.stop h := by simp only [Chunk.stop]; omega
    have seam : (a.addr ≤ x ∧ x < r.stop h) ↔
        (a.addr ≤ x ∧ x < a.stop h) ∨ (r.addr ≤ x ∧ x < r.stop h) := by omega
    rw [merged]
    simp only [within_append, within_cons, within_nil, or_false, left, right, seam, or_assoc]

theorem within_release {A B : List Chunk} {c : Chunk}
    (next : Touching h [{ c with free := true }] B)
    (prev : Touching h A [{ c with free := true }]) :
    Within h (release h A c B) x ↔ Within h (A ++ c :: B) x := by
  rw [release, within_join (touching_join rfl prev), within_append, within_join next]
  simp only [within_append, within_cons, within_nil, or_false, Chunk.stop]

theorem within_carve {align n : Nat} {c : Chunk} :
    Within h (carve h align n c) x ↔ Within h [c] x := by
  simp only [carve]
  split
  · simp only [within_cons, within_nil, or_false, Chunk.stop]
    omega
  · simp [Chunk.stop]

end Within

theorem firstFit_some {n : Nat} {L : List Chunk} {A B : List Chunk} {c : Chunk}
    (found : firstFit n L = some (A, c, B)) :
    L = A ++ c :: B ∧ c.free = true ∧ n ≤ c.size ∧
      ∀ a ∈ A, ¬ (a.free = true ∧ n ≤ a.size) := by
  induction L generalizing A with
  | nil => simp [firstFit] at found
  | cons d L ih =>
      by_cases fits : d.free = true ∧ n ≤ d.size
      · simp only [firstFit, fits.1, fits.2, decide_true, Bool.and_self, if_true,
          Option.some.injEq, Prod.mk.injEq] at found
        obtain ⟨rfl, rfl, rfl⟩ := found
        exact ⟨rfl, fits.1, fits.2, by simp⟩
      · have skip : (d.free && decide (n ≤ d.size)) = false := by
          rw [Bool.eq_false_iff]
          simpa [Bool.and_eq_true] using fits
        simp only [firstFit, skip, Bool.false_eq_true, if_false, Option.map_eq_some_iff,
          Prod.mk.injEq] at found
        obtain ⟨⟨A', c', B'⟩, inner, rfl, rfl, rfl⟩ := found
        obtain ⟨rfl, isFree, room, before⟩ := ih inner
        refine ⟨rfl, isFree, room, ?_⟩
        intro a member
        rcases List.mem_cons.mp member with rfl | member
        · exact fits
        · exact before a member

theorem firstFit_none {n : Nat} {L : List Chunk} (missing : firstFit n L = none) :
    ∀ c ∈ L, ¬ (c.free = true ∧ n ≤ c.size) := by
  induction L with
  | nil => simp
  | cons d L ih =>
      by_cases fits : d.free = true ∧ n ≤ d.size
      · simp [firstFit, fits.1, fits.2] at missing
      · have skip : (d.free && decide (n ≤ d.size)) = false := by
          rw [Bool.eq_false_iff]
          simpa [Bool.and_eq_true] using fits
        simp only [firstFit, skip, Bool.false_eq_true, if_false, Option.map_eq_none_iff] at missing
        intro c member
        rcases List.mem_cons.mp member with rfl | member
        · exact fits
        · exact ih missing c member

/-- The chunk taken is the first of the carved ones and the only one in use, and what
it has to spare is too little for a chunk. -/
theorem carve_cases {h : Nat} (positive : 0 < h) (align : Nat) {n : Nat} {c : Chunk}
    (room : n ≤ c.size) :
    ∃ d rest, carve h align n c = d :: rest ∧ busy rest = [] ∧ d.addr = c.addr ∧
      d.free = false ∧ n ≤ d.size ∧ d.size < n + (h + align) := by
  simp only [carve]
  split
  · exact ⟨{ c with size := n, free := false }, _, rfl, busy_cons_free [] rfl, rfl, rfl,
      le_refl _, by simp only; omega⟩
  · next tight =>
      exact ⟨{ c with free := false }, [], rfl, rfl, rfl, rfl, room, by simp only; omega⟩

/-! ## The invariant of the list, and what keeps it -/

/-- A well-formed list of chunks over `[lo, hi)`. -/
structure WellTiled (h align lo : Nat) (L : List Chunk) (hi : Nat) : Prop where
  tiles : Tiles h lo L hi
  aligned : ∀ c ∈ L, Aligned align c
  settled : L.IsChain Settled

section WellTiled
variable {h align lo hi : Nat}

theorem WellTiled.carve {A B : List Chunk} {c : Chunk} {n : Nat}
    (well : WellTiled h align lo (A ++ c :: B) hi) (unit : h % align = 0)
    (isFree : c.free = true) (whole : n % align = 0) :
    WellTiled h align lo (A ++ carve h align n c ++ B) hi := by
  have cAligned : Aligned align c := well.aligned c (by simp)
  obtain ⟨before, rest, seam⟩ := List.isChain_append.mp well.settled
  obtain ⟨next, after⟩ := List.isChain_cons.mp rest
  refine ⟨tiles_carve well.tiles, ?_, ?_⟩
  · intro x member
    simp only [List.mem_append] at member
    rcases member with (member | member) | member
    · exact well.aligned x (by simp [member])
    · exact aligned_carve cAligned unit whole x member
    · exact well.aligned x (by simp [member])
  · rw [List.append_assoc]
    -- The carved part starts with a busy chunk, and its last chunk is busy or
    -- stands where the free chunk stood, so neither seam joins two free ones.
    refine List.isChain_append.mpr ⟨before, ?_, ?_⟩
    · simp only [Tiling.carve]
      split
      · refine List.isChain_cons.mpr ⟨by simp [Settled], List.isChain_cons.mpr ⟨?_, after⟩⟩
        intro y member both
        exact next y member ⟨isFree, both.2⟩
      · exact List.isChain_cons.mpr ⟨by simp [Settled], after⟩
    · intro x member y head both
      have busy : y.free = false := by
        simp only [Tiling.carve] at head
        split at head <;>
          · simp only [List.cons_append, List.head?_cons, Option.mem_def, Option.some.injEq] at head
            rw [← head]
      rw [busy] at both
      exact Bool.false_ne_true both.2

theorem WellTiled.release {A B : List Chunk} {c : Chunk}
    (well : WellTiled h align lo (A ++ c :: B) hi) (unit : h % align = 0) :
    WellTiled h align lo (release h A c B) hi := by
  obtain ⟨before, rest, _⟩ := List.isChain_append.mp well.settled
  obtain ⟨_, after⟩ := List.isChain_cons.mp rest
  have cAligned : Aligned align c := well.aligned c (by simp)
  refine ⟨?_, ?_, ?_⟩
  · obtain ⟨mid, left, right⟩ := tiles_append.mp (tiles_flag true well.tiles)
    exact tiles_join (tiles_append.mpr ⟨mid, left, tiles_join right⟩)
  · refine aligned_join unit (fun x member => well.aligned x (by simp [member]))
      (aligned_join unit ?_ (fun x member => well.aligned x (by simp [member])))
    intro x member
    rw [List.mem_singleton] at member
    subst member
    exact cAligned
  · exact settled_join before (settled_join (List.isChain_singleton _) after)

theorem WellTiled.widen {A B : List Chunk} {c d : Chunk}
    (well : WellTiled h align lo (A ++ c :: d :: B) hi) (unit : h % align = 0)
    (isBusy : c.free = false) : WellTiled h align lo (A ++ absorb h c d :: B) hi := by
  obtain ⟨before, rest, seam⟩ := List.isChain_append.mp well.settled
  obtain ⟨_, after⟩ := List.isChain_cons.mp rest
  obtain ⟨_, after⟩ := List.isChain_cons.mp after
  have wideBusy : (absorb h c d).free = false := isBusy
  refine ⟨tiles_absorb well.tiles, ?_, ?_⟩
  · intro x member
    rcases List.mem_append.mp member with member | member
    · exact well.aligned x (by simp [member])
    · rcases List.mem_cons.mp member with rfl | member
      · exact aligned_absorb unit (well.aligned c (by simp)) (well.aligned d (by simp))
      · exact well.aligned x (by simp [member])
  · refine List.isChain_append.mpr ⟨before, List.isChain_cons.mpr ⟨?_, after⟩, ?_⟩
    · intro y _ both
      exact absurd both.1 (by simp [wideBusy])
    · intro x _ y first both
      have same : absorb h c d = y := by simpa using first
      exact absurd both.2 (by simp [← same, wideBusy])

theorem WellTiled.extend {L : List Chunk} {d : Chunk}
    (well : WellTiled h align lo L hi) (unit : h % align = 0) (isNext : d.addr = hi)
    (fits : Aligned align d) : WellTiled h align lo (join h L [d]) (d.stop h) := by
  refine ⟨?_, ?_, settled_join well.settled (List.isChain_singleton d)⟩
  · exact tiles_join (tiles_append.mpr ⟨hi, well.tiles, isNext, rfl⟩)
  · apply aligned_join unit well.aligned
    intro x member
    rw [List.mem_singleton] at member
    subst member
    exact fits

theorem WellTiled.unused {L : List Chunk} {x y : Nat} (well : WellTiled h align lo L hi)
    (low : lo ≤ x) (high : y ≤ hi) (some : x < y)
    (unused : ∀ d ∈ busy L, d.stop h ≤ x ∨ y ≤ d.addr) :
    ∃ A c B, L = A ++ c :: B ∧ c.free = true ∧ c.addr ≤ x ∧ y ≤ c.stop h := by
  have freeOf : ∀ d ∈ L, d.addr < y → x < d.stop h → d.free = true := by
    intro d member start stop
    by_contra isBusy
    rcases unused d (mem_busy.mpr ⟨member, by simpa using isBusy⟩) with bound | bound <;> omega
  obtain ⟨A, c, B, rfl, start, stop⟩ := tiles_cover well.tiles low (x := x) (by omega)
  have cFree := freeOf c (by simp) (by omega) stop
  refine ⟨A, c, B, rfl, cFree, start, ?_⟩
  by_contra short
  obtain ⟨mid, _, here, rest⟩ := tiles_append.mp well.tiles
  cases B with
  | nil =>
      have stops : c.stop h = hi := rest
      omega
  | cons d B =>
      have next : d.addr = c.stop h := rest.1
      have dFree := freeOf d (by simp) (by omega) (by simp only [Chunk.stop] at next stop ⊢; omega)
      have seam := (List.isChain_append.mp well.settled).2.1
      exact (List.isChain_cons.mp seam).1 d rfl ⟨cFree, dFree⟩

theorem used_nodup {L : List Chunk} (positive : 0 < h) (spread : Spread h lo L hi) :
    (used h L).Nodup := by
  have apart : (busy L).Pairwise fun x y => x.stop h ≤ y.addr := (spread_pairwise spread).filter _
  refine List.pairwise_map.mpr (apart.imp ?_)
  intro x y before same
  simp only [Chunk.stop, Chunk.payload] at before same
  omega

end WellTiled

end Csc457.Lib.Tiling
