import Csc457.Malloc.BlockList

/-!
# The edits of the block list

What each piece of malloc.c that writes to headers does to the list: marking a
block, merging it with its neighbour, cutting it in two, and putting a new one
at the end.  Every edit succeeds on a list that is placed, gives the list the
abstract operation gives, and writes to headers only.
-/

set_option autoImplicit false

namespace Csc457.Malloc

open Csc457.Lib.ByteMemory
open Csc457.Lib.Tiling

variable {m : Memory} {lo hi : Nat} {A B : List Chunk} {c d : Chunk}

theorem flag_lt (b : Bool) : flag b < 256 := by cases b <;> decide

theorem setFree_placed (free : Bool) (placed : Placed m lo (A ++ c :: B) hi) :
    Placed (setFree m c.addr (flag free)) lo (A ++ { c with free := free } :: B) hi ∧
      OnlyHeaders (A ++ { c with free := free } :: B) m (setFree m c.addr (flag free)) := by
  refine ⟨⟨?_, spread_flag free placed.spread, fun _ => placed.positive (by simp),
    placed.bounded⟩, ?_⟩
  · exact placed.linked.setFree (header_setFree_same (flag_lt free))
      fun x member => (header_set_apart (placed.apart member)).2.2.2
  · exact (onlyHeaders_set (c := { c with free := free }) (by simp)).2.2.2

/-- The memory absorb_block leaves: `left` takes over the size and the successor
of `right`, and the block after gets `left` for its predecessor. -/
def absorbed (m : Memory) (left size next : Nat) : Memory :=
  let m := setNext (setSize m left size) left next
  if next ≠ 0 then setPrev m next left else m

theorem absorbBlock_ok {left right : Nat} (leftReal : left ≠ 0) (rightReal : right ≠ 0)
    (apart : HeaderApart left right) :
    absorbBlock m left right = .ok (absorbed m left
      (add64 (header m left).size (add64 (header m right).size blockSize))
      (header m right).next) := by
  simp only [absorbBlock, absorbed, readSize_ok leftReal, readSize_ok rightReal, ok_bind,
    writeSize_ok leftReal, readNext_ok rightReal, writeNext_ok leftReal,
    (header_set_apart apart).2.2.1]
  split
  · rename_i more
    rw [writePrev_ok more]
  · rfl

theorem absorbed_placed (placed : Placed m lo (A ++ c :: d :: B) hi) :
    Placed (absorbed m c.addr (c.size + (d.size + blockSize)) (firstAddr 0 B)) lo
        (A ++ absorb blockSize c d :: B) hi ∧
      OnlyHeaders (A ++ absorb blockSize c d :: B) m
        (absorbed m c.addr (c.size + (d.size + blockSize)) (firstAddr 0 B)) := by
  have cBounds := placed.bounds (c := c) (by simp)
  have dBounds := placed.bounds (c := d) (by simp)
  have cdOrder : c.addr + blockSize + c.size ≤ d.addr := placed.around.2 d (by simp)
  have bounded := placed.bounded
  have sizeSmall : c.size + (d.size + blockSize) < 2 ^ 64 := by omega
  have spread := spread_absorb placed.spread
  have only : ∀ v, OnlyHeaders (A ++ absorb blockSize c d :: B) m (setSize m c.addr v) :=
    fun v => (onlyHeaders_set (c := absorb blockSize c d) (by simp)).2.2.1
  have onlyNext : ∀ k v, OnlyHeaders (A ++ absorb blockSize c d :: B) k (setNext k c.addr v) :=
    fun k v => (onlyHeaders_set (c := absorb blockSize c d) (by simp)).1
  cases B with
  | nil =>
      simp only [absorbed, firstAddr, ne_eq, not_true_eq_false, if_false]
      refine ⟨⟨?_, spread, fun _ => placed.positive (by simp), bounded⟩,
        (only _).trans (onlyNext _ _)⟩
      refine placed.linked.absorb ?_ (by simp) ?_
      · rw [header_setNext_same (by decide), header_setSize_same sizeSmall]
        rfl
      · intro x member
        have apart : HeaderApart c.addr x.addr := placed.apart (by simp at member; simp [member])
        rw [(header_set_apart apart).1, (header_set_apart apart).2.2.1]
  | cons b B =>
      have placedAtB : Placed m lo ((A ++ [c, d]) ++ b :: B) hi := by simpa using placed
      have bReal : b.addr ≠ 0 := placed.real (by simp)
      have bBounds := placed.bounds (c := b) (by simp)
      have cbApart : HeaderApart c.addr b.addr := placed.apart (by simp)
      simp only [absorbed, firstAddr, ne_eq, bReal, not_false_eq_true, if_true]
      refine ⟨⟨?_, spread, fun _ => placed.positive (by simp), bounded⟩,
        ((only _).trans (onlyNext _ _)).trans (onlyHeaders_set (c := b) (by simp)).2.1⟩
      apply placed.linked.absorb
      · rw [(header_set_apart cbApart.symm).2.1, header_setNext_same (by omega),
          header_setSize_same sizeSmall]
        rfl
      · intro x member
        have same : b = x := by simpa using member
        subst same
        rw [header_setPrev_same (by omega), (header_set_apart cbApart).1,
          (header_set_apart cbApart).2.2.1]
      · intro x member
        have member : x ∈ A ∨ x ∈ B := by simpa using member
        have cx : HeaderApart c.addr x.addr :=
          placed.apart (by rcases member with member | member <;> simp [member])
        have bx : HeaderApart b.addr x.addr :=
          placedAtB.apart (by rcases member with member | member <;> simp [member])
        rw [(header_set_apart bx).2.1, (header_set_apart cx).1, (header_set_apart cx).2.2.1]

theorem absorbBlock_placed (placed : Placed m lo (A ++ c :: d :: B) hi) :
    ∃ m', absorbBlock m c.addr d.addr = .ok m' ∧
      Placed m' lo (A ++ absorb blockSize c d :: B) hi ∧
      OnlyHeaders (A ++ absorb blockSize c d :: B) m m' := by
  have cReal : c.addr ≠ 0 := placed.real (by simp)
  have dReal : d.addr ≠ 0 := placed.real (by simp)
  have cHeader := placed.linked.header
  have atD : Linked m 0 ((A ++ [c]) ++ d :: B) 0 := by simpa using placed.linked
  have dHeader := atD.header
  have cBounds := placed.bounds (c := c) (by simp)
  have dBounds := placed.bounds (c := d) (by simp)
  have cdOrder : c.addr + blockSize + c.size ≤ d.addr := placed.around.2 d (by simp)
  have bounded := placed.bounded
  refine ⟨_, absorbBlock_ok cReal dReal (placed.apart (by simp)), ?_⟩
  simp only [cHeader, dHeader]
  rw [add64_of_lt (a := d.size) (by omega), add64_of_lt (by omega)]
  exact absorbed_placed placed

theorem mergeNext_placed (isFree : c.free = true) (placed : Placed m lo (A ++ c :: B) hi) :
    ∃ m', mergeNext m c.addr = .ok m' ∧
      Placed m' lo (A ++ join blockSize [c] B) hi ∧
      OnlyHeaders (A ++ join blockSize [c] B) m m' := by
  have cReal : c.addr ≠ 0 := placed.real (by simp)
  have cHeader := placed.linked.header
  cases B with
  | nil =>
      refine ⟨m, ?_, by simpa [join] using placed, OnlyHeaders.refl _ m⟩
      simp [mergeNext, readNext_ok cReal, cHeader, firstAddr]
  | cons d B =>
      have dReal : d.addr ≠ 0 := placed.real (by simp)
      have atD : Linked m 0 ((A ++ [c]) ++ d :: B) 0 := by simpa using placed.linked
      have dHeader := atD.header
      cases dFree : d.free with
      | false =>
          have same : join blockSize [c] (d :: B) = c :: d :: B := by simp [join, dFree]
          refine ⟨m, ?_, by simpa [same] using placed, OnlyHeaders.refl _ m⟩
          simp [mergeNext, readNext_ok cReal, cHeader, firstAddr, dReal, readFree_ok dReal,
            dHeader, dFree, flag]
      | true =>
          have merged : join blockSize [c] (d :: B) = absorb blockSize c d :: B := by
            simp [join, dFree, isFree]
          obtain ⟨m', run, placed', only⟩ := absorbBlock_placed placed
          refine ⟨m', ?_, by rwa [merged], by rwa [merged]⟩
          simp [mergeNext, readNext_ok cReal, cHeader, firstAddr, dReal, readFree_ok dReal,
            dHeader, dFree, flag, run]

theorem joinPrev_placed (isFree : d.free = true) (placed : Placed m lo (A ++ c :: d :: B) hi) :
    ∃ m', (if flag c.free = 0 then .ok m else absorbBlock m c.addr d.addr) = .ok m' ∧
      Placed m' lo (join blockSize (A ++ [c]) (d :: B)) hi ∧
      OnlyHeaders (join blockSize (A ++ [c]) (d :: B)) m m' := by
  cases cFree : c.free with
  | false =>
      have same : join blockSize (A ++ [c]) (d :: B) = A ++ c :: d :: B := by simp [join, cFree]
      exact ⟨m, rfl, by rwa [same], OnlyHeaders.refl _ m⟩
  | true =>
      have merged : join blockSize (A ++ [c]) (d :: B) = A ++ absorb blockSize c d :: B := by
        simp [join, cFree, isFree]
      rw [merged]
      exact absorbBlock_placed placed

theorem mergePrev_placed (isFree : c.free = true) (placed : Placed m lo (A ++ c :: B) hi) :
    ∃ m', mergePrev m c.addr = .ok m' ∧
      Placed m' lo (join blockSize A (c :: B)) hi ∧
      OnlyHeaders (join blockSize A (c :: B)) m m' := by
  have cReal : c.addr ≠ 0 := placed.real (by simp)
  have cHeader := placed.linked.header
  rcases List.eq_nil_or_concat' A with rfl | ⟨A, a, rfl⟩
  · refine ⟨m, ?_, by simpa [join] using placed, OnlyHeaders.refl _ m⟩
    simp [mergePrev, readPrev_ok cReal, cHeader, lastAddr]
  · have aReal : a.addr ≠ 0 := placed.real (by simp)
    have atA : Placed m lo (A ++ a :: c :: B) hi := by simpa using placed
    obtain ⟨m', run, placed', only⟩ := joinPrev_placed isFree atA
    refine ⟨m', ?_, placed', only⟩
    simp only [mergePrev, readPrev_ok cReal, cHeader, lastAddr_append, lastAddr, ok_bind,
      if_neg aReal, readFree_ok aReal, atA.linked.header]
    exact run

/-! ## Cutting a block in two -/

/-- The memory the split leaves when `current` is followed by `next`. -/
def splitMemory (m : Memory) (current n newBlock rest next : Nat) : Memory :=
  let m := setPrev (setNext (setFree (setSize m newBlock rest) newBlock 1) newBlock next)
    newBlock current
  let m := if next ≠ 0 then setPrev m next newBlock else m
  setNext (setSize m current n) current newBlock

theorem splitBlock_ok {current n newBlock : Nat} (real : current ≠ 0) (newReal : newBlock ≠ 0)
    (isNew : add64 (add64 current blockSize) n = newBlock)
    (apart : HeaderApart newBlock current) :
    splitBlock m current n = .ok (splitMemory m current n newBlock
      (sub64 (sub64 (header m current).size n) blockSize) (header m current).next) := by
  simp only [splitBlock, splitMemory, isNew, readSize_ok real, readNext_ok real, ok_bind,
    writeSize_ok newReal, writeFree_ok newReal, writeNext_ok newReal, writePrev_ok newReal,
    (header_set_apart apart).1, (header_set_apart apart).2.1, (header_set_apart apart).2.2.1,
    (header_set_apart apart).2.2.2, writeSize_ok real, writeNext_ok real]
  by_cases more : (header m current).next = 0
  · simp only [more, ne_eq, not_true_eq_false, if_false]
  · simp only [ne_eq, more, not_false_eq_true, if_true, writePrev_ok more, ok_bind]

def restHeader (m : Memory) (block prev size next : Nat) : Memory :=
  setPrev (setNext (setFree (setSize m block size) block 1) block next) block prev

theorem restHeader_same {block prev size next : Nat} (prevSmall : prev < 2 ^ 64)
    (sizeSmall : size < 2 ^ 64) (nextSmall : next < 2 ^ 64) :
    header (restHeader m block prev size next) block = ⟨next, prev, size, 1⟩ := by
  rw [restHeader, header_setPrev_same prevSmall, header_setNext_same nextSmall,
    header_setFree_same (by decide), header_setSize_same sizeSmall]

theorem restHeader_apart {block prev size next x : Nat} (apart : HeaderApart block x) :
    header (restHeader m block prev size next) x = header m x := by
  rw [restHeader, (header_set_apart apart).2.1, (header_set_apart apart).1,
    (header_set_apart apart).2.2.2, (header_set_apart apart).2.2.1]

theorem restHeader_only (prev size next : Nat) {L : List Chunk} (member : c ∈ L) :
    OnlyHeaders L m (restHeader m c.addr prev size next) :=
  (((onlyHeaders_set member).2.2.1.trans (onlyHeaders_set member).2.2.2).trans
    (onlyHeaders_set member).1).trans (onlyHeaders_set member).2.1

/-- The block that stays gets its new size and the rest for its successor. -/
def shrunk (m : Memory) (block size next : Nat) : Memory :=
  setNext (setSize m block size) block next

theorem shrunk_same {block size next : Nat} (sizeSmall : size < 2 ^ 64)
    (nextSmall : next < 2 ^ 64) :
    header (shrunk m block size next) block =
      { header m block with next := next, size := size } := by
  rw [shrunk, header_setNext_same nextSmall, header_setSize_same sizeSmall]

theorem shrunk_apart {block size next x : Nat} (apart : HeaderApart block x) :
    header (shrunk m block size next) x = header m x := by
  rw [shrunk, (header_set_apart apart).1, (header_set_apart apart).2.2.1]

theorem shrunk_only (size next : Nat) {L : List Chunk} (member : c ∈ L) :
    OnlyHeaders L m (shrunk m c.addr size next) :=
  (onlyHeaders_set member).2.2.1.trans (onlyHeaders_set member).1

theorem splitMemory_last (current n newBlock rest : Nat) :
    splitMemory m current n newBlock rest 0 =
      shrunk (restHeader m newBlock current rest 0) current n newBlock := rfl

theorem splitMemory_next {next : Nat} (real : next ≠ 0) (current n newBlock rest : Nat) :
    splitMemory m current n newBlock rest next =
      shrunk (setPrev (restHeader m newBlock current rest next) next newBlock) current n
        newBlock := by
  simp only [splitMemory, if_pos real]
  rfl

theorem splitMemory_placed {n : Nat} {r : Chunk} (room : n + blockSize ≤ c.size)
    (isNew : r = ⟨c.addr + blockSize + n, c.size - n - blockSize, true⟩)
    (placed : Placed m lo (A ++ c :: B) hi) :
    Placed (splitMemory m c.addr n r.addr r.size (firstAddr 0 B)) lo
        (A ++ { c with size := n } :: r :: B) hi ∧
      OnlyHeaders (A ++ { c with size := n } :: r :: B) m
        (splitMemory m c.addr n r.addr r.size (firstAddr 0 B)) := by
  have cBounds := placed.bounds (c := c) (by simp)
  have bounded := placed.bounded
  have rStart : r.addr = c.addr + blockSize + n := by rw [isNew]
  have rStop : r.addr + blockSize + r.size = c.addr + blockSize + c.size := by
    rw [isNew]
    simp only
    omega
  have spread : Spread blockSize lo (A ++ { c with size := n } :: r :: B) hi := by
    rw [isNew]
    exact spread_cut room placed.spread
  have at_c : { c with size := n } ∈ A ++ { c with size := n } :: r :: B := by simp
  have at_r : r ∈ A ++ { c with size := n } :: r :: B := by simp
  have rc : HeaderApart r.addr c.addr := Or.inr (by omega)
  have apartFromR : ∀ x ∈ A ++ B, HeaderApart r.addr x.addr := by
    intro x member
    obtain ⟨before, after⟩ := placed.around
    rcases List.mem_append.mp member with member | member
    · have bound := before x member
      exact Or.inr (by omega)
    · have bound := after x member
      exact Or.inl (by omega)
  have old := placed.linked.header
  cases B with
  | nil =>
      rw [firstAddr, splitMemory_last]
      refine ⟨⟨?_, spread, fun _ => placed.positive (by simp), bounded⟩,
        (restHeader_only _ _ _ at_r).trans (shrunk_only (c := { c with size := n }) _ _ at_c)⟩
      refine placed.linked.split { c with size := n } rfl ?_ ?_ (by simp) ?_
      · rw [shrunk_same (by omega) (by omega), restHeader_apart rc, old]
      · rw [shrunk_apart rc.symm, restHeader_same (by omega) (by omega) (by decide), isNew]
        rfl
      · intro x member
        have member : x ∈ A ++ [] := by simpa using member
        rw [shrunk_apart (placed.apart member), restHeader_apart (apartFromR x member)]
  | cons b B =>
      have placedAtB : Placed m lo ((A ++ [c]) ++ b :: B) hi := by simpa using placed
      have bReal : b.addr ≠ 0 := placed.real (by simp)
      have bBounds := placed.bounds (c := b) (by simp)
      have cb : HeaderApart c.addr b.addr := placed.apart (by simp)
      have rb : HeaderApart r.addr b.addr := apartFromR b (by simp)
      rw [firstAddr, splitMemory_next bReal]
      refine ⟨⟨?_, spread, fun _ => placed.positive (by simp), bounded⟩,
        ((restHeader_only _ _ _ at_r).trans (onlyHeaders_set (c := b) (by simp)).2.1).trans
          (shrunk_only (c := { c with size := n }) _ _ at_c)⟩
      apply placed.linked.split { c with size := n } rfl
      · rw [shrunk_same (by omega) (by omega), (header_set_apart cb.symm).2.1,
          restHeader_apart rc, old]
      · rw [shrunk_apart rc.symm, (header_set_apart rb.symm).2.1,
          restHeader_same (by omega) (by omega) (by omega), isNew]
        rfl
      · intro x member
        have same : b = x := by simpa using member
        subst same
        rw [shrunk_apart cb, header_setPrev_same (by omega), restHeader_apart rb]
      · intro x member
        have member : x ∈ A ∨ x ∈ B := by simpa using member
        have inRest : x ∈ A ++ b :: B := by rcases member with member | member <;> simp [member]
        have bx : HeaderApart b.addr x.addr :=
          placedAtB.apart (by rcases member with member | member <;> simp [member])
        rw [shrunk_apart (placed.apart inRest), (header_set_apart bx).2.1,
          restHeader_apart (apartFromR x inRest)]

theorem splitBlock_placed {n : Nat} (room : n + blockSize ≤ c.size)
    (placed : Placed m lo (A ++ c :: B) hi) :
    ∃ m', splitBlock m c.addr n = .ok m' ∧
      Placed m' lo (A ++ { c with size := n } ::
        ⟨c.addr + blockSize + n, c.size - n - blockSize, true⟩ :: B) hi ∧
      OnlyHeaders (A ++ { c with size := n } ::
        ⟨c.addr + blockSize + n, c.size - n - blockSize, true⟩ :: B) m m' := by
  have cReal : c.addr ≠ 0 := placed.real (by simp)
  have cHeader := placed.linked.header
  have cBounds := placed.bounds (c := c) (by simp)
  have bounded := placed.bounded
  have isNew : add64 (add64 c.addr blockSize) n = c.addr + blockSize + n := by
    rw [add64_of_lt (a := c.addr) (by omega), add64_of_lt (by omega)]
  have apart : HeaderApart (c.addr + blockSize + n) c.addr := Or.inr (by omega)
  refine ⟨_, splitBlock_ok cReal (by omega) isNew apart, ?_⟩
  simp only [cHeader]
  rw [sub64_of_le (a := c.size) (by omega) (by omega), sub64_of_le (by omega) (by omega)]
  exact splitMemory_placed (r := ⟨c.addr + blockSize + n, c.size - n - blockSize, true⟩)
    room rfl placed

theorem takeBlock_placed {n : Nat} (room : n ≤ c.size) (high : alignment ≤ c.addr)
    (placed : Placed m lo (A ++ c :: B) hi) :
    ∃ m', takeBlock m c.addr n = .ok m' ∧
      Placed m' lo (A ++ carve blockSize alignment n c ++ B) hi ∧
      OnlyHeaders (A ++ carve blockSize alignment n c ++ B) m m' := by
  have cReal : c.addr ≠ 0 := placed.real (by simp)
  have cBounds := placed.bounds (c := c) (by simp)
  have bounded := placed.bounded
  obtain ⟨marked, onlyMark⟩ := setFree_placed false placed
  have markedHeader := marked.linked.header
  have threshold : add64 (add64 n blockSize) alignment = n + blockSize + alignment := by
    have wide : blockSize = 32 := rfl
    have unit : alignment = 16 := rfl
    rw [add64_of_lt (a := n) (by omega), add64_of_lt (by omega)]
  have run : takeBlock m c.addr n =
      if n + blockSize + alignment ≤ c.size then
        splitBlock (setFree m c.addr (flag false)) c.addr n
      else .ok (setFree m c.addr (flag false)) := by
    simp only [takeBlock, writeFree_ok cReal, readSize_ok cReal, ok_bind, threshold]
    rw [show (0 : Nat) = flag false from rfl, markedHeader]
  rw [run, List.append_assoc]
  by_cases enough : n + blockSize + alignment ≤ c.size
  · simp only [carve, if_pos enough]
    obtain ⟨m', split, placed', only⟩ :=
      splitBlock_placed (c := { c with free := false }) (n := n) (by simp only; omega) marked
    refine ⟨m', split, placed', ?_⟩
    intro x outside
    rw [only x outside]
    apply (set_outside _).2.2.2
    exact outside { c with size := n, free := false } (by simp)
  · simp only [carve, if_neg enough]
    exact ⟨_, rfl, marked, onlyMark⟩

def newHeader (m : Memory) (block prev size : Nat) : Memory :=
  setFree (setSize (setPrev (setNext m block 0) block prev) block size) block 1

theorem newHeader_same {block prev size : Nat} (prevSmall : prev < 2 ^ 64)
    (sizeSmall : size < 2 ^ 64) :
    header (newHeader m block prev size) block = ⟨0, prev, size, 1⟩ := by
  rw [newHeader, header_setFree_same (by decide), header_setSize_same sizeSmall,
    header_setPrev_same prevSmall, header_setNext_same (by decide)]

theorem newHeader_apart {block prev size x : Nat} (apart : HeaderApart block x) :
    header (newHeader m block prev size) x = header m x := by
  rw [newHeader, (header_set_apart apart).2.2.2, (header_set_apart apart).2.2.1,
    (header_set_apart apart).2.1, (header_set_apart apart).1]

theorem newHeader_only (prev size : Nat) {L : List Chunk} (member : c ∈ L) :
    OnlyHeaders L m (newHeader m c.addr prev size) :=
  (((onlyHeaders_set member).1.trans (onlyHeaders_set member).2.1).trans
    (onlyHeaders_set member).2.2.1).trans (onlyHeaders_set member).2.2.2

theorem newHeader_first {size : Nat} (real : 0 < lo) (bounded : lo + blockSize + size < 2 ^ 64) :
    Placed (newHeader m lo 0 size) lo [⟨lo, size, true⟩] (lo + blockSize + size) := by
  refine ⟨⟨?_, trivial⟩, ⟨le_refl _, le_refl _⟩, fun _ => real, bounded⟩
  exact newHeader_same (by decide) (by omega)

theorem newHeader_concat {size : Nat} (placed : Placed m lo (A ++ [c]) hi)
    (isNext : d = ⟨hi, size, true⟩) (bounded : hi + blockSize + size < 2 ^ 64) :
    Placed (setNext (newHeader m hi c.addr size) c.addr hi) lo (A ++ c :: [d])
        (hi + blockSize + size) ∧
      OnlyHeaders (A ++ c :: [d]) m (setNext (newHeader m hi c.addr size) c.addr hi) := by
  have cBounds := placed.bounds (c := c) (by simp)
  have cd : HeaderApart hi c.addr := Or.inr (by omega)
  have start : d.addr = hi := by rw [isNext]
  have width : d.size = size := by rw [isNext]
  refine ⟨⟨?_, ?_, fun _ => placed.positive (by simp), bounded⟩, ?_⟩
  · have grown :
        Linked (setNext (newHeader m hi c.addr size) c.addr hi) 0 ((A ++ [c]) ++ [d]) 0 := by
      apply placed.linked.concat
      · intro x member
        have same : c = x := by simpa using member
        subst same
        rw [header_setNext_same (by omega), newHeader_apart cd, start]
      · rw [start, (header_set_apart cd.symm).1, newHeader_same (by omega) (by omega), isNext]
        simp [lastAddr, flag]
      · intro x member
        have member : x ∈ A := by simpa using member
        have inA : x ∈ A ++ [] := by simpa using member
        have bound := placed.around.1 x member
        rw [(header_set_apart (placed.apart inA)).1, newHeader_apart (Or.inr (by omega))]
    simpa using grown
  · obtain ⟨mid, left, low, stop⟩ := spread_append.mp placed.spread
    refine spread_append.mpr ⟨mid, left, low, ?_, ?_⟩
    · rw [start]
      exact stop
    · simp only [Spread, Chunk.stop, start, width, le_refl]
  · intro x outside
    rw [(set_outside (outside c (by simp))).1]
    have only := newHeader_only (m := m) (c := d) c.addr size
      (L := A ++ c :: [d]) (by simp)
    rw [start] at only
    exact only x outside

end Csc457.Malloc
