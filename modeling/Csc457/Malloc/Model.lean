import Csc457.Malloc.Block

/-!
# malloc, free, calloc and realloc

The functions of malloc.c over a byte memory.  The kernel is reduced to the
program break and to its answers: `grant` decides, call by call, whether an
sbrk succeeds, so quantifying over it covers every pattern of failures.

Loops follow pointers in memory and need not end.  A loop is given `walkLimit`
turns, one for each address there is; a walk that long has come back to a block
it has already seen, so running out of turns is divergence.
-/

set_option autoImplicit false

namespace Csc457.Malloc

open Csc457.Lib.ByteMemory

/-- The address space of the process, as far as the library and sbrk use it. -/
structure Heap where
  mem : Memory
  /-- `static Block *head`. -/
  head : Nat
  /-- The program break. -/
  brk : Nat
  /-- The kernel's answer to the n-th sbrk. -/
  grant : Nat → Bool
  /-- How many times sbrk was called. -/
  calls : Nat
  /-- Bytes obtained through `request_mem`.  The code does not keep this count. -/
  requested : Nat

def walkLimit : Nat := 2 ^ 64

def sbrk (s : Heap) (increment : Int) : Nat × Heap :=
  if s.grant s.calls = true ∧ 0 ≤ (s.brk : Int) + increment ∧
      (s.brk : Int) + increment < 2 ^ 64 then
    (s.brk, { s with brk := ((s.brk : Int) + increment).toNat, calls := s.calls + 1 })
  else (sbrkFailed, { s with calls := s.calls + 1 })

/-- An answer of 0 is a NULL to the callers, who take it for a failure. -/
def requestMem (s : Heap) (size : Nat) : Nat × Heap :=
  let (mem, s) := sbrk s (asIntptr size)
  if mem = sbrkFailed then (0, s)
  else if mem = 0 then (0, s)
  else (mem, { s with requested := s.requested + size })

/-- The end of init_heap: the first block, at the start of the heap. -/
def requestFirstBlock (s : Heap) : Except Fault (Nat × Heap) :=
  let (mem, s) := requestMem s stdChunkSize
  if mem = 0 then .ok (0, s)
  else do
    let m ← writeNext s.mem mem 0
    let m ← writePrev m mem 0
    let m ← writeSize m mem (stdChunkSize - blockSize)
    let m ← writeFree m mem 1
    return (mem, { s with mem := m })

def initHeap (s : Heap) : Except Fault (Nat × Heap) :=
  let (currentBreak, s) := sbrk s 0
  if currentBreak = sbrkFailed then .ok (0, s)
  else if currentBreak % alignment ≠ 0 then
    -- not aligned, move break to next multiple of 16
    let (temp, s) := sbrk s (asIntptr (alignment - currentBreak % alignment))
    if temp = sbrkFailed then .ok (0, s) else requestFirstBlock s
  else requestFirstBlock s

/-- `while (current->next) current = current->next;` -/
def lastBlock (m : Memory) : Nat → Nat → Except Fault Nat
  | 0, _ => .error .diverges
  | fuel + 1, current => do
      let next ← readNext m current
      if next = 0 then return current else lastBlock m fuel next

/-- The end of align_heap: the `alignSize` bytes at `alignBlock` become part of
the last block, or a block of their own. -/
def addAlignBlock (s : Heap) (alignBlock alignSize : Nat) : Except Fault Heap :=
  if s.head = 0 then do
    let m ← writeNext s.mem alignBlock 0
    let m ← writePrev m alignBlock 0
    let m ← writeSize m alignBlock (sub64 alignSize blockSize)
    let m ← writeFree m alignBlock 1
    return { s with mem := m, head := alignBlock }
  else do
    let current ← lastBlock s.mem walkLimit s.head
    let free ← readFree s.mem current
    if free ≠ 0 then do
      let size ← readSize s.mem current
      let m ← writeSize s.mem current (add64 size alignSize)
      return { s with mem := m }
    else do
      let m ← writeNext s.mem current alignBlock
      let m ← writePrev m alignBlock current
      let m ← writeNext m alignBlock 0
      let m ← writeSize m alignBlock (sub64 alignSize blockSize)
      let m ← writeFree m alignBlock 1
      return { s with mem := m }

def alignHeap (s : Heap) : Except Fault Heap :=
  let (currentBreak, s) := sbrk s 0
  if currentBreak = sbrkFailed then .ok s
  else if currentBreak % alignment = 0 then .ok s
  else
    let alignSize := alignment - currentBreak % alignment
    let (alignBlock, s) := sbrk s (asIntptr alignSize)
    if alignBlock = sbrkFailed then .ok s
    else addAlignBlock s alignBlock alignSize

/-! ## malloc -/

/-- `(size + 15) & ~15`: `~15` clears the low four bits. -/
def alignedSize (size : Nat) : Nat := add64 size 15 / 16 * 16

/-- The first-fit scan: the block it stops at, or 0 at the end of the list, and
the block before it. -/
def scan (m : Memory) (alignedSize : Nat) : Nat → Nat → Nat → Except Fault (Nat × Nat)
  | 0, _, _ => .error .diverges
  | fuel + 1, current, prev =>
      if current = 0 then .ok (0, prev)
      else do
        let free ← readFree m current
        let size ← readSize m current
        if free ≠ 0 ∧ alignedSize ≤ size then return (current, prev)
        else do
          let next ← readNext m current
          scan m alignedSize fuel next current

def splitBlock (m : Memory) (current alignedSize : Nat) : Except Fault Memory := do
  let newBlock := add64 (add64 current blockSize) alignedSize
  let size ← readSize m current
  let m ← writeSize m newBlock (sub64 (sub64 size alignedSize) blockSize)
  let m ← writeFree m newBlock 1
  let next ← readNext m current
  let m ← writeNext m newBlock next
  let m ← writePrev m newBlock current
  let next ← readNext m current
  let m ← if next ≠ 0 then writePrev m next newBlock else .ok m
  let m ← writeSize m current alignedSize
  writeNext m current newBlock

/-- The found block is marked as allocated, and split if there is enough space. -/
def takeBlock (m : Memory) (current alignedSize : Nat) : Except Fault Memory := do
  let m ← writeFree m current 0
  let size ← readSize m current
  if add64 (add64 alignedSize blockSize) alignment ≤ size then splitBlock m current alignedSize
  else .ok m

/-- `left->size += right->size + BLOCK_SIZE` and `right` is unlinked. -/
def absorbBlock (m : Memory) (left right : Nat) : Except Fault Memory := do
  let rightSize ← readSize m right
  let leftSize ← readSize m left
  let m ← writeSize m left (add64 leftSize (add64 rightSize blockSize))
  let next ← readNext m right
  let m ← writeNext m left next
  if next ≠ 0 then writePrev m next left else .ok m

/-- No suitable block found, request more memory.  `false` when there is none. -/
def growHeap (s : Heap) (prev alignedSize : Nat) : Except Fault (Bool × Heap) :=
  let newSize := if stdChunkSize < alignedSize then alignedSize else stdChunkSize
  let (mem, s) := requestMem s newSize
  if mem = 0 then .ok (false, s)
  else do
    let m ← writeNext s.mem mem 0
    let m ← writePrev m mem prev
    let m ← writeSize m mem (sub64 newSize blockSize)
    let m ← writeFree m mem 1
    if prev = 0 then return (true, { s with mem := m, head := mem })
    else do
      let m ← writeNext m prev mem
      let prevFree ← readFree m prev
      let m ← if prevFree ≠ 0 then absorbBlock m prev mem else .ok m
      return (true, { s with mem := m })

/-- One pass of malloc; `retry` is the recursive call that ends it. -/
def mallocPass (retry : Heap → Except Fault (Nat × Heap)) (s : Heap) (alignedSize : Nat) :
    Except Fault (Nat × Heap) := do
  let s ← alignHeap s
  let (current, prev) ← scan s.mem alignedSize walkLimit s.head 0
  if current ≠ 0 then do
    let m ← takeBlock s.mem current alignedSize
    return (add64 current blockSize, { s with mem := m })
  else do
    let (grown, s) ← growHeap s prev alignedSize
    if grown then retry s else return (0, s)

def mallocFrom : Nat → Heap → Nat → Except Fault (Nat × Heap)
  | 0, _, _ => .error .diverges
  | depth + 1, s, size =>
      if s.head = 0 then do
        let (head, s) ← initHeap s
        let s := { s with head := head }
        if head = 0 then return (0, s)
        else mallocPass (fun s => mallocFrom depth s size) s (alignedSize size)
      else mallocPass (fun s => mallocFrom depth s size) s (alignedSize size)

/-- Each retry has grown the heap, so a depth past the address space is divergence. -/
def malloc (s : Heap) (size : Nat) : Except Fault (Nat × Heap) := mallocFrom walkLimit s size

/-- The walk that takes a pointer into the middle of a block back to its start.
A pointer in no block is left as it is. -/
def findBlock (m : Memory) (ptr : Nat) : Nat → Nat → Except Fault Nat
  | 0, _ => .error .diverges
  | fuel + 1, current =>
      if current = 0 then .ok ptr
      else do
        let size ← readSize m current
        if add64 current blockSize ≤ ptr ∧ ptr < add64 (add64 current blockSize) size then
          return add64 current blockSize
        else do
          let next ← readNext m current
          findBlock m ptr fuel next

def mergeNext (m : Memory) (block : Nat) : Except Fault Memory := do
  let next ← readNext m block
  if next = 0 then .ok m
  else do
    let nextFree ← readFree m next
    if nextFree = 0 then .ok m else absorbBlock m block next

def mergePrev (m : Memory) (block : Nat) : Except Fault Memory := do
  let prev ← readPrev m block
  if prev = 0 then .ok m
  else do
    let prevFree ← readFree m prev
    if prevFree = 0 then .ok m else absorbBlock m prev block

def free (s : Heap) (ptr : Nat) : Except Fault Heap :=
  if ptr = 0 then .ok s
  else do
    let ptr ← findBlock s.mem ptr walkLimit s.head
    let block := sub64 ptr blockSize
    let m ← writeFree s.mem block 1
    let m ← mergeNext m block
    let m ← mergePrev m block
    return { s with mem := m }

def calloc (s : Heap) (nmemb size : Nat) : Except Fault (Nat × Heap) :=
  if nmemb = 0 ∨ size = 0 then .ok (0, s)
  else if size ≠ 0 ∧ sizeMax / size < nmemb then .ok (0, s)
  else do
    let totalSize := mul64 nmemb size
    let (mem, s) ← malloc s totalSize
    if mem = 0 then return (0, s)
    else return (mem, { s with mem := fill s.mem mem 0 totalSize })

/-! ## realloc -/

/-- `block->next` is free and the two together are large enough. -/
def fitsForward (m : Memory) (block size : Nat) : Except Fault Bool := do
  let next ← readNext m block
  if next = 0 then .ok false
  else do
    let nextFree ← readFree m next
    let blockBytes ← readSize m block
    let nextBytes ← readSize m next
    return decide (nextFree ≠ 0 ∧ size ≤ add64 (add64 blockBytes nextBytes) blockSize)

/-- `block->prev` is free and the two together are large enough. -/
def fitsBackward (m : Memory) (block size : Nat) : Except Fault Bool := do
  let prev ← readPrev m block
  if prev = 0 then .ok false
  else do
    let prevFree ← readFree m prev
    let prevBytes ← readSize m prev
    let blockBytes ← readSize m block
    return decide (prevFree ≠ 0 ∧ size ≤ add64 (add64 prevBytes blockBytes) blockSize)

/-- Enough space in next block to expand. -/
def expandForward (m : Memory) (block : Nat) : Except Fault Memory := do
  let next ← readNext m block
  let nextBytes ← readSize m next
  let blockBytes ← readSize m block
  let m ← writeSize m block (add64 blockBytes (add64 nextBytes blockSize))
  let nextNext ← readNext m next
  let m ← if nextNext ≠ 0 then writePrev m nextNext block else .ok m
  let nextNext ← readNext m next
  writeNext m block nextNext

/-- Enough space in previous block to expand.  The link of the block after is
written without asking whether there is one, and the flag is left as it was. -/
def expandBackward (m : Memory) (block : Nat) : Except Fault (Nat × Memory) := do
  let prev ← readPrev m block
  let blockBytes ← readSize m block
  let prevBytes ← readSize m prev
  let m ← writeSize m prev (add64 prevBytes (add64 blockBytes blockSize))
  let next ← readNext m block
  let m ← writeNext m prev next
  let m ← writePrev m next prev
  let prev ← readPrev m block
  return (add64 prev blockSize, m)

/-- Tried to extend in place, couldn't, so malloc, copy and free. -/
def moveBlock (s : Heap) (ptr block size : Nat) : Except Fault (Nat × Heap) := do
  let (newPtr, s) ← malloc s size
  if newPtr = 0 then return (0, s)
  else do
    let blockBytes ← readSize s.mem block
    let s ← free { s with mem := copy s.mem newPtr ptr blockBytes } ptr
    return (newPtr, s)

def realloc (s : Heap) (ptr size : Nat) : Except Fault (Nat × Heap) :=
  if ptr = 0 then malloc s size
  else if size = 0 then do
    let s ← free s ptr
    return (0, s)
  else do
    let ptr ← findBlock s.mem ptr walkLimit s.head
    let block := sub64 ptr blockSize
    let blockBytes ← readSize s.mem block
    if size ≤ blockBytes then return (ptr, s)
    else do
      let forward ← fitsForward s.mem block size
      if forward then do
        let m ← expandForward s.mem block
        return (ptr, { s with mem := m })
      else do
        let backward ← fitsBackward s.mem block size
        if backward then do
          let (newPtr, m) ← expandBackward s.mem block
          return (newPtr, { s with mem := m })
        else moveBlock s ptr block size

end Csc457.Malloc
