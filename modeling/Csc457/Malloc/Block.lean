import Csc457.Lib.ByteMemory

/-!
# The block header of the malloc library

`struct Block` of malloc.c as it lies in memory: `next` at offset 0, `prev` at
8, `size` at 16 and the one-byte `free` flag at 24, padded to 32 bytes.  Every
access goes through a pointer, and an access through NULL is a fault.
-/

set_option autoImplicit false

namespace Csc457.Malloc

open Csc457.Lib.ByteMemory

/-- What stops a call from returning: a NULL pointer is followed, or the call
runs longer than any walk of distinct addresses can. -/
inductive Fault where
  | nullDeref
  | diverges
  deriving DecidableEq, Repr

def add64 (a b : Nat) : Nat := (a + b) % 2 ^ 64

def sub64 (a b : Nat) : Nat := (a + 2 ^ 64 - b) % 2 ^ 64

def mul64 (a b : Nat) : Nat := (a * b) % 2 ^ 64

/-- A `size_t` argument converted to the `intptr_t` that sbrk takes. -/
def asIntptr (size : Nat) : Int := if size < 2 ^ 63 then size else (size : Int) - 2 ^ 64

theorem add64_of_lt {a b : Nat} (small : a + b < 2 ^ 64) : add64 a b = a + b :=
  Nat.mod_eq_of_lt small

theorem sub64_of_le {a b : Nat} (le : b ≤ a) (small : a < 2 ^ 64) : sub64 a b = a - b := by
  have shift : a + 2 ^ 64 - b = (a - b) + 2 ^ 64 := by omega
  rw [sub64, shift, Nat.add_mod_right]
  exact Nat.mod_eq_of_lt (by omega)

theorem mul64_of_lt {a b : Nat} (small : a * b < 2 ^ 64) : mul64 a b = a * b :=
  Nat.mod_eq_of_lt small

theorem asIntptr_of_lt {size : Nat} (small : size < 2 ^ 63) : asIntptr size = size :=
  if_pos small

/-- `sizeof(Block)`. -/
def blockSize : Nat := 32

def stdChunkSize : Nat := 64 * 1024

def alignment : Nat := 16

def sizeMax : Nat := 2 ^ 64 - 1

/-- `(void *)-1`. -/
def sbrkFailed : Nat := 2 ^ 64 - 1

structure Header where
  next : Nat
  prev : Nat
  size : Nat
  free : Nat
  deriving DecidableEq, Repr

def header (m : Memory) (block : Nat) : Header :=
  ⟨load64 m block, load64 m (block + 8), load64 m (block + 16), load8 m (block + 24)⟩

def setNext (m : Memory) (block value : Nat) : Memory := store64 m block value
def setPrev (m : Memory) (block value : Nat) : Memory := store64 m (block + 8) value
def setSize (m : Memory) (block value : Nat) : Memory := store64 m (block + 16) value
def setFree (m : Memory) (block value : Nat) : Memory := store8 m (block + 24) value

def readNext (m : Memory) (block : Nat) : Except Fault Nat :=
  if block = 0 then .error .nullDeref else .ok (header m block).next

def readPrev (m : Memory) (block : Nat) : Except Fault Nat :=
  if block = 0 then .error .nullDeref else .ok (header m block).prev

def readSize (m : Memory) (block : Nat) : Except Fault Nat :=
  if block = 0 then .error .nullDeref else .ok (header m block).size

def readFree (m : Memory) (block : Nat) : Except Fault Nat :=
  if block = 0 then .error .nullDeref else .ok (header m block).free

def writeNext (m : Memory) (block value : Nat) : Except Fault Memory :=
  if block = 0 then .error .nullDeref else .ok (setNext m block value)

def writePrev (m : Memory) (block value : Nat) : Except Fault Memory :=
  if block = 0 then .error .nullDeref else .ok (setPrev m block value)

def writeSize (m : Memory) (block value : Nat) : Except Fault Memory :=
  if block = 0 then .error .nullDeref else .ok (setSize m block value)

def writeFree (m : Memory) (block value : Nat) : Except Fault Memory :=
  if block = 0 then .error .nullDeref else .ok (setFree m block value)

def HeaderApart (b c : Nat) : Prop := Apart b blockSize c blockSize

theorem HeaderApart.symm {b c : Nat} (apart : HeaderApart b c) : HeaderApart c b :=
  Or.symm apart

@[simp] theorem ok_bind {ε α β : Type} (a : α) (f : α → Except ε β) :
    (Except.ok a >>= f) = f a := rfl

section Access
variable {m : Memory} {b c v : Nat}

theorem readNext_ok (real : b ≠ 0) : readNext m b = .ok (header m b).next := if_neg real
theorem readPrev_ok (real : b ≠ 0) : readPrev m b = .ok (header m b).prev := if_neg real
theorem readSize_ok (real : b ≠ 0) : readSize m b = .ok (header m b).size := if_neg real
theorem readFree_ok (real : b ≠ 0) : readFree m b = .ok (header m b).free := if_neg real
theorem writeNext_ok (real : b ≠ 0) : writeNext m b v = .ok (setNext m b v) := if_neg real
theorem writePrev_ok (real : b ≠ 0) : writePrev m b v = .ok (setPrev m b v) := if_neg real
theorem writeSize_ok (real : b ≠ 0) : writeSize m b v = .ok (setSize m b v) := if_neg real
theorem writeFree_ok (real : b ≠ 0) : writeFree m b v = .ok (setFree m b v) := if_neg real

theorem header_setNext_same (small : v < 2 ^ 64) :
    header (setNext m b v) b = { header m b with next := v } := by
  simp only [header, setNext, load64_store64_same small]
  rw [load64_store64_apart (Or.inl (by omega)), load64_store64_apart (Or.inl (by omega)),
    load8_store64_apart (Or.inl (by omega))]

theorem header_setPrev_same (small : v < 2 ^ 64) :
    header (setPrev m b v) b = { header m b with prev := v } := by
  simp only [header, setPrev, load64_store64_same small]
  rw [load64_store64_apart (Or.inr (by omega)), load64_store64_apart (Or.inl (by omega)),
    load8_store64_apart (Or.inl (by omega))]

theorem header_setSize_same (small : v < 2 ^ 64) :
    header (setSize m b v) b = { header m b with size := v } := by
  simp only [header, setSize, load64_store64_same small]
  rw [load64_store64_apart (Or.inr (by omega)), load64_store64_apart (Or.inr (by omega)),
    load8_store64_apart (Or.inl (by omega))]

theorem header_setFree_same (small : v < 256) :
    header (setFree m b v) b = { header m b with free := v } := by
  simp only [header, setFree, load8_store8_same small]
  rw [load64_store8_apart (Or.inr (by omega)), load64_store8_apart (Or.inr (by omega)),
    load64_store8_apart (Or.inr (by omega))]

theorem header_congr {m' : Memory} (agree : AgreeOn m m' b blockSize) :
    header m' b = header m b := by
  have inside : ∀ offset width, offset + width ≤ blockSize →
      AgreeOn m m' (b + offset) width := by
    intro offset width fits x low high
    exact agree x (by omega) (by omega)
  have first : AgreeOn m m' b 8 := inside 0 8 (by decide)
  simp only [header]
  rw [load64_congr first, load64_congr (inside 8 8 (by decide)),
    load64_congr (inside 16 8 (by decide)), load8_congr (inside 24 1 (by decide))]

theorem set_outside {x : Nat} (outside : x < b ∨ b + blockSize ≤ x) :
    setNext m b v x = m x ∧ setPrev m b v x = m x ∧ setSize m b v x = m x ∧
      setFree m b v x = m x := by
  have wide : blockSize = 32 := rfl
  exact ⟨storeBytes_outside (by omega), storeBytes_outside (by omega),
    storeBytes_outside (by omega), storeBytes_outside (by omega)⟩

theorem header_set_apart (apart : HeaderApart b c) :
    header (setNext m b v) c = header m c ∧ header (setPrev m b v) c = header m c ∧
      header (setSize m b v) c = header m c ∧ header (setFree m b v) c = header m c := by
  have outside : ∀ x, c ≤ x → x < c + blockSize → x < b ∨ b + blockSize ≤ x := by
    intro x low high
    unfold HeaderApart Apart at apart
    omega
  exact ⟨header_congr fun x low high => (set_outside (outside x low high)).1,
    header_congr fun x low high => (set_outside (outside x low high)).2.1,
    header_congr fun x low high => (set_outside (outside x low high)).2.2.1,
    header_congr fun x low high => (set_outside (outside x low high)).2.2.2⟩

theorem setNext_setPrev_comm {w : Nat} (apart : HeaderApart b c) :
    setNext (setPrev m b v) c w = setPrev (setNext m c w) b v := by
  apply storeBytes_comm
  have wide : blockSize = 32 := rfl
  unfold HeaderApart Apart at apart
  unfold Apart
  omega

end Access

end Csc457.Malloc
