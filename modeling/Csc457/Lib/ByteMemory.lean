import Mathlib.Tactic.Ring
import Mathlib.Data.Nat.Basic

/-!
# Byte-addressed memory with 64-bit words

A memory gives every address one byte.  Words are little-endian and unaligned;
a word is read back after it was written, and a write leaves alone every word
and every byte it does not overlap.
-/

set_option autoImplicit false

namespace Csc457.Lib.ByteMemory

abbrev Memory := Nat → UInt8

/-- The value of `count` bytes from `address` on, least significant first. -/
def loadBytes (m : Memory) (address : Nat) : Nat → Nat
  | 0 => 0
  | count + 1 => (m address).toNat + 256 * loadBytes m (address + 1) count

/-- Write the low `count` bytes of `value` from `address` on. -/
def storeBytes (m : Memory) (address count value : Nat) : Memory := fun x =>
  if address ≤ x ∧ x < address + count then
    UInt8.ofNat (value / 256 ^ (x - address))
  else m x

def load64 (m : Memory) (address : Nat) : Nat := loadBytes m address 8

def store64 (m : Memory) (address value : Nat) : Memory := storeBytes m address 8 value

def load8 (m : Memory) (address : Nat) : Nat := (m address).toNat

def store8 (m : Memory) (address value : Nat) : Memory := storeBytes m address 1 value

/-- `memset(address, value, count)`. -/
def fill (m : Memory) (address : Nat) (value : UInt8) (count : Nat) : Memory := fun x =>
  if address ≤ x ∧ x < address + count then value else m x

/-- `memcpy(target, source, count)` between regions that do not overlap. -/
def copy (m : Memory) (target source count : Nat) : Memory := fun x =>
  if target ≤ x ∧ x < target + count then m (source + (x - target)) else m x

def sparse (bytes : List (Nat × UInt8)) : Memory := fun a => (bytes.lookup a).getD 0

def Apart (a n b k : Nat) : Prop := a + n ≤ b ∨ b + k ≤ a

/-- The memories agree on `count` bytes from `address` on. -/
def AgreeOn (m m' : Memory) (address count : Nat) : Prop :=
  ∀ x, address ≤ x → x < address + count → m' x = m x

theorem loadBytes_of_eq {m m' : Memory} {address address' count : Nat}
    (same : ∀ i, i < count → m' (address' + i) = m (address + i)) :
    loadBytes m' address' count = loadBytes m address count := by
  induction count generalizing address address' with
  | zero => rfl
  | succ count ih =>
      have head : m' address' = m address := same 0 (Nat.succ_pos _)
      have tail : loadBytes m' (address' + 1) count = loadBytes m (address + 1) count := by
        apply ih
        intro i small
        simpa only [Nat.add_assoc, Nat.add_comm 1] using same (i + 1) (Nat.succ_lt_succ small)
      simp only [loadBytes, head, tail]

theorem loadBytes_congr {m m' : Memory} {address count : Nat}
    (agree : AgreeOn m m' address count) :
    loadBytes m' address count = loadBytes m address count := by
  apply loadBytes_of_eq
  intro i small
  exact agree (address + i) (Nat.le_add_right _ _) (Nat.add_lt_add_left small _)

theorem storeBytes_outside {m : Memory} {address count value x : Nat}
    (outside : x < address ∨ address + count ≤ x) :
    storeBytes m address count value x = m x := by
  have miss : ¬ (address ≤ x ∧ x < address + count) := by omega
  simp only [storeBytes, if_neg miss]

theorem storeBytes_apart {m : Memory} {a n v b k : Nat} (apart : Apart a n b k) :
    AgreeOn m (storeBytes m a n v) b k := by
  intro x low high
  apply storeBytes_outside
  unfold Apart at apart
  omega

theorem storeBytes_comm {m : Memory} {a n v b k w : Nat} (apart : Apart a n b k) :
    storeBytes (storeBytes m a n v) b k w = storeBytes (storeBytes m b k w) a n v := by
  funext x
  unfold Apart at apart
  by_cases inA : a ≤ x ∧ x < a + n
  · have outB : ¬ (b ≤ x ∧ x < b + k) := by omega
    simp only [storeBytes, if_pos inA, if_neg outB]
  · simp only [storeBytes, if_neg inA]

/-- Reading back the bytes just written gives the value, cut to their width.
The induction is on the width, with the digits still to be read shifted down. -/
theorem loadBytes_storeBytes (m : Memory) (address count value : Nat) :
    loadBytes (storeBytes m address count value) address count = value % 256 ^ count := by
  have shifted : ∀ done rest, done + rest = count →
      loadBytes (storeBytes m address count value) (address + done) rest =
        value / 256 ^ done % 256 ^ rest := by
    intro done rest
    induction rest generalizing done with
    | zero => intro _; simp [loadBytes, Nat.mod_one]
    | succ rest ih =>
        intro total
        have next := ih (done + 1) (by omega)
        have hit : address ≤ address + done ∧ address + done < address + count := by omega
        have byte : storeBytes m address count value (address + done) =
            UInt8.ofNat (value / 256 ^ done) := by
          simp only [storeBytes, if_pos hit, Nat.add_sub_cancel_left]
        have digit : value / 256 ^ (done + 1) = value / 256 ^ done / 256 := by
          rw [pow_succ, Nat.div_div_eq_div_mul]
        have width : (256 : Nat) ^ (rest + 1) = 256 * 256 ^ rest := by rw [pow_succ]; ring
        simp only [loadBytes, byte, UInt8.toNat_ofNat']
        rw [Nat.add_assoc, next, digit, width, Nat.mod_mul]
  simpa using shifted 0 count (by omega)

section Word
variable {m : Memory} {a b v : Nat}

theorem load64_store64_same (small : v < 2 ^ 64) : load64 (store64 m a v) a = v := by
  rw [load64, store64, loadBytes_storeBytes]
  exact Nat.mod_eq_of_lt (by simpa using small)

theorem load64_store64_apart (apart : Apart a 8 b 8) :
    load64 (store64 m a v) b = load64 m b :=
  loadBytes_congr (storeBytes_apart apart)

theorem load64_store8_apart (apart : Apart a 1 b 8) :
    load64 (store8 m a v) b = load64 m b :=
  loadBytes_congr (storeBytes_apart apart)

theorem load8_store8_same (small : v < 256) : load8 (store8 m a v) a = v := by
  have hit : a ≤ a ∧ a < a + 1 := by omega
  simp only [load8, store8, storeBytes, if_pos hit, Nat.sub_self, pow_zero, Nat.div_one,
    UInt8.toNat_ofNat']
  exact Nat.mod_eq_of_lt small

theorem load8_store64_apart (apart : Apart a 8 b 1) :
    load8 (store64 m a v) b = load8 m b := by
  rw [load8, store64, storeBytes_apart apart b (le_refl _) (by omega), load8]

theorem load64_congr {m' : Memory} (agree : AgreeOn m m' a 8) : load64 m' a = load64 m a :=
  loadBytes_congr agree

theorem load8_congr {m' : Memory} (agree : AgreeOn m m' a 1) : load8 m' a = load8 m a := by
  rw [load8, agree a (le_refl _) (by omega), load8]

end Word

theorem fill_outside {m : Memory} {address count x : Nat} {value : UInt8}
    (outside : x < address ∨ address + count ≤ x) : fill m address value count x = m x := by
  have miss : ¬ (address ≤ x ∧ x < address + count) := by omega
  simp only [fill, if_neg miss]

theorem copy_outside {m : Memory} {target source count x : Nat}
    (outside : x < target ∨ target + count ≤ x) : copy m target source count x = m x := by
  have miss : ¬ (target ≤ x ∧ x < target + count) := by omega
  simp only [copy, if_neg miss]

end Csc457.Lib.ByteMemory
