import Mathlib

/-!
# Little-endian words in a byte array

A byte array of length `n` is a function `Fin n → UInt8`. A 32-bit word at offset `off` occupies the
four bytes `off, …, off + 3`, least significant first. `load` reads such a word and `store` writes
one; a load after a store at the same offset returns the stored word, and a store leaves every byte
outside its four unchanged, so loads at offsets four or more apart do not see it.
-/

namespace LittleEndian

/-- Byte `k` of `w`, counting from the least significant byte. -/
def byte (w : UInt32) (k : Nat) : UInt8 := UInt8.ofNat (w.toNat / 256 ^ k % 256)

/-- The word whose bytes, least significant first, are `b0 b1 b2 b3`. -/
def word (b0 b1 b2 b3 : UInt8) : UInt32 :=
  UInt32.ofNat (b0.toNat + 256 * b1.toNat + 65536 * b2.toNat + 16777216 * b3.toNat)

theorem word_byte (w : UInt32) : word (byte w 0) (byte w 1) (byte w 2) (byte w 3) = w := by
  apply UInt32.toNat_inj.mp
  have hw := w.toNat_lt
  simp only [word, byte, UInt8.toNat_ofNat', UInt32.toNat_ofNat']
  omega

variable {n : Nat}

/-- Byte `i` of the array, and `0` past its end. -/
def get (m : Fin n → UInt8) (i : Nat) : UInt8 := if h : i < n then m ⟨i, h⟩ else 0

/-- The word stored at offset `off`. -/
def load (m : Fin n → UInt8) (off : Nat) : UInt32 :=
  word (get m off) (get m (off + 1)) (get m (off + 2)) (get m (off + 3))

/-- The array with the word `w` written at offset `off`. -/
def store (m : Fin n → UInt8) (off : Nat) (w : UInt32) : Fin n → UInt8 :=
  fun i => if off ≤ i.val ∧ i.val < off + 4 then byte w (i.val - off) else m i

theorem get_store_of_not_mem (m : Fin n → UInt8) (off : Nat) (w : UInt32) {i : Nat}
    (hi : i < off ∨ off + 4 ≤ i) : get (store m off w) i = get m i := by
  unfold get store
  split
  · rw [if_neg (by dsimp only; omega)]
  · rfl

theorem get_store_of_mem (m : Fin n → UInt8) (off : Nat) (w : UInt32) {k : Nat} (hk : k < 4)
    (hn : off + 4 ≤ n) : get (store m off w) (off + k) = byte w k := by
  unfold get store
  rw [dif_pos (by omega), if_pos (by simp only; omega)]
  simp

@[simp] theorem load_store_self (m : Fin n → UInt8) (off : Nat) (w : UInt32) (hn : off + 4 ≤ n) :
    load (store m off w) off = w := by
  unfold load
  have h0 := get_store_of_mem m off w (k := 0) (by omega) hn
  have h1 := get_store_of_mem m off w (k := 1) (by omega) hn
  have h2 := get_store_of_mem m off w (k := 2) (by omega) hn
  have h3 := get_store_of_mem m off w (k := 3) (by omega) hn
  simp only [Nat.add_zero] at h0
  rw [h0, h1, h2, h3, word_byte]

/-- A store four or more bytes away leaves the word at `off'` unchanged. -/
theorem load_store_of_disjoint (m : Fin n → UInt8) {off off' : Nat} (w : UInt32)
    (hd : off + 4 ≤ off' ∨ off' + 4 ≤ off) : load (store m off w) off' = load m off' := by
  unfold load
  rw [get_store_of_not_mem m off w (by omega), get_store_of_not_mem m off w (by omega),
    get_store_of_not_mem m off w (by omega), get_store_of_not_mem m off w (by omega)]

/-! ## Numbers of any width

A number of `n` bytes stored least significant byte first from address `a` of a memory seen as a
function `Nat → UInt8`, as user code reads the `uint64` pointers the kernel leaves on its stack.
`loadNat_of_lt` reads back a stored number that fits in its width. -/

section Wide

/-- Byte `k` of the number `w`, counting from the least significant byte. -/
def leByte (w k : Nat) : UInt8 := UInt8.ofNat (w / 256 ^ k)

/-- The `n`-byte number stored at `a`. -/
def loadNat (f : Nat → UInt8) (a n : Nat) : Nat := ∑ k ∈ Finset.range n, (f (a + k)).toNat * 256 ^ k

variable {f : Nat → UInt8} {a w n : Nat}

theorem loadNat_succ : loadNat f a (n + 1) = loadNat f a n + (f (a + n)).toNat * 256 ^ n :=
  Finset.sum_range_succ _ _

/-- The bytes of `w` read back give `w` modulo the width. -/
theorem loadNat_leByte_eq_mod : ∀ n, (∀ k < n, f (a + k) = leByte w k) → loadNat f a n = w % 256 ^ n
  | 0, _ => by rw [Nat.pow_zero, Nat.mod_one]; rfl
  | n + 1, hf => by
    rw [loadNat_succ, loadNat_leByte_eq_mod n (fun k hk => hf k (by omega)), hf n (by omega),
      Nat.mod_pow_succ, leByte, UInt8.toNat_ofNat', Nat.mul_comm]

theorem loadNat_of_lt (hf : ∀ k < n, f (a + k) = leByte w k) (hw : w < 256 ^ n) : loadNat f a n = w := by
  rw [loadNat_leByte_eq_mod n hf, Nat.mod_eq_of_lt hw]

end Wide

end LittleEndian
