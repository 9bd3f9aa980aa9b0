import Mathlib.Tactic.NormNum.Basic
import Somenote.Bytes.Decimal

/-! # Machine integers, and words in a memory of bytes

A memory gives the byte at each address. A word of 32 bits takes four bytes, the lowest one first,
and a write of a word leaves all other bytes.
-/

namespace Somenote

def INT_MAX : ℕ := 2147483647

/-- The conversion to `int`. -/
def toInt (n : ℤ) : ℤ := (BitVec.ofInt 32 n).toInt

theorem toInt_eq {n : ℤ} (hlo : -2 ^ 31 ≤ n) (hhi : n < 2 ^ 31) : toInt n = n := by
  rw [toInt, BitVec.toInt_ofInt, Int.bmod_eq_of_le] <;> omega

theorem toInt_lt (n : ℤ) : toInt n < 2 ^ 31 := by
  rw [toInt, BitVec.toInt_ofInt]
  exact Int.bmod_lt (by decide)

theorem toInt_neg {n : ℤ} (h : 2 ^ 31 ≤ n) (hlt : n < 2 ^ 32) : toInt n < 0 := by
  rw [toInt, BitVec.toInt_ofInt, Int.bmod_def]
  split <;> omega

/-- The conversion to `short`. -/
def toShort (n : ℤ) : ℤ := (BitVec.ofInt 16 n).toInt

/-- The difference of two numbers of the type `size_t`. -/
def sizeSub (a b : ℕ) : ℕ := (a + (2 ^ 64 - b)) % 2 ^ 64

theorem sizeSub_eq {a b : ℕ} (h : b ≤ a) (ha : a < 2 ^ 64) : sizeSub a b = a - b := by
  have hsum : a + (2 ^ 64 - b) = a - b + 2 ^ 64 := by omega
  rw [sizeSub, hsum, Nat.add_mod_right, Nat.mod_eq_of_lt (by omega)]

abbrev Mem := ℕ → Byte

namespace Mem

/-- The word at the address `p`. -/
def word (m : Mem) (p : ℕ) : ℕ :=
  (m p).toNat + 2 ^ 8 * (m (p + 1)).toNat + 2 ^ 16 * (m (p + 2)).toNat + 2 ^ 24 * (m (p + 3)).toNat

/-- A write of the low 32 bits of `v`. -/
def putWord (m : Mem) (p v : ℕ) : Mem :=
  fun a => if p ≤ a ∧ a < p + 4 then UInt8.ofNat (v / 2 ^ (8 * (a - p))) else m a

/-- The bytes from `src` on are copied to `dst`. -/
def copy (m : Mem) (dst src n : ℕ) : Mem :=
  fun a => if dst ≤ a ∧ a < dst + n then m (src + (a - dst)) else m a

/-- Two memories that differ between `lo` and `hi` only. -/
def AgreeOff (lo hi : ℕ) (m m' : Mem) : Prop := ∀ a, a < lo ∨ hi ≤ a → m' a = m a

variable {m m' m'' : Mem} {a p q v lo hi lo' hi' n : ℕ}

theorem word_lt (m : Mem) (p : ℕ) : m.word p < 2 ^ 32 := by
  have h0 := (m p).toNat_lt
  have h1 := (m (p + 1)).toNat_lt
  have h2 := (m (p + 2)).toNat_lt
  have h3 := (m (p + 3)).toNat_lt
  rw [word]
  omega

theorem word_congr (h : ∀ i < 4, m' (p + i) = m (p + i)) : m'.word p = m.word p := by
  have h0 := h 0 (by omega)
  have h1 := h 1 (by omega)
  have h2 := h 2 (by omega)
  have h3 := h 3 (by omega)
  simp only [Nat.add_zero] at h0
  rw [word, word, h0, h1, h2, h3]

theorem putWord_outside (h : a < p ∨ p + 4 ≤ a) : m.putWord p v a = m a :=
  if_neg (by omega)

theorem word_putWord (m : Mem) (p v : ℕ) : (m.putWord p v).word p = v % 2 ^ 32 := by
  have hbyte : ∀ i < 4, (m.putWord p v (p + i)).toNat = v / 2 ^ (8 * i) % 2 ^ 8 := by
    intro i hi
    rw [putWord, if_pos (by omega), UInt8.toNat_ofNat', Nat.add_sub_cancel_left]
  have h0 := hbyte 0 (by omega)
  have h1 := hbyte 1 (by omega)
  have h2 := hbyte 2 (by omega)
  have h3 := hbyte 3 (by omega)
  simp only [Nat.add_zero] at h0
  rw [word, h0, h1, h2, h3]
  omega

theorem word_putWord_of_lt (hv : v < 2 ^ 32) : (m.putWord p v).word p = v := by
  rw [word_putWord, Nat.mod_eq_of_lt hv]

theorem word_putWord_ne (h : q + 4 ≤ p ∨ p + 4 ≤ q) : (m.putWord p v).word q = m.word q :=
  word_congr fun i hi => putWord_outside (by omega)

theorem putWord_comm {w : ℕ} (h : q + 4 ≤ p ∨ p + 4 ≤ q) :
    (m.putWord p v).putWord q w = (m.putWord q w).putWord p v := by
  funext a
  by_cases hp : p ≤ a ∧ a < p + 4
  · rw [putWord_outside (p := q) (by omega), putWord, putWord, if_pos hp, if_pos hp]
  · rw [putWord_outside (m := m.putWord q w) (by omega), putWord, putWord]
    exact if_congr Iff.rfl rfl (putWord_outside (by omega))

namespace AgreeOff

theorem refl (lo hi : ℕ) (m : Mem) : AgreeOff lo hi m m := fun _ _ => rfl

theorem trans (h : AgreeOff lo hi m m') (h' : AgreeOff lo hi m' m'') : AgreeOff lo hi m m'' :=
  fun a ha => (h' a ha).trans (h a ha)

theorem mono (h : AgreeOff lo hi m m') (hlo : lo' ≤ lo) (hhi : hi ≤ hi') :
    AgreeOff lo' hi' m m' :=
  fun a ha => h a (by omega)

theorem putWord (hlo : lo ≤ p) (hhi : p + 4 ≤ hi) : AgreeOff lo hi m (m.putWord p v) :=
  fun _ ha => putWord_outside (by omega)

theorem copy (m : Mem) (dst src n : ℕ) : AgreeOff dst (dst + n) m (m.copy dst src n) :=
  fun _ ha => if_neg (by omega)

theorem word (h : AgreeOff lo hi m m') (hp : p + 4 ≤ lo ∨ hi ≤ p) : m'.word p = m.word p :=
  word_congr fun i hi => h (p + i) (by omega)

end AgreeOff

end Mem

end Somenote
