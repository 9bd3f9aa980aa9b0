import Mathlib.Algebra.Group.Nat.Defs
import Mathlib.Data.List.TakeWhile

/-! # Decimal numbers as text

The bytes that `printf` writes for a natural number, padded on the left to a field
width, and the number that `atol` reads back from text.
-/

namespace Somenote

/-- A C `char` as stored in a file. -/
abbrev Byte := UInt8

namespace Decimal

/-- The text of `%d` and `%lld` for a number that is not negative. -/
def dec (n : ℕ) : List Byte := (Nat.toDigits 10 n).map Char.toUInt8

/-- The text of `%*d` with field width `w`. -/
def field (w n : ℕ) : List Byte := List.replicate (w - (dec n).length) 32 ++ dec n

def isDigit (c : Byte) : Bool := 48 ≤ c && c ≤ 57

/-- The bytes `isspace` accepts. -/
def isSpace (c : Byte) : Bool := c = 32 || (9 ≤ c && c ≤ 13)

/-- The number spelled by the digits at the front of the text, zero if there are none. -/
def digitsVal (s : List Byte) : ℕ :=
  (s.takeWhile isDigit).foldl (fun v c => 10 * v + (c.toNat - 48)) 0

/-- `atol`, exact: a number too large for `long` is undefined behaviour in C. -/
def atol (s : List Byte) : ℤ :=
  match s.dropWhile isSpace with
  | 45 :: t => -(digitsVal t : ℤ)
  | 43 :: t => digitsVal t
  | t => digitsVal t

theorem toNat_toUInt8 {c : Char} (h : c.isDigit = true) : c.toUInt8.toNat = c.toNat := by
  simp only [Char.isDigit, ge_iff_le, Bool.and_eq_true, decide_eq_true_eq, UInt32.le_iff_toNat_le]
    at h
  have h9 : c.val.toNat ≤ 57 := h.2
  simp only [Char.toUInt8, UInt32.toNat_toUInt8, Char.toNat]
  omega

theorem isDigit_toUInt8 {c : Char} (h : c.isDigit = true) : isDigit c.toUInt8 = true := by
  have hn := toNat_toUInt8 h
  simp only [Char.isDigit, ge_iff_le, Bool.and_eq_true, decide_eq_true_eq, UInt32.le_iff_toNat_le]
    at h
  have h0 : 48 ≤ c.val.toNat := h.1
  have h9 : c.val.toNat ≤ 57 := h.2
  simp only [isDigit, Bool.and_eq_true, decide_eq_true_eq, UInt8.le_iff_toNat_le, hn]
  exact ⟨h0, h9⟩

theorem isDigit_of_mem_dec {n : ℕ} {c : Byte} (h : c ∈ dec n) : isDigit c = true := by
  obtain ⟨d, hd, rfl⟩ := List.mem_map.mp h
  exact isDigit_toUInt8 (Nat.isDigit_of_mem_toDigits (by decide) (by decide) hd)

theorem not_mem_dec {n : ℕ} {c : Byte} (h : isDigit c = false) : c ∉ dec n :=
  fun hm => by simp [isDigit_of_mem_dec hm] at h

theorem dec_ne_nil (n : ℕ) : dec n ≠ [] := by
  simp [dec, Nat.toDigits_ne_nil]

theorem length_dec_le {n k : ℕ} (hk : 0 < k) (h : n < 10 ^ k) : (dec n).length ≤ k := by
  simpa [dec] using (Nat.length_toDigits_le_iff (by decide) hk).mpr h

theorem length_field {w n : ℕ} (hw : 0 < w) (h : n < 10 ^ w) : (field w n).length = w := by
  have hl := length_dec_le hw h
  simp only [field, List.length_append, List.length_replicate]
  omega

theorem digitsVal_dec (n : ℕ) : digitsVal (dec n) = n := by
  have ht : (dec n).takeWhile isDigit = dec n :=
    List.takeWhile_eq_self_iff.mpr fun c hc => isDigit_of_mem_dec hc
  have hf : ∀ (l : List Char) (v : ℕ), (∀ c ∈ l, c.isDigit = true) →
      (l.map Char.toUInt8).foldl (fun v c => 10 * v + (c.toNat - 48)) v =
        Nat.ofDigitChars 10 l v := by
    intro l
    induction l with
    | nil => simp
    | cons c l ih =>
      intro v hl
      have hc := hl c List.mem_cons_self
      rw [Nat.ofDigitChars_cons, ← ih _ fun d hd => hl d (List.mem_cons_of_mem _ hd)]
      simp [toNat_toUInt8 hc]
  rw [digitsVal, ht, dec, hf _ _ fun c hc => Nat.isDigit_of_mem_toDigits (by decide) (by decide) hc,
    Nat.ofDigitChars_ten_toDigits]

theorem digitsVal_dec_append {n : ℕ} {c : Byte} (hc : isDigit c = false) (t : List Byte) :
    digitsVal (dec n ++ c :: t) = n := by
  have ht : (dec n ++ c :: t).takeWhile isDigit = (dec n).takeWhile isDigit := by
    rw [List.takeWhile_append_of_pos fun d hd => isDigit_of_mem_dec hd,
      List.takeWhile_cons_of_neg (by simp [hc]), List.append_nil,
      List.takeWhile_eq_self_iff.mpr fun d hd => isDigit_of_mem_dec hd]
  rw [digitsVal, ht]
  exact digitsVal_dec n

theorem not_isSpace_of_isDigit {c : Byte} (h : isDigit c = true) : isSpace c = false := by
  simp only [isDigit, Bool.and_eq_true, decide_eq_true_eq, UInt8.le_iff_toNat_le] at h
  have h0 : 48 ≤ c.toNat := h.1
  simp only [isSpace, Bool.or_eq_false_iff, decide_eq_false_iff_not, Bool.and_eq_false_iff,
    UInt8.le_iff_toNat_le, ← UInt8.toNat_inj]
  change ¬ c.toNat = 32 ∧ (¬ 9 ≤ c.toNat ∨ ¬ c.toNat ≤ 13)
  omega

theorem atol_of_digit {c : Byte} {t : List Byte} (h : isDigit c = true) :
    atol (c :: t) = digitsVal (c :: t) := by
  have hs := not_isSpace_of_isDigit h
  have hd : (c :: t).dropWhile isSpace = c :: t := by simp [hs]
  rw [atol, hd]
  split
  · simp_all [isDigit]
  · simp_all [isDigit]
  · rfl

theorem atol_dec (n : ℕ) : atol (dec n) = n := by
  obtain ⟨c, t, hc⟩ := List.exists_cons_of_ne_nil (dec_ne_nil n)
  rw [hc, atol_of_digit (isDigit_of_mem_dec (n := n) (by simp [hc])), ← hc, digitsVal_dec]

/-- `atol` reads back what `%*d` wrote. -/
theorem atol_field (w n : ℕ) : atol (field w n) = n := by
  have hd : (field w n).dropWhile isSpace = (dec n).dropWhile isSpace := by
    rw [field, List.dropWhile_append_of_pos]
    simp [isSpace]
  rw [atol, hd]
  exact atol_dec n

end Decimal

end Somenote
