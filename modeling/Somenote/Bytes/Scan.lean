import Mathlib.Data.List.Basic
import Somenote.Bytes.Decimal

/-! # Reading words and numbers

The strings that arrays of bytes hold, and what the conversions `%s` and `%d` take from a string.
-/

namespace Somenote.Scan

open Decimal

/-- The string that an array holds, up to its first NUL. -/
def cstr (s : List Byte) : List Byte := s.takeWhile (· ≠ 0)

theorem cstr_eq {s : List Byte} (h : 0 ∉ s) : cstr s = s :=
  List.takeWhile_eq_self_iff.mpr fun _ hc => decide_eq_true fun he => h (he ▸ hc)

theorem not_mem_cstr (s : List Byte) : 0 ∉ cstr s := fun h => by
  simpa using List.mem_takeWhile_imp h

theorem cstr_cons {c : Byte} (hc : c ≠ 0) (s : List Byte) : cstr (c :: s) = c :: cstr s := by
  simp [cstr, hc]

theorem cstr_append_nul (s t : List Byte) : cstr (s ++ 0 :: t) = cstr s := by
  induction s with
  | nil => simp [cstr]
  | cons c s ih =>
    by_cases hc : c = 0
    · simp [cstr, hc]
    · rw [List.cons_append, cstr_cons hc, cstr_cons hc, ih]

theorem cstr_cut {s : List Byte} (h : 0 ∈ s) : ∃ t, s = cstr s ++ 0 :: t := by
  induction s with
  | nil => cases h
  | cons c s ih =>
    by_cases hc : c = 0
    · subst hc
      exact ⟨s, by simp [cstr]⟩
    · obtain ⟨t, ht⟩ := ih ((List.mem_cons.mp h).resolve_left (Ne.symm hc))
      exact ⟨t, by rw [cstr_cons hc, List.cons_append, ← ht]⟩

/-- The first word of a string, and what follows it. -/
def word (s : List Byte) : Option (List Byte × List Byte) :=
  let s := s.dropWhile isSpace
  if s = [] then none else some (s.takeWhile (!isSpace ·), s.dropWhile (!isSpace ·))

theorem word_length {t w r : List Byte} (h : word t = some (w, r)) :
    w.length + r.length ≤ t.length := by
  rw [word] at h
  split at h
  · cases h
  · obtain ⟨rfl, rfl⟩ := Prod.mk.inj (Option.some.inj h)
    have hdrop := (List.dropWhile_suffix isSpace (l := t)).length_le
    rw [← List.length_append, List.takeWhile_append_dropWhile]
    exact hdrop

theorem word_eq_some {t w r : List Byte} (h : word t = some (w, r)) :
    w ≠ [] ∧ ∀ c ∈ w, isSpace c = false := by
  rw [word] at h
  split at h
  · cases h
  · next hne =>
    obtain ⟨rfl, -⟩ := Prod.mk.inj (Option.some.inj h)
    refine ⟨fun hnil => ?_, fun c hc => by simpa using List.mem_takeWhile_imp hc⟩
    obtain ⟨d, u, hu⟩ := List.exists_cons_of_ne_nil hne
    have hd : isSpace d = false := by simpa [hu] using List.head_dropWhile_not isSpace hne
    rw [hu, List.takeWhile_cons_of_pos (by simp [hd])] at hnil
    cases hnil

theorem word_eq_none {t : List Byte} : word t = none ↔ ∀ c ∈ t, isSpace c = true := by
  rw [word]
  split
  · next h => simpa using List.dropWhile_eq_nil_iff.mp h
  · next h => simpa using mt List.dropWhile_eq_nil_iff.mpr h

theorem word_blank {c : Byte} (hc : isSpace c = true) (t : List Byte) : word (c :: t) = word t := by
  rw [word, word, List.dropWhile_cons_of_pos hc]

theorem word_front {w : List Byte} {c : Byte} (hne : w ≠ []) (hw : ∀ d ∈ w, isSpace d = false)
    (hc : isSpace c = true) (t : List Byte) : word (w ++ c :: t) = some (w, c :: t) := by
  obtain ⟨d, w', rfl⟩ := List.exists_cons_of_ne_nil hne
  have hstart : (d :: w' ++ c :: t).dropWhile isSpace = d :: w' ++ c :: t := by
    rw [List.cons_append, List.dropWhile_cons_of_neg]
    simp [hw d List.mem_cons_self]
  have hall : ∀ e ∈ d :: w', (!isSpace e) = true := fun e he => by simp [hw e he]
  rw [word, hstart, if_neg (by simp), List.takeWhile_append_of_pos hall,
    List.dropWhile_append_of_pos hall, List.takeWhile_cons_of_neg (by simp [hc]),
    List.dropWhile_cons_of_neg (by simp [hc]), List.append_nil]

/-- The text of `%d`. -/
def decInt (n : ℤ) : List Byte := if n < 0 then 45 :: dec n.natAbs else dec n.natAbs

/-- The number that starts with a digit. -/
def scanDigits : List Byte → Option ℕ
  | [] => none
  | c :: s => if isDigit c then some (digitsVal (c :: s)) else none

/-- What `%d` reads from a string, exact: a number too large for `int` is undefined behaviour. -/
def scanInt (s : List Byte) : Option ℤ :=
  match s.dropWhile isSpace with
  | 45 :: t => (scanDigits t).map fun n : ℕ => -(n : ℤ)
  | 43 :: t => (scanDigits t).map fun n : ℕ => (n : ℤ)
  | t => (scanDigits t).map fun n : ℕ => (n : ℤ)

theorem scanDigits_dec_append {n : ℕ} {c : Byte} (hc : isDigit c = false) (t : List Byte) :
    scanDigits (dec n ++ c :: t) = some n := by
  obtain ⟨d, l, hd⟩ := List.exists_cons_of_ne_nil (dec_ne_nil n)
  have hdigit : isDigit d = true := isDigit_of_mem_dec (n := n) (by simp [hd])
  have hval := digitsVal_dec_append (n := n) hc t
  rw [hd, List.cons_append] at hval ⊢
  rw [scanDigits, if_pos hdigit, hval]

theorem mem_decInt {n : ℤ} {c : Byte} (h : c ∈ decInt n) : c = 45 ∨ isDigit c = true := by
  rw [decInt] at h
  split at h
  · rcases List.mem_cons.mp h with rfl | h
    · exact Or.inl rfl
    · exact Or.inr (isDigit_of_mem_dec h)
  · exact Or.inr (isDigit_of_mem_dec h)

/-- The number at the front of a text is read back. -/
theorem scanInt_decInt_append (n : ℤ) {c : Byte} (hc : isDigit c = false) (t : List Byte) :
    scanInt (decInt n ++ c :: t) = some n := by
  rw [decInt]
  split
  · next hn =>
    have hstart : (45 :: dec n.natAbs ++ c :: t).dropWhile isSpace =
        45 :: (dec n.natAbs ++ c :: t) := rfl
    have hscan : scanInt (45 :: dec n.natAbs ++ c :: t) =
        (scanDigits (dec n.natAbs ++ c :: t)).map fun n : ℕ => -(n : ℤ) := by
      rw [scanInt, hstart]
      rfl
    have habs : -(n.natAbs : ℤ) = n := by omega
    rw [hscan, scanDigits_dec_append hc]
    exact congrArg some habs
  · next hn =>
    obtain ⟨d, l, hd⟩ := List.exists_cons_of_ne_nil (dec_ne_nil n.natAbs)
    have hdigit : isDigit d = true := isDigit_of_mem_dec (n := n.natAbs) (by simp [hd])
    have hstart : (dec n.natAbs ++ c :: t).dropWhile isSpace = dec n.natAbs ++ c :: t := by
      rw [hd, List.cons_append,
        List.dropWhile_cons_of_neg (by simp [not_isSpace_of_isDigit hdigit])]
    have hscan := scanDigits_dec_append (n := n.natAbs) hc t
    rw [scanInt, hstart]
    split
    · next hs =>
      rw [hd] at hs
      obtain ⟨rfl, -⟩ := List.cons.inj hs
      cases hdigit
    · next hs =>
      rw [hd] at hs
      obtain ⟨rfl, -⟩ := List.cons.inj hs
      cases hdigit
    · have habs : (n.natAbs : ℤ) = n := by omega
      rw [hscan]
      exact congrArg some habs

end Somenote.Scan
