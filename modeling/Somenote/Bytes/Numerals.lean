import Somenote.Bytes.Decimal

/-! # Numerals

The text of a number in a base, and the value of a text whose digits a function reads one after the
other.
-/

namespace Somenote.Numerals

/-- The digits of `n` in the base `b`, as `printf` writes them. -/
def numeral (b n : ℕ) : List Byte := (Nat.toDigits b n).map Char.toUInt8

/-- The value of the digits of `s` behind a text with the value `v`, where `f` reads a digit. -/
def value (b : ℕ) (f : Byte → Option ℕ) (v : ℕ) (s : List Byte) : ℕ :=
  s.foldl (fun v c => v * b + (f c).getD 0) v

/-- `f` reads the digits of the base `b`. -/
def Reads (b : ℕ) (f : Byte → Option ℕ) : Prop := ∀ d < b, f (Nat.digitChar d).toUInt8 = some d

instance (b : ℕ) (f : Byte → Option ℕ) : Decidable (Reads b f) :=
  inferInstanceAs (Decidable (∀ d < b, _))

variable {b v n k : ℕ} {f : Byte → Option ℕ} {c : Byte} {s t : List Byte}

@[simp] theorem value_nil : value b f v [] = v := rfl

@[simp] theorem value_cons : value b f v (c :: s) = value b f (v * b + (f c).getD 0) s := rfl

theorem value_append : value b f v (s ++ t) = value b f (value b f v s) t := List.foldl_append

theorem le_value (hb : 0 < b) : v ≤ value b f v s := by
  induction s generalizing v with
  | nil => exact le_rfl
  | cons c s ih =>
    have hmul : v ≤ v * b := Nat.le_mul_of_pos_right v hb
    exact (hmul.trans (Nat.le_add_right ..)).trans ih

theorem exists_digits (f : Byte → Option ℕ) (s : List Byte) : ∃ p rest, s = p ++ rest ∧
    (∀ c ∈ p, (f c).isSome) ∧ ∀ c t, rest = c :: t → f c = none := by
  refine ⟨s.takeWhile fun c => (f c).isSome, s.dropWhile fun c => (f c).isSome, ?_, ?_, ?_⟩
  · exact (List.takeWhile_append_dropWhile ..).symm
  · intro c hc
    exact List.mem_takeWhile_imp (p := fun c => (f c).isSome) hc
  · intro c t hc
    have hhead := List.head_dropWhile_not (fun c => (f c).isSome) (l := s) (by simp [hc])
    simpa [hc] using hhead

theorem intercalate_cons {sep p : List Byte} {ps : List (List Byte)} (h : ps ≠ []) :
    sep.intercalate (p :: ps) = p ++ sep ++ sep.intercalate ps := by
  obtain ⟨p', ps, rfl⟩ := List.exists_cons_of_ne_nil h
  simp [List.intercalate, List.intersperse]

theorem mem_intercalate {sep : List Byte} {ps : List (List Byte)} (h : c ∈ sep.intercalate ps) :
    c ∈ sep ∨ ∃ p ∈ ps, c ∈ p := by
  induction ps with
  | nil => simp [List.intercalate] at h
  | cons p ps ih =>
    by_cases hps : ps = []
    · subst hps
      exact Or.inr ⟨p, List.mem_cons_self, by simpa [List.intercalate] using h⟩
    · simp only [intercalate_cons hps, List.mem_append] at h
      rcases h with (h | h) | h
      · exact Or.inr ⟨p, List.mem_cons_self, h⟩
      · exact Or.inl h
      · exact (ih h).imp_right fun ⟨p', hp', hc⟩ => ⟨p', List.mem_cons_of_mem _ hp', hc⟩

theorem numeral_ne_nil : numeral b n ≠ [] := by simp [numeral]

theorem length_numeral_le (hb : 1 < b) (hk : 0 < k) (h : n < b ^ k) : (numeral b n).length ≤ k := by
  simpa [numeral] using (Nat.length_toDigits_le_iff hb hk).mpr h

namespace Reads

theorem value_numeral (h : Reads b f) (hb : 1 < b) (n : ℕ) : value b f 0 (numeral b n) = n := by
  induction n using Nat.strong_induction_on with
  | _ n ih =>
    by_cases hn : n < b
    · simp [numeral, Nat.toDigits_of_lt_base hn, h n hn]
    · have hlt : n / b < n := Nat.div_lt_self (by omega) hb
      have hmod : n % b < b := Nat.mod_lt _ (by omega)
      have hrest := ih _ hlt
      simp only [numeral] at hrest
      simp only [numeral, Nat.toDigits_of_base_le hb (Nat.le_of_not_lt hn), List.map_append,
        value_append, hrest, List.map_cons, List.map_nil, value_cons, value_nil, h _ hmod,
        Option.getD_some]
      exact Nat.div_add_mod' n b

theorem isSome_of_mem (h : Reads b f) (hb : 1 < b) (hc : c ∈ numeral b n) : (f c).isSome := by
  induction n using Nat.strong_induction_on with
  | _ n ih =>
    by_cases hn : n < b
    · simp only [numeral, Nat.toDigits_of_lt_base hn, List.map_cons, List.map_nil,
        List.mem_singleton] at hc
      simp [hc, h n hn]
    · have hlt : n / b < n := Nat.div_lt_self (by omega) hb
      have hmod : n % b < b := Nat.mod_lt _ (by omega)
      simp only [numeral, Nat.toDigits_of_base_le hb (Nat.le_of_not_lt hn), List.map_append,
        List.mem_append, List.map_cons, List.map_nil, List.mem_singleton] at hc
      rcases hc with hc | rfl
      · exact ih _ hlt hc
      · simp [h _ hmod]

end Reads

end Somenote.Numerals
