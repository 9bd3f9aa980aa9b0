import Mathlib.Data.List.Basic
import Mathlib.Data.List.Infix

/-! # Searching in a text

The first place where a pattern stands in a text, and the first and the last place of an element.
-/

namespace Somenote.Search

variable {α : Type} [DecidableEq α]

/-- The first place where the pattern stands in the text. -/
def search (pat : List α) : List α → Option ℕ
  | [] => if pat = [] then some 0 else none
  | c :: s => if pat <+: c :: s then some 0 else (search pat s).map (· + 1)

/-- Some place of the text where the pattern stands, and it does not stand in front of it. -/
structure First (pat s : List α) (i : ℕ) : Prop where
  stands : pat <+: s.drop i
  first : ∀ j < i, ¬ pat <+: s.drop j

theorem search_eq_some {pat s : List α} {i : ℕ} (h : search pat s = some i) : First pat s i := by
  induction s generalizing i with
  | nil =>
    rw [search] at h
    split at h
    · next hp =>
      obtain rfl := Option.some.inj h
      exact ⟨by simp [hp], fun j hj => absurd hj (Nat.not_lt_zero j)⟩
    · cases h
  | cons c s ih =>
    rw [search] at h
    split at h
    · next hp =>
      obtain rfl := Option.some.inj h
      exact ⟨hp, fun j hj => absurd hj (Nat.not_lt_zero j)⟩
    · next hp =>
      obtain ⟨i, hi, rfl⟩ := Option.map_eq_some_iff.mp h
      obtain ⟨hstands, hfirst⟩ := ih hi
      refine ⟨hstands, fun j hj => ?_⟩
      cases j with
      | zero => exact hp
      | succ j => exact hfirst j (by omega)

theorem search_eq_none {pat s : List α} (h : search pat s = none) (i : ℕ) :
    ¬ pat <+: s.drop i := by
  induction s generalizing i with
  | nil =>
    rw [search] at h
    split at h
    · cases h
    · next hp => simpa using hp
  | cons c s ih =>
    rw [search] at h
    split at h
    · cases h
    · next hp =>
      cases i with
      | zero => exact hp
      | succ i => exact ih (Option.map_eq_none_iff.mp h) i

omit [DecidableEq α] in
theorem infix_iff_drop {pat s : List α} : pat <:+: s ↔ ∃ i, pat <+: s.drop i := by
  constructor
  · rintro ⟨x, y, rfl⟩
    exact ⟨x.length, y, by simp⟩
  · rintro ⟨i, h⟩
    exact h.isInfix.trans (List.drop_suffix i s).isInfix

theorem search_isSome {pat s : List α} : (search pat s).isSome ↔ pat <:+: s := by
  rw [infix_iff_drop]
  constructor
  · intro h
    obtain ⟨i, hi⟩ := Option.isSome_iff_exists.mp h
    exact ⟨i, (search_eq_some hi).stands⟩
  · rintro ⟨i, hi⟩
    cases hs : search pat s with
    | none => exact absurd hi (search_eq_none hs i)
    | some j => rfl

section Last

/-- The last place of an element. -/
def lastIdxOf (a : α) : List α → Option ℕ
  | [] => none
  | b :: s =>
    match lastIdxOf a s with
    | some i => some (i + 1)
    | none => if b = a then some 0 else none

variable {a : α} {s x z : List α} {i : ℕ}

theorem lastIdxOf_eq_none : lastIdxOf a s = none ↔ a ∉ s := by
  induction s with
  | nil => simp [lastIdxOf]
  | cons b s ih =>
    rw [lastIdxOf, List.mem_cons, not_or, ← ih]
    cases lastIdxOf a s <;> simp [eq_comm]

theorem lastIdxOf_append_cons (h : a ∉ z) : lastIdxOf a (x ++ a :: z) = some x.length := by
  induction x with
  | nil => simp [lastIdxOf, lastIdxOf_eq_none.mpr h]
  | cons b x ih => simp [lastIdxOf, ih]

theorem lastIdxOf_concat (s : List α) (b : α) :
    lastIdxOf a (s ++ [b]) = if b = a then some s.length else lastIdxOf a s := by
  induction s with
  | nil => rfl
  | cons c s ih =>
    rw [List.cons_append, lastIdxOf, ih]
    by_cases hb : b = a <;> simp [hb, lastIdxOf]

theorem lastIdxOf_eq_some (h : lastIdxOf a s = some i) :
    ∃ x z, s = x ++ a :: z ∧ a ∉ z ∧ x.length = i := by
  induction s generalizing i with
  | nil => cases h
  | cons b s ih =>
    rw [lastIdxOf] at h
    cases hs : lastIdxOf a s with
    | some j =>
      rw [hs] at h
      obtain rfl := Option.some.inj h
      obtain ⟨x, z, rfl, hz, rfl⟩ := ih hs
      exact ⟨b :: x, z, rfl, hz, rfl⟩
    | none =>
      rw [hs] at h
      dsimp only at h
      split at h
      · next hb =>
        obtain rfl := Option.some.inj h
        exact ⟨[], s, by rw [hb]; rfl, lastIdxOf_eq_none.mp hs, rfl⟩
      · cases h

end Last

end Somenote.Search
