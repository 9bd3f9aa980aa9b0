import Mathlib.Data.Fintype.Pigeonhole
import Mathlib.Data.Set.Finite.Basic
import Mathlib.Tactic.Linarith

/-! # Following a partial function

The places that a partial function leads to, one after the other. Where it is defined at finitely
many places only, it leads on for ever exactly when it comes back to a place.
-/

namespace Somenote

variable {α : Type*} (f : α → Option α)

/-- The place behind `n` steps. -/
def follow : ℕ → α → Option α
  | 0, a => some a
  | n + 1, a => (f a).bind (follow n)

/-- The steps from `a` come back to a place. -/
def ComesBack (a : α) : Prop :=
  ∃ i j b, i < j ∧ follow f i a = some b ∧ follow f j a = some b

variable {f} {a b : α} {i m n : ℕ}

theorem follow_succ : follow f (n + 1) a = (f a).bind (follow f n) := rfl

theorem follow_add : follow f (m + n) a = (follow f m a).bind (follow f n) := by
  induction m generalizing a with
  | zero => rw [Nat.zero_add, follow, Option.bind_some]
  | succ m ih =>
    rw [Nat.succ_add, follow_succ, follow_succ, Option.bind_assoc]
    congr 1
    funext b
    exact ih

theorem follow_ne_none_of_le (h : m ≤ n) (hn : follow f n a ≠ none) : follow f m a ≠ none := by
  obtain ⟨k, rfl⟩ := Nat.exists_eq_add_of_le h
  intro hm
  rw [follow_add, hm] at hn
  exact hn rfl

theorem step_of_follow (hb : follow f n a = some b) (h : follow f (n + 1) a ≠ none) :
    f b ≠ none := by
  intro hf
  rw [follow_add, hb, Option.bind_some, follow_succ, hf] at h
  exact h rfl

theorem follow_mul (hi : follow f m b = some b) (k : ℕ) : follow f (k * m) b = some b := by
  induction k with
  | zero => rw [Nat.zero_mul, follow]
  | succ k ih => rw [Nat.succ_mul, follow_add, ih, Option.bind_some, hi]

theorem endless_iff (hfin : {b | f b ≠ none}.Finite) :
    (∀ n, follow f n a ≠ none) ↔ ComesBack f a := by
  constructor
  · intro h
    have hplace : ∀ n, ∃ b, follow f n a = some b := fun n => Option.ne_none_iff_exists'.mp (h n)
    choose place hplace using hplace
    have hmem : ∀ n, place n ∈ {b | f b ≠ none} := fun n => step_of_follow (hplace n) (h (n + 1))
    have := hfin.to_subtype
    obtain ⟨i, j, hne, heq⟩ := Finite.exists_ne_map_eq_of_infinite
      fun n => (⟨place n, hmem n⟩ : {b | f b ≠ none})
    have heq : place i = place j := congrArg Subtype.val heq
    rcases Nat.lt_or_gt_of_ne hne with hlt | hlt
    · exact ⟨i, j, place i, hlt, hplace i, heq ▸ hplace j⟩
    · exact ⟨j, i, place j, hlt, hplace j, heq ▸ hplace i⟩
  · rintro ⟨i, j, b, hlt, hi, hj⟩ n
    obtain ⟨d, rfl⟩ := Nat.exists_eq_add_of_lt hlt
    have hback : follow f (d + 1) b = some b := by
      rwa [Nat.add_assoc, follow_add, hi, Option.bind_some] at hj
    have hend : follow f (i + n * (d + 1)) a ≠ none := by
      rw [follow_add, hi, Option.bind_some, follow_mul hback]
      exact Option.some_ne_none b
    exact follow_ne_none_of_le (by nlinarith) hend

end Somenote
