import Mathlib.Algebra.BigOperators.Group.Finset.Basic
import Mathlib.Algebra.Order.BigOperators.Group.Finset

/-! # Counting processes

Each of finitely many processes is at a place, and each place has a weight. The weights of all
places together change with one process at a time.
-/

namespace Somenote

variable {Pid A : Type} [Fintype Pid] {w : A → ℕ} {f : Pid → A} {p q : Pid}

/-- The weight of the places of all processes. -/
def tally (w : A → ℕ) (f : Pid → A) : ℕ := ∑ p, w (f p)

theorem tally_eq_zero (h : ∀ p, w (f p) = 0) : tally w f = 0 :=
  Finset.sum_eq_zero fun p _ => h p

theorem le_tally (w : A → ℕ) (f : Pid → A) (p : Pid) : w (f p) ≤ tally w f :=
  Finset.single_le_sum_of_canonicallyOrdered (f := fun p => w (f p)) (Finset.mem_univ p)

theorem exists_of_tally_pos (h : 0 < tally w f) : ∃ p, 0 < w (f p) := by
  by_contra hno
  rw [tally_eq_zero fun p => ?_] at h
  · exact absurd h (lt_irrefl 0)
  · by_contra hp
    exact hno ⟨p, Nat.pos_of_ne_zero hp⟩

variable [DecidableEq Pid]

theorem tally_update (w : A → ℕ) (f : Pid → A) (p : Pid) (a : A) :
    tally w (Function.update f p a) + w (f p) = tally w f + w a := by
  have hrest : ∑ q ∈ Finset.univ.erase p, w (Function.update f p a q) =
      ∑ q ∈ Finset.univ.erase p, w (f q) := by
    apply Finset.sum_congr rfl
    intro q hq
    rw [Function.update_of_ne (Finset.ne_of_mem_erase hq)]
  rw [tally, tally, ← Finset.add_sum_erase _ _ (Finset.mem_univ p),
    ← Finset.add_sum_erase _ (fun q => w (f q)) (Finset.mem_univ p), hrest, Function.update_self]
  omega

theorem add_le_tally (hpq : p ≠ q) : w (f p) + w (f q) ≤ tally w f := by
  rw [tally, ← Finset.add_sum_erase _ (fun q => w (f q)) (Finset.mem_univ p)]
  apply Nat.add_le_add_left
  exact Finset.single_le_sum_of_canonicallyOrdered (f := fun q => w (f q))
    (Finset.mem_erase.mpr ⟨hpq.symm, Finset.mem_univ q⟩)

end Somenote
