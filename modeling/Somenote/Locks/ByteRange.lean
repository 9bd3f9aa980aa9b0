import Mathlib.Data.Nat.Notation
import Mathlib.Logic.Function.Basic

/-! # Record locks on byte ranges

The advisory locks of `fcntl`. A process holds for each byte of each file a read lock,
a write lock or none; setting a lock on a range replaces what the process held there.
A lock is granted when no other process holds a conflicting lock on a byte of the range.
-/

namespace Somenote

inductive LockType | rd | wr
  deriving DecidableEq, Repr

/-- Two locks of different processes on one byte exclude each other. -/
def LockType.Conflicts (s t : LockType) : Prop := s = .wr ∨ t = .wr

/-- The bytes `[off, off + len)`, or all bytes from `off` on when `len` is zero. -/
def inRange (off len b : ℕ) : Prop := off ≤ b ∧ (len = 0 ∨ b < off + len)

instance (off len b : ℕ) : Decidable (inRange off len b) :=
  inferInstanceAs (Decidable (_ ∧ _))

/-- What each process holds on each byte of each file. -/
abbrev LockTable (Pid File : Type) := Pid → File → ℕ → Option LockType

namespace LockTable

variable {Pid File : Type} [DecidableEq Pid] [DecidableEq File]
  {T : LockTable Pid File} {p q : Pid} {f g : File} {t u : LockType} {off len b : ℕ}

/-- The locks of `p` on a range become `v`. -/
def assign (T : LockTable Pid File) (p : Pid) (f : File) (off len : ℕ) (v : Option LockType) :
    LockTable Pid File :=
  fun q g b => if q = p ∧ g = f ∧ inRange off len b then v else T q g b

/-- The process gives up all its locks. -/
def release (T : LockTable Pid File) (p : Pid) : LockTable Pid File :=
  fun q g b => if q = p then none else T q g b

/-- No other process holds a conflicting lock on the range. -/
def Grantable (T : LockTable Pid File) (p : Pid) (f : File) (t : LockType) (off len : ℕ) : Prop :=
  ∀ q, q ≠ p → ∀ b, inRange off len b → ∀ u, T q f b = some u → ¬ t.Conflicts u

/-- A byte that one process holds for writing no other process holds. -/
def Consistent (T : LockTable Pid File) : Prop :=
  ∀ p q, p ≠ q → ∀ f b, T p f b = some .wr → T q f b = none

theorem assign_other (hq : q ≠ p) (v : Option LockType) :
    T.assign p f off len v q = T q := by
  funext g b
  simp [assign, hq]

theorem assign_in (hb : inRange off len b) (v : Option LockType) :
    T.assign p f off len v p f b = v := by
  simp [assign, hb]

theorem assign_out (h : g = f → ¬ inRange off len b) (v : Option LockType) :
    T.assign p f off len v q g b = T q g b := by
  simp only [assign, ite_eq_right_iff]
  exact fun ⟨_, hg, hb⟩ => absurd hb (h hg)

theorem Consistent.assign (h : T.Consistent) (hg : T.Grantable p f t off len) :
    (T.assign p f off len (some t)).Consistent := by
  intro p₁ p₂ hne g b hw
  by_cases h₁ : p₁ = p ∧ g = f ∧ inRange off len b
  · obtain ⟨rfl, rfl, hb⟩ := h₁
    rw [assign_in hb] at hw
    rw [assign_other hne.symm]
    cases hu : T p₂ g b with
    | none => rfl
    | some u => exact absurd (Or.inl (Option.some.inj hw)) (hg p₂ hne.symm b hb u hu)
  · have hw' : T p₁ g b = some .wr := by
      simpa only [LockTable.assign, if_neg h₁] using hw
    by_cases h₂ : p₂ = p ∧ g = f ∧ inRange off len b
    · obtain ⟨rfl, rfl, hb⟩ := h₂
      exact absurd (Or.inr rfl) (hg p₁ hne b hb .wr hw')
    · simpa only [LockTable.assign, if_neg h₂] using h p₁ p₂ hne g b hw'

theorem Consistent.clear (h : T.Consistent) : (T.assign p f off len none).Consistent := by
  intro p₁ p₂ hne g b hw
  simp only [LockTable.assign] at hw ⊢
  split at hw
  · simp at hw
  · split
    · rfl
    · exact h p₁ p₂ hne g b hw

omit [DecidableEq File] in
theorem Consistent.release (h : T.Consistent) : (T.release p).Consistent := by
  intro p₁ p₂ hne g b hw
  simp only [LockTable.release] at hw ⊢
  split at hw
  · simp at hw
  · split
    · rfl
    · exact h p₁ p₂ hne g b hw

end LockTable

end Somenote
