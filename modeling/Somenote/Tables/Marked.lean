import Mathlib.Data.Finset.Basic
import Mathlib.Data.Nat.Count

/-! # Marked entries

The entries of a table that carry a mark, with their number and the set of their keys, when one
entry of the table changes.
-/

namespace Somenote

variable {α κ : Type} {n i : ℕ} {p : α → Prop} [DecidablePred p] {f : ℕ → α} {a : α}

section Count

theorem count_congr {q r : ℕ → Prop} [DecidablePred q] [DecidablePred r]
    (h : ∀ j < n, q j ↔ r j) : Nat.count q n = Nat.count r n :=
  le_antisymm (Nat.count_mono_left fun j hj => (h j hj).mp)
    (Nat.count_mono_left fun j hj => (h j hj).mpr)

theorem count_update (hi : i < n) :
    Nat.count (fun j => p (Function.update f i a j)) n + (if p (f i) then 1 else 0) =
      Nat.count (fun j => p (f j)) n + (if p a then 1 else 0) := by
  induction n with
  | zero => exact absurd hi (Nat.not_lt_zero i)
  | succ n ih =>
    rw [Nat.count_succ, Nat.count_succ]
    rcases (Nat.lt_succ_iff_lt_or_eq.mp hi) with hlt | rfl
    · rw [Function.update_of_ne (Nat.ne_of_gt hlt)]
      have hrest := ih hlt
      omega
    · have hsame : Nat.count (fun j => p (Function.update f i a j)) i =
          Nat.count (fun j => p (f j)) i :=
        count_congr fun j hj => by rw [Function.update_of_ne (Nat.ne_of_lt hj)]
      rw [Function.update_self, hsame]
      omega

theorem count_mark (hi : i < n) (hold : ¬ p (f i)) (hnew : p a) :
    Nat.count (fun j => p (Function.update f i a j)) n = Nat.count (fun j => p (f j)) n + 1 := by
  have h := count_update (p := p) (f := f) (a := a) hi
  rwa [if_neg hold, if_pos hnew, Nat.add_zero] at h

theorem count_unmark (hi : i < n) (hold : p (f i)) (hnew : ¬ p a) :
    Nat.count (fun j => p (Function.update f i a j)) n + 1 = Nat.count (fun j => p (f j)) n := by
  have h := count_update (p := p) (f := f) (a := a) hi
  rwa [if_pos hold, if_neg hnew, Nat.add_zero] at h

theorem count_keep (hi : i < n) (hiff : p a ↔ p (f i)) :
    Nat.count (fun j => p (Function.update f i a j)) n = Nat.count (fun j => p (f j)) n := by
  refine count_congr fun j _ => ?_
  by_cases hj : j = i
  · subst hj
    rw [Function.update_self]
    exact hiff
  · rw [Function.update_of_ne hj]

end Count

variable [DecidableEq κ] {key : α → κ} {s : Finset κ}

/-- The set holds the keys of the marked entries, each of one entry. -/
structure Marked (n : ℕ) (p : α → Prop) (key : α → κ) (f : ℕ → α) (s : Finset κ) : Prop where
  mem : ∀ d, d ∈ s ↔ ∃ i < n, p (f i) ∧ key (f i) = d
  inj : ∀ i < n, ∀ j < n, p (f i) → p (f j) → key (f i) = key (f j) → i = j

namespace Marked

omit [DecidablePred p] [DecidableEq κ] in
theorem empty (h : ∀ i < n, ¬ p (f i)) : Marked n p key f ∅ where
  mem d := iff_of_false (Finset.notMem_empty d) fun ⟨i, hi, hp, _⟩ => h i hi hp
  inj i hi _ _ hp := absurd hp (h i hi)

omit [DecidablePred p] [DecidableEq κ] in
theorem key_mem (h : Marked n p key f s) (hi : i < n) (hp : p (f i)) : key (f i) ∈ s :=
  (h.mem _).mpr ⟨i, hi, hp, rfl⟩

omit [DecidablePred p] in
theorem insert (h : Marked n p key f s) (hi : i < n) (hold : ¬ p (f i)) (hnew : p a)
    (hkey : key a ∉ s) : Marked n p key (Function.update f i a) (insert (key a) s) where
  mem d := by
    rw [Finset.mem_insert, h.mem]
    constructor
    · rintro (rfl | ⟨j, hj, hp, hd⟩)
      · exact ⟨i, hi, by rwa [Function.update_self], by rw [Function.update_self]⟩
      · have hji : j ≠ i := by
          rintro rfl
          exact hold hp
        exact ⟨j, hj, by rwa [Function.update_of_ne hji], by rwa [Function.update_of_ne hji]⟩
    · rintro ⟨j, hj, hp, hd⟩
      by_cases hji : j = i
      · subst hji
        rw [Function.update_self] at hd
        exact Or.inl hd.symm
      · rw [Function.update_of_ne hji] at hp hd
        exact Or.inr ⟨j, hj, hp, hd⟩
  inj j hj k hk hpj hpk heq := by
    -- the new key is that of no other entry
    have hother : ∀ l < n, l ≠ i → p (Function.update f i a l) → key (f l) ≠ key a := by
      intro l hl hli hp hlk
      rw [Function.update_of_ne hli] at hp
      exact hkey (hlk ▸ h.key_mem hl hp)
    by_cases hji : j = i <;> by_cases hki : k = i
    · rw [hji, hki]
    · subst hji
      rw [Function.update_self, Function.update_of_ne hki] at heq
      exact absurd heq.symm (hother k hk hki hpk)
    · subst hki
      rw [Function.update_self, Function.update_of_ne hji] at heq
      exact absurd heq (hother j hj hji hpj)
    · rw [Function.update_of_ne hji] at hpj heq
      rw [Function.update_of_ne hki] at hpk heq
      exact h.inj j hj k hk hpj hpk heq

omit [DecidablePred p] in
theorem erase (h : Marked n p key f s) (hi : i < n) (hold : p (f i)) (hnew : ¬ p a) :
    Marked n p key (Function.update f i a) (s.erase (key (f i))) where
  mem d := by
    rw [Finset.mem_erase, h.mem]
    constructor
    · rintro ⟨hne, j, hj, hp, hd⟩
      have hji : j ≠ i := by
        rintro rfl
        exact hne hd.symm
      exact ⟨j, hj, by rwa [Function.update_of_ne hji], by rwa [Function.update_of_ne hji]⟩
    · rintro ⟨j, hj, hp, hd⟩
      have hji : j ≠ i := by
        rintro rfl
        rw [Function.update_self] at hp
        exact hnew hp
      rw [Function.update_of_ne hji] at hp hd
      refine ⟨?_, j, hj, hp, hd⟩
      rintro rfl
      exact hji (h.inj j hj i hi hp hold hd)
  inj j hj k hk hpj hpk heq := by
    have hne : ∀ l, p (Function.update f i a l) → l ≠ i := by
      rintro l hp rfl
      rw [Function.update_self] at hp
      exact hnew hp
    have hji := hne j hpj
    have hki := hne k hpk
    rw [Function.update_of_ne hji] at hpj heq
    rw [Function.update_of_ne hki] at hpk heq
    exact h.inj j hj k hk hpj hpk heq

omit [DecidablePred p] [DecidableEq κ] in
theorem keep (h : Marked n p key f s) (hiff : p a ↔ p (f i)) (hkey : p a → key a = key (f i)) :
    Marked n p key (Function.update f i a) s := by
  have hp : ∀ j, p (Function.update f i a j) ↔ p (f j) := by
    intro j
    by_cases hj : j = i
    · subst hj
      rw [Function.update_self]
      exact hiff
    · rw [Function.update_of_ne hj]
  have hk : ∀ j, p (f j) → key (Function.update f i a j) = key (f j) := by
    intro j hpj
    by_cases hj : j = i
    · subst hj
      rw [Function.update_self]
      exact hkey (hiff.mpr hpj)
    · rw [Function.update_of_ne hj]
  constructor
  · intro d
    rw [h.mem]
    refine exists_congr fun j => and_congr_right fun _ => ?_
    rw [hp]
    exact and_congr_right fun hpj => by rw [hk j hpj]
  · intro j hj k hk' hpj hpk heq
    rw [hp] at hpj hpk
    rw [hk j hpj, hk k hpk] at heq
    exact h.inj j hj k hk' hpj hpk heq

end Marked

end Somenote
