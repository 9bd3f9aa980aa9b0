import Mathlib.Data.Finset.Basic
import Mathlib.Logic.Function.Basic

/-! # Slot tables

A table of descriptors in which a free slot holds `-1`. The slots between `lo` and `n` hold
the descriptors of a set, each in one slot, and the slots above a mark are free.
-/

namespace Somenote

/-- The first free slot, found by a loop from `lo` up to `n`. -/
def firstFree (lo n : ℕ) (fd : ℕ → ℤ) : Option ℕ :=
  (List.range' lo (n - lo)).find? fun i => fd i < 0

theorem firstFree_some {lo n i : ℕ} {fd : ℕ → ℤ} (h : firstFree lo n fd = some i) :
    lo ≤ i ∧ i < n ∧ fd i < 0 := by
  have hmem := List.mem_of_find?_eq_some h
  have hfree := List.find?_some h
  rw [List.mem_range'_1] at hmem
  exact ⟨hmem.1, by omega, of_decide_eq_true hfree⟩

/-- The slots `lo ≤ i < n` of a table hold the descriptors `conns`, none of them above `maxi`. -/
structure Slots (lo n : ℕ) (maxi : ℤ) (fd : ℕ → ℤ) (conns : Finset ℕ) : Prop where
  free_or : ∀ i, lo ≤ i → i < n → fd i = -1 ∨ ∃ c ∈ conns, fd i = c
  slot : ∀ c ∈ conns, ∃ i, lo ≤ i ∧ i < n ∧ fd i = c
  inj : ∀ i j (c : ℕ), lo ≤ i → i < n → lo ≤ j → j < n → fd i = c → fd j = c → i = j
  above : ∀ i, lo ≤ i → i < n → maxi < i → fd i = -1
  maxi_lt : maxi < n

namespace Slots

variable {lo n i c : ℕ} {maxi maxi' : ℤ} {fd : ℕ → ℤ} {conns : Finset ℕ}

theorem empty (hfree : ∀ i, lo ≤ i → i < n → fd i = -1) (hm : maxi < n) :
    Slots lo n maxi fd ∅ where
  free_or i hlo hn := Or.inl (hfree i hlo hn)
  slot c hc := absurd hc (Finset.notMem_empty c)
  inj i j c hlo hn _ _ hi _ := by
    have hf := hfree i hlo hn
    omega
  above i hlo hn _ := hfree i hlo hn
  maxi_lt := hm

theorem le_maxi (h : Slots lo n maxi fd conns) (hlo : lo ≤ i) (hn : i < n) (hi : 0 ≤ fd i) :
    i ≤ maxi := by
  by_contra hlt
  have hf := h.above i hlo hn (not_le.mp hlt)
  omega

theorem mem (h : Slots lo n maxi fd conns) (hlo : lo ≤ i) (hn : i < n) (hi : fd i = c) :
    c ∈ conns := by
  rcases h.free_or i hlo hn with hf | ⟨c', hc', hf⟩
  · omega
  · obtain rfl : c' = c := by omega
    exact hc'

theorem exists_slot (h : Slots lo n maxi fd conns) (hc : c ∈ conns) :
    ∃ i, lo ≤ i ∧ i < n ∧ i ≤ maxi ∧ ∀ j, lo ≤ j → j < n → (fd j = c ↔ j = i) := by
  obtain ⟨i, hlo, hn, hi⟩ := h.slot c hc
  refine ⟨i, hlo, hn, h.le_maxi hlo hn (by omega), fun j hlo' hn' => ?_⟩
  constructor
  · exact fun hj => h.inj j i c hlo' hn' hlo hn hj hi
  · rintro rfl
    exact hi

theorem insert (h : Slots lo n maxi fd conns) (hlo : lo ≤ i) (hn : i < n) (hi : fd i < 0)
    (hc : c ∉ conns) (hm : maxi ≤ maxi') (him : i ≤ maxi') (hm' : maxi' < n) :
    Slots lo n maxi' (Function.update fd i c) (insert c conns) where
  free_or j hjlo hjn := by
    by_cases hj : j = i
    · subst hj
      exact Or.inr ⟨c, Finset.mem_insert_self .., Function.update_self ..⟩
    · rw [Function.update_of_ne hj]
      exact (h.free_or j hjlo hjn).imp_right fun ⟨d, hd, hfd⟩ =>
        ⟨d, Finset.mem_insert_of_mem hd, hfd⟩
  slot d hd := by
    rcases Finset.mem_insert.mp hd with rfl | hd
    · exact ⟨i, hlo, hn, Function.update_self ..⟩
    · obtain ⟨j, hjlo, hjn, hj⟩ := h.slot d hd
      have hne : j ≠ i := by
        rintro rfl
        omega
      exact ⟨j, hjlo, hjn, by rwa [Function.update_of_ne hne]⟩
  inj j k d hjlo hjn hklo hkn hj hk := by
    -- the new descriptor is in no old slot
    have hold : ∀ l, lo ≤ l → l < n → l ≠ i → fd l ≠ c := fun l hl hl' _ hfd =>
      hc (h.mem hl hl' hfd)
    by_cases hji : j = i <;> by_cases hki : k = i
    · rw [hji, hki]
    · subst hji
      rw [Function.update_self] at hj
      rw [Function.update_of_ne hki, ← hj] at hk
      exact absurd hk (hold k hklo hkn hki)
    · subst hki
      rw [Function.update_self] at hk
      rw [Function.update_of_ne hji, ← hk] at hj
      exact absurd hj (hold j hjlo hjn hji)
    · rw [Function.update_of_ne hji] at hj
      rw [Function.update_of_ne hki] at hk
      exact h.inj j k d hjlo hjn hklo hkn hj hk
  above j hjlo hjn hj := by
    have hne : j ≠ i := by
      rintro rfl
      omega
    rw [Function.update_of_ne hne]
    exact h.above j hjlo hjn (by omega)
  maxi_lt := hm'

theorem erase (h : Slots lo n maxi fd conns) (hlo : lo ≤ i) (hn : i < n) (hi : fd i = c) :
    Slots lo n maxi (Function.update fd i (-1)) (conns.erase c) where
  free_or j hjlo hjn := by
    by_cases hj : j = i
    · subst hj
      exact Or.inl (Function.update_self ..)
    · rw [Function.update_of_ne hj]
      refine (h.free_or j hjlo hjn).imp_right ?_
      rintro ⟨d, hd, hfd⟩
      refine ⟨d, Finset.mem_erase.mpr ⟨?_, hd⟩, hfd⟩
      rintro rfl
      exact hj (h.inj j i d hjlo hjn hlo hn hfd hi)
  slot d hd := by
    obtain ⟨hne, hd⟩ := Finset.mem_erase.mp hd
    obtain ⟨j, hjlo, hjn, hj⟩ := h.slot d hd
    have hji : j ≠ i := by
      rintro rfl
      exact hne (by omega)
    exact ⟨j, hjlo, hjn, by rwa [Function.update_of_ne hji]⟩
  inj j k d hjlo hjn hklo hkn hj hk := by
    have hji : j ≠ i := by
      rintro rfl
      rw [Function.update_self] at hj
      omega
    have hki : k ≠ i := by
      rintro rfl
      rw [Function.update_self] at hk
      omega
    rw [Function.update_of_ne hji] at hj
    rw [Function.update_of_ne hki] at hk
    exact h.inj j k d hjlo hjn hklo hkn hj hk
  above j hjlo hjn hj := by
    by_cases hji : j = i
    · subst hji
      exact Function.update_self ..
    · rw [Function.update_of_ne hji]
      exact h.above j hjlo hjn hj
  maxi_lt := h.maxi_lt

end Slots

end Somenote
