import Mathlib.Data.List.Range
import Somenote.Reversal.Links

/-! # What is printed of the reversed lists

A reader of what `reavsrsel_2` returns passes over the last node, and meets the header at the end,
whose value nobody has set.
-/

namespace Somenote.Reversal

variable {P : Type} [DecidableEq P] {m : Heap P} {l : P} {nodes : List P} {malloc : ℕ → P}

section Values

/-- Both reversals return, and of both lists the reverse of the data is printed. -/
def Agree (m : Heap P) (l : P) (nodes : List P) : Prop :=
  ∃ r₁ m₁ r₂ m₂, Yields (fun n => reavsrsel n (some l) m) (r₁, m₁) ∧
    Yields (fun n => reavsrsel2 n (some l) m) (r₂, m₂) ∧
    Yields (fun n => printed n r₁ m₁) (m.vals nodes).reverse ∧
    Yields (fun n => printed n r₂ m₂) (m.vals nodes).reverse

theorem reavsrsel_nil (h : HeaderList m l []) (n : ℕ) : reavsrsel n (some l) m = none := by
  have hl : m.next (some l) = none := h
  rw [reavsrsel, Heap.getNext_some, hl]
  cases n <;> rfl

theorem reavsrsel_printed (h : HeaderList m l nodes) (hne : nodes ≠ []) :
    ∃ r m', Yields (fun n => reavsrsel n (some l) m) (r, m') ∧
      Yields (fun n => printed n r m') (m.vals nodes).reverse := by
  obtain ⟨p, ys, rfl⟩ := List.exists_cons_of_ne_nil hne
  obtain ⟨m', hyields, hlist, hvals⟩ :=
    reavsrselLoop_yields (show HeaderList m l ([] ++ p :: ys) from h)
  have hrev : (p :: ys).reverse = ys.reverse ++ ([] ++ [p]) := by simp
  have hprinted := printed_yields hlist
  rw [hvals.vals_eq, ← hrev, Heap.vals, List.map_reverse] at hprinted
  exact ⟨some l, m', reavsrsel_of_loop h.next_eq hyields, hprinted⟩

theorem reavsrsel2_printed (h : HeaderList m l nodes) :
    ∃ r m' v vals, Yields (fun n => reavsrsel2 n (some l) m) (r, m') ∧
      Yields (fun n => printed n r m') vals ∧
      v :: vals = (m.vals nodes).reverse ++ [(m l).val] := by
  obtain ⟨a, xs, m', hyields, hlist, heq, hvals⟩ := reavsrsel2_yields h
  have hprinted := printed_yields hlist
  rw [hvals.vals_eq] at hprinted
  refine ⟨some a, m', (m a).val, m.vals xs, hyields, hprinted, ?_⟩
  have hmap := congrArg m.vals heq
  simpa [Heap.vals] using hmap

theorem eq_of_cons_eq_concat {α : Type*} {v w : α} {vals : List α} (h : v :: vals = vals ++ [w]) :
    ∀ x ∈ vals, x = w := by
  induction vals generalizing v with
  | nil => simp
  | cons c vals ih =>
    rw [List.cons_append, List.cons.injEq] at h
    have hvals := ih h.2
    intro x hx
    rcases List.mem_cons.mp hx with rfl | hx
    · cases vals with
      | nil => simpa using h.2
      | cons d vals =>
        rw [List.cons_append, List.cons.injEq] at h
        exact h.2.1.trans (hvals d List.mem_cons_self)
    · exact hvals x hx

/-- What is left without the first element is what is left without the last one, if and only if
the list repeats its last element. -/
theorem tail_eq_front_iff {α : Type*} {v w : α} {s t : List α} (h : v :: s = t ++ [w]) :
    s = t ↔ ∀ x ∈ t, x = w := by
  constructor
  · rintro rfl
    exact eq_of_cons_eq_concat h
  · intro ht
    have hall : ∀ x ∈ t ++ [w], x = w := by
      intro x hx
      rcases List.mem_append.mp hx with hx | hx
      · exact ht x hx
      · exact List.mem_singleton.mp hx
    have hlength := congrArg List.length h
    rw [List.length_append, List.length_cons, List.length_singleton] at hlength
    rw [List.eq_replicate_of_mem ht,
      List.eq_replicate_of_mem fun x hx => hall x (h ▸ List.mem_cons_of_mem _ hx),
      Nat.succ_injective hlength]

omit [DecidableEq P] in
theorem forall_mem_vals {v : ℤ} :
    (∀ x ∈ (m.vals nodes).reverse, x = v) ↔ ∀ p ∈ nodes, (m p).val = v := by
  simp [Heap.vals]

theorem Agree.vals_eq (hagree : Agree m l nodes) (h : HeaderList m l nodes) :
    ∀ p ∈ nodes, (m p).val = (m l).val := by
  obtain ⟨-, -, r₂, m₂, -, hyields, -, hprinted⟩ := hagree
  obtain ⟨r, m', v, vals, hyields', hprinted', heq⟩ := reavsrsel2_printed h
  cases hyields.unique hyields'
  exact forall_mem_vals.mp ((tail_eq_front_iff heq).mp (hprinted'.unique hprinted))

/-- The lists agree if and only if there is data and all of it looks like the value of the
header. -/
theorem agree_iff (h : HeaderList m l nodes) :
    Agree m l nodes ↔ nodes ≠ [] ∧ ∀ p ∈ nodes, (m p).val = (m l).val := by
  constructor
  · intro hagree
    refine ⟨?_, hagree.vals_eq h⟩
    rintro rfl
    obtain ⟨r₁, m₁, -, -, ⟨N, hN⟩, -⟩ := hagree
    have hnone := (reavsrsel_nil h N).symm.trans (hN N le_rfl)
    cases hnone
  · rintro ⟨hne, hvals⟩
    obtain ⟨r₁, m₁, hyields₁, hprinted₁⟩ := reavsrsel_printed h hne
    obtain ⟨r₂, m₂, v, vals, hyields₂, hprinted₂, heq⟩ := reavsrsel2_printed h
    rw [(tail_eq_front_iff heq).mpr (forall_mem_vals.mpr hvals)] at hprinted₂
    exact ⟨r₁, m₁, r₂, m₂, hyields₁, hyields₂, hprinted₁, hprinted₂⟩

theorem agree_iff_three : Agree threeNodes 0 [1, 2, 3] ↔
    [1, 2, 3] ≠ [] ∧ ∀ p ∈ [1, 2, 3], (threeNodes p).val = (threeNodes 0).val :=
  agree_iff ⟨rfl, by decide, rfl, by decide, rfl, by decide, rfl⟩

end Values

section Main

omit [DecidableEq P] in
theorem initLoop_last (malloc : ℕ → P) (k : ℕ) :
    (((List.range' 1 k).map malloc).map some).getLastD (some (malloc 0)) = some (malloc k) := by
  cases k with
  | zero => rfl
  | succ k => simp [List.range'_concat, Nat.add_comm]

variable (hinj : malloc.Injective)
include hinj

theorem initLoop_list (k : ℕ) :
    ∃ m', initLoop malloc m k = (malloc k, m') ∧
      HeaderList (m'.link (malloc k) none) (malloc 0) ((List.range' 1 k).map malloc) ∧
      (m' (malloc 0)).val = (m (malloc 0)).val ∧ ∀ i, 0 < i → i ≤ k → (m' (malloc i)).val = i := by
  induction k with
  | zero => exact ⟨m, rfl, Heap.next_link_self _ _ _, rfl, fun i hi hik => by omega⟩
  | succ k ih =>
    obtain ⟨m', heq, hlist, hheader, hvals⟩ := ih
    have hne : ∀ i ≤ k, malloc i ≠ malloc (k + 1) := fun i hi he => by
      have := hinj he
      omega
    rw [initLoop, heq]
    refine ⟨_, rfl, ?_, ?_, fun i hi hik => ?_⟩
    · rw [List.range'_concat, List.map_append, HeaderList, List.map_append, Nat.one_mul,
        Nat.add_comm 1 k]
      refine Linked.concat hlist (Option.some_ne_none _) ?_ ?_ ?_
      · rw [initLoop_last]
        simp [hne k le_rfl]
      · simp
      · rw [initLoop_last]
        intro x hx hxk
        obtain ⟨i, hi, rfl⟩ : ∃ i ≤ k, some (malloc i) = x := by
          rcases List.mem_cons.mp hx with rfl | hx
          · exact ⟨0, Nat.zero_le k, rfl⟩
          · simp only [List.map_map, List.mem_map, List.mem_range'_1] at hx
            obtain ⟨i, hi, rfl⟩ := hx
            exact ⟨i, by omega, rfl⟩
        have hik : malloc i ≠ malloc k := fun he => hxk (by rw [he])
        simp [hne i hi, hik]
    · rw [Heap.sameVals_link, Heap.fill_ne _ _ (hne 0 (Nat.zero_le k)), hheader]
    · rw [Heap.sameVals_link]
      rcases Nat.lt_or_eq_of_le hik with hlt | rfl
      · rw [Heap.fill_ne _ _ (hne i (by omega)), hvals i hi (by omega)]
      · rw [Heap.fill_self]
        omega

/-- The list of `initlist`: nine nodes with their numbers. The header keeps the value that its
memory had. -/
theorem initlist_list :
    ∃ m', initlist malloc m = (some (malloc 0), m') ∧
      HeaderList m' (malloc 0) ((List.range' 1 9).map malloc) ∧
      (m' (malloc 0)).val = (m (malloc 0)).val ∧
      m'.vals ((List.range' 1 9).map malloc) = [1, 2, 3, 4, 5, 6, 7, 8, 9] := by
  obtain ⟨m', heq, hlist, hheader, hvals⟩ := initLoop_list hinj (m := m) 9
  refine ⟨m'.link (malloc 9) none, by rw [initlist, heq], hlist, ?_, ?_⟩
  · rw [Heap.sameVals_link, hheader]
  · rw [(Heap.sameVals_link _ _ _).vals_eq, Heap.vals, List.map_map]
    have hmap : (List.range' 1 9).map ((fun a => (m' a).val) ∘ malloc) =
        (List.range' 1 9).map fun i => (i : ℤ) := by
      refine List.map_congr_left fun i hi => ?_
      rw [List.mem_range'_1] at hi
      exact hvals i (by omega) (by omega)
    rw [hmap]
    rfl

/-- `main` leaves out the last value of its list, and prints what was in the memory of the header
at the end. -/
theorem main_prints :
    Yields (fun n => main malloc n m) [8, 7, 6, 5, 4, 3, 2, 1, (m (malloc 0)).val] := by
  obtain ⟨m', hinit, hlist, hheader, hvals⟩ := initlist_list hinj (m := m)
  obtain ⟨r, m₁, v, vals, hyields, hprinted, heq⟩ := reavsrsel2_printed hlist
  rw [hvals, hheader] at heq
  obtain ⟨-, rfl⟩ := List.cons.inj heq
  have hbind := hyields.bind (g := fun n s => printed n s.1 s.2) hprinted
  simpa [main, hinit] using hbind

omit hinj in
/-- The list of `main` itself, with a header in memory that was zero. -/
theorem not_agree_main :
    ¬ Agree (initlist id fun _ : ℕ => ⟨0, none⟩).2 0 [1, 2, 3, 4, 5, 6, 7, 8, 9] := by
  obtain ⟨m', hinit, hlist, -, -⟩ :=
    initlist_list (m := fun _ : ℕ => ⟨0, none⟩) Function.injective_id
  have hlist' : HeaderList (initlist id fun _ : ℕ => ⟨0, none⟩).2 0
      [1, 2, 3, 4, 5, 6, 7, 8, 9] := by
    rw [hinit]
    exact hlist
  intro hagree
  have hnine := hagree.vals_eq hlist' 9 (by decide)
  revert hnine
  decide

end Main

end Somenote.Reversal
