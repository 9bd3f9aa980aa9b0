import Mathlib.Data.Nat.Fib.Basic
import Mathlib.Tactic.Linarith
import Mathlib.Tactic.NormNum.NatFib
import Somenote.Fib.Source

/-! # The table and the recurrence

Every cell of the table is empty or holds the value of the recurrence at its index. The values
are `long`s up to the index 91, so that the table is never filled to its end.
-/

namespace Somenote.Fib

variable {left : Bool} {n : ℤ} {ns : List ℤ} {array : Cells}

section Recurrence

/-- The recurrence. -/
def F (n : ℤ) : ℤ := if n ≤ 1 then 1 else F (n - 1) + F (n - 2)
termination_by n.toNat

theorem F_of_le (h : n ≤ 1) : F n = 1 := by
  rw [F, if_pos h]

theorem F_of_lt (h : 1 < n) : F n = F (n - 1) + F (n - 2) := by
  rw [F, if_neg (by omega)]

theorem F_eq_fib (n : ℤ) : F n = Nat.fib (n.toNat + 1) := by
  fun_induction F n with
  | case1 n h =>
    obtain h | h : n.toNat = 0 ∨ n.toNat = 1 := by omega
    · simp [h]
    · simp [h]
  | case2 n h ih ih' =>
    obtain ⟨k, hk⟩ : ∃ k, n.toNat = k + 2 := ⟨n.toNat - 2, by omega⟩
    have hsum : Nat.fib (k + 2 + 1) = Nat.fib (k + 1) + Nat.fib (k + 1 + 1) := Nat.fib_add_two
    rw [ih, ih', hk, show (n - 1).toNat = k + 1 by omega, show (n - 2).toNat = k by omega, hsum]
    omega

theorem F_pos (n : ℤ) : 0 < F n := by
  rw [F_eq_fib]
  exact_mod_cast Nat.fib_pos.mpr (Nat.succ_pos _)

theorem F_le (h : n ≤ 91) : F n ≤ LONG_MAX := by
  have hmono : Nat.fib (n.toNat + 1) ≤ Nat.fib 92 := Nat.fib_mono (by omega)
  have hfib : Nat.fib 92 = 7540113804746346429 := by norm_num
  rw [F_eq_fib, LONG_MAX]
  omega

theorem lt_F (h : n = 92) : LONG_MAX < F (n - 1) + F (n - 2) := by
  have hfib : Nat.fib 93 = 12200160415121876738 := by norm_num
  rw [← F_of_lt (by omega), F_eq_fib, show n.toNat + 1 = 93 by omega, hfib, LONG_MAX]
  norm_num

end Recurrence

section Table

/-- Each cell is empty or holds the value of the recurrence, which is a `long`. -/
def Sound (array : Cells) : Prop := ∀ i : Fin 100, array i = 0 ∨ (i : ℤ) ≤ 91 ∧ array i = F i

theorem zeros_sound : Sound zeros := fun _ => Or.inl rfl

theorem Sound.update (h : Sound array) {i : Fin 100} (hi : (i : ℤ) ≤ 91) :
    Sound (Function.update array i (F i)) := by
  intro j
  by_cases hj : j = i
  · subst hj
    exact Or.inr ⟨hi, Function.update_self ..⟩
  · rw [Function.update_of_ne hj]
    exact h j

theorem cell_eq (h : 0 ≤ n) (h' : n < 100) : ∃ i : Fin 100, cell n = some i ∧ (i : ℤ) = n := by
  refine ⟨⟨n.toNat, by omega⟩, ?_, ?_⟩
  · rw [cell, dif_pos ⟨h, h'⟩]
  · exact Int.toNat_of_nonneg h

theorem cell_none (h : 100 ≤ n) : cell n = none := by
  rw [cell, dif_neg (by omega)]

end Table

section Calls

variable (left)

theorem operands_some {f g : Cells → Option (ℤ × Cells)} {a b : ℤ}
    (hf : ∀ array, Sound array → ∃ array', f array = some (a, array') ∧ Sound array')
    (hg : ∀ array, Sound array → ∃ array', g array = some (b, array') ∧ Sound array')
    (h : Sound array) :
    ∃ array', operands left f g array = some (a, b, array') ∧ Sound array' := by
  cases left with
  | true =>
    obtain ⟨array₁, hf, h₁⟩ := hf array h
    obtain ⟨array₂, hg, h₂⟩ := hg array₁ h₁
    exact ⟨array₂, by simp [operands, hf, hg], h₂⟩
  | false =>
    obtain ⟨array₁, hg, h₁⟩ := hg array h
    obtain ⟨array₂, hf, h₂⟩ := hf array₁ h₁
    exact ⟨array₂, by simp [operands, hf, hg], h₂⟩

theorem operands_none {f g : Cells → Option (ℤ × Cells)}
    (hf : ∀ array, Sound array → f array = none)
    (hg : ∀ array, Sound array → ∀ b array', g array = some (b, array') → Sound array')
    (h : Sound array) : operands left f g array = none := by
  cases left with
  | true => simp [operands, hf array h]
  | false =>
    cases hb : g array with
    | none => simp [operands, hb]
    | some s => simp [operands, hb, hf s.2 (hg array h s.1 s.2 hb)]

/-- A call whose argument is at most 91 gives the value of the recurrence. -/
theorem fib_sound (hn : n ≤ 91) (h : Sound array) :
    ∃ array', fib left n array = some (F n, array') ∧ Sound array' := by
  induction n using F.induct generalizing array with
  | case1 n h1 => exact ⟨array, by rw [fib, if_pos h1, F_of_le h1], h⟩
  | case2 n h1 ih ih' =>
    obtain ⟨i, hcell, hi⟩ := cell_eq (n := n) (by omega) (by omega)
    rw [fib, if_neg h1, hcell]
    rcases h i with hzero | ⟨-, hkept⟩
    · obtain ⟨array', hsum, h'⟩ := operands_some left (fun array h => ih (by omega) h)
        (fun array h => ih' (by omega) h) h
      have hadd : add (F (n - 1)) (F (n - 2)) = some (F n) := by
        have hpos := F_pos n
        have hle := F_le hn
        rw [F_of_lt (show 1 < n by omega)] at hpos hle ⊢
        have hge : LONG_MIN ≤ F (n - 1) + F (n - 2) := le_trans (by decide) hpos.le
        exact if_pos ⟨hge, hle⟩
      have hupdate := h'.update (hi ▸ hn)
      rw [hi] at hupdate
      exact ⟨Function.update array' i (F n), by simp [hzero, hsum, hadd], hupdate⟩
    · have hpos := F_pos n
      rw [hi] at hkept
      exact ⟨array, by simp [hkept, hpos.ne'], h⟩

/-- A call with a greater argument leaves the array, or computes a sum that is no `long`: the one
of 92. -/
theorem fib_none (hn : 92 ≤ n) (h : Sound array) : fib left n array = none := by
  induction n using F.induct generalizing array with
  | case1 n h1 => omega
  | case2 n h1 ih ih' =>
    rw [fib, if_neg h1]
    rcases lt_or_ge n 100 with hlt | hge
    · obtain ⟨i, hcell, hi⟩ := cell_eq (by omega) hlt
      have hzero : array i = 0 := (h i).resolve_right (by omega)
      rcases eq_or_lt_of_le hn with heq | hgt
      · obtain ⟨array', hsum, -⟩ := operands_some left
          (fun array h => fib_sound left (n := n - 1) (by omega) h)
          (fun array h => fib_sound left (n := n - 2) (by omega) h) h
        have hadd : add (F (n - 1)) (F (n - 2)) = none :=
          if_neg fun hlong => absurd hlong.2 (not_le.mpr (lt_F heq.symm))
        simp [hcell, hzero, hsum, hadd]
      · have hnone : operands left (fib left (n - 1)) (fib left (n - 2)) array = none := by
          refine operands_none left (fun array h => ih (by omega) h) ?_ h
          intro array h b array' heq
          rcases le_or_gt (n - 2) 91 with hle | hgt
          · obtain ⟨array₁, hfib, h₁⟩ := fib_sound left hle h
            rw [hfib] at heq
            cases heq
            exact h₁
          · rw [ih' hgt h] at heq
            cases heq
        simp [hcell, hzero, hnone]
    · rw [cell_none hge]
      rfl

theorem fibs_some (hns : ∀ n ∈ ns, n ≤ 91) (h : Sound array) :
    ∃ array', fibs left ns array = some (ns.map F, array') := by
  induction ns generalizing array with
  | nil => exact ⟨array, rfl⟩
  | cons n ns ih =>
    obtain ⟨array₁, hfib, h₁⟩ := fib_sound left (hns n List.mem_cons_self) h
    obtain ⟨array₂, hfibs⟩ := ih (fun k hk => hns k (List.mem_cons_of_mem _ hk)) h₁
    exact ⟨array₂, by simp [fibs, hfib, hfibs]⟩

theorem fibs_none (hns : ∃ n ∈ ns, 92 ≤ n) (h : Sound array) : fibs left ns array = none := by
  induction ns generalizing array with
  | nil => simp at hns
  | cons n ns ih =>
    rcases le_or_gt n 91 with hle | hlt
    · obtain ⟨array₁, hfib, h₁⟩ := fib_sound left hle h
      obtain ⟨k, hk, hgt⟩ := hns
      have hk : k ∈ ns := (List.mem_cons.mp hk).resolve_left (by omega)
      simp [fibs, hfib, ih ⟨k, hk, hgt⟩ h₁]
    · simp [fibs, fib_none left hlt h]

end Calls

/-- The calls of a run all return, with the values of the recurrence, if and only if no argument is
greater than 91. -/
theorem fibs_iff (left : Bool) (ns : List ℤ) :
    (∃ array, fibs left ns zeros = some (ns.map F, array)) ↔ ∀ n ∈ ns, n ≤ 91 := by
  constructor
  · rintro ⟨array, heq⟩ n hn
    by_contra hgt
    rw [fibs_none left ⟨n, hn, by omega⟩ zeros_sound] at heq
    cases heq
  · intro hns
    exact fibs_some left hns zeros_sound

/-- One call is enough, whose cell lies behind the end of the array. -/
theorem fibs_hundred : ¬ ∃ array, fibs true [100] zeros = some ([100].map F, array) := by
  rw [fibs_none true ⟨100, by simp, by omega⟩ zeros_sound]
  rintro ⟨array, heq⟩
  cases heq

end Somenote.Fib
