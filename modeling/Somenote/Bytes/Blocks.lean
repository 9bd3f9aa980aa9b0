import Somenote.Bytes.Cells

/-! # Files written in blocks

A file to which the blocks of a text are written, each at its own offset and in any order, is the
text as far as its blocks have been written.
-/

namespace Somenote

variable {β : Type} {pad : β} {s b t : List β} {o x B : ℕ} {D : List ℕ}

theorem length_overwrite : (overwrite pad s o b).length = max s.length (o + b.length) := by
  simp only [overwrite, List.length_append, List.length_take, List.length_drop,
    List.length_replicate]
  omega

theorem overwrite_inside (h : o ≤ x) (h' : x < o + b.length) :
    (overwrite pad s o b)[x]? = b[x - o]? := by
  have ho : ((s ++ List.replicate (o - s.length) pad).take o).length = o := by
    simp only [List.length_append, List.length_take, List.length_replicate]
    omega
  rw [overwrite, List.append_assoc, List.getElem?_append_right (by omega), ho,
    List.getElem?_append_left (by omega)]

theorem overwrite_outside (h : x < o ∨ o + b.length ≤ x) (hx : x < s.length) :
    (overwrite pad s o b)[x]? = s[x]? := by
  have ho : ((s ++ List.replicate (o - s.length) pad).take o).length = o := by
    simp only [List.length_append, List.length_take, List.length_replicate]
    omega
  rw [overwrite, List.append_assoc]
  rcases h with h | h
  · rw [List.getElem?_append_left (by omega), List.getElem?_take_of_lt h,
      List.getElem?_append_left hx]
  · rw [List.getElem?_append_right (by omega), ho, List.getElem?_append_right (by omega),
      List.getElem?_drop]
    congr 1
    omega

theorem drop_overwrite : (overwrite pad s o b).drop o = b ++ s.drop (o + b.length) := by
  have ho : ((s ++ List.replicate (o - s.length) pad).take o).length = o := by
    simp only [List.length_append, List.length_take, List.length_replicate]
    omega
  rw [overwrite, List.append_assoc, List.drop_left' ho]

/-- The file `s` has the blocks of `t` of size `B` at the offsets in `D`, and nothing behind `t`. -/
structure Copied (t : List β) (B : ℕ) (D : List ℕ) (s : List β) : Prop where
  length : s.length ≤ t.length
  get : ∀ o ∈ D, ∀ x, o ≤ x → x < o + B → s[x]? = t[x]?

theorem Copied.nil : Copied t B [] [] where
  length := Nat.zero_le _
  get _ ho := absurd ho List.not_mem_nil

theorem Copied.overwrite (h : Copied t B D s) (ho : o < t.length) :
    Copied t B (D ++ [o]) (overwrite pad s o ((t.drop o).take B)) where
  length := by
    have hlength := h.length
    rw [length_overwrite, List.length_take, List.length_drop]
    omega
  get o' ho' x hx hx' := by
    have hlength := h.length
    have hb : ((t.drop o).take B).length = min B (t.length - o) := by
      rw [List.length_take, List.length_drop]
    by_cases hin : o ≤ x ∧ x < o + B
    · by_cases hend : x < t.length
      · rw [overwrite_inside hin.1 (by omega), List.getElem?_take_of_lt (by omega),
          List.getElem?_drop]
        congr 1
        omega
      · rw [List.getElem?_eq_none (Nat.not_lt.mp hend), List.getElem?_eq_none]
        rw [length_overwrite]
        omega
    · have hD : o' ∈ D := by
        rcases List.mem_append.mp ho' with hD | hD
        · exact hD
        · rw [List.mem_singleton.mp hD] at hx hx'
          exact absurd ⟨hx, hx'⟩ hin
      have hget := h.get o' hD x hx hx'
      by_cases hend : x < t.length
      · have hxs : x < s.length := by
          rw [List.getElem?_eq_getElem hend] at hget
          exact (List.getElem?_eq_some_iff.mp hget).1
        rw [overwrite_outside (by omega) hxs, hget]
      · rw [List.getElem?_eq_none (Nat.not_lt.mp hend), List.getElem?_eq_none]
        rw [length_overwrite]
        omega

theorem Copied.eq (h : Copied t B D s) (hall : ∀ x < t.length, ∃ o ∈ D, o ≤ x ∧ x < o + B) :
    s = t := by
  ext1 x
  by_cases hx : x < t.length
  · obtain ⟨o, ho, hox, hxo⟩ := hall x hx
    exact h.get o ho x hox hxo
  · have hlength := h.length
    rw [List.getElem?_eq_none (by omega), List.getElem?_eq_none (by omega)]

end Somenote
