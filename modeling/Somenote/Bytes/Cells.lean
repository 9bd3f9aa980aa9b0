import Mathlib.Data.List.Basic
import Mathlib.Data.Nat.Notation

/-! # Files tiled by cells

A file that is the concatenation of encoded cells is addressed by byte offsets. A
write that replaces the cell at an offset by one of the same size, or a part of it,
or that appends a cell, is an update of the list of cells.
-/

namespace Somenote

/-- The file after a write of `b` at offset `o`; a gap before `o` is filled with `pad`. -/
def overwrite {β : Type*} (pad : β) (s : List β) (o : ℕ) (b : List β) : List β :=
  (s ++ List.replicate (o - s.length) pad).take o ++ b ++ s.drop (o + b.length)

theorem overwrite_end {β : Type*} (pad : β) (s b : List β) :
    overwrite pad s s.length b = s ++ b := by
  simp [overwrite]

theorem overwrite_append {β : Type*} (pad : β) {x y b' : List β} (b z : List β) {o : ℕ}
    (ho : o = x.length) (hb : b'.length = b.length) (hy : y = b' ++ z) :
    overwrite pad (x ++ y) o b = x ++ (b ++ z) := by
  subst ho hy
  simp [overwrite, List.drop_append, hb]

namespace Cells

variable {α β : Type*} (enc : α → List β)

/-- The file made of the cells. -/
def bytes (l : List α) : List β := l.flatMap enc

@[simp] theorem bytes_nil : bytes enc [] = [] := rfl

@[simp] theorem bytes_cons (a : α) (l : List α) : bytes enc (a :: l) = enc a ++ bytes enc l := rfl

@[simp] theorem bytes_append (l m : List α) : bytes enc (l ++ m) = bytes enc l ++ bytes enc m := by
  simp [bytes]

/-- The cell that starts at offset `o`. -/
def cellAt : List α → ℕ → Option α
  | [], _ => none
  | a :: l, o =>
    if o = 0 then some a
    else if o < (enc a).length then none else cellAt l (o - (enc a).length)

/-- Replace the cell that starts at offset `o`. -/
def put : List α → ℕ → α → List α
  | [], _, _ => []
  | a :: l, o, b =>
    if o = 0 then b :: l
    else if o < (enc a).length then a :: l else a :: put l (o - (enc a).length) b

variable {enc} {l : List α} {a b : α} {o : ℕ}

theorem cellAt_split (h : cellAt enc l o = some a) :
    ∃ pre post, l = pre ++ a :: post ∧ o = (bytes enc pre).length := by
  induction l generalizing o with
  | nil => simp [cellAt] at h
  | cons c l ih =>
    rw [cellAt] at h
    split_ifs at h with h0 hlt
    · obtain rfl : c = a := by simpa using h
      exact ⟨[], l, rfl, h0⟩
    · obtain ⟨pre, post, rfl, ho⟩ := ih h
      refine ⟨c :: pre, post, rfl, ?_⟩
      simp only [bytes_cons, List.length_append]
      omega

theorem mem_of_cellAt (h : cellAt enc l o = some a) : a ∈ l := by
  obtain ⟨pre, post, rfl, _⟩ := cellAt_split h
  simp

theorem drop_cellAt (h : cellAt enc l o = some a) :
    (bytes enc l).drop o = enc a ++ (bytes enc l).drop (o + (enc a).length) := by
  obtain ⟨pre, post, rfl, rfl⟩ := cellAt_split h
  simp [← List.drop_drop]

theorem cellAt_le (h : cellAt enc l o = some a) : o + (enc a).length ≤ (bytes enc l).length := by
  obtain ⟨pre, post, rfl, rfl⟩ := cellAt_split h
  simp only [bytes_append, bytes_cons, List.length_append]
  omega

theorem cellAt_put (h : cellAt enc l o = some a) (hs : (enc b).length = (enc a).length) (o' : ℕ) :
    cellAt enc (put enc l o b) o' = if o' = o then some b else cellAt enc l o' := by
  induction l generalizing o o' with
  | nil => simp [cellAt] at h
  | cons c l ih =>
    rw [cellAt] at h
    split_ifs at h with h0 hlt
    · obtain rfl : c = a := by simpa using h
      subst h0
      by_cases h' : o' = 0 <;> simp [put, cellAt, h', hs]
    · rw [put, if_neg h0, if_neg hlt, cellAt, cellAt, ih h]
      split_ifs <;> first | rfl | omega

theorem put_split (h : cellAt enc l o = some a) :
    ∃ pre post, l = pre ++ a :: post ∧ o = (bytes enc pre).length ∧
      put enc l o b = pre ++ b :: post := by
  induction l generalizing o with
  | nil => simp [cellAt] at h
  | cons c l ih =>
    rw [cellAt] at h
    split_ifs at h with h0 hlt
    · obtain rfl : c = a := by simpa using h
      exact ⟨[], l, rfl, h0, by simp [put, h0]⟩
    · obtain ⟨pre, post, rfl, ho, hp⟩ := ih h
      refine ⟨c :: pre, post, rfl, ?_, ?_⟩
      · simp only [bytes_cons, List.length_append]
        omega
      · rw [put, if_neg h0, if_neg hlt, hp]
        rfl

/-- A write at the front of a cell replaces the cell by the one it turns into. -/
theorem overwrite_put (pad : β) (h : cellAt enc l o = some a) {x x' y : List β}
    (ha : enc a = x ++ y) (hb : enc b = x' ++ y) (hx : x'.length = x.length) :
    overwrite pad (bytes enc l) o x' = bytes enc (put enc l o b) := by
  obtain ⟨pre, post, rfl, rfl, hp⟩ := put_split (b := b) h
  rw [hp]
  simp only [bytes_append, bytes_cons, hb, List.append_assoc]
  exact overwrite_append pad x' (y ++ bytes enc post) rfl hx.symm (by simp [ha])

theorem length_bytes_put (h : cellAt enc l o = some a) (hs : (enc b).length = (enc a).length) :
    (bytes enc (put enc l o b)).length = (bytes enc l).length := by
  obtain ⟨pre, post, rfl, rfl, hp⟩ := put_split (b := b) h
  rw [hp]
  simp [hs]

theorem put_map {κ : Type*} {f : α → κ} (h : cellAt enc l o = some a) (hf : f b = f a) :
    (put enc l o b).map f = l.map f := by
  obtain ⟨pre, post, rfl, rfl, hp⟩ := put_split (b := b) h
  simp [hp, hf]

theorem put_comm {o' : ℕ} {a' b' : α} (ha : cellAt enc l o = some a)
    (hs : (enc a').length = (enc a).length) (hb : cellAt enc l o' = some b)
    (hs' : (enc b').length = (enc b).length) (hne : o ≠ o') :
    put enc (put enc l o a') o' b' = put enc (put enc l o' b') o a' := by
  induction l generalizing o o' with
  | nil => rfl
  | cons c l ih =>
    rw [cellAt] at ha hb
    split_ifs at ha with h0 hlt <;> split_ifs at hb with h0' hlt'
    · omega
    · obtain rfl : c = a := by simpa using ha
      simp [put, h0, h0', hlt', hs]
    · obtain rfl : c = b := by simpa using hb
      simp [put, h0, h0', hlt, hs']
    · simp [put, h0, h0', hlt, hlt', ih ha hb (by omega)]

theorem put_self (h : cellAt enc l o = some a) : put enc l o a = l := by
  obtain ⟨pre, post, hl, -, hp⟩ := put_split (b := a) h
  rw [hp, hl]

theorem put_put {a' b' : α} (ha : cellAt enc l o = some a) :
    put enc (put enc l o a') o b' = put enc l o b' := by
  induction l generalizing o with
  | nil => rfl
  | cons c l ih =>
    rw [cellAt] at ha
    split_ifs at ha with h0 hlt
    · simp [put, h0]
    · simp [put, h0, hlt, ih ha]

theorem cellAt_append (h : cellAt enc l o = some a) (m : List α) :
    cellAt enc (l ++ m) o = some a := by
  induction l generalizing o with
  | nil => simp [cellAt] at h
  | cons c l ih =>
    rw [cellAt] at h
    rw [List.cons_append, cellAt]
    split_ifs at h ⊢ with h0 hlt
    · exact h
    · exact ih h

theorem put_append (h : cellAt enc l o = some a) (m : List α) :
    put enc (l ++ m) o b = put enc l o b ++ m := by
  induction l generalizing o with
  | nil => simp [cellAt] at h
  | cons c l ih =>
    rw [cellAt] at h
    split_ifs at h with h0 hlt
    · simp [put, h0]
    · simp [put, h0, hlt, ih h]

theorem cellAt_append_ne (l : List α) (a : α) (hne : o ≠ (bytes enc l).length) :
    cellAt enc (l ++ [a]) o = cellAt enc l o := by
  induction l generalizing o with
  | nil =>
    have h0 : o ≠ 0 := by simpa using hne
    simp [cellAt, h0]
  | cons c l ih =>
    rw [List.cons_append, cellAt, cellAt]
    split_ifs with h0 hlt
    · rfl
    · rfl
    · apply ih
      simp only [bytes_cons, List.length_append] at hne
      omega

theorem cellAt_disjoint {o' : ℕ} (h : cellAt enc l o = some a) (h' : cellAt enc l o' = some b)
    (hne : o ≠ o') : o + (enc a).length ≤ o' ∨ o' + (enc b).length ≤ o := by
  induction l generalizing o o' with
  | nil => simp [cellAt] at h
  | cons c l ih =>
    rw [cellAt] at h h'
    split_ifs at h h' with h0 h0' hlt' hlt h0' hlt'
    · omega
    · obtain rfl : c = a := by simpa using h
      omega
    · obtain rfl : c = b := by simpa using h'
      omega
    · have := ih h h' (by omega)
      omega

section Positive

variable (pos : ∀ a, 0 < (enc a).length)
include pos

theorem cellAt_append_cons (pre post : List α) (a : α) :
    cellAt enc (pre ++ a :: post) (bytes enc pre).length = some a := by
  induction pre with
  | nil => simp [cellAt]
  | cons c pre ih =>
    have := pos c
    rw [List.cons_append, cellAt, if_neg, if_neg]
    · simpa using ih
    · simp
    · simp only [bytes_cons, List.length_append]
      omega

theorem cellAt_end (l : List α) (a : α) : cellAt enc (l ++ [a]) (bytes enc l).length = some a :=
  cellAt_append_cons pos l [] a

theorem cellAt_cover {x : ℕ} (h : x < (bytes enc l).length) :
    ∃ o a, cellAt enc l o = some a ∧ o ≤ x ∧ x < o + (enc a).length := by
  induction l generalizing x with
  | nil => simp at h
  | cons c l ih =>
    have hc := pos c
    by_cases hx : x < (enc c).length
    · exact ⟨0, c, by simp [cellAt], Nat.zero_le _, by omega⟩
    · simp only [bytes_cons, List.length_append] at h
      obtain ⟨o, a, ha, hle, hlt⟩ := ih (x := x - (enc c).length) (by omega)
      refine ⟨(enc c).length + o, a, ?_, by omega, by omega⟩
      rw [cellAt, if_neg (by omega), if_neg (by omega), Nat.add_sub_cancel_left]
      exact ha

end Positive

end Cells

end Somenote
