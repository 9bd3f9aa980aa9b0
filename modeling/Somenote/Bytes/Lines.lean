import Mathlib.Data.List.Basic

/-! # Lines of a text

A line ends with a marker, such as the newline. Texts are put together of whole lines and split
into them again. A reader with a small buffer takes a long line in several pieces.
-/

namespace Somenote.Lines

variable {α : Type} [DecidableEq α] (nl : α)

section Whole

/-- The lines with their markers, one behind the other. -/
def unlines (ls : List (List α)) : List α := ls.flatMap fun l => l ++ [nl]

/-- The complete lines of a text, and what follows the last marker. -/
def splitLines : List α → List (List α) × List α
  | [] => ([], [])
  | c :: s =>
    if c = nl then ([] :: (splitLines s).1, (splitLines s).2)
    else match (splitLines s).1 with
      | [] => ([], c :: (splitLines s).2)
      | l :: ls => ((c :: l) :: ls, (splitLines s).2)

omit [DecidableEq α] in
@[simp] theorem unlines_nil : unlines nl [] = [] := rfl

omit [DecidableEq α] in
@[simp] theorem unlines_cons (l : List α) (ls : List (List α)) :
    unlines nl (l :: ls) = l ++ nl :: unlines nl ls := by
  simp [unlines]

omit [DecidableEq α] in
@[simp] theorem unlines_append (ls ls' : List (List α)) :
    unlines nl (ls ++ ls') = unlines nl ls ++ unlines nl ls' := by
  simp [unlines]

@[simp] theorem splitLines_nil : splitLines nl [] = ([], []) := rfl

@[simp] theorem splitLines_nl (s : List α) :
    splitLines nl (nl :: s) = ([] :: (splitLines nl s).1, (splitLines nl s).2) := by
  rw [splitLines, if_pos rfl]

variable {nl}

theorem splitLines_open {t : List α} (h : nl ∉ t) : splitLines nl t = ([], t) := by
  induction t with
  | nil => rfl
  | cons c t ih =>
    have hc : c ≠ nl := fun he => h (he ▸ List.mem_cons_self)
    rw [splitLines, if_neg hc, ih fun hm => h (List.mem_cons_of_mem _ hm)]

theorem splitLines_line {l : List α} (h : nl ∉ l) (s : List α) :
    splitLines nl (l ++ nl :: s) = (l :: (splitLines nl s).1, (splitLines nl s).2) := by
  induction l with
  | nil => exact splitLines_nl nl s
  | cons c l ih =>
    have hc : c ≠ nl := fun he => h (he ▸ List.mem_cons_self)
    rw [List.cons_append, splitLines, if_neg hc, ih fun hm => h (List.mem_cons_of_mem _ hm)]

variable (nl)

theorem unlines_splitLines (s : List α) :
    unlines nl (splitLines nl s).1 ++ (splitLines nl s).2 = s := by
  induction s with
  | nil => rfl
  | cons c s ih =>
    rw [splitLines]
    split
    · next hc => simpa [hc] using ih
    · cases hls : (splitLines nl s).1 <;> simpa [hls] using ih

theorem not_mem_of_mem_splitLines (s : List α) :
    (∀ l ∈ (splitLines nl s).1, nl ∉ l) ∧ nl ∉ (splitLines nl s).2 := by
  induction s with
  | nil => simp
  | cons c s ih =>
    obtain ⟨hls, ht⟩ := ih
    rw [splitLines]
    split
    · simp_all
    · next hc =>
      cases h : (splitLines nl s).1 with
      | nil => simpa [Ne.symm hc] using ht
      | cons l ls =>
        rw [h] at hls
        simp_all [Ne.symm hc]

variable {nl}

theorem splitLines_unlines {ls : List (List α)} {t : List α} (h : ∀ l ∈ ls, nl ∉ l) (ht : nl ∉ t) :
    splitLines nl (unlines nl ls ++ t) = (ls, t) := by
  induction ls with
  | nil => exact splitLines_open ht
  | cons l ls ih =>
    have hls := ih fun l hl => h l (List.mem_cons_of_mem _ hl)
    rw [unlines_cons, List.append_assoc, List.cons_append, splitLines_line (h l List.mem_cons_self),
      hls]

end Whole

section Starts

/-- A line starts at this place of the text. -/
def Starts (s : List α) (i : ℕ) : Prop := i = 0 ∨ s[i - 1]? = some nl

instance (s : List α) (i : ℕ) : Decidable (Starts nl s i) := inferInstanceAs (Decidable (_ ∨ _))

variable {nl} {ls : List (List α)} {l : List α}

omit [DecidableEq α] in
theorem line_prefix_iff {l' : List α} (h : nl ∉ l) (h' : nl ∉ l') (s : List α) :
    l ++ [nl] <+: l' ++ nl :: s ↔ l = l' := by
  induction l generalizing l' with
  | nil =>
    cases l' with
    | nil => simp
    | cons c l' => simpa using fun he : nl = c => absurd (he ▸ List.mem_cons_self) h'
  | cons c l ih =>
    cases l' with
    | nil => simpa using fun he : c = nl => absurd (he ▸ List.mem_cons_self) h
    | cons d l' =>
      have ih := ih (fun hm => h (List.mem_cons_of_mem _ hm)) fun hm =>
        h' (List.mem_cons_of_mem _ hm)
      rw [List.cons_append, List.cons_append, List.cons_prefix_cons, ih, List.cons.injEq]

omit [DecidableEq α] in
theorem Starts.drop_eq (h : ∀ l ∈ ls, nl ∉ l) {i : ℕ} (hi : i ≤ (unlines nl ls).length)
    (hs : Starts nl (unlines nl ls) i) :
    ∃ ls', ls' <:+ ls ∧ (unlines nl ls).drop i = unlines nl ls' := by
  induction ls generalizing i with
  | nil => exact ⟨[], List.suffix_rfl, by simp⟩
  | cons l ls ih =>
    rcases Nat.eq_zero_or_pos i with rfl | hpos
    · exact ⟨l :: ls, List.suffix_rfl, rfl⟩
    · have hnl := hs.resolve_left (by omega)
      rw [unlines_cons] at hnl hi ⊢
      rcases Nat.lt_or_ge (i - 1) l.length with hlt | hge
      · rw [List.getElem?_append_left hlt] at hnl
        exact absurd (List.mem_of_getElem? hnl) (h l List.mem_cons_self)
      · obtain ⟨k, rfl⟩ := Nat.exists_eq_add_of_le (show l.length + 1 ≤ i by omega)
        have hrest : Starts nl (unlines nl ls) k := by
          cases k with
          | zero => exact Or.inl rfl
          | succ k =>
            right
            rw [List.getElem?_append_right hge] at hnl
            rwa [show l.length + 1 + (k + 1) - 1 - l.length = k + 1 by omega,
              List.getElem?_cons_succ] at hnl
        obtain ⟨ls', hsuffix, hdrop⟩ := ih (fun l hl => h l (List.mem_cons_of_mem _ hl))
          (by simp only [List.length_append, List.length_cons] at hi; omega) hrest
        refine ⟨ls', hsuffix.trans (List.suffix_cons _ _), ?_⟩
        rw [← hdrop, Nat.add_assoc, Nat.add_comm 1 k, ← List.drop_drop, List.drop_left,
          List.drop_succ_cons]

omit [DecidableEq α] in
/-- A line is one of the text if and only if it stands where a line starts. -/
theorem mem_iff_starts (h : ∀ l ∈ ls, nl ∉ l) (hl : nl ∉ l) :
    l ∈ ls ↔ ∃ i, l ++ [nl] <+: (unlines nl ls).drop i ∧ Starts nl (unlines nl ls) i := by
  constructor
  · intro hm
    obtain ⟨ls₁, ls₂, rfl⟩ := List.append_of_mem hm
    refine ⟨(unlines nl ls₁).length, ?_, ?_⟩
    · rw [unlines_append, List.drop_left, unlines_cons]
      exact ⟨unlines nl ls₂, by simp⟩
    · rcases List.eq_nil_or_concat ls₁ with rfl | ⟨ls₁, l', rfl⟩
      · exact Or.inl rfl
      · right
        rw [unlines_append]
        simp
  · rintro ⟨i, hstands, hs⟩
    have hi : i ≤ (unlines nl ls).length := by
      by_contra hlt
      rw [List.drop_eq_nil_of_le (by omega)] at hstands
      simpa using hstands.length_le
    obtain ⟨ls', hsuffix, hdrop⟩ := hs.drop_eq h hi
    rw [hdrop] at hstands
    cases ls' with
    | nil => simpa using hstands.length_le
    | cons l' ls' =>
      have hl' : l' ∈ ls := hsuffix.subset List.mem_cons_self
      rw [unlines_cons, line_prefix_iff hl (h l' hl')] at hstands
      exact hstands ▸ hl'

end Starts

section Cut

/-- What a reader takes from a text that has room for `k` elements: a line with its marker, or the
part of it that fits. The rest of the text is left. -/
def cutLine : ℕ → List α → List α × List α
  | _, [] => ([], [])
  | 0, s => ([], s)
  | k + 1, c :: s => if c = nl then ([c], s) else (c :: (cutLine k s).1, (cutLine k s).2)

@[simp] theorem cutLine_nil (k : ℕ) : cutLine nl k [] = ([], []) := by
  cases k <;> rfl

theorem cutLine_append (k : ℕ) (s : List α) : (cutLine nl k s).1 ++ (cutLine nl k s).2 = s := by
  induction s generalizing k with
  | nil => simp
  | cons c s ih =>
    cases k with
    | zero => rfl
    | succ k =>
      rw [cutLine]
      split
      · rfl
      · simp [ih]

theorem cutLine_length (k : ℕ) (s : List α) : (cutLine nl k s).1.length ≤ k := by
  induction s generalizing k with
  | nil => simp
  | cons c s ih =>
    cases k with
    | zero => simp [cutLine]
    | succ k =>
      rw [cutLine]
      split
      · simp
      · simpa using ih k

theorem cutLine_ne_nil {k : ℕ} (hk : 0 < k) {s : List α} (hs : s ≠ []) :
    (cutLine nl k s).1 ≠ [] := by
  obtain ⟨k, rfl⟩ := Nat.exists_eq_add_of_le' hk
  cases s with
  | nil => exact absurd rfl hs
  | cons c s =>
    rw [cutLine]
    split <;> simp

theorem cutLine_rest_lt {k : ℕ} (hk : 0 < k) {s : List α} (hs : s ≠ []) :
    (cutLine nl k s).2.length < s.length := by
  have happ := congrArg List.length (cutLine_append nl k s)
  have hpos := List.length_pos_iff.mpr (cutLine_ne_nil nl hk hs)
  rw [List.length_append] at happ
  omega

theorem not_mem_dropLast_cutLine (k : ℕ) (s : List α) : nl ∉ (cutLine nl k s).1.dropLast := by
  induction s generalizing k with
  | nil => simp
  | cons c s ih =>
    cases k with
    | zero => simp [cutLine]
    | succ k =>
      rw [cutLine]
      split
      · simp
      · next hc =>
        cases h : (cutLine nl k s).1 with
        | nil => simp
        | cons d t =>
          have ih := ih k
          rw [h] at ih
          simp [List.dropLast_cons_of_ne_nil, ih, Ne.symm hc]

variable {nl}

theorem cutLine_line {k : ℕ} {l : List α} (h : nl ∉ l) (hk : l.length < k) (s : List α) :
    cutLine nl k (l ++ nl :: s) = (l ++ [nl], s) := by
  induction l generalizing k with
  | nil =>
    obtain ⟨k, rfl⟩ := Nat.exists_eq_add_of_le' hk
    simp [cutLine]
  | cons c l ih =>
    obtain ⟨k, rfl⟩ := Nat.exists_eq_add_of_le' (Nat.lt_of_le_of_lt (Nat.zero_le _) hk)
    have hc : c ≠ nl := fun he => h (he ▸ List.mem_cons_self)
    have hl : nl ∉ l := fun hm => h (List.mem_cons_of_mem _ hm)
    rw [List.cons_append, cutLine, if_neg hc, ih hl (by simpa using hk), List.cons_append]

variable (nl)

/-- The pieces that a reader takes from a text of at most `n` elements, one after the other. -/
def cutPieces (k : ℕ) : ℕ → List α → List (List α)
  | 0, _ => []
  | _ + 1, [] => []
  | n + 1, c :: s => (cutLine nl k (c :: s)).1 :: cutPieces k n (cutLine nl k (c :: s)).2

/-- The pieces that a reader takes from a text, one after the other. -/
def cutLines (k : ℕ) (s : List α) : List (List α) := cutPieces nl k s.length s

variable {nl}

theorem cutPieces_eq {k : ℕ} (hk : 0 < k) (n : ℕ) (s : List α) (hn : s.length ≤ n) :
    cutPieces nl k n s = cutLines nl k s := by
  induction n using Nat.strongRecOn generalizing s with
  | ind n ih =>
    cases s with
    | nil => cases n <;> rfl
    | cons c s =>
      have hlt := cutLine_rest_lt nl hk (List.cons_ne_nil c s)
      obtain ⟨n, rfl⟩ := Nat.exists_eq_add_of_le' (Nat.lt_of_lt_of_le (Nat.succ_pos _) hn)
      simp only [List.length_cons, Nat.add_le_add_iff_right] at hn hlt
      rw [cutLines, List.length_cons, cutPieces, cutPieces, ih n (by omega) _ (by omega),
        ← ih s.length (by omega) _ (by omega)]

@[simp] theorem cutLines_nil (k : ℕ) : cutLines nl k [] = [] := rfl

theorem cutLines_eq {k : ℕ} (hk : 0 < k) {s : List α} (hs : s ≠ []) :
    cutLines nl k s = (cutLine nl k s).1 :: cutLines nl k (cutLine nl k s).2 := by
  cases s with
  | nil => exact absurd rfl hs
  | cons c s =>
    have hlt := cutLine_rest_lt nl hk (List.cons_ne_nil c s)
    rw [cutLines, List.length_cons, cutPieces, cutPieces_eq hk _ _ (Nat.le_of_lt_succ hlt)]

end Cut

end Somenote.Lines
