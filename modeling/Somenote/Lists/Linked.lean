import Mathlib.Data.List.Basic

/-! # Singly linked lists in a store of pointers

A list starts at an anchor and follows one pointer per node until the null pointer.
Inserting behind the anchor and unlinking a node change two pointers and one pointer.
-/

namespace Somenote

/-- Following `next` from the anchor `a` visits the nodes `l` and then ends in `null`. -/
def Linked {α : Type*} (null : α) (next : α → α) : α → List α → Prop
  | a, [] => next a = null
  | a, b :: l => next a = b ∧ b ≠ null ∧ Linked null next b l

namespace Linked

variable {α : Type*} {null : α} {next next' : α → α} {a b : α} {l m : List α}

@[simp] theorem nil_iff : Linked null next a [] ↔ next a = null := Iff.rfl

@[simp] theorem cons_iff :
    Linked null next a (b :: l) ↔ next a = b ∧ b ≠ null ∧ Linked null next b l := Iff.rfl

theorem congr (h : Linked null next a l) (hn : ∀ x ∈ a :: l, next' x = next x) :
    Linked null next' a l := by
  induction l generalizing a with
  | nil => exact (hn a (by simp)).trans h
  | cons b l ih =>
    obtain ⟨hb, hne, hl⟩ := h
    exact ⟨(hn a (by simp)).trans hb, hne, ih hl fun x hx => hn x (List.mem_cons_of_mem _ hx)⟩

theorem unique (h : Linked null next a l) (h' : Linked null next a m) : l = m := by
  induction l generalizing a m with
  | nil =>
    cases m with
    | nil => rfl
    | cons c m => exact absurd (h'.1.symm.trans h) h'.2.1
  | cons b l ih =>
    cases m with
    | nil => exact absurd (h.1.symm.trans h') h.2.1
    | cons c m =>
      obtain rfl : b = c := h.1.symm.trans h'.1
      rw [ih h.2.2 h'.2.2]

theorem ne_null (h : Linked null next a l) (hb : b ∈ l) : b ≠ null := by
  induction l generalizing a with
  | nil => simp at hb
  | cons c l ih =>
    rcases List.mem_cons.mp hb with rfl | hb
    · exact h.2.1
    · exact ih h.2.2 hb

theorem suffix (h : Linked null next a (l ++ b :: m)) : Linked null next b m := by
  induction l generalizing a with
  | nil => exact h.2.2
  | cons c l ih => exact ih h.2.2

theorem next_headD (h : Linked null next a l) : next a = l.headD null := by
  cases l with
  | nil => exact h
  | cons b l => exact h.1

/-- A list that ends does not come back to a node. -/
theorem nodup (h : Linked null next a l) : l.Nodup := by
  induction l generalizing a with
  | nil => exact List.nodup_nil
  | cons b l ih =>
    refine List.nodup_cons.mpr ⟨fun hb => ?_, ih h.2.2⟩
    obtain ⟨s, t, rfl⟩ := List.append_of_mem hb
    have he := congrArg List.length (unique h.2.2 (suffix h.2.2))
    simp only [List.length_append, List.length_cons] at he
    omega

theorem anchor_not_mem (h : Linked null next a l) : a ∉ l := by
  intro ha
  obtain ⟨s, t, rfl⟩ := List.append_of_mem ha
  have he := congrArg List.length (unique h (suffix h))
  simp only [List.length_append, List.length_cons] at he
  omega

theorem drop (h : Linked null next a (l ++ m)) : Linked null next (l.getLastD a) m := by
  induction l generalizing a with
  | nil => exact h
  | cons c l ih =>
    rw [List.getLastD_cons]
    exact ih h.2.2

/-- The pointer at the end of the nodes before `b` is the one to `b`. -/
theorem next_getLastD (h : Linked null next a (l ++ b :: m)) : next (l.getLastD a) = b :=
  h.drop.1

theorem anchor (h : Linked null next a l) (hn : next' b = next a)
    (hl : ∀ x ∈ l, next' x = next x) : Linked null next' b l := by
  cases l with
  | nil => exact hn.trans h
  | cons c l => exact ⟨hn.trans h.1, h.2.1, h.2.2.congr hl⟩

theorem push (h : Linked null next a l) (hb : b ≠ null) (ha : next' a = b)
    (hn : next' b = next a) (hl : ∀ x ∈ l, next' x = next x) :
    Linked null next' a (b :: l) :=
  ⟨ha, hb, h.anchor hn hl⟩

theorem divert (h : Linked null next a (l ++ b :: m)) (hn : ∀ x ∈ a :: l, next' x = next x)
    {m' : List α} (hm : Linked null next' b m') : Linked null next' a (l ++ b :: m') := by
  induction l generalizing a with
  | nil => exact ⟨(hn a (by simp)).trans h.1, h.2.1, hm⟩
  | cons c l ih =>
    exact ⟨(hn a (by simp)).trans h.1, h.2.1,
      ih h.2.2 fun x hx => hn x (List.mem_cons_of_mem _ hx)⟩

theorem getLastD_mem (l : List α) (a : α) : l.getLastD a ∈ a :: l := by
  rw [List.getLastD_eq_getLast?]
  cases h : l.getLast? with
  | none => simp
  | some x => simp [List.mem_of_getLast? h]

theorem concat (h : Linked null next a l) (hb : b ≠ null) (hlast : next' (l.getLastD a) = b)
    (hend : next' b = null) (hn : ∀ x ∈ a :: l, x ≠ l.getLastD a → next' x = next x) :
    Linked null next' a (l ++ [b]) := by
  induction l generalizing a with
  | nil => exact ⟨hlast, hb, hend⟩
  | cons c l ih =>
    rw [List.getLastD_cons] at hlast hn
    refine ⟨(hn a List.mem_cons_self ?_).trans h.1, h.2.1,
      ih h.2.2 hlast fun x hx => hn x (List.mem_cons_of_mem _ hx)⟩
    intro ha
    exact h.anchor_not_mem (ha ▸ getLastD_mem l c)

/-- Unlink the node `b` by redirecting the pointer in front of it. -/
theorem unlink (h : Linked null next a (l ++ b :: m)) (ha : a ∉ l ++ b :: m)
    (hp : next' (l.getLastD a) = next b) (hn : ∀ x, x ≠ l.getLastD a → next' x = next x) :
    Linked null next' a (l ++ m) := by
  induction l generalizing a with
  | nil =>
    obtain ⟨-, -, hbm⟩ := h
    have hm : ∀ x ∈ m, next' x = next x := by
      intro x hx
      refine hn x ?_
      rintro rfl
      exact ha (by simpa using Or.inr hx)
    cases m with
    | nil => exact hp.trans hbm
    | cons c m => exact ⟨hp.trans hbm.1, hbm.2.1, hbm.2.2.congr hm⟩
  | cons c l ih =>
    have hnd : c ∉ l ++ b :: m := (List.nodup_cons.mp h.nodup).1
    rw [List.getLastD_cons] at hp hn
    refine ⟨(hn a ?_).trans h.1, h.2.1, ih h.2.2 hnd hp hn⟩
    rintro rfl
    have hmem := getLastD_mem l c
    exact ha (by rw [List.cons_append, ← List.cons_append]; exact List.mem_append_left _ hmem)

end Linked

end Somenote
