import Somenote.Lists.Linked

/-! # Doubly linked lists

A list that is linked in both directions through one anchor, the null pointer: its next node is the
first one and its previous node the last one. A node is inserted anywhere and removed from anywhere
by one change in front of it and one behind it.
-/

namespace Somenote

variable {α : Type*} {null : α} {next next' prev prev' : α → α} {a x : α} {l m : List α}

theorem headD_reverse (l : List α) (a : α) : l.reverse.headD a = l.getLastD a := by
  rw [List.headD_eq_head?_getD, List.head?_reverse, List.getLastD_eq_getLast?]

theorem getLastD_reverse (l : List α) (a : α) : l.reverse.getLastD a = l.headD a := by
  rw [← headD_reverse, List.reverse_reverse]

theorem Linked.insert (h : Linked null next a (l ++ m)) (ha : a ∉ l ++ m) (hx : x ≠ null)
    (hl : next' (l.getLastD a) = x) (hm : next' x = m.headD null)
    (hn : ∀ y ∈ a :: (l ++ m), y ≠ l.getLastD a → next' y = next y) :
    Linked null next' a (l ++ x :: m) := by
  induction l generalizing a with
  | nil =>
    have hsame : ∀ y ∈ m, next' y = next y := by
      intro y hy
      refine hn y (List.mem_cons_of_mem _ hy) ?_
      rintro rfl
      exact ha hy
    exact ⟨hl, hx, h.anchor (hm.trans h.next_headD.symm) hsame⟩
  | cons c l ih =>
    have hc : c ∉ l ++ m := (List.nodup_cons.mp h.nodup).1
    rw [List.getLastD_cons] at hl hn
    have hac : a ≠ l.getLastD c := by
      rintro rfl
      have hmem := getLastD_mem l c
      exact ha (by rw [List.cons_append, ← List.cons_append]; exact List.mem_append_left _ hmem)
    exact ⟨(hn a List.mem_cons_self hac).trans h.1, h.2.1,
      ih h.2.2 hc hl fun y hy => hn y (List.mem_cons_of_mem _ hy)⟩

/-- The nodes `l`, linked by `next` and by `prev`. -/
structure Doubly (null : α) (next prev : α → α) (l : List α) : Prop where
  fwd : Linked null next null l
  bwd : Linked null prev null l.reverse

namespace Doubly

theorem empty (hn : next null = null) (hp : prev null = null) : Doubly null next prev [] :=
  ⟨hn, hp⟩

theorem nodup (h : Doubly null next prev l) : l.Nodup := h.fwd.nodup

theorem null_not_mem (h : Doubly null next prev l) : null ∉ l := fun hm => h.fwd.ne_null hm rfl

theorem next_null (h : Doubly null next prev l) : next null = l.headD null := h.fwd.next_headD

theorem prev_null (h : Doubly null next prev l) : prev null = l.getLastD null := by
  rw [h.bwd.next_headD, headD_reverse]

theorem next_eq (h : Doubly null next prev (l ++ x :: m)) : next x = m.headD null :=
  h.fwd.suffix.next_headD

theorem prev_eq (h : Doubly null next prev (l ++ x :: m)) : prev x = l.getLastD null := by
  have hb := h.bwd
  rw [List.reverse_append, List.reverse_cons, List.append_assoc, List.singleton_append] at hb
  rw [hb.suffix.next_headD, headD_reverse]

theorem insert (h : Doubly null next prev (l ++ m)) (hx : x ≠ null) (hnew : x ∉ l ++ m)
    (hl : next' (l.getLastD null) = x) (hxm : next' x = m.headD null)
    (hn : ∀ y, y ≠ l.getLastD null → y ≠ x → next' y = next y)
    (hm : prev' (m.headD null) = x) (hxl : prev' x = l.getLastD null)
    (hp : ∀ y, y ≠ m.headD null → y ≠ x → prev' y = prev y) :
    Doubly null next' prev' (l ++ x :: m) := by
  have hother : ∀ y ∈ null :: (l ++ m), y ≠ x := by
    rintro y hy rfl
    rcases List.mem_cons.mp hy with rfl | hy
    · exact hx rfl
    · exact hnew hy
  constructor
  · exact h.fwd.insert h.null_not_mem hx hl hxm fun y hy hne => hn y hne (hother y hy)
  · have hb := h.bwd
    rw [List.reverse_append] at hb
    rw [List.reverse_append, List.reverse_cons, List.append_assoc, List.singleton_append]
    refine hb.insert ?_ hx ?_ ?_ fun y hy hne => hp y ?_ (hother y ?_)
    · simpa [and_comm] using h.null_not_mem
    · rw [getLastD_reverse, hm]
    · rw [headD_reverse, hxl]
    · rwa [getLastD_reverse] at hne
    · simpa [or_comm] using hy

theorem remove (h : Doubly null next prev (l ++ x :: m))
    (hl : next' (l.getLastD null) = next x) (hn : ∀ y, y ≠ l.getLastD null → next' y = next y)
    (hm : prev' (m.headD null) = prev x) (hp : ∀ y, y ≠ m.headD null → prev' y = prev y) :
    Doubly null next' prev' (l ++ m) := by
  constructor
  · exact h.fwd.unlink h.null_not_mem hl hn
  · have hb := h.bwd
    rw [List.reverse_append, List.reverse_cons, List.append_assoc, List.singleton_append] at hb
    rw [List.reverse_append]
    refine hb.unlink ?_ ?_ fun y hne => hp y ?_
    · have hnull := h.null_not_mem
      simp only [List.mem_append, List.mem_cons, List.mem_reverse, not_or] at hnull ⊢
      exact ⟨hnull.2.2, hnull.2.1, hnull.1⟩
    · rw [getLastD_reverse, hm]
    · rwa [getLastD_reverse] at hne

end Doubly

end Somenote
