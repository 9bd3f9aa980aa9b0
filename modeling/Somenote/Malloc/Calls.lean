import Somenote.Malloc.Operations

/-! # The calls of the allocator

What `mm_malloc`, `mm_free` and `mm_realloc` do to a heap in which no two free blocks are
neighbours. The first call makes that heap.
-/

namespace Somenote.Malloc

open Heaps

variable {A : Arena} {s t : Heap} {bs pre post : List Block} {p k size fuel : ℕ} {m' : Mem}

/-- A heap with the blocks `bs`, behind `mm_init`. -/
structure Kept (A : Arena) (s : Heap) (bs : List Block) : Prop extends Formed A s bs where
  apart : Apart bs

/-- A heap between two calls. In front of the first one it has no blocks. -/
def Sound (A : Arena) (s : Heap) (bs : List Block) : Prop :=
  Kept A s bs ∨ bs = [] ∧ s.heap_listp = 0 ∧ s.mem_brk = A.mem_heap

/-- The block of size `k` at `p` is one more than the blocks `xs`, and the only one there. -/
structure Adds (xs : List (ℕ × Block)) (p k : ℕ) (ys : List (ℕ × Block)) : Prop where
  mem : ∀ x, x ∈ ys ↔ x = (p, ⟨k, true⟩) ∨ x ∈ xs
  fresh : ∀ x ∈ xs, x.1 ≠ p

theorem Kept.listp_ne (h : Kept A s bs) : s.heap_listp ≠ 0 := by
  rw [h.listp]
  omega

theorem Kept.ready_eq (h : Kept A s bs) : ready A s = s := if_neg h.listp_ne

theorem Kept.length_lt (h : Kept A s bs) : bs.length + 1 < A.MAX_HEAP := by
  have hlen : ∀ bs : List Block, Sized 8 16 bs → 16 * bs.length ≤ total bs := by
    intro bs hb
    induction bs with
    | nil => exact le_rfl
    | cons b bs ih =>
      have hcons := sized_cons.mp hb
      have hrest := ih hcons.2
      rw [List.length_cons, total_cons]
      omega
  have hle := hlen bs h.sized
  have hbrk := h.brk
  have hin := h.inside
  omega

section Init

theorem mmInit_spec (hbrk : s.mem_brk = A.mem_heap) :
    ∃ bs, Kept A (mmInit A s).2 bs ∧ taken A.first bs = [] := by
  have hroom : 16 ≤ A.MAX_HEAP := A.room
  obtain ⟨m, hm⟩ : ∃ m, m = (((s.mem.putWord A.mem_heap 0).putWord (A.mem_heap + 4)
      (PACK DSIZE 1)).putWord (A.mem_heap + 8) (PACK DSIZE 1)).putWord (A.mem_heap + 12)
      (PACK 0 1) := ⟨_, rfl⟩
  have hheader : m.word (A.mem_heap + 4) = PACK DSIZE 1 := by
    rw [hm, Mem.word_putWord_ne (by omega), Mem.word_putWord_ne (by omega)]
    exact Mem.word_putWord_of_lt (by decide)
  have hfooter : m.word (A.mem_heap + 8) = PACK DSIZE 1 := by
    rw [hm, Mem.word_putWord_ne (by omega)]
    exact Mem.word_putWord_of_lt (by decide)
  have hepilogue : m.word (A.mem_heap + 12) = 1 := by
    rw [hm]
    exact Mem.word_putWord_of_lt (by decide)
  have hformed : Formed A ⟨m, A.mem_heap + 16, A.mem_heap + 8⟩ [] :=
    { listp := rfl
      laid := laid_cons.mpr
        ⟨⟨dvd_refl 8, le_rfl, by decide, Nat.le_add_left .., hheader, hfooter⟩, laid_nil⟩
      sized := sized_nil
      brk := rfl
      epilogue := hepilogue
      inside := Nat.add_le_add_left hroom A.mem_heap }
  have hinit : mmInit A s = (extendHeap A (CHUNKSIZE / WSIZE)
      ⟨m, A.mem_heap + 16, A.mem_heap + 8⟩).elim (-1, ⟨m, A.mem_heap + 16, A.mem_heap + 8⟩)
        fun r => (0, r.2) := by
    have hincr : (4 : ℤ) * (WSIZE : ℕ) = 16 := rfl
    have hsbrk : memSbrk A (4 * WSIZE) s =
        some (A.mem_heap, { s with mem_brk := A.mem_heap + 16 }) := by
      rw [hincr, memSbrk, if_neg (by rw [hbrk]; omega), hbrk]
      rfl
    have hheap : (⟨m, A.mem_heap + 16, A.mem_heap + 8⟩ : Heap) =
        { (((({ s with mem_brk := A.mem_heap + 16 }.PUT A.mem_heap 0).PUT
          (A.mem_heap + 1 * WSIZE) (PACK DSIZE 1)).PUT (A.mem_heap + 2 * WSIZE)
          (PACK DSIZE 1)).PUT (A.mem_heap + 3 * WSIZE) (PACK 0 1)) with
          heap_listp := A.mem_heap + 2 * WSIZE } := by
      rw [hm]
      rfl
    rw [mmInit, hsbrk, hheap]
    dsimp only
    cases extendHeap A (CHUNKSIZE / WSIZE) _ <;> rfl
  have hchunk : 8 ∣ CHUNKSIZE ∧ 16 ≤ CHUNKSIZE := by decide
  by_cases hg : Grows A ⟨m, A.mem_heap + 16, A.mem_heap + 8⟩ CHUNKSIZE
  · obtain ⟨t, hext, ht⟩ := extendHeap_spec hformed hchunk hg
    rw [hinit, hext]
    exact ⟨_, ⟨ht.formed, apart_absorb List.isChain_nil List.isChain_nil⟩, taken_absorb⟩
  · rw [hinit, extendHeap_of_not_grows hchunk.1 (by decide) hg]
    exact ⟨[], ⟨hformed, List.isChain_nil⟩, rfl⟩

theorem Sound.ready (h : Sound A s bs) : ∃ bs', Kept A (ready A s) bs' ∧
    taken A.first bs' = taken A.first bs ∧ SameObjects (taken A.first bs) s.mem (ready A s).mem := by
  rcases h with h | ⟨rfl, hlist, hbrk⟩
  · rw [h.ready_eq]
    exact ⟨bs, h, rfl, SameObjects.refl _ _⟩
  · obtain ⟨bs', hk, htaken⟩ := mmInit_spec hbrk
    rw [Malloc.ready, if_pos hlist]
    exact ⟨bs', hk, htaken, fun _ hx => absurd hx List.not_mem_nil⟩

end Init

section Malloc

theorem adjust_spec (hsize : size + 15 < 2 ^ 32) : (8 ∣ adjust size ∧ 16 ≤ adjust size) ∧
    size + 8 ≤ adjust size ∧ adjust size < 2 ^ 32 := by
  rw [adjust, DSIZE]
  split
  · omega
  · rw [Nat.mod_eq_of_lt (by omega)]
    omega

theorem Formed.adds {a c : ℕ} (h : Formed A s (pre ++ ⟨c, false⟩ :: post)) (ha : a ≤ c) :
    ∃ k, a ≤ k ∧ Adds (taken A.first (pre ++ ⟨c, false⟩ :: post)) (A.first + total pre) k
      (taken A.first (pre ++ (carve 16 a c ++ post))) := by
  obtain ⟨k, hak, -, htaken⟩ := taken_carve (A.first + total pre) 16 ha
  refine ⟨k, hak, fun x => ?_, ?_⟩
  · rw [taken_append, taken_append, taken_append, htaken, carve_total ha, taken_free]
    simp only [List.mem_append, List.mem_singleton]
    tauto
  · rintro ⟨q, b⟩ hx heq
    dsimp only at heq
    obtain ⟨hq, hb⟩ := mem_taken.mp hx
    rw [heq] at hq
    have hfree : (A.first + total pre, ⟨c, false⟩) ∈ placed A.first (pre ++ ⟨c, false⟩ :: post) :=
      mem_placed.mpr ⟨pre, post, rfl, rfl⟩
    have hpos : ∀ b ∈ pre ++ ⟨c, false⟩ :: post, 0 < b.size := fun b hmem =>
      lt_of_lt_of_le (by decide) (h.sized b hmem).2
    rw [placed_unique hpos hq hfree] at hb
    cases hb

theorem Kept.place {a c : ℕ} (h : Kept A s (pre ++ ⟨c, false⟩ :: post)) (ha : 8 ∣ a ∧ 16 ≤ a)
    (hle : a ≤ c) : ∃ bs' k, a ≤ k ∧ Kept A (place s (A.first + total pre) a) bs' ∧
      SameObjects (taken A.first (pre ++ ⟨c, false⟩ :: post)) s.mem
        (Malloc.place s (A.first + total pre) a).mem ∧
      Adds (taken A.first (pre ++ ⟨c, false⟩ :: post)) (A.first + total pre) k
        (taken A.first bs') := by
  obtain ⟨hformed, hobjects⟩ := place_spec h.toFormed ha hle
  obtain ⟨k, hak, hadds⟩ := h.toFormed.adds hle
  rw [taken_append, taken_free] at hadds ⊢
  exact ⟨_, k, hak, ⟨hformed, apart_carve h.apart⟩, hobjects, hadds⟩

/-- No block has room for a request, and no room can be made. -/
def Full (A : Arena) (s : Heap) (bs : List Block) (size : ℕ) : Prop :=
  (∀ b ∈ bs, Unfit (adjust size) b) ∧ ¬ Grows A s (max (adjust size) CHUNKSIZE)

/-- A request of `size` bytes is given a block at `p`. -/
structure Given (A : Arena) (s t : Heap) (bs bs' : List Block) (size p k : ℕ) : Prop where
  room : size + 8 ≤ k
  kept : Kept A t bs'
  objects : SameObjects (taken A.first bs) s.mem t.mem
  adds : Adds (taken A.first bs) p k (taken A.first bs')

theorem Given.pos {bs' : List Block} (h : Given A s t bs bs' size p k) : p ≠ 0 := by
  have hmem := (h.adds.mem (p, ⟨k, true⟩)).mpr (Or.inl rfl)
  have hle := (le_of_mem_placed (mem_taken.mp hmem).1).1
  rw [Arena.first] at hle
  omega

/-- A request that is not empty is refused exactly when the heap is full. -/
theorem mmMalloc_cases (h : Kept A s bs) (hsize : size + 15 < 2 ^ 32) (h0 : size ≠ 0)
    (hfuel : A.MAX_HEAP ≤ fuel) :
    (Full A s bs size ∧ mmMalloc A fuel size s = some (0, s)) ∨
      ¬ Full A s bs size ∧ ∃ p t bs' k, mmMalloc A fuel size s = some (p, t) ∧
        Given A s t bs bs' size p k := by
  obtain ⟨hadj, hroom, hlt⟩ := adjust_spec hsize
  have hlen := h.length_lt
  have hcalls : mmMalloc A fuel size s = (findFit fuel s (adjust size)).bind fun r => r.elim
      ((extendHeap A (max (adjust size) CHUNKSIZE / WSIZE) s).elim (some (0, s))
        fun r => some (r.1, place r.2 r.1 (adjust size)))
      fun bp => some (bp, place s bp (adjust size)) := by
    unfold mmMalloc
    simp only [h.ready_eq, if_neg h0]
    apply congrArg ((findFit fuel s (adjust size)).bind)
    ext1 r
    cases r with
    | none => cases extendHeap A (max (adjust size) CHUNKSIZE / WSIZE) s <;> rfl
    | some bp => rfl
  rcases findFit_spec (adjust size) h.toFormed (show bs.length + 1 < fuel by omega) with
    ⟨hfind, hall⟩ | ⟨pre, c, post, rfl, hle, -, hfind⟩
  · have hmax : 8 ∣ max (adjust size) CHUNKSIZE ∧ 16 ≤ max (adjust size) CHUNKSIZE ∧
        max (adjust size) CHUNKSIZE < 2 ^ 32 := by
      rcases max_choice (adjust size) CHUNKSIZE with hm | hm <;> rw [hm]
      · exact ⟨hadj.1, hadj.2, hlt⟩
      · decide
    by_cases hg : Grows A s (max (adjust size) CHUNKSIZE)
    · obtain ⟨t, hext, hformed, hobjects⟩ := extendHeap_spec h.toFormed ⟨hmax.1, hmax.2.1⟩ hg
      have hkept : Kept A t (absorb bs (max (adjust size) CHUNKSIZE) []) :=
        ⟨hformed, apart_absorb h.apart List.isChain_nil⟩
      -- the new block is behind all others, and not smaller than what the heap has grown by
      have hsame : taken A.first (absorb bs (max (adjust size) CHUNKSIZE) []) =
          taken A.first bs := by
        rw [taken_absorb, taken_nil, List.append_nil]
      have hgrown : adjust size ≤ (absorbLeft bs (max (adjust size) CHUNKSIZE)).2 := by
        have hleft : max (adjust size) CHUNKSIZE ≤
            (absorbLeft bs (max (adjust size) CHUNKSIZE)).2 := by
          rcases last_cases bs with hlast | ⟨bs, k, rfl⟩
          · rw [absorbLeft_taken hlast]
          · rw [absorbLeft_free]
            exact Nat.le_add_left ..
        exact (le_max_left ..).trans hleft
      obtain ⟨bs', k, hak, hplace, hobj, hadds⟩ := hkept.place hadj hgrown
      rw [show _ ++ _ :: _ = absorb bs (max (adjust size) CHUNKSIZE) [] from rfl, hsame] at hadds hobj
      refine Or.inr ⟨fun hfull => hfull.2 hg, _, _, bs', k, ?_, hroom.trans hak, hplace,
        hobjects.trans hobj, hadds⟩
      simp only [hcalls, hfind, hext, Option.bind_some, Option.elim_none, Option.elim_some]
      rfl
    · refine Or.inl ⟨⟨hall, hg⟩, ?_⟩
      simp only [hcalls, hfind, extendHeap_of_not_grows hmax.1 hmax.2.2 hg, Option.bind_some,
        Option.elim_none]
  · obtain ⟨bs', k, hak, hplace, hobjects, hadds⟩ := h.place hadj hle
    refine Or.inr ⟨fun hfull => ?_, _, _, bs', k, ?_, hroom.trans hak, hplace, hobjects, hadds⟩
    · have hunfit := hfull.1 ⟨c, false⟩ (by simp) rfl
      exact absurd hle (Nat.not_le_of_lt hunfit)
    · rw [hcalls, hfind]
      rfl

end Malloc

section Free

/-- A block that is freed is one less, and the others stay where they are. -/
theorem mmFree_spec (h : Kept A s (pre ++ ⟨k, true⟩ :: post)) :
    Kept A (mmFree A (A.first + total pre) s) (absorb pre k post) ∧
      SameObjects (taken A.first (absorb pre k post)) s.mem
        (mmFree A (A.first + total pre) s).mem := by
  have hk := h.toFormed.tagged
  have hsized := (sized_cons.mp (sized_append.mp h.sized).2).1
  have hput := put_tags s (A.first + total pre) false hsized.1 hk.lt
  have hpos : A.first + total pre ≠ 0 := by
    rw [Arena.first]
    omega
  obtain ⟨hformed, hobjects⟩ := h.toFormed.retag [⟨k, true⟩] ⟨k, false⟩ rfl hsized
  obtain ⟨t, hco, ht, hobjects'⟩ := coalesce_spec hformed
  rw [Bool.toNat_false] at hput
  have hfree : mmFree A (A.first + total pre) s = t := by
    rw [mmFree, if_neg hpos]
    simp only [hk.getSize, h.ready_eq]
    rw [hput, hco]
  rw [hfree, taken_absorb]
  exact ⟨⟨ht, apart_absorb h.apart.left (Apart.right [_] (h.apart.right pre))⟩,
    SameObjects.trans hobjects hobjects'⟩

theorem mem_taken_free (hsized : Sized 8 16 (pre ++ ⟨k, true⟩ :: post)) (x : ℕ × Block) :
    x ∈ taken A.first (absorb pre k post) ↔
      x ∈ taken A.first (pre ++ ⟨k, true⟩ :: post) ∧ x.1 ≠ A.first + total pre := by
  rw [taken_absorb, taken_append, taken_taken]
  have hk := (sized_cons.mp (sized_append.mp hsized).2).1.2
  have hleft : ∀ x ∈ taken A.first pre, x.1 ≠ A.first + total pre := by
    rintro ⟨q, b⟩ hx
    have hplaced := (mem_taken.mp hx).1
    have hle := le_of_mem_placed hplaced
    have hb := ((sized_append.mp hsized).1 b (mem_of_mem_placed hplaced)).2
    dsimp only
    omega
  have hright : ∀ x ∈ taken (A.first + total pre + k) post, x.1 ≠ A.first + total pre := by
    rintro ⟨q, b⟩ hx
    have hle := le_of_mem_placed (mem_taken.mp hx).1
    dsimp only at hk ⊢
    omega
  simp only [List.mem_append, List.mem_cons]
  constructor
  · rintro (hx | hx)
    · exact ⟨Or.inl hx, hleft x hx⟩
    · exact ⟨Or.inr (Or.inr hx), hright x hx⟩
  · rintro ⟨hx | rfl | hx, hne⟩
    · exact Or.inl hx
    · exact absurd rfl hne
    · exact Or.inr hx

end Free

section Write

theorem Kept.write (h : Kept A s (pre ++ ⟨k, true⟩ :: post))
    (ha : Mem.AgreeOff (A.first + total pre) (A.first + total pre + (k - 8)) s.mem m') :
    Kept A { s with mem := m' } (pre ++ ⟨k, true⟩ :: post) ∧
      ∀ x ∈ taken A.first (pre ++ ⟨k, true⟩ :: post), x.1 ≠ A.first + total pre →
        ∀ i, i < x.2.size - 8 → m' (x.1 + i) = s.mem (x.1 + i) := by
  have hk := h.toFormed.tagged
  have hsized := (sized_cons.mp (sized_append.mp h.sized).2).1
  have htotal : total [⟨k, true⟩] = k := Nat.add_zero k
  have hwide : Mem.AgreeOff (A.first + total pre - 4) (A.first + total pre + k - 4) s.mem m' :=
    ha.mono (by omega) (by dsimp only at hsized; omega)
  have htag : Tagged m' (A.first + total pre) ⟨k, true⟩ := by
    have hlow := hk.low
    dsimp only at hsized
    refine { hk with header := ?_, footer := ?_ }
    · rw [ha.word (by omega), hk.header]
    · rw [ha.word (by dsimp only; omega), hk.footer]
  refine ⟨⟨h.toFormed.window [⟨k, true⟩] _ (by rw [htotal]; exact hwide) rfl
    (laid_cons.mpr ⟨htag, laid_nil⟩) (sized_cons.mpr ⟨hsized, sized_nil⟩), h.apart⟩, ?_⟩
  intro x hx hne
  have hobjects := h.toFormed.sameObjects [⟨k, true⟩] (by rw [htotal]; exact hwide)
  rw [htotal] at hobjects
  rw [taken_append, taken_taken] at hx
  refine hobjects x ?_
  rcases List.mem_append.mp hx with hx | hx
  · exact List.mem_append_left _ hx
  · rcases List.mem_cons.mp hx with rfl | hx
    · exact absurd rfl hne
    · exact List.mem_append_right _ hx

end Write

end Somenote.Malloc
