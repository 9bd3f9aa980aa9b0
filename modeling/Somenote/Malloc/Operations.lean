import Somenote.Malloc.Layout

/-! # The operations on the blocks

What the functions between the calls and the memory do to the blocks of a heap: `coalesce` lets a
free block absorb its neighbours, `place` carves one, `extend_heap` adds one, and `find_fit` finds
the first one that is large enough.
-/

namespace Somenote.Malloc

open Heaps

variable {A : Arena} {s t : Heap} {bp p q v k l c asize : ℕ} {b : Block} {bs pre post : List Block}

section Put

theorem getSize_put (h : q + 4 ≤ p ∨ p + 4 ≤ q) : (s.PUT p v).GET_SIZE q = s.GET_SIZE q := by
  rw [Heap.GET_SIZE, Heap.GET, Heap.PUT, Mem.word_putWord_ne h]
  rfl

theorem prev_put (h : bp - 8 + 4 ≤ p ∨ p + 4 ≤ bp - 8) :
    (s.PUT p v).PREV_BLKP bp = s.PREV_BLKP bp := by
  rw [Heap.PREV_BLKP, DSIZE, getSize_put h]
  rfl

theorem next_put (h : bp - 4 + 4 ≤ p ∨ p + 4 ≤ bp - 4) :
    (s.PUT p v).NEXT_BLKP bp = s.NEXT_BLKP bp := by
  rw [Heap.NEXT_BLKP, WSIZE, getSize_put h]
  rfl

theorem ftrp_put (h : bp - 4 + 4 ≤ p ∨ p + 4 ≤ bp - 4) : (s.PUT p v).FTRP bp = s.FTRP bp := by
  rw [Heap.FTRP, HDRP, WSIZE, getSize_put h]
  rfl

end Put

section Neighbours

theorem Formed.prologue (h : Formed A s bs) : Tagged s.mem (A.mem_heap + 8) ⟨8, true⟩ :=
  (laid_cons.mp h.laid).1

theorem Formed.prev_taken (h : Formed A s (pre ++ b :: post))
    (hlast : ∀ d ∈ pre.getLast?, d.alloc = true) :
    s.GET_ALLOC (s.FTRP (s.PREV_BLKP (A.first + total pre))) = 1 := by
  rcases List.eq_nil_or_concat pre with rfl | ⟨pre, d, rfl⟩
  · have hprev : s.PREV_BLKP (A.first + 0) = A.mem_heap + 8 := h.prologue.prev
    rw [total_nil, hprev, h.prologue.getAlloc_ftr]
    rfl
  · rw [List.concat_eq_append, List.append_assoc] at h
    have hd := h.tagged
    have hprev := hd.prev
    have htaken : d.alloc = true := hlast d (by simp)
    rw [Nat.add_assoc] at hprev
    rw [List.concat_eq_append, total_append, total_cons, total_nil, Nat.add_zero, hprev,
      hd.getAlloc_ftr, htaken]
    rfl

theorem Formed.next_taken (h : Formed A s (pre ++ b :: post))
    (hhead : ∀ d ∈ post.head?, d.alloc = true) :
    s.GET_ALLOC (HDRP (s.NEXT_BLKP (A.first + total pre))) = 1 := by
  rw [h.tagged.next]
  rcases post with _ | ⟨d, post⟩
  · have hbrk := h.brk
    rw [total_append, total_cons, total_nil] at hbrk
    have hword : s.mem.word (HDRP (A.first + total pre + b.size)) = 1 := by
      have hhdr : HDRP (A.first + total pre + b.size) = s.mem_brk - 4 := by
        rw [HDRP, WSIZE, Arena.first]
        omega
      rw [hhdr, h.epilogue]
    rw [Heap.GET_ALLOC, Heap.GET, hword]
    rfl
  · have h' : Formed A s ((pre ++ [b]) ++ d :: post) := by simpa using h
    have hd := h'.tagged
    rw [total_append, total_cons, total_nil, Nat.add_zero, ← Nat.add_assoc] at hd
    rw [hd.getAlloc, hhead d rfl]
    rfl

end Neighbours

section Coalesce

theorem coalesce_none (hprev : s.GET_ALLOC (s.FTRP (s.PREV_BLKP bp)) = 1)
    (hnext : s.GET_ALLOC (HDRP (s.NEXT_BLKP bp)) = 1) : coalesce s bp = (bp, s) := by
  rw [coalesce]
  simp only [hprev, hnext]
  rfl

theorem coalesce_next (h : Formed A s (pre ++ ⟨c, false⟩ :: ⟨l, false⟩ :: post))
    (hprev : s.GET_ALLOC (s.FTRP (s.PREV_BLKP (A.first + total pre))) = 1) :
    coalesce s (A.first + total pre) =
      (A.first + total pre, s.tag (A.first + total pre) ⟨c + l, false⟩) := by
  have hc := h.tagged
  have h' : Formed A s ((pre ++ [⟨c, false⟩]) ++ ⟨l, false⟩ :: post) := by simpa using h
  have hl := h'.tagged
  have hle := h.total_le
  simp only [total_append, total_cons, total_nil, Nat.add_zero] at hl hle
  rw [← Nat.add_assoc] at hl
  have hput := put_tags s (A.first + total pre) false
    (Nat.dvd_add hc.unit hl.unit) (show c + l < 2 ^ 32 by omega)
  rw [coalesce]
  simp only [hprev, hc.next, hl.getAlloc, hc.getSize, hl.getSize]
  exact congrArg (Prod.mk _) hput

theorem coalesce_prev (h : Formed A s (pre ++ ⟨k, false⟩ :: ⟨c, false⟩ :: post))
    (hnext : s.GET_ALLOC (HDRP (s.NEXT_BLKP (A.first + total pre + k))) = 1) :
    coalesce s (A.first + total pre + k) =
      (A.first + total pre, s.tag (A.first + total pre) ⟨k + c, false⟩) := by
  have hk := h.tagged
  have h' : Formed A s ((pre ++ [⟨k, false⟩]) ++ ⟨c, false⟩ :: post) := by simpa using h
  have hc := h'.tagged
  have hle := h.total_le
  have hsized := sized_append.mp h.sized
  have hsizec := sized_cons.mp (sized_cons.mp hsized.2).2
  have hsizek := (sized_cons.mp hsized.2).1
  simp only [total_append, total_cons, total_nil, Nat.add_zero] at hc hle
  rw [← Nat.add_assoc] at hc
  have hprev := hk.prev
  have hfirst : 16 ≤ A.first := Nat.le_add_left ..
  dsimp only at hprev hsizec hsizek
  rw [coalesce]
  simp only [hprev, hk.getAlloc_ftr, hnext, hc.getSize, hk.getSize, hc.ftrp]
  -- the block in front is still found behind each of the two writes
  have hfound : ∀ v, (s.PUT (A.first + total pre + k + c - 8) v).PREV_BLKP
      (A.first + total pre + k) = A.first + total pre := fun v => by
    rw [prev_put (by omega), hprev]
  have hfound' : ∀ v v', ((s.PUT (A.first + total pre + k + c - 8) v).PUT
      (HDRP (A.first + total pre)) v').PREV_BLKP (A.first + total pre + k) =
      A.first + total pre := fun v v' => by
    rw [prev_put (by rw [HDRP, WSIZE]; omega), hfound]
  simp only [hfound, hfound']
  refine congrArg (Prod.mk _) ?_
  rw [Heap.tag, Heap.PUT, Heap.PUT, Heap.mk.injEq]
  refine ⟨?_, rfl, rfl⟩
  rw [Mem.putWord_comm (by rw [HDRP, WSIZE]; omega), Nat.add_comm c k, HDRP, WSIZE,
    ← Nat.add_assoc]
  rfl

theorem coalesce_both (h : Formed A s (pre ++ ⟨k, false⟩ :: ⟨c, false⟩ :: ⟨l, false⟩ :: post)) :
    coalesce s (A.first + total pre + k) =
      (A.first + total pre, s.tag (A.first + total pre) ⟨k + (c + l), false⟩) := by
  have hk := h.tagged
  have h' : Formed A s ((pre ++ [⟨k, false⟩]) ++ ⟨c, false⟩ :: ⟨l, false⟩ :: post) := by
    simpa using h
  have h'' : Formed A s ((pre ++ [⟨k, false⟩, ⟨c, false⟩]) ++ ⟨l, false⟩ :: post) := by
    simpa using h
  have hc := h'.tagged
  have hl := h''.tagged
  have hle := h.total_le
  have hsized := sized_append.mp h.sized
  have hsizek := sized_cons.mp hsized.2
  have hsizec := sized_cons.mp hsizek.2
  have hsizel := (sized_cons.mp hsizec.2).1
  simp only [total_append, total_cons, total_nil, Nat.add_zero] at hc hl hle
  rw [← Nat.add_assoc] at hc
  rw [← Nat.add_assoc, ← Nat.add_assoc] at hl
  have hprev := hk.prev
  have hfirst : 16 ≤ A.first := Nat.le_add_left ..
  dsimp only at hprev hsizec hsizek hsizel
  rw [coalesce]
  simp only [hprev, hk.getAlloc_ftr, hc.next, hl.getAlloc, hl.getSize_ftr, hc.getSize, hk.getSize]
  -- the block behind is still found behind the first write, and the one in front behind both
  have hnext : ∀ v, (s.PUT (HDRP (A.first + total pre)) v).NEXT_BLKP (A.first + total pre + k) =
      A.first + total pre + k + c := fun v => by
    rw [next_put (by rw [HDRP, WSIZE]; omega), hc.next]
  have hftr : ∀ v, (s.PUT (HDRP (A.first + total pre)) v).FTRP (A.first + total pre + k + c) =
      A.first + total pre + k + c + l - 8 := fun v => by
    rw [ftrp_put (by rw [HDRP, WSIZE]; omega), hl.ftrp]
  have hfound : ∀ v v', ((s.PUT (HDRP (A.first + total pre)) v).PUT
      (A.first + total pre + k + c + l - 8) v').PREV_BLKP (A.first + total pre + k) =
      A.first + total pre := fun v v' => by
    rw [prev_put (by omega), prev_put (by rw [HDRP, WSIZE]; omega), hprev]
  simp only [hnext, hftr, hfound]
  refine congrArg (Prod.mk _) ?_
  have hsum : c + (k + l) = k + (c + l) := by omega
  rw [Heap.tag, Heap.PUT, Heap.PUT, Heap.mk.injEq, hsum, HDRP, WSIZE]
  refine ⟨?_, rfl, rfl⟩
  rw [Nat.add_assoc (A.first + total pre + k), Nat.add_assoc (A.first + total pre)]
  rfl

/-- `t` has the blocks `bs`, and the objects of the blocks `xs` are as in `s`. -/
structure Changed (A : Arena) (s t : Heap) (xs : List (ℕ × Block)) (bs : List Block) : Prop where
  formed : Formed A t bs
  objects : SameObjects xs s.mem t.mem

theorem Changed.trans {u : Heap} {xs : List (ℕ × Block)} {bs' : List Block}
    (h : Changed A s t xs bs) (h' : Changed A t u xs bs') : Changed A s u xs bs' :=
  ⟨h'.formed, h.objects.trans h'.objects⟩

/-- A free block absorbs its neighbours. -/
theorem coalesce_spec (h : Formed A s (pre ++ ⟨c, false⟩ :: post)) :
    ∃ t, coalesce s (A.first + total pre) = (A.first + total (absorbLeft pre c).1, t) ∧
      Changed A s t (taken A.first pre ++ taken (A.first + total pre + c) post)
        (absorb pre c post) := by
  have hsized := sized_append.mp h.sized
  have hsizec := sized_cons.mp hsized.2
  rcases last_cases pre with hlast | ⟨pre, k, rfl⟩ <;>
    rcases head_cases post with hhead | ⟨l, post, rfl⟩
  · rw [absorb, absorbRight_taken hhead, absorbLeft_taken hlast]
    exact ⟨s, coalesce_none (h.prev_taken hlast) (h.next_taken hhead), h, SameObjects.refl _ _⟩
  · have hsizel := (sized_cons.mp hsizec.2).1
    have htag := h.retag [⟨c, false⟩, ⟨l, false⟩] ⟨c + l, false⟩ rfl
      ⟨Nat.dvd_add hsizec.1.1 hsizel.1, hsizec.1.2.trans (Nat.le_add_right ..)⟩
    rw [absorb, absorbRight_free, absorbLeft_taken hlast, absorbLeft_taken hlast]
    refine ⟨_, coalesce_next h (h.prev_taken hlast), htag.1, ?_⟩
    simpa [Nat.add_assoc] using htag.2
  · rw [List.append_assoc] at h
    have hsizek := (sized_cons.mp (sized_append.mp hsized.1).2).1
    have htag := h.retag [⟨k, false⟩, ⟨c, false⟩] ⟨k + c, false⟩ rfl
      ⟨Nat.dvd_add hsizek.1 hsizec.1.1, hsizek.2.trans (Nat.le_add_right ..)⟩
    have h' : Formed A s ((pre ++ [⟨k, false⟩]) ++ ⟨c, false⟩ :: post) := by simpa using h
    have hnext := h'.next_taken hhead
    rw [total_append, total_cons, total_nil, Nat.add_zero, ← Nat.add_assoc] at hnext ⊢
    rw [absorb, absorbRight_taken hhead, absorbLeft_free]
    refine ⟨_, coalesce_prev h hnext, htag.1, ?_⟩
    simpa [Nat.add_assoc] using htag.2
  · rw [List.append_assoc] at h
    have hsizek := (sized_cons.mp (sized_append.mp hsized.1).2).1
    have hsizel := (sized_cons.mp hsizec.2).1
    have htag := h.retag [⟨k, false⟩, ⟨c, false⟩, ⟨l, false⟩] ⟨k + (c + l), false⟩ rfl
      ⟨Nat.dvd_add hsizek.1 (Nat.dvd_add hsizec.1.1 hsizel.1),
        hsizek.2.trans (Nat.le_add_right ..)⟩
    rw [total_append, total_cons, total_nil, Nat.add_zero, ← Nat.add_assoc]
    rw [absorb, absorbRight_free, absorbLeft_free, absorbLeft_free]
    refine ⟨_, coalesce_both h, htag.1, ?_⟩
    simpa [Nat.add_assoc] using htag.2

end Coalesce

section Place

theorem place_spec (h : Formed A s (pre ++ ⟨c, false⟩ :: post)) (ha : 8 ∣ asize ∧ 16 ≤ asize)
    (hle : asize ≤ c) :
    Changed A s (place s (A.first + total pre) asize)
      (taken A.first pre ++ taken (A.first + total pre + c) post)
      (pre ++ (carve 16 asize c ++ post)) := by
  have hc := h.tagged
  have hlt := hc.lt
  have hlow := hc.low
  have hsizec := (sized_cons.mp (sized_append.mp h.sized).2).1
  have hsub : sizeSub c asize = c - asize := sizeSub_eq hle (by dsimp only at hlt; omega)
  dsimp only at hlt hsizec
  rw [place, carve]
  simp only [hc.getSize, hsub, DSIZE]
  by_cases hrest : 16 ≤ c - asize
  · have hdvd := Nat.dvd_sub hsizec.1 ha.1
    have hput := put_tags s (A.first + total pre) true ha.1
      (show asize < 2 ^ 32 by omega)
    have htag : Tagged (s.tag (A.first + total pre) ⟨asize, true⟩).mem (A.first + total pre)
        ⟨asize, true⟩ := tagged_tag ha.1 (by dsimp only; omega) (by dsimp only; omega) hlow
    have hput' := put_tags (s.tag (A.first + total pre) ⟨asize, true⟩)
      (A.first + total pre + asize) false hdvd (by omega)
    have htag' : Tagged ((s.tag (A.first + total pre) ⟨asize, true⟩).tag
        (A.first + total pre + asize) ⟨c - asize, false⟩).mem (A.first + total pre + asize)
        ⟨c - asize, false⟩ :=
      tagged_tag hdvd (by dsimp only; omega) (by dsimp only; omega) (by omega)
    -- the bytes of both blocks, and of the second one
    have hagree := tag_agree s (A.first + total pre) ⟨asize, true⟩ (by dsimp only; omega) hlow
    have hagree' := tag_agree (s.tag (A.first + total pre) ⟨asize, true⟩)
      (A.first + total pre + asize) ⟨c - asize, false⟩ (by dsimp only; omega) (by omega)
    have hboth := (hagree.mono le_rfl (show _ ≤ A.first + total pre + c - 4 by dsimp only; omega)).trans
      (hagree'.mono (show A.first + total pre - 4 ≤ _ by omega) (by dsimp only; omega))
    rw [if_pos hrest, if_pos (by omega)]
    rw [Bool.toNat_true] at hput
    rw [Bool.toNat_false] at hput'
    rw [hput, htag.next, hput']
    have htotal : total [⟨c, false⟩] = c := Nat.add_zero c
    have hobjects := h.sameObjects [⟨c, false⟩] (by rw [htotal]; exact hboth)
    refine ⟨h.window [⟨c, false⟩] _ (by rw [htotal]; exact hboth) ?_ ?_ ?_, ?_⟩
    · simp only [total_cons, total_nil]
      omega
    · rw [laid_cons, laid_cons]
      exact ⟨htag.frame hagree' (Or.inl (by dsimp only; omega)), htag', laid_nil⟩
    · exact sized_cons.mpr ⟨ha, sized_cons.mpr ⟨⟨hdvd, hrest⟩, sized_nil⟩⟩
    · rw [htotal] at hobjects
      exact hobjects
  · have hput := put_tags s (A.first + total pre) true hsizec.1 hlt
    rw [if_neg hrest, if_neg (by omega)]
    rw [Bool.toNat_true] at hput
    rw [hput]
    have htag := h.retag [⟨c, false⟩] ⟨c, true⟩ rfl hsizec
    exact ⟨htag.1, htag.2⟩

end Place

section Extend

/-- The heap can grow by `n` bytes. -/
def Grows (A : Arena) (s : Heap) (n : ℕ) : Prop :=
  n < 2 ^ 31 ∧ s.mem_brk + n ≤ A.mem_heap + A.MAX_HEAP

instance (A : Arena) (s : Heap) (n : ℕ) : Decidable (Grows A s n) :=
  inferInstanceAs (Decidable (_ ∧ _))

theorem memSbrk_of_grows {n : ℕ} (h : Grows A s n) :
    memSbrk A (toInt n) s = some (s.mem_brk, { s with mem_brk := s.mem_brk + n }) := by
  have hin := h.2
  rw [toInt_eq (by omega) (by have := h.1; omega), memSbrk, if_neg (by omega), Int.toNat_natCast]

theorem memSbrk_of_not_grows {n : ℕ} (hlt : n < 2 ^ 32) (h : ¬ Grows A s n) :
    memSbrk A (toInt n) s = none := by
  rw [memSbrk, if_pos]
  by_cases hsmall : n < 2 ^ 31
  · have hin : ¬ s.mem_brk + n ≤ A.mem_heap + A.MAX_HEAP := fun hin => h ⟨hsmall, hin⟩
    rw [toInt_eq (by omega) (by omega)]
    omega
  · exact Or.inl (toInt_neg (by omega) (by omega))

variable {n : ℕ}

theorem size_of_words (hn : 8 ∣ n) (hlt : n < 2 ^ 32) :
    (if n / WSIZE % 2 ≠ 0 then (n / WSIZE + 1) * WSIZE % 2 ^ 64 else n / WSIZE * WSIZE % 2 ^ 64) =
      n := by
  rw [WSIZE, if_neg (by omega), Nat.mod_eq_of_lt (by omega)]
  omega

theorem extendHeap_of_not_grows (hn : 8 ∣ n) (hlt : n < 2 ^ 32) (h : ¬ Grows A s n) :
    extendHeap A (n / WSIZE) s = none := by
  rw [extendHeap]
  simp only [size_of_words hn hlt, memSbrk_of_not_grows hlt h]

theorem formed_extend (h : Formed A s bs) (hn : 8 ∣ n ∧ 16 ≤ n) (hg : Grows A s n) :
    ∃ t, extendHeap A (n / WSIZE) s = some (coalesce t (A.first + total bs)) ∧
      Changed A s t (taken A.first bs) (bs ++ [⟨n, false⟩]) := by
  have hbrk : s.mem_brk = A.first + total bs := h.brk
  have hfirst : 16 ≤ A.first := Nat.le_add_left ..
  have hlt : n < 2 ^ 32 := by
    have hsmall := hg.1
    omega
  obtain ⟨s₁, hs₁⟩ : ∃ s₁ : Heap, s₁ = { s with mem_brk := s.mem_brk + n } := ⟨_, rfl⟩
  obtain ⟨t₁, ht₁⟩ : ∃ t₁, t₁ = s₁.tag s.mem_brk ⟨n, false⟩ := ⟨_, rfl⟩
  have htag : Tagged t₁.mem s.mem_brk ⟨n, false⟩ := by
    rw [ht₁]
    exact tagged_tag hn.1 (by dsimp only; omega) hlt (by omega)
  have hagree : Mem.AgreeOff (s.mem_brk - 4) (s.mem_brk + n - 4) s.mem t₁.mem := by
    have ha := tag_agree s₁ s.mem_brk ⟨n, false⟩ (by dsimp only; omega) (by omega)
    rwa [← ht₁, hs₁] at ha
  have hagree' : Mem.AgreeOff (s.mem_brk + n - 4) (s.mem_brk + n) t₁.mem
      (t₁.mem.putWord (s.mem_brk + n - 4) 1) := Mem.AgreeOff.putWord le_rfl (by omega)
  have hboth := (hagree.mono le_rfl (show _ ≤ s.mem_brk + n by omega)).trans
    (hagree'.mono (show s.mem_brk - 4 ≤ _ by omega) le_rfl)
  have hput := put_tags s₁ s.mem_brk false hn.1 hlt
  rw [Bool.toNat_false, ← ht₁] at hput
  refine ⟨t₁.PUT (s.mem_brk + n - 4) 1, ?_, ⟨?_, ?_, ?_, ?_, ?_, ?_⟩, ?_⟩
  · rw [extendHeap]
    simp only [size_of_words hn.1 hlt, memSbrk_of_grows hg]
    rw [← hs₁, hput, htag.next, HDRP, WSIZE, ← hbrk]
    rfl
  · rw [ht₁, hs₁]
    exact h.listp
  · have hold := h.laid.frame hboth (Or.inl (by rw [total_cons, hbrk, Arena.first]; dsimp only; omega))
    have hplace : A.mem_heap + 8 + total (⟨8, true⟩ :: bs) = s.mem_brk := by
      rw [hbrk, total_cons, Arena.first]
      dsimp only
      omega
    have hnew : Laid (t₁.mem.putWord (s.mem_brk + n - 4) 1) s.mem_brk [⟨n, false⟩] :=
      laid_cons.mpr ⟨htag.frame hagree' (Or.inl (by dsimp only; omega)), laid_nil⟩
    rw [← List.cons_append, laid_append, hplace]
    exact ⟨hold, hnew⟩
  · exact sized_append.mpr ⟨h.sized, sized_cons.mpr ⟨hn, sized_nil⟩⟩
  · rw [ht₁, hs₁, total_append, total_cons, total_nil]
    change s.mem_brk + n = _
    rw [hbrk, Arena.first]
    dsimp only
    omega
  · have hend : (t₁.PUT (s.mem_brk + n - 4) 1).mem_brk = s.mem_brk + n := by rw [ht₁, hs₁]; rfl
    rw [hend]
    exact Mem.word_putWord_of_lt (by decide)
  · rw [ht₁, hs₁]
    exact hg.2
  · rintro ⟨p, b⟩ hx i hi
    have hle := le_of_mem_placed (mem_taken.mp hx).1
    exact hboth _ (Or.inl (by dsimp only at *; omega))

/-- The heap grows by a block, which takes in the last one if that is free. -/
theorem extendHeap_spec (h : Formed A s bs) (hn : 8 ∣ n ∧ 16 ≤ n) (hg : Grows A s n) :
    ∃ t, extendHeap A (n / WSIZE) s = some (A.first + total (absorbLeft bs n).1, t) ∧
      Changed A s t (taken A.first bs) (absorb bs n []) := by
  obtain ⟨t, hext, ht⟩ := formed_extend h hn hg
  obtain ⟨u, hco, hu⟩ := coalesce_spec ht.formed
  rw [taken_nil, List.append_nil] at hu
  exact ⟨u, by rw [hext, hco], ht.trans hu⟩

end Extend

section Fit

/-- A block is too small for a request, or taken. -/
def Unfit (a : ℕ) (b : Block) : Prop := b.alloc = false → b.size < a

theorem fitLoop_spec (asize : ℕ) {fuel : ℕ} (pre : List Block) (h : Formed A s (pre ++ post)) (hfuel : post.length < fuel) :
    (fitLoop s asize fuel (A.first + total pre) = some none ∧ ∀ b ∈ post, Unfit asize b) ∨
      ∃ mid c rest, post = mid ++ ⟨c, false⟩ :: rest ∧ asize ≤ c ∧ (∀ b ∈ mid, Unfit asize b) ∧
        fitLoop s asize fuel (A.first + total pre) = some (some (A.first + total (pre ++ mid))) := by
  induction post generalizing pre fuel with
  | nil =>
    obtain ⟨fuel, rfl⟩ := Nat.exists_eq_succ_of_ne_zero (Nat.ne_of_gt hfuel)
    -- the epilogue has no size
    have hbrk := h.brk
    have hword : s.mem.word (HDRP (A.first + total pre)) = 1 := by
      have hhdr : HDRP (A.first + total pre) = s.mem_brk - 4 := by
        rw [hbrk, List.append_nil]
        rfl
      rw [hhdr, h.epilogue]
    have hsize : s.GET_SIZE (HDRP (A.first + total pre)) = 0 := by
      rw [Heap.GET_SIZE, Heap.GET, hword]
      rfl
    left
    refine ⟨?_, fun _ hb => absurd hb List.not_mem_nil⟩
    rw [fitLoop, hsize, if_neg (lt_irrefl 0)]
  | cons b post ih =>
    obtain ⟨fuel, rfl⟩ := Nat.exists_eq_succ_of_ne_zero (Nat.ne_of_gt (Nat.zero_lt_of_lt hfuel))
    have hb := h.tagged
    have hleast := hb.least
    rw [fitLoop, hb.getSize, hb.getAlloc, if_pos (by omega)]
    by_cases hfit : b.alloc = false ∧ asize ≤ b.size
    · right
      obtain ⟨c, x⟩ := b
      obtain ⟨rfl, hle⟩ := hfit
      refine ⟨[], c, post, rfl, hle, fun _ hb => absurd hb List.not_mem_nil, ?_⟩
      rw [if_pos ⟨rfl, hle⟩, List.append_nil]
    · have hunfit : Unfit asize b := fun hfree => by
        by_contra hle
        exact hfit ⟨hfree, Nat.le_of_not_lt hle⟩
      have hskip : ¬ (b.alloc.toNat = 0 ∧ asize ≤ b.size) := by
        simpa only [Bool.toNat_eq_zero] using hfit
      rw [if_neg hskip, hb.next]
      have hih := ih (pre ++ [b]) (by simpa using h) (Nat.lt_of_succ_lt_succ hfuel)
      rw [total_append, total_cons, total_nil, Nat.add_zero, ← Nat.add_assoc] at hih
      rcases hih with ⟨hnone, hall⟩ | ⟨mid, c, rest, rfl, hle, hmid, hsome⟩
      · exact Or.inl ⟨hnone, List.forall_mem_cons.mpr ⟨hunfit, hall⟩⟩
      · refine Or.inr ⟨b :: mid, c, rest, rfl, hle, List.forall_mem_cons.mpr ⟨hunfit, hmid⟩, ?_⟩
        rw [hsome, List.append_assoc]
        rfl

/-- The first block that is large enough, if there is one. -/
theorem findFit_spec (asize : ℕ) {fuel : ℕ} (h : Formed A s bs) (hfuel : bs.length + 1 < fuel) :
    (findFit fuel s asize = some none ∧ ∀ b ∈ bs, Unfit asize b) ∨
      ∃ pre c post, bs = pre ++ ⟨c, false⟩ :: post ∧ asize ≤ c ∧ (∀ b ∈ pre, Unfit asize b) ∧
        findFit fuel s asize = some (some (A.first + total pre)) := by
  obtain ⟨fuel, rfl⟩ := Nat.exists_eq_succ_of_ne_zero (Nat.ne_of_gt (Nat.zero_lt_of_lt hfuel))
  -- the prologue is taken
  have hstep : findFit (fuel + 1) s asize = fitLoop s asize fuel (A.first + total []) := by
    have hpro := h.prologue
    rw [findFit, h.listp, fitLoop, hpro.getSize, hpro.getAlloc, if_pos (by decide),
      if_neg (fun hfree => by cases hfree.1), hpro.next]
    rfl
  have hloop := fitLoop_spec asize [] h (Nat.lt_of_succ_lt_succ hfuel)
  rw [hstep]
  simpa using hloop

end Fit

end Somenote.Malloc
