import Mathlib.Data.Nat.Bitwise
import Somenote.Heaps.Blocks
import Somenote.Malloc.Source

/-! # Blocks in memory

A block has its tag in a header in front of it and in a footer at its end. The blocks of a heap lie
between a prologue and an epilogue, and a change of the blocks of one part of it is a change of the
bytes of that part.
-/

namespace Somenote.Malloc

open Heaps

/-- What the header and the footer of a block hold. -/
def tag (b : Block) : ℕ := PACK b.size b.alloc.toNat

/-- A block at `bp`. -/
structure Tagged (m : Mem) (bp : ℕ) (b : Block) : Prop where
  unit : 8 ∣ b.size
  least : 8 ≤ b.size
  lt : b.size < 2 ^ 32
  low : 4 ≤ bp
  header : m.word (bp - 4) = tag b
  footer : m.word (bp + b.size - 8) = tag b

/-- A row of blocks from `lo` on. -/
def Laid (m : Mem) (lo : ℕ) (bs : List Block) : Prop := ∀ x ∈ placed lo bs, Tagged m x.1 x.2

/-- The objects of the blocks `xs` hold the same bytes. -/
def SameObjects (xs : List (ℕ × Block)) (m m' : Mem) : Prop :=
  ∀ x ∈ xs, ∀ i, i < x.2.size - 8 → m' (x.1 + i) = m (x.1 + i)

/-- The header and the footer of a block are written. -/
def Heap.tag (s : Heap) (bp : ℕ) (b : Block) : Heap :=
  { s with mem := (s.mem.putWord (bp - 4) (Malloc.tag b)).putWord (bp + b.size - 8) (Malloc.tag b) }

variable {s : Heap} {m m' m'' : Mem} {bp p k lo hi : ℕ} {b : Block} {x : Bool}
  {bs pre mid mid' post : List Block} {xs ys : List (ℕ × Block)}

section Words

theorem tag_eq (h : 8 ∣ b.size) : tag b = b.size + b.alloc.toNat := by
  obtain ⟨k, hk⟩ := h
  have hlt : b.alloc.toNat < 2 ^ 3 := by cases b.alloc <;> decide
  rw [tag, PACK, hk]
  exact (Nat.two_pow_add_eq_or_of_lt hlt k).symm

theorem and_mask {w : ℕ} (hw : w < 2 ^ 32) : w &&& 0xfffffff8 = w - w % 8 := by
  have hmask : (0xfffffff8 : ℕ) = 2 ^ 3 * (2 ^ 29 - 1) := by decide
  have hsub : w - w % 8 = 2 ^ 3 * (w / 2 ^ 3) := by
    have hdiv := Nat.div_add_mod w 8
    omega
  have hdiv : w / 2 ^ 3 < 2 ^ 29 := by omega
  rw [hmask, hsub]
  refine Nat.eq_of_testBit_eq fun i => ?_
  rw [Nat.testBit_and, Nat.testBit_two_pow_mul, Nat.testBit_two_pow_mul, Nat.testBit_two_pow_sub_one,
    Nat.testBit_div_two_pow]
  by_cases hi : 3 ≤ i
  · by_cases hlt : i - 3 < 29
    · simp [hi, hlt]
    · have hbit : w.testBit i = false := by
        refine Nat.testBit_lt_two_pow (lt_of_lt_of_le hw (Nat.pow_le_pow_right (by decide) ?_))
        omega
      simp [hi, hbit]
  · simp [hi]

theorem getSize_of_tag (hunit : 8 ∣ b.size) (h : s.mem.word p = tag b) :
    s.GET_SIZE p = b.size := by
  have hlt : b.alloc.toNat < 8 := by cases b.alloc <;> decide
  rw [Heap.GET_SIZE, Heap.GET, and_mask (Mem.word_lt ..), h, tag_eq hunit]
  omega

theorem getAlloc_of_tag (hunit : 8 ∣ b.size) (h : s.mem.word p = tag b) :
    s.GET_ALLOC p = b.alloc.toNat := by
  have hlt : b.alloc.toNat < 2 := by cases b.alloc <;> decide
  rw [Heap.GET_ALLOC, Heap.GET, h, tag_eq hunit, Nat.and_one_is_mod]
  omega

theorem tag_lt (hunit : 8 ∣ b.size) (hlt : b.size < 2 ^ 32) : tag b < 2 ^ 32 := by
  have hx : b.alloc.toNat < 2 := by cases b.alloc <;> decide
  rw [tag_eq hunit]
  omega

end Words

namespace Tagged

theorem getSize (h : Tagged s.mem bp b) : s.GET_SIZE (HDRP bp) = b.size :=
  getSize_of_tag h.unit h.header

theorem getAlloc (h : Tagged s.mem bp b) : s.GET_ALLOC (HDRP bp) = b.alloc.toNat :=
  getAlloc_of_tag h.unit h.header

theorem ftrp (h : Tagged s.mem bp b) : s.FTRP bp = bp + b.size - 8 := by
  rw [Heap.FTRP, h.getSize, DSIZE]

theorem next (h : Tagged s.mem bp b) : s.NEXT_BLKP bp = bp + b.size :=
  congrArg (bp + ·) h.getSize

theorem prev (h : Tagged s.mem bp b) : s.PREV_BLKP (bp + b.size) = bp := by
  rw [Heap.PREV_BLKP, DSIZE, getSize_of_tag h.unit h.footer, Nat.add_sub_cancel]

theorem getSize_ftr (h : Tagged s.mem bp b) : s.GET_SIZE (s.FTRP bp) = b.size := by
  rw [h.ftrp]
  exact getSize_of_tag h.unit h.footer

theorem getAlloc_ftr (h : Tagged s.mem bp b) : s.GET_ALLOC (s.FTRP bp) = b.alloc.toNat := by
  rw [h.ftrp]
  exact getAlloc_of_tag h.unit h.footer

theorem frame (h : Tagged m bp b) (ha : Mem.AgreeOff lo hi m m')
    (hout : bp + b.size - 4 ≤ lo ∨ hi ≤ bp - 4) : Tagged m' bp b := by
  have hleast := h.least
  have hlow := h.low
  refine { h with header := ?_, footer := ?_ }
  · rw [ha.word (by omega), h.header]
  · rw [ha.word (by omega), h.footer]

end Tagged

section Tag

theorem put_tags (s : Heap) (bp : ℕ) (x : Bool) (hunit : 8 ∣ k) (hlt : k < 2 ^ 32) :
    (s.PUT (HDRP bp) (PACK k x.toNat)).PUT ((s.PUT (HDRP bp) (PACK k x.toNat)).FTRP bp)
      (PACK k x.toNat) = s.tag bp ⟨k, x⟩ := by
  have hsize : (s.PUT (HDRP bp) (PACK k x.toNat)).GET_SIZE (HDRP bp) = k :=
    getSize_of_tag (b := ⟨k, x⟩) hunit (Mem.word_putWord_of_lt (tag_lt (b := ⟨k, x⟩) hunit hlt))
  rw [Heap.FTRP, hsize]
  rfl

theorem tag_agree (s : Heap) (bp : ℕ) (b : Block) (hleast : 8 ≤ b.size) (hlow : 4 ≤ bp) :
    Mem.AgreeOff (bp - 4) (bp + b.size - 4) s.mem (s.tag bp b).mem :=
  (Mem.AgreeOff.putWord (by omega) (by omega)).trans (.putWord (by omega) (by omega))

theorem tagged_tag (hunit : 8 ∣ b.size) (hleast : 8 ≤ b.size) (hlt : b.size < 2 ^ 32)
    (hlow : 4 ≤ bp) : Tagged (s.tag bp b).mem bp b where
  unit := hunit
  least := hleast
  lt := hlt
  low := hlow
  header := by
    rw [Heap.tag, Mem.word_putWord_ne (by omega), Mem.word_putWord_of_lt (tag_lt hunit hlt)]
  footer := Mem.word_putWord_of_lt (tag_lt hunit hlt)

end Tag

section Rows

@[simp] theorem laid_nil : Laid m lo [] := fun _ hx => absurd hx List.not_mem_nil

@[simp] theorem laid_cons : Laid m lo (b :: bs) ↔ Tagged m lo b ∧ Laid m (lo + b.size) bs :=
  List.forall_mem_cons

@[simp] theorem laid_append :
    Laid m lo (pre ++ post) ↔ Laid m lo pre ∧ Laid m (lo + total pre) post := by
  simp only [Laid, placed_append, List.forall_mem_append]

theorem Laid.frame (h : Laid m lo bs) {c d : ℕ} (ha : Mem.AgreeOff c d m m')
    (hout : lo + total bs - 4 ≤ c ∨ d ≤ lo - 4) : Laid m' lo bs := by
  rintro ⟨p, b⟩ hx
  have hle := le_of_mem_placed hx
  exact (h _ hx).frame ha (by dsimp only; omega)

/-- The blocks of one part of a row change, and only their bytes. -/
theorem Laid.window (pre mid mid' post : List Block) (h : Laid m lo (pre ++ (mid ++ post)))
    (ha : Mem.AgreeOff (lo + total pre - 4) (lo + total pre + total mid - 4) m m')
    (htotal : total mid' = total mid) (hmid : Laid m' (lo + total pre) mid') :
    Laid m' lo (pre ++ (mid' ++ post)) := by
  simp only [laid_append] at h ⊢
  obtain ⟨hpre, -, hpost⟩ := h
  refine ⟨hpre.frame ha (Or.inl le_rfl), hmid, ?_⟩
  rw [htotal]
  exact hpost.frame ha (Or.inr le_rfl)

end Rows

section Objects

theorem SameObjects.refl (xs : List (ℕ × Block)) (m : Mem) : SameObjects xs m m := fun _ _ _ _ => rfl

theorem SameObjects.trans (h : SameObjects xs m m') (h' : SameObjects xs m' m'') :
    SameObjects xs m m'' :=
  fun x hx i hi => (h' x hx i hi).trans (h x hx i hi)

theorem sameObjects_window (h : Laid m lo (pre ++ (mid ++ post)))
    (ha : Mem.AgreeOff (lo + total pre - 4) (lo + total pre + total mid - 4) m m') :
    SameObjects (taken lo pre ++ taken (lo + total pre + total mid) post) m m' := by
  simp only [laid_append] at h
  rintro ⟨p, b⟩ hx i hi
  dsimp only at hi
  rcases List.mem_append.mp hx with hx | hx
  · have hmem := (mem_taken.mp hx).1
    have hle := le_of_mem_placed hmem
    have hleast := (h.1 _ hmem).least
    exact ha _ (by dsimp only at *; omega)
  · have hmem := (mem_taken.mp hx).1
    have hle := le_of_mem_placed hmem
    exact ha _ (by dsimp only; omega)

end Objects

/-- A heap whose blocks are `bs`, between the prologue and the epilogue. -/
structure Formed (A : Arena) (s : Heap) (bs : List Block) : Prop where
  listp : s.heap_listp = A.mem_heap + 8
  laid : Laid s.mem (A.mem_heap + 8) (⟨8, true⟩ :: bs)
  sized : Sized 8 16 bs
  brk : s.mem_brk = A.mem_heap + 16 + total bs
  epilogue : s.mem.word (s.mem_brk - 4) = 1
  inside : s.mem_brk ≤ A.mem_heap + A.MAX_HEAP

/-- The address of the first block. -/
def Arena.first (A : Arena) : ℕ := A.mem_heap + 16

theorem dvd_first {A : Arena} (hs : Sized 8 16 pre) : 8 ∣ A.first + total pre := by
  have htotal : 8 ∣ total pre := by
    induction pre with
    | nil => exact Nat.dvd_zero 8
    | cons b pre ih =>
      have hcons := sized_cons.mp hs
      exact Nat.dvd_add hcons.1.1 (ih hcons.2)
  have haligned := A.aligned
  rw [Arena.first]
  omega

namespace Formed

variable {A : Arena}

theorem total_le (h : Formed A s bs) : total bs + 16 < 2 ^ 32 := by
  have hbrk := h.brk
  have hin := h.inside
  have hword := A.word
  omega

theorem tagged (h : Formed A s (pre ++ b :: post)) : Tagged s.mem (A.first + total pre) b := by
  have hlaid := h.laid
  simp only [laid_cons, laid_append] at hlaid
  exact hlaid.2.2.1

theorem window (mid mid' : List Block) (h : Formed A s (pre ++ (mid ++ post)))
    (ha : Mem.AgreeOff (A.first + total pre - 4) (A.first + total pre + total mid - 4) s.mem m')
    (htotal : total mid' = total mid) (hmid : Laid m' (A.first + total pre) mid')
    (hsized : Sized 8 16 mid') : Formed A { s with mem := m' } (pre ++ (mid' ++ post)) where
  listp := h.listp
  laid := by
    have hlaid := Laid.window (⟨8, true⟩ :: pre) mid mid' post h.laid
      (by simpa only [total_cons, Arena.first, ← Nat.add_assoc] using ha) htotal
      (by simpa only [total_cons, Arena.first, ← Nat.add_assoc] using hmid)
    exact hlaid
  sized := by
    have hold := h.sized
    rw [sized_append, sized_append] at hold ⊢
    exact ⟨hold.1, hsized, hold.2.2⟩
  brk := by
    have hbrk := h.brk
    simp only [total_append] at hbrk ⊢
    omega
  epilogue := by
    have hbrk := h.brk
    simp only [total_append] at hbrk
    dsimp only
    rw [ha.word (Or.inr _), h.epilogue]
    rw [Arena.first]
    omega
  inside := h.inside

theorem sameObjects (mid : List Block) (h : Formed A s (pre ++ (mid ++ post)))
    (ha : Mem.AgreeOff (A.first + total pre - 4) (A.first + total pre + total mid - 4) s.mem m') :
    SameObjects (taken A.first pre ++ taken (A.first + total pre + total mid) post) s.mem m' := by
  have hlaid := h.laid
  rw [laid_cons] at hlaid
  exact sameObjects_window hlaid.2 ha

theorem retag (mid : List Block) (b : Block) (h : Formed A s (pre ++ (mid ++ post))) (htotal : b.size = total mid)
    (hb : 8 ∣ b.size ∧ 16 ≤ b.size) :
    Formed A (s.tag (A.first + total pre) b) (pre ++ b :: post) ∧
      SameObjects (taken A.first pre ++ taken (A.first + total pre + total mid) post) s.mem
        (s.tag (A.first + total pre) b).mem := by
  have hle := h.total_le
  have hlow : 4 ≤ A.first + total pre := by
    rw [Arena.first]
    omega
  simp only [total_append] at hle
  have ha := tag_agree s (A.first + total pre) b (by omega) hlow
  rw [htotal] at ha
  refine ⟨h.window mid [b] ha (by simpa using htotal) ?_ ?_, h.sameObjects mid ha⟩
  · have htag : Tagged (s.tag (A.first + total pre) b).mem (A.first + total pre) b :=
      tagged_tag hb.1 (by omega) (by omega) hlow
    exact laid_cons.mpr ⟨htag, laid_nil⟩
  · exact sized_cons.mpr ⟨hb, sized_nil⟩

end Formed

end Somenote.Malloc
