import Somenote.Malloc.Runs

/-! # What the tags of the heap say

A walk over the headers finds the blocks of the heap. In every run `checkheap` finds no fault, the
free blocks are at most one more than the objects, and a request is refused only if it has to be.
-/

namespace Somenote.Malloc

open Heaps

/-- The blocks that the headers describe, from `bp` on. -/
def walk (s : Heap) : ℕ → ℕ → List Block
  | 0, _ => []
  | fuel + 1, bp =>
    if s.GET_SIZE (HDRP bp) > 0 then
      ⟨s.GET_SIZE (HDRP bp), s.GET_ALLOC (HDRP bp) ≠ 0⟩ :: walk s fuel (s.NEXT_BLKP bp)
    else []

/-- The blocks behind the prologue. -/
def blocksOf (fuel : ℕ) (s : Heap) : List Block := walk s fuel (s.NEXT_BLKP s.heap_listp)

variable {A : Arena} {fuel : ℕ} {mem : Mem} {m m' : Machine} {s t : Heap} {objs : Objects}
  {bs pre post : List Block} {p q k size : ℕ} {print : ℕ → Option (List Report)}

theorem Formed.epilogue_word (h : Formed A s bs) : s.mem.word (HDRP s.mem_brk) = 1 := h.epilogue

theorem Formed.epilogue_size (h : Formed A s bs) : s.GET_SIZE (HDRP s.mem_brk) = 0 := by
  rw [Heap.GET_SIZE, Heap.GET, h.epilogue_word]
  rfl

theorem Formed.epilogue_alloc (h : Formed A s bs) : s.GET_ALLOC (HDRP s.mem_brk) = 1 := by
  rw [Heap.GET_ALLOC, Heap.GET, h.epilogue_word]
  rfl

theorem Formed.first_total (h : Formed A s (pre ++ [])) : A.first + total pre = s.mem_brk := by
  rw [h.brk, List.append_nil]
  rfl

theorem first_snoc (pre : List Block) (b : Block) :
    A.first + total pre + b.size = A.first + total (pre ++ [b]) := by
  simp [Nat.add_assoc]

theorem walk_eq (pre : List Block) (h : Formed A s (pre ++ post)) (hfuel : post.length < fuel) :
    walk s fuel (A.first + total pre) = post := by
  induction post generalizing pre fuel with
  | nil =>
    obtain ⟨fuel, rfl⟩ := Nat.exists_eq_succ_of_ne_zero (Nat.ne_of_gt hfuel)
    rw [walk, h.first_total, h.epilogue_size, if_neg (lt_irrefl 0)]
  | cons b post ih =>
    obtain ⟨fuel, rfl⟩ := Nat.exists_eq_succ_of_ne_zero (Nat.ne_of_gt (Nat.zero_lt_of_lt hfuel))
    have hb := h.tagged
    have hleast := hb.least
    have hrest := ih (pre ++ [b]) (by simpa using h) (Nat.lt_of_succ_lt_succ hfuel)
    have hblock : (⟨b.size, decide (b.alloc.toNat ≠ 0)⟩ : Block) = b := by
      obtain ⟨c, x⟩ := b
      cases x <;> rfl
    rw [walk, hb.getSize, hb.getAlloc, if_pos (by omega), hb.next, first_snoc, hrest, hblock]

theorem Kept.blocksOf_eq (h : Kept A s bs) (hfuel : A.MAX_HEAP ≤ fuel) : blocksOf fuel s = bs := by
  have hlen := h.length_lt
  have hnext : s.NEXT_BLKP s.heap_listp = A.first + total [] := by
    rw [h.listp, h.toFormed.prologue.next]
    rfl
  rw [blocksOf, hnext]
  exact walk_eq [] h.toFormed (by omega)

section Check

theorem checkblock_eq (hp : 8 ∣ p) {b : Block} (h : Tagged s.mem p b) : checkblock s p = [] := by
  have hhdr : s.GET (HDRP p) = s.GET (s.FTRP p) := by
    rw [h.ftrp, Heap.GET, Heap.GET, h.footer]
    exact h.header
  rw [checkblock, if_neg (by omega), if_neg (not_not.mpr hhdr)]
  rfl

theorem checkLoop_eq (pre : List Block) (h : Formed A s (pre ++ post)) (hfuel : post.length < fuel)
    (hprint : ∀ p, s.GET_SIZE (HDRP p) ≠ 0 → print p = some []) :
    checkLoop s print fuel (A.first + total pre) = some ([], s.mem_brk) := by
  induction post generalizing pre fuel with
  | nil =>
    obtain ⟨fuel, rfl⟩ := Nat.exists_eq_succ_of_ne_zero (Nat.ne_of_gt hfuel)
    rw [checkLoop, h.first_total, h.epilogue_size, if_neg (lt_irrefl 0)]
    rfl
  | cons b post ih =>
    obtain ⟨fuel, rfl⟩ := Nat.exists_eq_succ_of_ne_zero (Nat.ne_of_gt (Nat.zero_lt_of_lt hfuel))
    have hb := h.tagged
    have hleast := hb.least
    have hsize := hb.getSize
    have hrest := ih (pre ++ [b]) (by simpa using h) (Nat.lt_of_succ_lt_succ hfuel)
    rw [checkLoop, if_pos (by omega), hprint _ (by omega), hb.next, first_snoc, hrest,
      checkblock_eq (dvd_first (sized_append.mp h.sized).1) hb]
    rfl

/-- A check finds nothing but what is shown of the epilogue. -/
theorem checkheapWith_eq (h : Kept A s bs) (hfuel : A.MAX_HEAP ≤ fuel) {last : List Report}
    (hprint : ∀ p, s.GET_SIZE (HDRP p) ≠ 0 → print p = some []) (hlast : print s.mem_brk = some last) :
    checkheapWith s fuel print = some last := by
  have hlen := h.length_lt
  have hpro := h.toFormed.prologue
  have hlisted : checkblock s (A.mem_heap + 8) = [] :=
    checkblock_eq (Nat.dvd_add A.aligned (dvd_refl 8)) hpro
  obtain ⟨fuel, rfl⟩ := Nat.exists_eq_succ_of_ne_zero (show fuel ≠ 0 by omega)
  have hsize := hpro.getSize
  have hloop : checkLoop s print (fuel + 1) (A.mem_heap + 8) = some ([], s.mem_brk) := by
    have hrest : checkLoop s print fuel (A.mem_heap + 8 + (⟨8, true⟩ : Block).size) =
        some ([], s.mem_brk) :=
      checkLoop_eq [] h.toFormed (show bs.length < fuel by omega) hprint
    rw [checkLoop, hsize, if_pos (by decide), hprint _ (by rw [hsize]; decide), hpro.next, hlisted]
    rw [hrest]
    rfl
  rw [checkheapWith]
  simp only [h.listp, hsize, hpro.getAlloc, hlisted, hloop, Option.bind_eq_bind, Option.bind_some,
    hlast, h.toFormed.epilogue_size, h.toFormed.epilogue_alloc]
  simp [DSIZE]

theorem printblock_eq (h : Kept A s bs) (hfuel : A.MAX_HEAP ≤ fuel) (p : ℕ) :
    printblock s fuel p = some (if s.GET_SIZE (HDRP p) = 0 then [.eol p] else []) := by
  rw [printblock, checkheapWith_eq h hfuel (fun _ _ => rfl) rfl]
  rfl

theorem checkheap_eq (h : Kept A s bs) (hfuel : A.MAX_HEAP ≤ fuel) (verbose : Bool) :
    checkheap s fuel verbose =
      some (if verbose then [.heap s.heap_listp, .eol s.mem_brk] else []) := by
  cases verbose with
  | false => exact checkheapWith_eq h hfuel (fun _ _ => rfl) rfl
  | true =>
    have hlast : printblock s fuel s.mem_brk = some [.eol s.mem_brk] := by
      rw [printblock_eq h hfuel, if_pos h.toFormed.epilogue_size]
    have hcheck := checkheapWith_eq h hfuel
      (fun p hp => by rw [printblock_eq h hfuel, if_neg hp]) hlast
    rw [checkheap, if_pos rfl, hcheck]
    rfl

end Check

theorem Reach.kept (hfuel : A.MAX_HEAP ≤ fuel) (h : Reach A fuel mem m)
    (hinit : m.heap.heap_listp ≠ 0) : ∃ bs, Kept A m.heap bs ∧ Holds A m.heap m.objs bs := by
  obtain ⟨bs, hh⟩ := h.holds hfuel
  exact ⟨bs, hh.sound.resolve_right fun hs => hinit hs.2.1, hh⟩

/-- In every run, `checkheap` reports no fault of the heap. -/
theorem checkheap_silent (hfuel : A.MAX_HEAP ≤ fuel) (h : Reach A fuel mem m)
    (hinit : m.heap.heap_listp ≠ 0) (verbose : Bool) : checkheap m.heap fuel verbose =
      some (if verbose then [.heap m.heap.heap_listp, .eol m.heap.mem_brk] else []) := by
  obtain ⟨bs, hk, -⟩ := h.kept hfuel hinit
  exact checkheap_eq hk hfuel verbose

/-- The second of two objects is left, between a free block of 112 bytes and a larger one. -/
theorem exists_reach : ∃ m, Reach .small 65536 (fun _ => 0) m ∧ m.heap.heap_listp ≠ 0 ∧
    m.heap.mem_brk = 8208 ∧
    blocksOf 65536 m.heap = [⟨112, false⟩, ⟨208, true⟩, ⟨3776, false⟩] := by
  have hrun : ((Machine.start .small fun _ => 0).run .small 65536
      [.malloc 100, .malloc 200, .free 4112]).any fun m => m.heap.heap_listp ≠ 0 ∧
        m.heap.mem_brk = 8208 ∧
        blocksOf 65536 m.heap = [⟨112, false⟩, ⟨208, true⟩, ⟨3776, false⟩] := by decide +kernel
  obtain ⟨m, hm, h⟩ := (Option.any_eq_true ..).mp hrun
  exact ⟨m, Reach.start.run hm, of_decide_eq_true h⟩

theorem checkheap_silent_once : ∃ m, Reach .small 65536 (fun _ => 0) m ∧
    checkheap m.heap 65536 false = some [] := by
  obtain ⟨m, hm, hinit, -⟩ := exists_reach
  exact ⟨m, hm, checkheap_silent le_rfl hm hinit false⟩

theorem Holds.ncard (h : Holds A s objs bs) (hs : Sized 8 16 bs) :
    {p | (objs p).isSome}.ncard = bs.countP (·.alloc) := by
  have hset : {p | (objs p).isSome} = ((taken A.first bs).map Prod.fst).toFinset := by
    ext p
    rw [Set.mem_ofPred_eq, Finset.mem_coe, List.mem_toFinset, List.mem_map]
    constructor
    · intro hp
      obtain ⟨os, hos⟩ := Option.isSome_iff_exists.mp hp
      obtain ⟨k, hk, -⟩ := h.object p os hos
      exact ⟨_, hk, rfl⟩
    · rintro ⟨x, hx, rfl⟩
      exact h.owned x hx
  have hpos : ∀ b ∈ bs, 0 < b.size := fun b hb => lt_of_lt_of_le (by decide) (hs b hb).2
  have hnodup : ((taken A.first bs).map Prod.fst).Nodup :=
    (List.Sublist.map _ List.filter_sublist).nodup (placed_nodup hpos)
  rw [hset, Set.ncard_coe_finset, List.toFinset_card_of_nodup hnodup, List.length_map, length_taken]

/-- In every run no two free blocks are side by side, and the free blocks are at most one more than
the objects. When all objects are freed, the heap is one free block. -/
theorem free_blocks_le (hfuel : A.MAX_HEAP ≤ fuel) (h : Reach A fuel mem m)
    (hinit : m.heap.heap_listp ≠ 0) :
    Apart (blocksOf fuel m.heap) ∧
    (blocksOf fuel m.heap).countP (fun b => !b.alloc) ≤ {p | (m.objs p).isSome}.ncard + 1 ∧
      ((∀ p, m.objs p = none) → blocksOf fuel m.heap = [] ∨
        blocksOf fuel m.heap = [⟨m.heap.mem_brk - A.mem_heap - 16, false⟩]) := by
  obtain ⟨bs, hk, hh⟩ := h.kept hfuel hinit
  rw [hk.blocksOf_eq hfuel, hh.ncard hk.sized]
  refine ⟨hk.apart, hk.apart.free_le, fun hnone => ?_⟩
  have hfree : ∀ b ∈ bs, b.alloc = false := by
    intro b hb
    obtain ⟨pre, post, rfl⟩ := List.append_of_mem hb
    by_contra htaken
    have hmem : (A.first + total pre, b) ∈ taken A.first (pre ++ b :: post) :=
      mem_taken.mpr ⟨mem_placed.mpr ⟨pre, post, rfl, rfl⟩, by simpa using htaken⟩
    have hsome := hh.owned _ hmem
    rw [hnone] at hsome
    cases hsome
  have hbrk := hk.brk
  rcases bs with _ | ⟨⟨c, x⟩, _ | ⟨d, bs⟩⟩
  · exact Or.inl rfl
  · obtain rfl : x = false := hfree ⟨c, x⟩ (by simp)
    rw [total_cons, total_nil] at hbrk
    have hc : c = m.heap.mem_brk - A.mem_heap - 16 := by
      dsimp only at hbrk
      omega
    exact Or.inr (by rw [← hc])
  · -- two free blocks would be neighbours
    have hchain := (List.isChain_cons_cons.mp hk.apart).1
    rw [hfree _ (by simp), hfree d (by simp)] at hchain
    simp at hchain

theorem free_blocks_le_once : ∃ m, Reach .small 65536 (fun _ => 0) m ∧
    blocksOf 65536 m.heap = [⟨112, false⟩, ⟨208, true⟩, ⟨3776, false⟩] ∧
    Apart (blocksOf 65536 m.heap) ∧
    (blocksOf 65536 m.heap).countP (fun b => !b.alloc) ≤ {p | (m.objs p).isSome}.ncard + 1 := by
  obtain ⟨m, hm, hinit, -, hblocks⟩ := exists_reach
  obtain ⟨hapart, hle, -⟩ := free_blocks_le le_rfl hm hinit
  exact ⟨m, hm, hblocks, hapart, hle⟩

theorem first_unique {a : ℕ} {b c : Block} {pre' post' : List Block}
    (h : pre ++ b :: post = pre' ++ c :: post') (hpre : ∀ x ∈ pre, Unfit a x)
    (hb : ¬ Unfit a b) (hpre' : ∀ x ∈ pre', Unfit a x) (hc : ¬ Unfit a c) : pre = pre' := by
  classical
  have htake : ∀ (pre post : List Block) (b : Block), (∀ x ∈ pre, Unfit a x) → ¬ Unfit a b →
      (pre ++ b :: post).takeWhile (fun x => decide (Unfit a x)) = pre := by
    intro pre post b hpre hb
    rw [List.takeWhile_append_of_pos (by simpa using hpre),
      List.takeWhile_cons_of_neg (by simpa using hb), List.append_nil]
  rw [← htake pre post b hpre hb, h, htake pre' post' c hpre' hc]

/-- In every run a request is refused exactly when it is empty, or no free block is large enough and
the heap cannot grow. Else it is given the first free block that is large enough, if there is one. -/
theorem malloc_null_iff (hfuel : A.MAX_HEAP ≤ fuel) (h : Reach A fuel mem m)
    (hinit : m.heap.heap_listp ≠ 0) (hsize : FitsWord size) :
    ∃ p m', m.step A fuel (.malloc size) = some (p, m') ∧
      (p = 0 ↔ size = 0 ∨ (∀ b ∈ blocksOf fuel m.heap, b.alloc = false → b.size < adjust size) ∧
        ¬ Grows A m.heap (max (adjust size) CHUNKSIZE)) ∧
      ∀ pre c post, size ≠ 0 → blocksOf fuel m.heap = pre ++ ⟨c, false⟩ :: post →
        (∀ b ∈ pre, b.alloc = false → b.size < adjust size) → adjust size ≤ c →
        p = A.mem_heap + 16 + total pre := by
  obtain ⟨bs, hk, -⟩ := h.kept hfuel hinit
  rw [hk.blocksOf_eq hfuel]
  by_cases h0 : size = 0
  · refine ⟨0, ⟨m.heap, m.objs⟩, ?_, ⟨fun _ => Or.inl h0, fun _ => rfl⟩, ?_⟩
    · rw [Machine.step, mmMalloc, hk.ready_eq, if_pos h0]
      rfl
    · exact fun _ _ _ hne => absurd h0 hne
  · rcases mmMalloc_cases hk hsize h0 hfuel with ⟨hfull, hnone⟩ | ⟨hfull, p, t, bs', k, hsome, hg⟩
    · refine ⟨0, ⟨m.heap, m.objs.give 0 size⟩, by rw [Machine.step, hnone]; rfl,
        ⟨fun _ => Or.inr hfull, fun _ => rfl⟩, ?_⟩
      rintro pre c post - rfl - hle
      exact absurd hle (Nat.not_le_of_lt (hfull.1 ⟨c, false⟩ (by simp) rfl))
    · refine ⟨p, ⟨t, m.objs.give p size⟩, by rw [Machine.step, hsome]; rfl,
        ⟨fun hp => absurd hp hg.pos, fun hp => ?_⟩, ?_⟩
      · exact absurd (hp.resolve_left h0) hfull
      · rintro pre c post - rfl hpre hle
        have hc : ¬ Unfit (adjust size) ⟨c, false⟩ := fun hunfit =>
          absurd hle (Nat.not_le_of_lt (hunfit rfl))
        have hlen := hk.length_lt
        rcases findFit_spec (adjust size) hk.toFormed
          (lt_of_lt_of_le hlen hfuel) with ⟨-, hall⟩ | ⟨pre', c', post', hbs, hle', hpre', hfind⟩
        · exact absurd (hall ⟨c, false⟩ (by simp)) hc
        · have hc' : ¬ Unfit (adjust size) ⟨c', false⟩ := fun hunfit =>
            absurd hle' (Nat.not_le_of_lt (hunfit rfl))
          have heq := first_unique hbs hpre hc hpre' hc'
          have hplaced : mmMalloc A fuel size m.heap = some (A.first + total pre',
              place m.heap (A.first + total pre') (adjust size)) := by
            rw [mmMalloc, hk.ready_eq, if_neg h0]
            simp only [hfind]
            rfl
          rw [hplaced] at hsome
          rw [← (Prod.mk.inj (Option.some.inj hsome)).1, heq]
          rfl

/-- A request that does not fit into the first free block, one for which the heap has to grow, and one
that is refused. -/
theorem malloc_null_iff_behind : ∃ m, Reach .small 65536 (fun _ => 0) m ∧
    blocksOf 65536 m.heap = [⟨112, false⟩, ⟨208, true⟩, ⟨3776, false⟩] ∧
    (∃ m', m.step .small 65536 (.malloc 150) = some (4432, m')) ∧
    (∃ p m', m.step .small 65536 (.malloc 5000) = some (p, m') ∧ p ≠ 0) ∧
    ∃ m', m.step .small 65536 (.malloc 62000) = some (0, m') := by
  obtain ⟨m, hm, hinit, hbrk, hblocks⟩ := exists_reach
  have hfuel : Arena.small.MAX_HEAP ≤ 65536 := le_rfl
  have hgrows : ∀ n, Grows .small m.heap n ↔ n < 2 ^ 31 ∧ 8208 + n ≤ 4096 + 65536 := by
    intro n
    rw [Grows, hbrk]
    exact Iff.rfl
  refine ⟨m, hm, hblocks, ?_, ?_, ?_⟩
  · obtain ⟨p, m', hs, -, hfit⟩ := malloc_null_iff hfuel hm hinit (show FitsWord 150 by decide)
    obtain rfl := hfit [⟨112, false⟩, ⟨208, true⟩] 3776 [] (by decide) hblocks (by decide) (by decide)
    exact ⟨m', hs⟩
  · obtain ⟨p, m', hs, hp, -⟩ := malloc_null_iff hfuel hm hinit (show FitsWord 5000 by decide)
    refine ⟨p, m', hs, hp.not.mpr ?_⟩
    rw [hblocks, hgrows]
    decide
  · obtain ⟨p, m', hs, hp, -⟩ := malloc_null_iff hfuel hm hinit (show FitsWord 62000 by decide)
    obtain rfl : p = 0 := by
      rw [hp, hblocks, hgrows]
      decide
    exact ⟨m', hs⟩

end Somenote.Malloc
