import Mathlib.Data.Set.Card
import Mathlib.Logic.Function.Basic
import Somenote.Malloc.Calls

/-! # Runs of the allocator

A program asks for objects, writes into them and gives them back, in any order. The allocator keeps
each object apart from the others and leaves its bytes as they were written, until it is freed.
-/

namespace Somenote.Malloc

open Heaps

/-- The bytes of each object of the program. A byte that was never written is `none`. -/
abbrev Objects := ℕ → Option (List (Option Byte))

structure Machine where
  heap : Heap
  objs : Objects

def Machine.start (A : Arena) (mem : Mem) : Machine := ⟨memInit A mem, fun _ => none⟩

inductive Req
  | malloc (size : ℕ)
  | free (bp : ℕ)
  | realloc (ptr size : ℕ)
  | write (bp i : ℕ) (c : Byte)
  deriving DecidableEq, Repr

/-- A size of this kind fits into the word of a header, with the two words around the object. -/
def FitsWord (size : ℕ) : Prop := size + 15 < 2 ^ 32

instance (size : ℕ) : Decidable (FitsWord size) := inferInstanceAs (Decidable (_ < _))

/-- The program frees objects that it has, and writes inside of them. -/
def Req.Ok (m : Machine) : Req → Prop
  | malloc size => FitsWord size
  | free bp => bp = 0 ∨ (m.objs bp).isSome
  | realloc ptr size => FitsWord size ∧ (ptr = 0 ∨ (m.objs ptr).isSome)
  | write bp i _ => ∃ os, m.objs bp = some os ∧ i < os.length

instance (m : Machine) : ∀ r : Req, Decidable (r.Ok m)
  | .malloc size => inferInstanceAs (Decidable (FitsWord size))
  | .free bp => inferInstanceAs (Decidable (bp = 0 ∨ (m.objs bp).isSome))
  | .realloc ptr size => inferInstanceAs (Decidable (FitsWord size ∧ (ptr = 0 ∨ (m.objs ptr).isSome)))
  | .write bp i _ => decidable_of_iff ((m.objs bp).any fun os => i < os.length) (by
      simp [Req.Ok, Option.any_eq_true])

/-- The first bytes of an object, and new ones behind them. -/
def resize (size : ℕ) (os : List (Option Byte)) : List (Option Byte) :=
  os.take size ++ List.replicate (size - os.length) none

namespace Objects

def give (objs : Objects) (p size : ℕ) : Objects :=
  if p = 0 then objs else Function.update objs p (some (List.replicate size none))

def drop (objs : Objects) (p : ℕ) : Objects := Function.update objs p none

def move (objs : Objects) (ptr p size : ℕ) : Objects :=
  if size = 0 then objs.drop ptr
  else if ptr = 0 then objs.give p size
  else if p = 0 then objs
  else Function.update (objs.drop ptr) p (some (resize size ((objs ptr).getD [])))

def write (objs : Objects) (p i : ℕ) (c : Byte) : Objects :=
  Function.update objs p ((objs p).map (·.set i (some c)))

end Objects

/-- The pointer that a request returns, and the state behind it. -/
def Machine.step (A : Arena) (fuel : ℕ) (m : Machine) : Req → Option (ℕ × Machine)
  | .malloc size => do
    let (p, s) ← mmMalloc A fuel size m.heap
    return (p, ⟨s, m.objs.give p size⟩)
  | .free bp => some (0, ⟨mmFree A bp m.heap, m.objs.drop bp⟩)
  | .realloc ptr size => do
    let (p, s) ← mmRealloc A fuel ptr size m.heap
    return (p, ⟨s, m.objs.move ptr p size⟩)
  | .write bp i c =>
    some (0, ⟨{ m.heap with mem := Function.update m.heap.mem (bp + i) c }, m.objs.write bp i c⟩)

/-- The states of a run. -/
inductive Reach (A : Arena) (fuel : ℕ) (mem : Mem) : Machine → Prop
  | start : Reach A fuel mem (.start A mem)
  | step {m m' : Machine} {r : Req} {p : ℕ} (h : Reach A fuel mem m) (hok : r.Ok m)
    (hs : m.step A fuel r = some (p, m')) : Reach A fuel mem m'

/-- The requests one after the other, when all of them are allowed. -/
def Machine.run (A : Arena) (fuel : ℕ) : Machine → List Req → Option Machine
  | m, [] => some m
  | m, r :: rs => if r.Ok m then (m.step A fuel r).bind fun x => run A fuel x.2 rs else none

theorem Reach.run {A : Arena} {fuel : ℕ} {mem : Mem} {m m' : Machine} {rs : List Req}
    (h : Reach A fuel mem m) (hr : m.run A fuel rs = some m') : Reach A fuel mem m' := by
  induction rs generalizing m with
  | nil =>
    cases hr
    exact h
  | cons r rs ih =>
    rw [Machine.run, Option.ite_none_right_eq_some] at hr
    obtain ⟨hok, hr⟩ := hr
    obtain ⟨⟨p, u⟩, hs, hr⟩ := Option.bind_eq_some_iff.mp hr
    exact ih (h.step hok hs) hr

/-- The blocks `bs` of the heap that are taken are the objects, and hold their bytes. -/
structure Holds (A : Arena) (s : Heap) (objs : Objects) (bs : List Block) : Prop where
  sound : Sound A s bs
  object : ∀ p os, objs p = some os → ∃ k, (p, ⟨k, true⟩) ∈ taken A.first bs ∧ os.length + 8 ≤ k
  owned : ∀ x ∈ taken A.first bs, (objs x.1).isSome
  byte : ∀ p os i c, objs p = some os → os[i]? = some (some c) → s.mem (p + i) = c

variable {A : Arena} {fuel : ℕ} {mem : Mem} {m m' : Machine} {s t : Heap} {objs : Objects}
  {bs bs' : List Block} {p q k size ptr : ℕ} {os os' : List (Option Byte)} {r : Req}

theorem holds_start : Holds A (memInit A mem) (fun _ => none) [] where
  sound := Or.inr ⟨rfl, rfl, rfl⟩
  object _ _ h := by cases h
  owned _ hx := absurd hx List.not_mem_nil
  byte _ _ _ _ h := by cases h

namespace Holds

theorem ne_zero (h : Holds A s objs bs) (hp : objs p = some os) : p ≠ 0 := by
  obtain ⟨k, hk, -⟩ := h.object p os hp
  have hle := (le_of_mem_placed (mem_taken.mp hk).1).1
  rw [Arena.first] at hle
  omega

theorem kept (h : Holds A s objs bs) (hp : objs p = some os) : Kept A s bs := by
  rcases h.sound with hk | ⟨rfl, -⟩
  · exact hk
  · obtain ⟨k, hk, -⟩ := h.object p os hp
    cases hk

theorem byte_of {m' : Mem} {i : ℕ} {c : Byte} (h : Holds A s objs bs) (hp : objs p = some os)
    (hi : os[i]? = some (some c))
    (hm : ∀ k, (p, ⟨k, true⟩) ∈ taken A.first bs → ∀ i < k - 8, m' (p + i) = s.mem (p + i)) :
    m' (p + i) = c := by
  obtain ⟨k, hk, hlen⟩ := h.object p os hp
  have hlt : i < os.length := (List.getElem?_eq_some_iff.mp hi).1
  rw [hm k hk i (by omega), h.byte p os i c hp hi]

theorem keep (h : Holds A s objs bs) (ht : Sound A t bs')
    (htaken : taken A.first bs' = taken A.first bs)
    (hobj : SameObjects (taken A.first bs) s.mem t.mem) : Holds A t objs bs' where
  sound := ht
  object := by rw [htaken]; exact h.object
  owned := by rw [htaken]; exact h.owned
  byte p os i c hp hi := h.byte_of hp hi fun k hk => hobj _ hk

theorem give (h : Holds A s objs bs) (hg : Given A s t bs bs' size p k) :
    Holds A t (objs.give p size) bs' := by
  have hobjs : objs.give p size = Function.update objs p (some (List.replicate size none)) :=
    if_neg hg.pos
  have hfresh : ∀ q os, objs q = some os → q ≠ p := by
    intro q os hq
    obtain ⟨l, hl, -⟩ := h.object q os hq
    exact hg.adds.fresh _ hl
  rw [hobjs]
  refine ⟨Or.inl hg.kept, fun q os hq => ?_, fun x hx => ?_, fun q os i c hq hi => ?_⟩
  · by_cases hqp : q = p
    · rw [hqp, Function.update_self, Option.some_inj] at hq
      rw [hqp, ← hq, List.length_replicate]
      exact ⟨k, (hg.adds.mem _).mpr (Or.inl rfl), hg.room⟩
    · rw [Function.update_of_ne hqp] at hq
      obtain ⟨l, hl, hlen⟩ := h.object q os hq
      exact ⟨l, (hg.adds.mem _).mpr (Or.inr hl), hlen⟩
  · rcases (hg.adds.mem x).mp hx with rfl | hx
    · rw [Function.update_self]
      rfl
    · rw [Function.update_of_ne (hg.adds.fresh x hx)]
      exact h.owned x hx
  · by_cases hqp : q = p
    · rw [hqp, Function.update_self, Option.some_inj] at hq
      rw [← hq] at hi
      have hnone := List.eq_of_mem_replicate (List.mem_of_getElem? hi)
      cases hnone
    · rw [Function.update_of_ne hqp] at hq
      exact h.byte_of hq hi fun l hl => hg.objects _ hl

theorem exists_block (h : Holds A s objs bs) (hp : objs p = some os) :
    ∃ pre k post, bs = pre ++ ⟨k, true⟩ :: post ∧ p = A.first + total pre ∧ os.length + 8 ≤ k := by
  obtain ⟨k, hk, hlen⟩ := h.object p os hp
  obtain ⟨pre, post, rfl, rfl⟩ := mem_placed.mp (mem_taken.mp hk).1
  exact ⟨pre, k, post, rfl, rfl, hlen⟩

theorem free (h : Holds A s objs bs) (hp : objs p = some os) :
    ∃ bs', Holds A (mmFree A p s) (objs.drop p) bs' := by
  have hkept := h.kept hp
  obtain ⟨pre, k, post, rfl, rfl, -⟩ := h.exists_block hp
  obtain ⟨hfree, hobj⟩ := mmFree_spec hkept
  have hmem := mem_taken_free (A := A) hkept.sized
  refine ⟨_, Or.inl hfree, fun q os hq => ?_, fun x hx => ?_, fun q os i c hq hi => ?_⟩
  · have hne : q ≠ A.first + total pre := by
      rintro rfl
      rw [Objects.drop, Function.update_self] at hq
      cases hq
    rw [Objects.drop, Function.update_of_ne hne] at hq
    obtain ⟨l, hl, hlen⟩ := h.object q os hq
    exact ⟨l, (hmem _).mpr ⟨hl, hne⟩, hlen⟩
  · obtain ⟨hold, hne⟩ := (hmem x).mp hx
    rw [Objects.drop, Function.update_of_ne hne]
    exact h.owned x hold
  · have hne : q ≠ A.first + total pre := by
      rintro rfl
      rw [Objects.drop, Function.update_self] at hq
      cases hq
    rw [Objects.drop, Function.update_of_ne hne] at hq
    exact h.byte_of hq hi fun l hl => hobj _ ((hmem _).mpr ⟨hl, hne⟩)

theorem change {n : ℕ} {m' : Mem} (os' : List (Option Byte)) (h : Holds A s objs bs) (hp : objs p = some os)
    (ha : Mem.AgreeOff p (p + n) s.mem m') (hn : n ≤ os.length) (hlen : os'.length = os.length)
    (hbyte : ∀ i c, os'[i]? = some (some c) → m' (p + i) = c) :
    Holds A { s with mem := m' } (Function.update objs p (some os')) bs := by
  have hkept := h.kept hp
  obtain ⟨pre, k, post, rfl, rfl, hle⟩ := h.exists_block hp
  obtain ⟨hwrite, hother⟩ := hkept.write (ha.mono le_rfl (by omega))
  refine ⟨Or.inl hwrite, fun q os₂ hq => ?_, fun x hx => ?_, fun q os₂ i c hq hi => ?_⟩
  · by_cases hqp : q = A.first + total pre
    · rw [hqp, Function.update_self, Option.some_inj] at hq
      rw [hqp, ← hq, hlen]
      exact h.object _ os hp
    · rw [Function.update_of_ne hqp] at hq
      exact h.object q os₂ hq
  · by_cases hqp : x.1 = A.first + total pre
    · rw [hqp, Function.update_self]
      rfl
    · rw [Function.update_of_ne hqp]
      exact h.owned x hx
  · by_cases hqp : q = A.first + total pre
    · rw [hqp, Function.update_self, Option.some_inj] at hq
      rw [← hq] at hi
      rw [hqp]
      exact hbyte i c hi
    · rw [Function.update_of_ne hqp] at hq
      exact h.byte_of hq hi fun l hl => hother _ hl hqp

theorem ready (h : Holds A s objs bs) :
    ∃ bs', Kept A (ready A s) bs' ∧ Holds A (Malloc.ready A s) objs bs' := by
  obtain ⟨bs', hk, htaken, hobj⟩ := h.sound.ready
  exact ⟨bs', hk, h.keep (Or.inl hk) htaken hobj⟩

end Holds

section Requests

theorem mmMalloc_ready (h : Holds A s objs bs) :
    mmMalloc A fuel size s = mmMalloc A fuel size (ready A s) := by
  obtain ⟨bs', hk, -⟩ := h.ready
  rw [mmMalloc, mmMalloc, hk.ready_eq]

theorem mmMalloc_holds (h : Holds A s objs bs) (hsize : FitsWord size) (hfuel : A.MAX_HEAP ≤ fuel) :
    ∃ p t bs', mmMalloc A fuel size s = some (p, t) ∧ Kept A t bs' ∧
      Holds A t (objs.give p size) bs' ∧ ∀ q os, objs q = some os → q ≠ p := by
  rw [mmMalloc_ready h]
  obtain ⟨bs', hk, hh⟩ := h.ready
  have hnull : ∀ q os, objs q = some os → q ≠ 0 := fun q os hq => h.ne_zero hq
  by_cases h0 : size = 0
  · refine ⟨0, ready A s, bs', ?_, hk, hh, hnull⟩
    rw [mmMalloc, hk.ready_eq, if_pos h0]
    rfl
  · rcases mmMalloc_cases hk hsize h0 hfuel with ⟨-, hnone⟩ | ⟨-, p, t, bs₂, k, hsome, hg⟩
    · exact ⟨0, _, bs', hnone, hk, hh, hnull⟩
    · refine ⟨p, t, bs₂, hsome, hg.kept, hh.give hg, fun q os hq => ?_⟩
      obtain ⟨l, hl, -⟩ := hh.object q os hq
      exact hg.adds.fresh _ hl

theorem mmFree_holds (h : Holds A s objs bs) (hp : p = 0 ∨ (objs p).isSome) :
    ∃ bs', Holds A (mmFree A p s) (objs.drop p) bs' := by
  by_cases hsome : (objs p).isSome
  · obtain ⟨os, hos⟩ := Option.isSome_iff_exists.mp hsome
    exact h.free hos
  · obtain rfl : p = 0 := hp.resolve_right hsome
    have hdrop : objs.drop 0 = objs :=
      (Function.update_eq_self_iff).mpr (Option.not_isSome_iff_eq_none.mp hsome).symm
    rw [mmFree, if_pos rfl, hdrop]
    exact ⟨bs, h⟩

theorem length_resize : (resize size os).length = size := by
  rw [resize, List.length_append, List.length_take, List.length_replicate]
  omega

theorem resize_byte {i : ℕ} {c : Byte} (h : (resize size os)[i]? = some (some c)) :
    i < size ∧ os[i]? = some (some c) := by
  have hlt : i < size := by
    have hlt := (List.getElem?_eq_some_iff.mp h).1
    rwa [length_resize] at hlt
  refine ⟨hlt, ?_⟩
  rw [resize, List.getElem?_append] at h
  split at h
  · rwa [List.getElem?_take_of_lt hlt] at h
  · have hnone := List.eq_of_mem_replicate (List.mem_of_getElem? h)
    cases hnone

theorem mmRealloc_holds (h : Holds A s objs bs) (hsize : FitsWord size)
    (hfuel : A.MAX_HEAP ≤ fuel) (hptr : ptr = 0 ∨ (objs ptr).isSome) :
    ∃ p t bs', mmRealloc A fuel ptr size s = some (p, t) ∧ Holds A t (objs.move ptr p size) bs' := by
  by_cases h0 : size = 0
  · obtain ⟨bs', hfree⟩ := mmFree_holds h hptr
    refine ⟨0, mmFree A ptr s, bs', ?_, ?_⟩
    · rw [mmRealloc, if_pos h0]
      rfl
    · rwa [Objects.move, if_pos h0]
  · obtain ⟨p, t, bs', hmalloc, hk, hh, hfresh⟩ := mmMalloc_holds h hsize hfuel
    by_cases hp0 : ptr = 0
    · refine ⟨p, t, bs', ?_, ?_⟩
      · rw [mmRealloc, if_neg h0, if_pos hp0, hmalloc]
      · rwa [Objects.move, if_neg h0, if_pos hp0]
    · obtain ⟨os, hos⟩ := Option.isSome_iff_exists.mp (hptr.resolve_left hp0)
      by_cases hnull : p = 0
      · refine ⟨p, t, bs', ?_, ?_⟩
        · rw [mmRealloc, if_neg h0, if_neg hp0, hmalloc]
          subst hnull
          rfl
        · rw [Objects.give, if_pos hnull] at hh
          rwa [Objects.move, if_neg h0, if_neg hp0, if_pos hnull]
      · have hne : ptr ≠ p := hfresh ptr os hos
        have hgive : objs.give p size = Function.update objs p (some (List.replicate size none)) :=
          if_neg hnull
        rw [hgive] at hh
        have hos' : Function.update objs p (some (List.replicate size none)) ptr = some os := by
          rw [Function.update_of_ne hne, hos]
        -- the block of the old object
        obtain ⟨pre, k, post, hbs, hplace, hroom⟩ := hh.exists_block hos'
        have hget : t.GET_SIZE (HDRP ptr) = k := by
          rw [hbs] at hk
          rw [hplace]
          exact hk.toFormed.tagged.getSize
        have hmin : (if size < k then size else k) ≤ size := by split <;> omega
        have hcopy := hh.change (resize size os) (Function.update_self ..)
          (Mem.AgreeOff.copy t.mem p ptr (if size < k then size else k))
          (by rwa [List.length_replicate]) (by rw [length_resize, List.length_replicate])
          (fun i c hi => by
            obtain ⟨hlt, hi⟩ := resize_byte hi
            have hlen : i < os.length := (List.getElem?_eq_some_iff.mp hi).1
            rw [Mem.copy, if_pos ⟨by omega, by split <;> omega⟩, Nat.add_sub_cancel_left]
            exact hh.byte ptr os i c hos' hi)
        obtain ⟨bs₂, hfree⟩ := hcopy.free (p := ptr)
          (by rw [Function.update_of_ne hne, hos'])
        refine ⟨p, mmFree A ptr (memcpy p ptr (if size < k then size else k) t), bs₂, ?_, ?_⟩
        · rw [mmRealloc, if_neg h0, if_neg hp0, hmalloc]
          simp only [Option.bind_eq_bind, Option.bind_some, if_neg hnull, hget]
          rfl
        · have hmove : objs.move ptr p size = Objects.drop (Function.update
              (Function.update objs p (some (List.replicate size none))) p
              (some (resize size os))) ptr := by
            rw [Objects.move, if_neg h0, if_neg hp0, if_neg hnull, hos, Option.getD_some,
              Objects.drop, Objects.drop, Function.update_idem, Function.update_comm hne]
          rw [hmove]
          exact hfree

theorem write_holds {i : ℕ} {c : Byte} (h : Holds A s objs bs) (hp : objs p = some os)
    (hi : i < os.length) :
    Holds A { s with mem := Function.update s.mem (p + i) c } (objs.write p i c) bs := by
  have hagree : Mem.AgreeOff p (p + os.length) s.mem (Function.update s.mem (p + i) c) :=
    fun a ha => Function.update_of_ne (by omega) ..
  rw [Objects.write, hp, Option.map_some]
  refine h.change _ hp hagree le_rfl List.length_set fun j d hj => ?_
  by_cases hij : i = j
  · subst hij
    rw [List.getElem?_set_self hi, Option.some_inj, Option.some_inj] at hj
    rw [Function.update_self, hj]
  · rw [List.getElem?_set_ne hij] at hj
    rw [Function.update_of_ne (by omega)]
    exact h.byte p os j d hp hj

end Requests

/-- What one request preserves. An allowed request returns. -/
theorem step_holds (hfuel : A.MAX_HEAP ≤ fuel) (h : Holds A m.heap m.objs bs) (hok : r.Ok m) :
    ∃ p m' bs', m.step A fuel r = some (p, m') ∧ Holds A m'.heap m'.objs bs' := by
  cases r with
  | malloc size =>
    obtain ⟨p, t, bs', hmalloc, -, hh, -⟩ := mmMalloc_holds h hok hfuel
    exact ⟨p, ⟨t, m.objs.give p size⟩, bs', by rw [Machine.step, hmalloc]; rfl, hh⟩
  | free bp =>
    obtain ⟨bs', hh⟩ := mmFree_holds h hok
    exact ⟨0, ⟨_, _⟩, bs', rfl, hh⟩
  | realloc ptr size =>
    obtain ⟨p, t, bs', hrealloc, hh⟩ := mmRealloc_holds h hok.1 hfuel hok.2
    exact ⟨p, ⟨t, m.objs.move ptr p size⟩, bs', by rw [Machine.step, hrealloc]; rfl, hh⟩
  | write bp i c =>
    obtain ⟨os, hos, hi⟩ := hok
    exact ⟨0, ⟨_, _⟩, bs, rfl, write_holds h hos hi⟩

theorem Reach.holds (hfuel : A.MAX_HEAP ≤ fuel) (h : Reach A fuel mem m) :
    ∃ bs, Holds A m.heap m.objs bs := by
  induction h with
  | start => exact ⟨[], holds_start⟩
  | step _ hok hs ih =>
    obtain ⟨bs, hh⟩ := ih
    obtain ⟨p, m', bs', hstep, hh'⟩ := step_holds hfuel hh hok
    obtain ⟨-, rfl⟩ := Prod.mk.inj (Option.some.inj (hs.symm.trans hstep))
    exact ⟨bs', hh'⟩

theorem Holds.place (h : Holds A s objs bs) (hp : objs p = some os) :
    8 ∣ p ∧ A.mem_heap ≤ p ∧ p + os.length ≤ s.mem_brk := by
  have hk := h.kept hp
  obtain ⟨pre, k, post, rfl, rfl, hlen⟩ := h.exists_block hp
  have haligned := dvd_first (A := A) (sized_append.mp hk.sized).1
  have hbrk := hk.brk
  simp only [total_append, total_cons] at hbrk
  refine ⟨haligned, ?_, ?_⟩
  · rw [Arena.first]
    omega
  · rw [Arena.first]
    omega

theorem Holds.disjoint (h : Holds A s objs bs) (hp : objs p = some os) (hq : objs q = some os')
    (hne : p ≠ q) : p + os.length ≤ q ∨ q + os'.length ≤ p := by
  obtain ⟨k, hk, hlen⟩ := h.object p os hp
  obtain ⟨l, hl, hlen'⟩ := h.object q os' hq
  have hapart := placed_disjoint (mem_taken.mp hk).1 (mem_taken.mp hl).1
  dsimp only at hapart
  omega

/-- An area of sixteen pages from the address 4096 on. -/
def Arena.small : Arena where
  mem_heap := 4096
  MAX_HEAP := 65536
  aligned := by decide
  pos := by decide
  room := by decide
  word := by decide

end Somenote.Malloc
