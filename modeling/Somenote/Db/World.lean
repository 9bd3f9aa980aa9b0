import Somenote.Db.System
import Somenote.Db.Updates
import Somenote.Program.Atomic

/-! # What processes share

The files between two system calls of any of the processes, as an image with the invariant,
and what each process has in its hands: a block without a record, a record on no list, or a
record whose data it has wiped. The map that the processes see is the one on the
chains, except on the chains that a process has locked for writing.
-/

namespace Somenote.Db

variable {Pid : Type} {p q : Pid} {o a : ℕ} {I : Image} {r r' : Rec} {c : Cell} {k d : CStr}
  {i : ListId} {j : Fin nhashDef} {v w : Ptr}

/-- What a process has taken and not put on a list. -/
inductive Hand
  | empty
  | blk (a : ℕ)
  | record (o : ℕ)
  | dying (o : ℕ)

/-- The blocks or records in the hands of all processes. -/
def carried (c : ℕ → Hand) (hand : Pid → Hand) : Set ℕ := {o | ∃ p, hand p = c o}

section Carried

variable [DecidableEq Pid] {c : ℕ → Hand} {hand : Pid → Hand} {x : Hand}

theorem carried_take (hc : Function.Injective c) (hp : ∀ y, hand p ≠ c y) (o : ℕ) :
    carried c (Function.update hand p (c o)) = insert o (carried c hand) := by
  ext y
  constructor
  · rintro ⟨q, hq⟩
    by_cases hqp : q = p
    · rw [hqp, Function.update_self] at hq
      exact Or.inl (hc hq).symm
    · rw [Function.update_of_ne hqp] at hq
      exact Or.inr ⟨q, hq⟩
  · rintro (rfl | ⟨q, hq⟩)
    · exact ⟨p, Function.update_self ..⟩
    · refine ⟨q, ?_⟩
      rw [Function.update_of_ne, hq]
      rintro rfl
      exact hp y hq

theorem carried_keep (hp : ∀ y, hand p ≠ c y) (hx : ∀ y, x ≠ c y) :
    carried c (Function.update hand p x) = carried c hand := by
  ext y
  constructor
  · rintro ⟨q, hq⟩
    by_cases hqp : q = p
    · rw [hqp, Function.update_self] at hq
      exact absurd hq (hx y)
    · rw [Function.update_of_ne hqp] at hq
      exact ⟨q, hq⟩
  · rintro ⟨q, hq⟩
    refine ⟨q, ?_⟩
    rw [Function.update_of_ne, hq]
    rintro rfl
    exact hp y hq

theorem carried_give (hc : Function.Injective c) (hp : hand p = c o)
    (ha : ∀ q, hand q = hand p → q = p) (hx : ∀ y, x ≠ c y) :
    carried c (Function.update hand p x) = carried c hand \ {o} := by
  ext y
  constructor
  · rintro ⟨q, hq⟩
    by_cases hqp : q = p
    · rw [hqp, Function.update_self] at hq
      exact absurd hq (hx y)
    · rw [Function.update_of_ne hqp] at hq
      refine ⟨⟨q, hq⟩, ?_⟩
      rintro rfl
      exact hqp (ha q (hq.trans hp.symm))
  · rintro ⟨⟨q, hq⟩, hy⟩
    refine ⟨q, ?_⟩
    rw [Function.update_of_ne, hq]
    rintro rfl
    exact hy (hc (hq.symm.trans hp))

end Carried

theorem Hand.blk_injective : Function.Injective Hand.blk := fun _ _ h => by injection h

theorem Hand.record_injective : Function.Injective Hand.record := fun _ _ h => by injection h

/-- The image once one more pointer is written. -/
def lag (late : Option (Pid × ℕ × Ptr)) (I : Image) : Image :=
  late.elim I fun x => I.setPtr x.2.1 x.2.2

/-- The end of the index file, or a record in it. -/
def Image.Bound (I : Image) (n : ℕ) : Prop := n = I.idxBytes.length ∨ I.IsRec n

/-- The files, the locks and what the processes know of them. In the index file the pointer
`late` is the one before the last write of a deletion. -/
structure World (Pid : Type) where
  image : Image
  late : Option (Pid × ℕ × Ptr)
  lists : Lists
  locks : LockTable Pid Fd
  hand : Pid → Hand
  chained : Map
  map : Map

namespace World

variable (w : World Pid)

/-- The image of the files. -/
def real : Image := lag w.late w.image

def blks : Set ℕ := carried Hand.blk w.hand

def recs : Set ℕ := carried Hand.record w.hand

/-- The process has a lock on the byte of the index file. -/
def Holds (p : Pid) (b : ℕ) : Prop := w.locks p .idx b ≠ none

/-- The process has a write lock on the byte of the index file. -/
def Writes (p : Pid) (b : ℕ) : Prop := w.locks p .idx b = some .wr

/-- The process has no pointer to write at the end of a deletion. -/
def Timely (p : Pid) : Prop := ∀ x, w.late ≠ some (p, x)

/-- Only the process may write the cell. -/
def Mine (p : Pid) (x : ℕ) : Prop :=
  w.hand p = .record x ∨ ∃ i, w.Writes p (head i) ∧ x ∈ head i :: w.lists.nodes i

/-- Only the process may write the block. -/
def MineBlk (p : Pid) (a : ℕ) : Prop :=
  w.hand p = .blk a ∨ ∃ o r, w.Mine p o ∧ w.image.RecAt o r ∧ r.datoff = a

/-- The invariant that holds between any two system calls. -/
structure Ok : Prop where
  inv : Inv w.image w.lists w.blks w.recs w.chained
  locks : w.locks.Consistent
  agree : ∀ k, w.map k = w.chained k ∨ ∃ p, w.Writes p (slot (dbHash k.1))
  shown : ∀ {o r}, w.image.RecAt o r → ¬ IsBlank r.key →
    (∃ p, w.hand p = .dying o) ∨ w.image.blkAt r.datoff = w.map r.key
  clean : ∀ {o r}, w.image.RecAt o r → SEP ∉ r.key.1
  apart : ∀ {p q}, w.hand p = w.hand q → w.hand p ≠ .empty → p = q
  keyed : ∀ {p o r}, w.hand p = .record o → w.image.RecAt o r → ¬ IsBlank r.key →
    w.Writes p (slot (dbHash r.key.1))
  dying : ∀ {p o}, w.hand p = .dying o →
    w.Writes p freeOff ∧ ∃ j, w.Writes p (slot j) ∧ o ∈ w.lists.chain j
  late : ∀ {p x v}, w.late = some (p, x, v) →
    w.Writes p freeOff ∧ ∃ j, w.Writes p (slot j) ∧ x ∈ slot j :: w.lists.chain j

/-- What a process relies on between two of its calls. -/
structure Rely (p : Pid) (w w' : World Pid) : Prop where
  locks : w'.locks p = w.locks p
  hand : w'.hand p = w.hand p
  late : ∀ x, w'.late = some (p, x) ↔ w.late = some (p, x)
  map : ∀ k, w.Holds p (slot (dbHash k.1)) → w'.map k = w.map k
  chained : ∀ k, w.Holds p (slot (dbHash k.1)) → w'.chained k = w.chained k
  nodes : ∀ i, w.Holds p (head i) → w'.lists.nodes i = w.lists.nodes i
  cells : ∀ i, w.Holds p (head i) → ∀ x ∈ head i :: w.lists.nodes i,
    w'.image.cellAt x = w.image.cellAt x
  blks : ∀ j, w.Holds p (slot j) → ∀ o ∈ w.lists.chain j, ∀ r, w.image.RecAt o r →
    w'.image.blkAt r.datoff = w.image.blkAt r.datoff
  record : ∀ o, w.hand p = .record o → w'.image.cellAt o = w.image.cellAt o ∧
    ∀ r, w.image.RecAt o r → w'.image.blkAt r.datoff = w.image.blkAt r.datoff
  blk : ∀ a, w.hand p = .blk a → w'.image.blkAt a = w.image.blkAt a
  kept : ∀ {o r}, w.image.RecAt o r → ∃ r', w'.image.RecAt o r' ∧ r'.datoff = r.datoff ∧
    r'.datlen = r.datlen ∧ r'.text.length = r.text.length ∧
    (w.Holds p freeOff → ¬ IsBlank r.key → r'.key = r.key)
  datEnd : w.locks p .dat 0 = some .wr → w'.image.datBytes.length = w.image.datBytes.length
  idxEnd : w.Writes p idxStart → w'.image.idxBytes.length = w.image.idxBytes.length
  bound : ∀ n, w.image.Bound n → w'.image.Bound n

/-- What a process changes in one call, its locks apart. -/
structure Change (p : Pid) (w w' : World Pid) : Prop where
  locks : w'.locks = w.locks
  hand : ∀ q, q ≠ p → w'.hand q = w.hand q
  late : ∀ q, q ≠ p → ∀ x, w'.late = some (q, x) ↔ w.late = some (q, x)
  map : ∀ k, ¬ w.Writes p (slot (dbHash k.1)) → w'.map k = w.map k
  chained : ∀ k, ¬ w.Writes p (slot (dbHash k.1)) → w'.chained k = w.chained k
  nodes : ∀ i, ¬ w.Writes p (head i) → w'.lists.nodes i = w.lists.nodes i
  cells : ∀ {x c}, w.image.cellAt x = some c → ¬ w.Mine p x → w'.image.cellAt x = some c
  blks : ∀ {a d}, w.image.blkAt a = some d → ¬ w.MineBlk p a → w'.image.blkAt a = some d
  kept : ∀ {o r}, w.image.RecAt o r → ∃ r', w'.image.RecAt o r' ∧ r'.datoff = r.datoff ∧
    r'.datlen = r.datlen ∧ r'.text.length = r.text.length ∧
    (¬ w.Writes p freeOff → ¬ IsBlank r.key → r'.key = r.key)
  datEnd : w.locks p .dat 0 ≠ some .wr → w'.image.datBytes.length = w.image.datBytes.length
  idxEnd : ¬ w.Writes p idxStart → w'.image.idxBytes.length = w.image.idxBytes.length
  bound : w'.image.Bound w.image.idxBytes.length

variable {w} {w' w'' : World Pid}

theorem Rely.refl (p : Pid) (w : World Pid) : Rely p w w where
  locks := rfl
  hand := rfl
  late _ := Iff.rfl
  map _ _ := rfl
  chained _ _ := rfl
  nodes _ _ := rfl
  cells _ _ _ _ := rfl
  blks _ _ _ _ _ _ := rfl
  record _ _ := ⟨rfl, fun _ _ => rfl⟩
  blk _ _ := rfl
  kept ho := ⟨_, ho, rfl, rfl, rfl, fun _ _ => rfl⟩
  datEnd _ := rfl
  idxEnd _ := rfl
  bound _ := id

theorem Rely.holds (h : Rely p w w') {b : ℕ} : w'.Holds p b ↔ w.Holds p b := by
  unfold Holds
  rw [h.locks]

theorem Rely.writes (h : Rely p w w') {b : ℕ} : w'.Writes p b ↔ w.Writes p b := by
  unfold Writes
  rw [h.locks]

theorem Rely.timely (h : Rely p w w') (ht : w.Timely p) : w'.Timely p := fun x hx =>
  ht x ((h.late x).mp hx)

theorem Writes.holds {b : ℕ} (h : w.Writes p b) : w.Holds p b := by
  rw [Holds, h]
  exact Option.some_ne_none _

theorem Rely.chain (h : Rely p w w') (hj : w.Holds p (slot j)) :
    w'.lists.chain j = w.lists.chain j := h.nodes (some j) hj

theorem Rely.free (h : Rely p w w') (hf : w.Holds p freeOff) : w'.lists.free = w.lists.free :=
  h.nodes none hf

theorem Rely.recAt (h : Rely p w w') (hi : w.Holds p (head i)) (ho : o ∈ w.lists.nodes i) :
    w'.image.RecAt o r ↔ w.image.RecAt o r := by
  unfold Image.RecAt
  rw [h.cells i hi o (List.mem_cons_of_mem _ ho)]

theorem Rely.trans (h : Rely p w w') (h' : Rely p w' w'') : Rely p w w'' where
  locks := h'.locks.trans h.locks
  hand := h'.hand.trans h.hand
  late x := (h'.late x).trans (h.late x)
  map k hk := (h'.map k (h.holds.mpr hk)).trans (h.map k hk)
  chained k hk := (h'.chained k (h.holds.mpr hk)).trans (h.chained k hk)
  nodes i hi := (h'.nodes i (h.holds.mpr hi)).trans (h.nodes i hi)
  cells i hi x hx :=
    (h'.cells i (h.holds.mpr hi) x (h.nodes i hi ▸ hx)).trans (h.cells i hi x hx)
  blks j hj o ho r hr := by
    refine (h'.blks j (h.holds.mpr hj) o ?_ r ?_).trans (h.blks j hj o ho r hr)
    · rwa [h.chain hj]
    · exact (h.recAt (i := some j) hj ho).mpr hr
  record o ho := by
    obtain ⟨hc, hb⟩ := h.record o ho
    obtain ⟨hc', hb'⟩ := h'.record o (h.hand.trans ho)
    exact ⟨hc'.trans hc, fun r hr => (hb' r (hc.trans hr)).trans (hb r hr)⟩
  blk a ha := (h'.blk a (h.hand.trans ha)).trans (h.blk a ha)
  kept {o r} ho := by
    obtain ⟨r₁, ho₁, hoff₁, hlen₁, htext₁, hkey₁⟩ := h.kept ho
    obtain ⟨r₂, ho₂, hoff₂, hlen₂, htext₂, hkey₂⟩ := h'.kept ho₁
    refine ⟨r₂, ho₂, hoff₂.trans hoff₁, hlen₂.trans hlen₁, htext₂.trans htext₁, fun hf hb => ?_⟩
    have hk : r₁.key = r.key := hkey₁ hf hb
    exact (hkey₂ (h.holds.mpr hf) (hk ▸ hb)).trans hk
  datEnd hl := (h'.datEnd (by rwa [h.locks])).trans (h.datEnd hl)
  idxEnd hl := (h'.idxEnd (h.writes.mpr hl)).trans (h.idxEnd hl)
  bound n hn := h'.bound n (h.bound n hn)

namespace Ok

variable (ok : w.Ok)
include ok

theorem not_writes (hq : q ≠ p) {b : ℕ} (h : w.Holds q b) : ¬ w.Writes p b := fun hp =>
  h (ok.locks p q hq.symm .idx b hp)

theorem recAt_of_record (ho : w.hand p = .record o) : ∃ r, w.image.RecAt o r :=
  ok.inv.filed.rec_out ⟨p, ho⟩

theorem out (ho : w.hand p = .record o) (i : ListId) : o ∉ head i :: w.lists.nodes i :=
  ok.inv.filed.out ok.inv.shape ⟨p, ho⟩ i

theorem mine_list (hi : w.Holds q (head i)) (ho : o ∈ head i :: w.lists.nodes i) (hq : q ≠ p) :
    ¬ w.Mine p o := by
  rintro (hp | ⟨i', hi', ho'⟩)
  · exact ok.out hp i ho
  · obtain rfl := ok.inv.filed.separate ok.inv.shape ho ho'
    exact ok.not_writes hq hi hi'

theorem mine_record (ho : w.hand q = .record o) (hq : q ≠ p) : ¬ w.Mine p o := by
  rintro (hp | ⟨i', -, ho'⟩)
  · exact hq (ok.apart (ho.trans hp.symm) (by rw [ho]; exact Hand.noConfusion))
  · exact ok.out ho i' ho'

theorem mineBlk (ho : w.image.RecAt o r) (hp : ¬ w.Mine p o) : ¬ w.MineBlk p r.datoff := by
  rintro (ha | ⟨o', r', hp', ho', he⟩)
  · exact (ok.inv.stock.extra (a := r.datoff) ⟨p, ha⟩).2 ho rfl
  · obtain rfl := ok.inv.stock.inj ho ho' he.symm
    exact hp hp'

theorem mineBlk_blk (ha : w.hand q = .blk a) (hq : q ≠ p) : ¬ w.MineBlk p a := by
  rintro (hp | ⟨o, r, -, ho, he⟩)
  · exact hq (ok.apart (ha.trans hp.symm) (by rw [ha]; exact Hand.noConfusion))
  · exact (ok.inv.stock.extra ⟨q, ha⟩).2 ho he

end Ok

namespace Change

theorem rely (h : Change p w w') (ok : w.Ok) (hq : q ≠ p) : Rely q w w' where
  locks := by rw [h.locks]
  hand := h.hand q hq
  late := h.late q hq
  map k hk := h.map k (ok.not_writes hq hk)
  chained k hk := h.chained k (ok.not_writes hq hk)
  nodes i hi := h.nodes i (ok.not_writes hq hi)
  cells i hi x hx := by
    obtain ⟨v, c, hc, -⟩ := ok.inv.hasPtr hx
    rw [hc]
    exact h.cells hc (ok.mine_list hi hx hq)
  blks j hj o ho r hr := by
    obtain ⟨d, hd, -⟩ := ok.inv.stock.blk hr
    rw [hd]
    exact h.blks hd (ok.mineBlk hr (ok.mine_list (i := some j) hj (List.mem_cons_of_mem _ ho) hq))
  record o ho := by
    obtain ⟨r, hr⟩ := ok.recAt_of_record ho
    have hno : ¬ w.Mine p o := ok.mine_record ho hq
    refine ⟨(h.cells hr hno).trans hr.symm, fun r' hr' => ?_⟩
    obtain ⟨d, hd, -⟩ := ok.inv.stock.blk hr'
    rw [hd]
    exact h.blks hd (ok.mineBlk hr' hno)
  blk a ha := by
    obtain ⟨⟨d, hd⟩, -⟩ := ok.inv.stock.extra (a := a) ⟨q, ha⟩
    rw [hd]
    exact h.blks hd (ok.mineBlk_blk ha hq)
  kept ho := by
    obtain ⟨r', ho', hoff, hlen, htext, hkey⟩ := h.kept ho
    exact ⟨r', ho', hoff, hlen, htext, fun hf => hkey (ok.not_writes hq hf)⟩
  datEnd hl := h.datEnd fun hp => by
    have := ok.locks p q hq.symm .dat 0 hp
    rw [hl] at this
    cases this
  idxEnd hl := h.idxEnd (ok.not_writes hq hl.holds)
  bound n hn := by
    rcases hn with rfl | ⟨r, hr⟩
    · exact h.bound
    · obtain ⟨r', hr', -⟩ := h.kept hr
      exact Or.inr ⟨r', hr'⟩

theorem chain_eq (h : Change p w w') (ok : w.Ok) {j : Fin nhashDef} (hq : q ≠ p)
    (hj : w.Writes q (slot j)) : w'.lists.chain j = w.lists.chain j :=
  h.nodes (some j) (ok.not_writes hq hj.holds)

/-- The invariant behind a change, from what the process that makes it has to see to. -/
theorem ok (h : Change p w w') (ok : w.Ok)
    (inv : Inv w'.image w'.lists w'.blks w'.recs w'.chained)
    (shown : ∀ {o r'}, w'.image.RecAt o r' → ¬ IsBlank r'.key →
      w'.hand p = .dying o ∨ w'.image.blkAt r'.datoff = w'.map r'.key ∨
      ∃ r, w.image.RecAt o r ∧ r.key = r'.key ∧
        w'.image.blkAt r'.datoff = w.image.blkAt r.datoff ∧ w'.map r.key = w.map r.key ∧
        w.hand p ≠ .dying o)
    (clean : ∀ {o r'}, w'.image.RecAt o r' →
      (∃ r, w.image.RecAt o r ∧ r.key = r'.key) ∨ SEP ∉ r'.key.1)
    (apart : ∀ q, q ≠ p → w.hand q = w'.hand p → w'.hand p = .empty)
    (keyed : ∀ {o r'}, w'.hand p = .record o → w'.image.RecAt o r' → ¬ IsBlank r'.key →
      w.Writes p (slot (dbHash r'.key.1)))
    (dying : ∀ {o}, w'.hand p = .dying o →
      w.Writes p freeOff ∧ ∃ j, w.Writes p (slot j) ∧ o ∈ w'.lists.chain j)
    (late : ∀ {x v}, w'.late = some (p, x, v) →
      w.Writes p freeOff ∧ ∃ j, w.Writes p (slot j) ∧ x ∈ slot j :: w'.lists.chain j) :
    w'.Ok where
  inv := inv
  locks := by
    rw [h.locks]
    exact ok.locks
  agree k := by
    unfold Writes
    rw [h.locks]
    by_cases hk : w.Writes p (slot (dbHash k.1))
    · exact Or.inr ⟨p, hk⟩
    · rw [h.map k hk, h.chained k hk]
      exact ok.agree k
  shown {o r'} ho hb := by
    rcases shown ho hb with hd | hm | ⟨r, hr, hk, hblk, hmap, hno⟩
    · exact Or.inl ⟨p, hd⟩
    · exact Or.inr hm
    · rw [hblk, ← hk, hmap]
      rcases ok.shown hr (hk ▸ hb) with ⟨q, hq⟩ | hm
      · have hqp : q ≠ p := by
          rintro rfl
          exact hno hq
        exact Or.inl ⟨q, (h.hand q hqp).trans hq⟩
      · exact Or.inr hm
  clean ho := by
    rcases clean ho with ⟨r, hr, hk⟩ | hs
    · exact hk ▸ ok.clean hr
    · exact hs
  apart {q₁ q₂} he hne := by
    by_cases h₁ : q₁ = p <;> by_cases h₂ : q₂ = p
    · exact h₁.trans h₂.symm
    · subst h₁
      rw [h.hand q₂ h₂] at he
      exact absurd (apart q₂ h₂ he.symm) hne
    · subst h₂
      rw [h.hand q₁ h₁] at he hne
      exact absurd (he.trans (apart q₁ h₁ he)) hne
    · rw [h.hand q₁ h₁] at he hne
      rw [h.hand q₂ h₂] at he
      exact ok.apart he hne
  keyed {q o r'} hq ho hb := by
    unfold Writes
    rw [h.locks]
    by_cases hqp : q = p
    · subst hqp
      exact keyed hq ho hb
    · rw [h.hand q hqp] at hq
      obtain ⟨r, hr⟩ := ok.recAt_of_record hq
      obtain rfl : r = r' := Image.RecAt.unique (h.cells hr (ok.mine_record hq hqp)) ho
      exact ok.keyed hq hr hb
  dying {q o} hq := by
    unfold Writes
    rw [h.locks]
    by_cases hqp : q = p
    · subst hqp
      exact dying hq
    · rw [h.hand q hqp] at hq
      obtain ⟨hf, j, hj, ho⟩ := ok.dying hq
      exact ⟨hf, j, hj, h.chain_eq ok hqp hj ▸ ho⟩
  late {q x v} hq := by
    unfold Writes
    rw [h.locks]
    by_cases hqp : q = p
    · subst hqp
      exact late hq
    · rw [h.late q hqp] at hq
      obtain ⟨hf, j, hj, hx⟩ := ok.late hq
      exact ⟨hf, j, hj, h.chain_eq ok hqp hj ▸ hx⟩

end Change

end World

end Somenote.Db
