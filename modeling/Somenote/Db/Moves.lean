import Somenote.Db.Walk
import Somenote.Db.World

/-! # Writes of pointers among other processes

Each write of a pointer by `db_store` and `db_delete` as a change of the world, with what it
does to the files. The process that writes has the locks that the code takes before.
-/

namespace Somenote.Db

variable {Pid : Type} {p q : Pid} {o a x y : ℕ} {I : Image} {r r' : Rec} {k d : CStr}
  {i : ListId} {j : Fin nhashDef} {u v : Ptr} {l m : List ℕ}

section Lag

variable {late : Option (Pid × ℕ × Ptr)}

theorem lag_putBlk : lag late (I.putBlk a d) = (lag late I).putBlk a d := by
  cases late with
  | none => rfl
  | some x => exact Image.setPtr_putBlk

theorem lag_addBlk : lag late (I.addBlk d) = (lag late I).addBlk d := by
  cases late with
  | none => rfl
  | some x => exact Image.setPtr_addBlk

theorem blkAt_lag : (lag late I).blkAt a = I.blkAt a := by
  cases late with
  | none => rfl
  | some x => exact Image.blkAt_setPtr

theorem lag_addRec (h : ∀ q x u, late = some (q, x, u) → ∃ v, I.HasPtr x v) :
    lag late (I.addRec r) = (lag late I).addRec r := by
  cases late with
  | none => rfl
  | some x =>
    obtain ⟨v, hv⟩ := h _ _ _ rfl
    exact Image.setPtr_addRec hv

theorem lag_setPtr (h : ∀ q x u, late = some (q, x, u) → x ≠ y ∧ ∃ v, I.HasPtr x v)
    (hy : I.HasPtr y v) (u : Ptr) : lag late (I.setPtr y u) = (lag late I).setPtr y u := by
  cases late with
  | none => rfl
  | some x =>
    obtain ⟨hne, v, hv⟩ := h _ _ _ rfl
    exact Image.setPtr_comm hy hv hne _ _

theorem lag_putCell (h : ∀ q x u, late = some (q, x, u) → x ≠ o ∧ ∃ v, I.HasPtr x v)
    (ho : I.RecAt o r) (hl : r'.text.length = r.text.length) :
    lag late (I.putCell o (.record r')) = (lag late I).putCell o (.record r') := by
  cases late with
  | none => rfl
  | some x =>
    obtain ⟨hne, v, hv⟩ := h _ _ _ rfl
    have hlen : (Cell.record r').bytes.length = (Cell.record r).bytes.length := by
      simp only [Cell.bytes, Rec.length_bytes, hl]
    exact Image.setPtr_putCell_comm ho hlen hv hne _

theorem cellAt_lag (h : ∀ q x u, late = some (q, x, u) → x ≠ y) :
    (lag late I).cellAt y = I.cellAt y := by
  cases late with
  | none => rfl
  | some x => exact Image.cellAt_setPtr_ne (h _ _ _ rfl).symm _

theorem length_dat_lag : (lag late I).datBytes.length = I.datBytes.length := by
  cases late with
  | none => rfl
  | some x => simp [lag, Image.datBytes]

theorem length_idx_lag (h : ∀ q x u, late = some (q, x, u) → ∃ v, I.HasPtr x v) :
    (lag late I).idxBytes.length = I.idxBytes.length := by
  cases late with
  | none => rfl
  | some x =>
    obtain ⟨v, hv⟩ := h _ _ _ rfl
    exact Image.length_idx_setPtr hv _

end Lag

namespace World

variable {w w' : World Pid}

namespace Ok

variable (ok : w.Ok)
include ok

theorem late_ptr (q : Pid) (x : ℕ) (u : Ptr) (h : w.late = some (q, x, u)) :
    ∃ v, w.image.HasPtr x v := by
  obtain ⟨-, j, -, hx⟩ := ok.late h
  exact ok.inv.hasPtr (i := some j) hx

theorem late_ne (ht : w.Timely p)
    (hy : (∃ i, w.Holds p (head i) ∧ y ∈ head i :: w.lists.nodes i) ∨ w.hand p = .record y)
    (q : Pid) (x : ℕ) (u : Ptr) (h : w.late = some (q, x, u)) : x ≠ y := by
  rintro rfl
  have hq : p ≠ q := by
    rintro rfl
    exact ht _ h
  obtain ⟨-, j, hj, hx⟩ := ok.late h
  rcases hy with ⟨i, hi, hy⟩ | hy
  · obtain rfl := ok.inv.filed.separate ok.inv.shape (k := some j) hy hx
    exact ok.not_writes hq hi hj
  · exact ok.out hy (some j) hx

theorem late_ne_free (h : w.late = some (q, x, u)) : x ≠ freeOff := by
  rintro rfl
  obtain ⟨-, j, -, hx⟩ := ok.late h
  have := ok.inv.filed.separate ok.inv.shape (i := none) (k := some j) List.mem_cons_self hx
  cases this

/-- No pointer is late while a process that is not late itself has the free list locked. -/
theorem late_none (hf : w.Holds p freeOff) (ht : w.Timely p) : w.late = none := by
  cases h : w.late with
  | none => rfl
  | some x =>
    obtain ⟨q, x, u⟩ := x
    have hq : p ≠ q := by
      rintro rfl
      exact ht _ h
    exact absurd (ok.late h).1 (ok.not_writes hq hf)

theorem cellAt_real (ht : w.Timely p)
    (hy : (∃ i, w.Holds p (head i) ∧ y ∈ head i :: w.lists.nodes i) ∨ w.hand p = .record y) :
    w.real.cellAt y = w.image.cellAt y :=
  cellAt_lag (ok.late_ne ht hy)

theorem length_idx_real : w.real.idxBytes.length = w.image.idxBytes.length :=
  length_idx_lag ok.late_ptr

omit ok in
theorem length_dat_real : w.real.datBytes.length = w.image.datBytes.length := length_dat_lag

end Ok

theorem blkAt_real : w.real.blkAt a = w.image.blkAt a := blkAt_lag

section Pointers

theorem Change.setPtr (hm : w.Mine p y) (hy : w.image.HasPtr y v)
    (himage : w'.image = w.image.setPtr y u) (locks : w'.locks = w.locks)
    (hand : ∀ q, q ≠ p → w'.hand q = w.hand q) (late : w'.late = w.late) (map : w'.map = w.map)
    (chained : ∀ k, ¬ w.Writes p (slot (dbHash k.1)) → w'.chained k = w.chained k)
    (nodes : ∀ i, ¬ w.Writes p (head i) → w'.lists.nodes i = w.lists.nodes i) :
    Change p w w' where
  locks := locks
  hand := hand
  late q _ x := by rw [late]
  map k _ := by rw [map]
  chained := chained
  nodes := nodes
  cells {x c} hc hx := by
    have hne : x ≠ y := by
      rintro rfl
      exact hx hm
    rw [himage, Image.cellAt_setPtr_ne hne, hc]
  blks hd _ := by rw [himage, Image.blkAt_setPtr, hd]
  kept {o r} ho := by
    rw [himage]
    refine ⟨_, ho.setPtr hy u, ?_⟩
    split_ifs
    · exact ⟨rfl, rfl, rfl, fun _ _ => rfl⟩
    · exact ⟨rfl, rfl, rfl, fun _ _ => rfl⟩
  datEnd _ := by
    rw [himage]
    simp [Image.datBytes]
  idxEnd _ := by rw [himage, Image.length_idx_setPtr hy]
  bound := by
    rw [himage]
    exact Or.inl (Image.length_idx_setPtr hy u).symm

theorem Change.ok_setPtr (h : Change p w w') (ok : w.Ok) (hy : w.image.HasPtr y v)
    (himage : w'.image = w.image.setPtr y u) (map : w'.map = w.map)
    (hno : ∀ o, w.hand p ≠ .dying o)
    (inv : Inv w'.image w'.lists w'.blks w'.recs w'.chained)
    (apart : ∀ q, q ≠ p → w.hand q = w'.hand p → w'.hand p = .empty)
    (keyed : ∀ {o r'}, w'.hand p = .record o → w'.image.RecAt o r' → ¬ IsBlank r'.key →
      w.Writes p (slot (dbHash r'.key.1)))
    (dying : ∀ o, w'.hand p ≠ .dying o)
    (late : ∀ {x v}, w'.late = some (p, x, v) →
      w.Writes p freeOff ∧ ∃ j, w.Writes p (slot j) ∧ x ∈ slot j :: w'.lists.chain j) : w'.Ok := by
  have hold : ∀ {o r'}, w'.image.RecAt o r' → ∃ r, w.image.RecAt o r ∧ r.key = r'.key ∧
      r.datoff = r'.datoff := by
    intro o r' ho
    rw [himage] at ho
    obtain ⟨r, hr, hk, hoff, -⟩ := ho.of_setPtr hy
    exact ⟨r, hr, hk, hoff⟩
  refine h.ok ok inv ?_ ?_ apart keyed (fun hd => absurd hd (dying _)) late
  · intro o r' ho _
    obtain ⟨r, hr, hk, hoff⟩ := hold ho
    refine Or.inr (Or.inr ⟨r, hr, hk, ?_, by rw [map], hno o⟩)
    rw [himage, Image.blkAt_setPtr, hoff]
  · intro o r' ho
    obtain ⟨r, hr, hk, -⟩ := hold ho
    exact Or.inl ⟨r, hr, hk⟩

variable [DecidableEq Pid] (ok : w.Ok)

/-- The pointer in front of a free record skips it, and the record is in the hands of `p`. -/
def takeFree (w : World Pid) (p : Pid) (l : List ℕ) (o : ℕ) (m : List ℕ) (r : Rec) : World Pid :=
  { w with
    image := w.image.setPtr (l.getLastD freeOff) r.ptr
    lists := w.lists.setFree (l ++ m)
    hand := Function.update w.hand p (.record o) }

include ok

theorem takeFree_change (hf : w.Writes p freeOff) (hl : w.lists.free = l ++ o :: m) :
    Change p w (w.takeFree p l o m r) := by
  obtain ⟨v, hv⟩ : ∃ v, w.image.HasPtr (l.getLastD freeOff) v :=
    ok.inv.hasPtr (Filed.prev_mem (i := none) hl)
  refine .setPtr (.inr ⟨none, hf, Filed.prev_mem (i := none) hl⟩) hv rfl rfl
    (fun q hq => Function.update_of_ne hq ..) rfl rfl (fun _ _ => rfl) fun i hi => ?_
  cases i with
  | none => exact absurd hf hi
  | some j => rfl

theorem takeFree_recAt (hl : w.lists.free = l ++ o :: m) (ho : w.image.RecAt o r) :
    (w.takeFree p l o m r).image.RecAt o r := by
  have hne : l.getLastD freeOff ≠ o := ok.inv.filed.prev_ne ok.inv.shape (i := none) hl
  exact (Image.cellAt_setPtr_ne hne.symm r.ptr).trans ho

theorem takeFree_ok (hf : w.Writes p freeOff) (ht : w.Timely p) (hp : w.hand p = .empty)
    (hl : w.lists.free = l ++ o :: m) (ho : w.image.RecAt o r) :
    (w.takeFree p l o m r).Ok := by
  obtain ⟨v, hv⟩ : ∃ v, w.image.HasPtr (l.getLastD freeOff) v :=
    ok.inv.hasPtr (Filed.prev_mem (i := none) hl)
  have hfree : o ∈ w.lists.free := by simp [hl]
  have hself : (w.takeFree p l o m r).hand p = .record o := Function.update_self ..
  have hblks : (w.takeFree p l o m r).blks = w.blks := carried_keep (by simp [hp]) (by simp)
  have hrecs : (w.takeFree p l o m r).recs = insert o w.recs :=
    carried_take Hand.record_injective (by simp [hp]) o
  refine (takeFree_change ok hf hl).ok_setPtr ok hv rfl rfl (by simp [hp]) ?_ ?_ ?_ ?_ ?_
  · rw [hblks, hrecs]
    exact ok.inv.take_free hl ho
  · intro q _ hq
    rw [hself] at hq
    exact absurd ⟨q, hq⟩ (ok.inv.filed.free_out hfree)
  · intro x r' hx hr' hb
    obtain rfl : o = x := Hand.record_injective (hself.symm.trans hx)
    obtain ⟨q, hq, hk, -⟩ := hr'.of_setPtr hv
    exact absurd (hk ▸ ok.inv.filed.free_blank hfree hq) hb
  · intro x
    rw [hself]
    exact Hand.noConfusion
  · exact fun hx => absurd hx (ht _)

theorem takeFree_real (hf : w.Writes p freeOff) (ht : w.Timely p) :
    (w.takeFree p l o m r).real = w.real.setPtr (l.getLastD freeOff) r.ptr := by
  have hlate := ok.late_none hf.holds ht
  simp [real, takeFree, hlate, lag]

omit ok in
/-- The record in the hands of `p` is the first of a chain. -/
def pushChain (w : World Pid) (p : Pid) (j : Fin nhashDef) (o : ℕ) (u : Ptr) (k d : CStr) :
    World Pid :=
  { w with
    image := w.image.setPtr (slot j) u
    lists := w.lists.setChain j (o :: w.lists.chain j)
    hand := Function.update w.hand p .empty
    chained := Function.update w.chained k (some d) }

theorem pushChain_change (hj : w.Writes p (slot j)) (hk : dbHash k.1 = j) :
    Change p w (w.pushChain p j o u k d) := by
  obtain ⟨v, hv⟩ := ok.inv.shape.slot_hasPtr j
  refine .setPtr (.inr ⟨some j, hj, List.mem_cons_self⟩) hv rfl rfl
    (fun q hq => Function.update_of_ne hq ..) rfl rfl (fun k' hk' => ?_) fun i hi => ?_
  · refine Function.update_of_ne ?_ ..
    rintro rfl
    exact hk' (hk ▸ hj)
  · change (w.lists.set (some j) (o :: w.lists.chain j)).nodes i = _
    rw [Lists.nodes_set, if_neg]
    rintro rfl
    exact hi hj

theorem pushChain_ok (hj : w.Writes p (slot j)) (ht : w.Timely p) (hp : w.hand p = .record o)
    (ho : w.image.RecAt o r) (hk : dbHash r.key.1 = j) (hM : w.chained r.key = none)
    (hd : w.image.blkAt r.datoff = some d) (hptr : (r.ptr : ℕ) = w.image.next (slot j))
    (hu : (u : ℕ) = o) : (w.pushChain p j o u r.key d).Ok := by
  obtain ⟨v, hv⟩ := ok.inv.shape.slot_hasPtr j
  have hself : (w.pushChain p j o u r.key d).hand p = .empty := Function.update_self ..
  have hblks : (w.pushChain p j o u r.key d).blks = w.blks := carried_keep (by simp [hp]) (by simp)
  have hrecs : (w.pushChain p j o u r.key d).recs = w.recs \ {o} :=
    carried_give Hand.record_injective hp (fun q hq => ok.apart hq (by simp [hq, hp])) (by simp)
  refine (pushChain_change ok hj hk).ok_setPtr ok hv rfl rfl (by simp [hp]) ?_ ?_ ?_ ?_ ?_
  · rw [hblks, hrecs]
    exact ok.inv.push_chain ⟨p, hp⟩ ho hk hM hd hptr hu
  · exact fun _ _ _ => hself
  · intro x r' hx
    rw [hself] at hx
    cases hx
  · intro x
    rw [hself]
    exact Hand.noConfusion
  · exact fun hx => absurd hx (ht _)

theorem pushChain_real (hj : w.Writes p (slot j)) (ht : w.Timely p) :
    (w.pushChain p j o u k d).real = w.real.setPtr (slot j) u := by
  obtain ⟨v, hv⟩ := ok.inv.shape.slot_hasPtr j
  refine lag_setPtr (fun q x v h => ⟨?_, ok.late_ptr q x v h⟩) hv u
  exact ok.late_ne ht (.inl ⟨some j, hj.holds, List.mem_cons_self⟩) q x v h

omit ok in
/-- The blank record in the hands of `p` is the first of the free list. -/
def pushFree (w : World Pid) (p : Pid) (o : ℕ) (u : Ptr) : World Pid :=
  { w with
    image := w.image.setPtr freeOff u
    lists := w.lists.setFree (o :: w.lists.free)
    hand := Function.update w.hand p .empty }

theorem pushFree_change (hf : w.Writes p freeOff) : Change p w (w.pushFree p o u) := by
  obtain ⟨v, hv⟩ := ok.inv.shape.free_hasPtr
  refine .setPtr (.inr ⟨none, hf, List.mem_cons_self⟩) hv rfl rfl
    (fun q hq => Function.update_of_ne hq ..) rfl rfl (fun _ _ => rfl) fun i hi => ?_
  cases i with
  | none => exact absurd hf hi
  | some j => rfl

theorem pushFree_ok (hf : w.Writes p freeOff) (hp : w.hand p = .record o)
    (ho : w.image.RecAt o r) (hb : IsBlank r.key) (hptr : (r.ptr : ℕ) = w.image.next freeOff)
    (hu : (u : ℕ) = o) : (w.pushFree p o u).Ok := by
  obtain ⟨v, hv⟩ := ok.inv.shape.free_hasPtr
  have hself : (w.pushFree p o u).hand p = .empty := Function.update_self ..
  have hblks : (w.pushFree p o u).blks = w.blks := carried_keep (by simp [hp]) (by simp)
  have hrecs : (w.pushFree p o u).recs = w.recs \ {o} :=
    carried_give Hand.record_injective hp (fun q hq => ok.apart hq (by simp [hq, hp])) (by simp)
  refine (pushFree_change ok hf).ok_setPtr ok hv rfl rfl (by simp [hp]) ?_ ?_ ?_ ?_ ?_
  · rw [hblks, hrecs]
    exact ok.inv.push_free ⟨p, hp⟩ ho hb hptr hu
  · exact fun _ _ _ => hself
  · intro x r' hx
    rw [hself] at hx
    cases hx
  · intro x
    rw [hself]
    exact Hand.noConfusion
  · exact ok.late

theorem pushFree_real : (w.pushFree p o u).real = w.real.setPtr freeOff u := by
  obtain ⟨v, hv⟩ := ok.inv.shape.free_hasPtr
  exact lag_setPtr (fun q x v h => ⟨ok.late_ne_free h, ok.late_ptr q x v h⟩) hv u

omit [DecidableEq Pid] ok

/-- The last pointer of a deletion is written. -/
def settle (w : World Pid) : World Pid := { w with late := none }

theorem settle_change (hlate : w.late = some (p, x, u)) : Change p w w.settle where
  locks := rfl
  hand _ _ := rfl
  late q hq y := by
    rw [hlate, settle]
    constructor
    · exact fun h => by cases h
    · intro h
      cases h
      exact absurd rfl hq
  map _ _ := rfl
  chained _ _ := rfl
  nodes _ _ := rfl
  cells hc _ := hc
  blks hd _ := hd
  kept ho := ⟨_, ho, rfl, rfl, rfl, fun _ _ => rfl⟩
  datEnd _ := rfl
  idxEnd _ := rfl
  bound := Or.inl rfl

theorem settle_ok (ok : w.Ok) : w.settle.Ok := { ok with late := fun h => by cases h }

theorem settle_real (hlate : w.late = some (p, x, u)) (hv : w.image.HasPtr x v) :
    w.settle.real = w.real.setPtr x v := by
  rw [real, real, settle, hlate]
  exact ((Image.setPtr_setPtr hv u v).trans (Image.setPtr_self hv)).symm

end Pointers

namespace Ok

variable (ok : w.Ok)
include ok

theorem place (ho : w.image.RecAt o r) (hb : ¬ IsBlank r.key)
    (hw : w.Writes p (slot (dbHash r.key.1))) :
    o ∈ w.lists.chain (dbHash r.key.1) ∨ w.hand p = .record o := by
  rcases (ok.inv.filed.isRec_iff o).mp ⟨r, ho⟩ with ⟨j, hj⟩ | hf | ⟨q, hq⟩
  · exact Or.inl (ok.inv.filed.hash hj ho ▸ hj)
  · exact absurd (ok.inv.filed.free_blank hf ho) hb
  · by_cases hqp : q = p
    · exact Or.inr (hqp ▸ hq)
    · exact absurd hw (ok.not_writes hqp (ok.keyed hq ho hb).holds)

/-- No record outside the hands of `p` has a key that is not on its chain. -/
theorem key_ne (hk : w.chained k = none) (hw : w.Writes p (slot (dbHash k.1)))
    (hp : ∀ o r, w.hand p = .record o → w.image.RecAt o r → IsBlank r.key)
    (ho : w.image.RecAt o r) (hb : ¬ IsBlank r.key) : r.key ≠ k := by
  rintro rfl
  rcases ok.place ho hb hw with hj | ho'
  · obtain ⟨d, hd, -⟩ := ok.inv.stock.blk ho
    have := ok.inv.present hj ho hd
    rw [hk] at this
    cases this
  · exact hb (hp o r ho' ho)

end Ok

end World

end Somenote.Db
