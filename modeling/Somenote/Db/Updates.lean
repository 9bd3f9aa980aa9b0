import Somenote.Db.Invariant

/-! # The writes of an operation

The image after all writes of a deletion, of a store that reuses a free record, of a
store that appends, and of one that overwrites the data. Each keeps the invariant and
changes the map at the key of the operation only.
-/

namespace Somenote.Db

/-- The record as `_db_dodelete` leaves it. -/
def Rec.freed (r : Rec) (v : Ptr) : Rec := r.withKey v (blank r.key.1.length) (length_blank _)

theorem Rec.length_text_freed (r : Rec) (v : Ptr) : (r.freed v).text.length = r.text.length :=
  r.length_text_withKey v (length_blank _)

/-- The data that `_db_dodelete` leaves. -/
def Rec.wiped (r : Rec) : CStr := blank (r.datlen - 1)

namespace Image

/-- The four writes of `_db_dodelete`: the data, the record, the head of the free list and
the pointer in front of the record. -/
def deleted (I : Image) (prev o : ℕ) (r : Rec) (v w : Ptr) : Image :=
  (((I.putBlk r.datoff r.wiped).putCell o (.record (r.freed v))).setPtr freeOff w).setPtr prev r.ptr

/-- The four writes of a store that takes a record from the free list. -/
def reused (I : Image) (prev o : ℕ) (r : Rec) (head : ℕ) (k d : CStr)
    (hk : k.1.length = r.key.1.length) (v w : Ptr) : Image :=
  (((I.setPtr prev r.ptr).putBlk r.datoff d).putCell o (.record (r.withKey v k hk))).setPtr head w

/-- The three writes of a store that appends a block and a record. -/
def appended (I : Image) (head : ℕ) (r : Rec) (d : CStr) (w : Ptr) : Image :=
  ((I.addBlk d).addRec r).setPtr head w

/-- The records at the offsets in `Y` are those of `I`. -/
def Keeps (I I' : Image) (Y : Set ℕ) : Prop := ∀ o ∈ Y, I'.cellAt o = I.cellAt o

end Image

namespace Inv

variable {I : Image} {L : Lists} {X Y : Set ℕ} {M : Map} {o : ℕ} {r : Rec} {j : Fin nhashDef}
  {l m : List ℕ} {k d d' : CStr} {v w : Ptr}

theorem length_wiped (h : Inv I L X Y M) (ho : I.RecAt o r) (hd : I.blkAt r.datoff = some d) :
    r.wiped.1.length = d.1.length := by
  obtain ⟨d', hd', hl⟩ := h.stock.blk ho
  obtain rfl : d = d' := by simpa using hd.symm.trans hd'
  rw [Rec.wiped, length_blank, hl]
  rfl

/-- In another order, the writes of a deletion take the record off its chain, blank it, and
put it on the free list. -/
theorem deleted_eq (h : Inv I L X Y M) (hl : L.chain j = l ++ o :: m) (ho : I.RecAt o r) :
    I.deleted (l.getLastD (slot j)) o r v w =
      (((I.setPtr (l.getLastD (slot j)) r.ptr).putBlk r.datoff r.wiped).putCell o
        (.record (r.freed v))).setPtr freeOff w := by
  have hne : l.getLastD (slot j) ≠ o := h.filed.prev_ne h.shape (i := some j) hl
  have hnf := h.filed.prev_ne_free h.shape hl
  have hof : freeOff ≠ o := h.shape.free_ne ho
  have ho' : (I.putBlk r.datoff r.wiped).RecAt o r := ho
  have hlf := r.length_text_freed v
  have hlen : (Cell.record (r.freed v)).bytes.length = (Cell.record r).bytes.length := by
    simp only [Cell.bytes, Rec.length_bytes, hlf]
  obtain ⟨u, hu⟩ : ∃ u, I.HasPtr (l.getLastD (slot j)) u :=
    h.hasPtr (Filed.prev_mem (i := some j) hl)
  obtain ⟨u', hu'⟩ := h.shape.free_hasPtr
  have hu₁ := Image.hasPtr_putCell ho' hlf hne hu
  have hu₂ := Image.hasPtr_putCell ho' hlf hof hu'
  unfold Image.deleted
  rw [Image.setPtr_comm hu₂ hu₁ hnf, Image.setPtr_putCell_comm ho' hlen hu hne,
    Image.setPtr_putBlk]

theorem deleted (h : Inv I L X Y M) (hl : L.chain j = l ++ o :: m) (ho : I.RecAt o r)
    (hv : (v : ℕ) = I.next freeOff) (hw : (w : ℕ) = o) :
    Inv (I.deleted (l.getLastD (slot j)) o r v w) ((L.setChain j (l ++ m)).setFree (o :: L.free))
      X Y (Function.update M r.key none) := by
  have hne : l.getLastD (slot j) ≠ o := h.filed.prev_ne h.shape (i := some j) hl
  have hnf := h.filed.prev_ne_free h.shape hl
  have hY : o ∉ Y := h.filed.chain_out (by rw [hl]; simp)
  obtain ⟨u, hu⟩ : ∃ u, I.HasPtr (l.getLastD (slot j)) u :=
    h.hasPtr (Filed.prev_mem (i := some j) hl)
  obtain ⟨d, hd, -⟩ := h.stock.blk ho
  rw [h.deleted_eq hl ho]
  have h₁ := h.take_chain hl ho
  have ho₁ : (I.setPtr (l.getLastD (slot j)) r.ptr).RecAt o r := by
    rw [Image.recAt_setPtr hu, if_neg hne.symm]
    exact ho
  have h₂ := h₁.putBlk_out ho₁ (fun i hi => h₁.filed.chain_out hi (Set.mem_insert o Y))
    (by simpa using hd) (h.length_wiped ho hd)
  have h₃ := h₂.rewrite (Set.mem_insert o Y) ho₁ v (length_blank r.key.1.length)
  have ho₃ := Image.recAt_putCell_self (I := (I.setPtr (l.getLastD (slot j)) r.ptr).putBlk
    r.datoff r.wiped) ho₁ (r.length_text_withKey v (length_blank r.key.1.length))
  have h₄ := h₃.push_free (Set.mem_insert o Y) ho₃ (isBlank_blank _) ?_ hw
  · rwa [Set.insert_sdiff_self_of_notMem hY] at h₄
  · rw [Image.next_putCell (I := (I.setPtr (l.getLastD (slot j)) r.ptr).putBlk r.datoff r.wiped) ho₁
      (r.length_text_withKey v (length_blank r.key.1.length)), if_neg (h.shape.free_ne ho),
      Image.next_putBlk, Image.next_setPtr hu, if_neg hnf.symm, ← hv]
    rfl

theorem keeps_deleted (h : Inv I L X Y M) (hl : L.chain j = l ++ o :: m) (ho : I.RecAt o r) :
    I.Keeps (I.deleted (l.getLastD (slot j)) o r v w) Y := by
  intro y hy
  have hprev := Filed.prev_mem (i := some j) hl
  have hne : ∀ i, y ∉ head i :: L.nodes i := h.filed.out h.shape hy
  have hyo : y ≠ o := by
    rintro rfl
    exact hne (some j) (List.mem_cons_of_mem _ (by rw [Lists.nodes, hl]; simp))
  have hyp : y ≠ l.getLastD (slot j) := by
    rintro rfl
    exact hne (some j) hprev
  have hyf : y ≠ freeOff := by
    rintro rfl
    exact hne none List.mem_cons_self
  have hlen : (Cell.record (r.freed v)).bytes.length = (Cell.record r).bytes.length := by
    simp only [Cell.bytes, Rec.length_bytes, r.length_text_freed]
  rw [Image.deleted, Image.cellAt_setPtr_ne hyp, Image.cellAt_setPtr_ne hyf,
    Image.cellAt_putCell (I := I.putBlk r.datoff r.wiped) ho hlen, if_neg hyo, Image.cellAt_putBlk]

theorem reused (h : Inv I L X Y M) (hl : L.free = l ++ o :: m) (ho : I.RecAt o r)
    (hd : I.blkAt r.datoff = some d) (hd' : d'.1.length = d.1.length)
    (hk : k.1.length = r.key.1.length) (hj : dbHash k = j) (hM : M k = none)
    (hv : (v : ℕ) = I.next (slot j)) (hw : (w : ℕ) = o) :
    Inv (I.reused (l.getLastD freeOff) o r (slot j) k d' hk v w)
      ((L.setFree (l ++ m)).setChain j (o :: L.chain j)) X Y (Function.update M k (some d')) := by
  have hne : l.getLastD freeOff ≠ o := h.filed.prev_ne h.shape (i := none) hl
  have hY : o ∉ Y := h.filed.free_out (by rw [hl]; simp)
  have hnj : slot j ≠ l.getLastD freeOff := h.filed.slot_ne_prev h.shape hl
  obtain ⟨u, hu⟩ : ∃ u, I.HasPtr (l.getLastD freeOff) u := h.hasPtr (Filed.prev_mem (i := none) hl)
  have h₁ := h.take_free hl ho
  have ho₁ : (I.setPtr (l.getLastD freeOff) r.ptr).RecAt o r := by
    rw [Image.recAt_setPtr hu, if_neg hne.symm]
    exact ho
  have hd₁ : (I.setPtr (l.getLastD freeOff) r.ptr).blkAt r.datoff = some d := by simpa using hd
  have h₂ := h₁.putBlk_out ho₁ (fun i hi => h₁.filed.chain_out hi (Set.mem_insert o Y)) hd₁ hd'
  have h₃ := h₂.rewrite (Set.mem_insert o Y) ho₁ v hk
  have ho₃ := Image.recAt_putCell_self (I := (I.setPtr (l.getLastD freeOff) r.ptr).putBlk
    r.datoff d') ho₁ (r.length_text_withKey v hk)
  have hd₃ : ((I.setPtr (l.getLastD freeOff) r.ptr).putBlk r.datoff d').blkAt r.datoff = some d' := by
    rw [Image.blkAt_putBlk hd₁ hd', if_pos rfl]
  have h₄ := h₃.push_chain (Set.mem_insert o Y) ho₃ hj hM hd₃ ?_ hw
  · rwa [Set.insert_sdiff_self_of_notMem hY] at h₄
  · rw [Image.next_putCell (I := (I.setPtr (l.getLastD freeOff) r.ptr).putBlk r.datoff d') ho₁
      (r.length_text_withKey v hk), if_neg (h.shape.slot_ne j ho), Image.next_putBlk,
      Image.next_setPtr hu, if_neg hnj, ← hv]
    rfl

theorem keeps_reused (h : Inv I L X Y M) (hl : L.free = l ++ o :: m) (ho : I.RecAt o r)
    (hk : k.1.length = r.key.1.length) :
    I.Keeps (I.reused (l.getLastD freeOff) o r (slot j) k d hk v w) Y := by
  intro y hy
  have hprev := Filed.prev_mem (i := none) hl
  have hne : ∀ i, y ∉ head i :: L.nodes i := h.filed.out h.shape hy
  have hyo : y ≠ o := by
    rintro rfl
    exact hne none (List.mem_cons_of_mem _ (by rw [Lists.nodes, hl]; simp))
  have hyp : y ≠ l.getLastD freeOff := by
    rintro rfl
    exact hne none hprev
  have hyj : y ≠ slot j := by
    rintro rfl
    exact hne (some j) List.mem_cons_self
  have hpo : o ≠ l.getLastD freeOff := (h.filed.prev_ne h.shape (i := none) hl).symm
  have hlen : (Cell.record (r.withKey v k hk)).bytes.length = (Cell.record r).bytes.length := by
    simp only [Cell.bytes, Rec.length_bytes, r.length_text_withKey]
  have ho₁ : ((I.setPtr (l.getLastD freeOff) r.ptr).putBlk r.datoff d).cellAt o =
      some (.record r) := by
    rw [Image.cellAt_putBlk, Image.cellAt_setPtr_ne hpo]
    exact ho
  rw [Image.reused, Image.cellAt_setPtr_ne hyj, Image.cellAt_putCell ho₁ hlen, if_neg hyo,
    Image.cellAt_putBlk, Image.cellAt_setPtr_ne hyp]

theorem keeps_added (h : Inv I L X Y M) : I.Keeps ((I.addBlk d).addRec r) Y := by
  intro y hy
  have hne : y ≠ (I.addBlk d).idxBytes.length := h.filed.ne_end (Or.inr (Or.inr hy))
  rw [Image.cellAt_addRec, if_neg hne, Image.cellAt_addBlk]

theorem keeps_appended (h : Inv I L X Y M) : I.Keeps (I.appended (slot j) r d w) Y := by
  intro y hy
  have hyj : y ≠ slot j := by
    rintro rfl
    exact h.filed.out h.shape hy (some j) List.mem_cons_self
  rw [Image.appended, Image.cellAt_setPtr_ne hyj]
  exact h.keeps_added y hy

theorem added (h : Inv I L X Y M) (hoff : r.datoff = I.datBytes.length)
    (hlen : r.datlen = d.1.length + 1) :
    Inv ((I.addBlk d).addRec r) L X (insert I.idxBytes.length Y) M := by
  have hX : I.datBytes.length ∉ X := by
    intro ha
    obtain ⟨⟨d', hd'⟩, -⟩ := h.stock.extra ha
    exact absurd (Image.blkAt_lt hd') (lt_irrefl _)
  have hb : (I.addBlk d).blkAt r.datoff = some d := by rw [Image.blkAt_addBlk, if_pos hoff]
  have h₁ := (h.addBlk d).addRec (hoff ▸ Set.mem_insert _ X) hb hlen
  rw [hoff, Set.insert_sdiff_self_of_notMem hX] at h₁
  exact h₁

theorem appended (h : Inv I L X Y M) (hoff : r.datoff = I.datBytes.length)
    (hlen : r.datlen = d.1.length + 1) (hj : dbHash r.key = j) (hM : M r.key = none)
    (hv : (r.ptr : ℕ) = I.next (slot j)) (hw : (w : ℕ) = I.idxBytes.length) :
    Inv (I.appended (slot j) r d w) (L.setChain j (I.idxBytes.length :: L.chain j)) X Y
      (Function.update M r.key (some d)) := by
  have hY : I.idxBytes.length ∉ Y := by
    intro ho
    exact h.filed.ne_end (Or.inr (Or.inr ho)) rfl
  have ho : ((I.addBlk d).addRec r).RecAt I.idxBytes.length r := (I.addBlk d).recAt_addRec_end r
  have hd : ((I.addBlk d).addRec r).blkAt r.datoff = some d := by
    rw [Image.blkAt_addRec, Image.blkAt_addBlk, if_pos hoff]
  have h₁ := (h.added hoff hlen).push_chain (Set.mem_insert _ Y) ho hj hM hd ?_ hw
  · rwa [Set.insert_sdiff_self_of_notMem hY] at h₁
  · obtain ⟨v, hv'⟩ := h.shape.slot j
    rw [Image.next_addRec, Image.next_addBlk, hv]
    exact (if_neg (Image.cellAt_ne_end hv')).symm

end Inv

end Somenote.Db
