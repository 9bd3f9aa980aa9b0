import Somenote.Db.Image

/-! # System calls on cells

Each read and write of the module at the offset of a cell, as a read or an update of the
image. The lemmas on updates say which cells and blocks an update changes.
-/

namespace Somenote.Db

open Decimal

namespace Image

variable {I : Image} {o a : ℕ} {c c' : Cell} {r : Rec} {v w : Ptr} {d d' : CStr}

theorem cellAt_putCell (h : I.cellAt o = some c) (hs : c'.bytes.length = c.bytes.length) (o' : ℕ) :
    (I.putCell o c').cellAt o' = if o' = o then some c' else I.cellAt o' :=
  Cells.cellAt_put h hs o'

theorem setPtr_eq (h : I.cellAt o = some c) (v : Ptr) :
    I.setPtr o v = I.putCell o (c.withPtr v) := by
  simp [setPtr, h]

theorem cellAt_setPtr (h : I.cellAt o = some c) (v : Ptr) (o' : ℕ) :
    (I.setPtr o v).cellAt o' = if o' = o then some (c.withPtr v) else I.cellAt o' := by
  rw [setPtr_eq h, cellAt_putCell h (c.length_withPtr v)]

theorem cellAt_setPtr_ne {x : ℕ} (h : x ≠ o) (v : Ptr) :
    (I.setPtr o v).cellAt x = I.cellAt x := by
  unfold setPtr
  split
  · rename_i c hc
    rw [cellAt_putCell hc (c.length_withPtr v), if_neg h]
  · rfl

theorem cellAt_addRec (o : ℕ) :
    (I.addRec r).cellAt o = if o = I.idxBytes.length then some (.record r) else I.cellAt o := by
  split_ifs with ho
  · subst ho
    exact Cells.cellAt_end Cell.length_pos _ _
  · exact Cells.cellAt_append_ne _ _ ho

theorem cellAt_addRec_of_some (h : I.cellAt o = some c) : (I.addRec r).cellAt o = some c :=
  Cells.cellAt_append h _

theorem blkAt_putBlk (h : I.blkAt a = some d) (hs : d'.1.length = d.1.length) (a' : ℕ) :
    (I.putBlk a d').blkAt a' = if a' = a then some d' else I.blkAt a' :=
  Cells.cellAt_put h (by simp [blkBytes, hs]) a'

theorem blkAt_addBlk (a : ℕ) :
    (I.addBlk d).blkAt a = if a = I.datBytes.length then some d else I.blkAt a := by
  split_ifs with ha
  · subst ha
    exact Cells.cellAt_end blkBytes_pos _ _
  · exact Cells.cellAt_append_ne _ _ ha

theorem cellAt_lt (h : I.cellAt o = some c) : o + c.bytes.length ≤ I.idxBytes.length :=
  Cells.cellAt_le h

theorem blkAt_lt (h : I.blkAt a = some d) : a < I.datBytes.length := by
  have := Cells.cellAt_le h
  have := blkBytes_pos d
  simp only [datBytes]
  omega

theorem cellAt_ne_end (h : I.cellAt o = some c) : o ≠ I.idxBytes.length := by
  have := cellAt_lt h
  have := c.length_pos
  omega

@[simp] theorem blkAt_putCell : (I.putCell o c).blkAt a = I.blkAt a := rfl

@[simp] theorem blkAt_addRec : (I.addRec r).blkAt a = I.blkAt a := rfl

@[simp] theorem cellAt_putBlk : (I.putBlk a d).cellAt o = I.cellAt o := rfl

@[simp] theorem cellAt_addBlk : (I.addBlk d).cellAt o = I.cellAt o := rfl

@[simp] theorem blks_setPtr : (I.setPtr o v).blks = I.blks := by
  unfold setPtr; split <;> rfl

@[simp] theorem blkAt_setPtr : (I.setPtr o v).blkAt a = I.blkAt a := by
  simp [blkAt]

@[simp] theorem next_putBlk : (I.putBlk a d).next o = I.next o := rfl

@[simp] theorem next_addBlk : (I.addBlk d).next o = I.next o := rfl

theorem next_setPtr (h : I.HasPtr o w) (v : Ptr) (o' : ℕ) :
    (I.setPtr o v).next o' = if o' = o then (v : ℕ) else I.next o' := by
  obtain ⟨c, hc, hw⟩ := h
  simp only [next, cellAt_setPtr hc]
  split_ifs with ho
  · simp [hw]
  · rfl

theorem hasPtr_setPtr (h : I.HasPtr o w) (v : Ptr) : (I.setPtr o v).HasPtr o v := by
  obtain ⟨c, hc, hw⟩ := h
  exact ⟨c.withPtr v, by simp [cellAt_setPtr hc], Cell.ptr?_withPtr hw v⟩

theorem next_putCell (h : I.cellAt o = some (.record r)) {r' : Rec}
    (hl : r'.text.length = r.text.length) (o' : ℕ) :
    (I.putCell o (.record r')).next o' = if o' = o then (r'.ptr : ℕ) else I.next o' := by
  have hb : (Cell.record r').bytes.length = (Cell.record r).bytes.length := by
    simp only [Cell.bytes, Rec.length_bytes, hl]
  simp only [next, cellAt_putCell h hb]
  split_ifs with ho
  · rfl
  · rfl

theorem next_addRec (o : ℕ) :
    (I.addRec r).next o = if o = I.idxBytes.length then (r.ptr : ℕ) else I.next o := by
  simp only [next, cellAt_addRec]
  split_ifs with ho
  · rfl
  · rfl

theorem next_le (I : Image) (o : ℕ) : I.next o ≤ ptrMax := by
  unfold next
  cases (I.cellAt o).bind Cell.ptr? with
  | none => exact Nat.zero_le _
  | some v => exact Nat.le_of_lt_succ v.isLt

theorem putCell_comm {o' : ℕ} {b b' : Cell} (ha : I.cellAt o = some c)
    (hs : c'.bytes.length = c.bytes.length) (hb : I.cellAt o' = some b)
    (hs' : b'.bytes.length = b.bytes.length) (hne : o ≠ o') :
    (I.putCell o c').putCell o' b' = (I.putCell o' b').putCell o c' := by
  unfold putCell
  rw [Cells.put_comm ha hs hb hs' hne]

theorem setPtr_putCell_comm {o' : ℕ} (ha : I.cellAt o = some c)
    (hs : c'.bytes.length = c.bytes.length) (hb : I.HasPtr o' v) (hne : o' ≠ o) (w : Ptr) :
    (I.putCell o c').setPtr o' w = (I.setPtr o' w).putCell o c' := by
  obtain ⟨b, hb, -⟩ := hb
  rw [setPtr_eq hb, setPtr_eq (c := b) (by rw [cellAt_putCell ha hs, if_neg hne, hb])]
  exact putCell_comm ha hs hb (b.length_withPtr w) hne.symm

theorem setPtr_putBlk : (I.putBlk a d).setPtr o v = (I.setPtr o v).putBlk a d := by
  unfold setPtr
  rw [cellAt_putBlk]
  cases I.cellAt o with
  | none => rfl
  | some c => rfl

theorem setPtr_comm {o' : ℕ} {v' : Ptr} (ha : I.HasPtr o v) (hb : I.HasPtr o' v') (hne : o' ≠ o)
    (w w' : Ptr) : (I.setPtr o w).setPtr o' w' = (I.setPtr o' w').setPtr o w := by
  obtain ⟨c, hc, hv⟩ := ha
  have hc' : (I.setPtr o' w').cellAt o = some c := by
    obtain ⟨b, hb, -⟩ := hb
    rw [cellAt_setPtr hb, if_neg hne.symm, hc]
  rw [setPtr_eq hc, setPtr_eq hc', setPtr_putCell_comm hc (c.length_withPtr w) hb hne]

theorem setPtr_self (h : I.HasPtr o v) : I.setPtr o v = I := by
  obtain ⟨c, hc, hv⟩ := h
  have hcv : c.withPtr v = c := by
    cases c with
    | ptr u => exact congrArg Cell.ptr (Option.some.inj hv).symm
    | nl => rfl
    | record r =>
      obtain rfl : r.ptr = v := Option.some.inj hv
      rfl
  rw [setPtr_eq hc, hcv, putCell, show Cells.put Cell.bytes I.cells o c = I.cells from
    Cells.put_self hc]

theorem setPtr_setPtr (h : I.HasPtr o v) (u w : Ptr) :
    (I.setPtr o u).setPtr o w = I.setPtr o w := by
  obtain ⟨c, hc, hv⟩ := h
  have hc' : (I.setPtr o u).cellAt o = some (c.withPtr u) := by rw [cellAt_setPtr hc, if_pos rfl]
  have hw : (c.withPtr u).withPtr w = c.withPtr w := by cases c <;> rfl
  rw [setPtr_eq hc', setPtr_eq hc, setPtr_eq hc, hw, putCell, putCell, putCell]
  dsimp only
  rw [Cells.put_put hc]

theorem setPtr_addBlk : (I.addBlk d).setPtr o v = (I.setPtr o v).addBlk d := by
  unfold setPtr
  rw [cellAt_addBlk]
  cases I.cellAt o with
  | none => rfl
  | some c => rfl

theorem setPtr_addRec (h : I.HasPtr o v) : (I.addRec r).setPtr o w = (I.setPtr o w).addRec r := by
  obtain ⟨c, hc, -⟩ := h
  rw [setPtr_eq hc, setPtr_eq (cellAt_addRec_of_some hc), putCell, putCell, addRec, addRec]
  dsimp only
  rw [Cells.put_append hc]

theorem hasPtr_putCell (h : I.cellAt o = some (.record r)) {r' : Rec}
    (hl : r'.text.length = r.text.length) {o' : ℕ} (hne : o' ≠ o) (hv : I.HasPtr o' v) :
    (I.putCell o (.record r')).HasPtr o' v := by
  have hb : (Cell.record r').bytes.length = (Cell.record r).bytes.length := by
    simp only [Cell.bytes, Rec.length_bytes, hl]
  obtain ⟨c, hc, hcv⟩ := hv
  exact ⟨c, by rw [cellAt_putCell h hb, if_neg hne, hc], hcv⟩

theorem hasPtr_setPtr_ne (h : I.HasPtr o v) {o' : ℕ} (hne : o' ≠ o) (hw : I.HasPtr o' w) (u : Ptr) :
    (I.setPtr o u).HasPtr o' w := by
  obtain ⟨b, hb, -⟩ := h
  obtain ⟨c, hc, hcw⟩ := hw
  exact ⟨c, by rw [cellAt_setPtr hb, if_neg hne, hc], hcw⟩

theorem hasPtr_addRec (h : I.HasPtr o v) : (I.addRec r).HasPtr o v := by
  obtain ⟨c, hc, hcv⟩ := h
  exact ⟨c, cellAt_addRec_of_some hc, hcv⟩

theorem length_idx_putCell (h : I.cellAt o = some c) (hs : c'.bytes.length = c.bytes.length) :
    (I.putCell o c').idxBytes.length = I.idxBytes.length :=
  Cells.length_bytes_put h hs

theorem length_idx_setPtr (h : I.HasPtr o w) (v : Ptr) :
    (I.setPtr o v).idxBytes.length = I.idxBytes.length := by
  obtain ⟨c, hc, hw⟩ := h
  rw [setPtr_eq hc, length_idx_putCell hc (c.length_withPtr v)]

theorem length_dat_putBlk (h : I.blkAt a = some d) (hs : d'.1.length = d.1.length) :
    (I.putBlk a d').datBytes.length = I.datBytes.length :=
  Cells.length_bytes_put h (by simp [blkBytes, hs])

theorem length_idx_addRec : (I.addRec r).idxBytes.length = I.idxBytes.length + r.bytes.length := by
  simp [idxBytes, addRec, Cell.bytes]

theorem length_dat_addBlk : (I.addBlk d).datBytes.length = I.datBytes.length + (d.1.length + 1) := by
  simp [datBytes, addBlk, blkBytes]

theorem drop_idx (h : I.cellAt o = some c) :
    I.idxBytes.drop o = c.bytes ++ I.idxBytes.drop (o + c.bytes.length) :=
  Cells.drop_cellAt h

theorem drop_dat (h : I.blkAt a = some d) :
    I.datBytes.drop a = blkBytes d ++ I.datBytes.drop (a + (blkBytes d).length) :=
  Cells.drop_cellAt h

theorem bytes_front (h : I.cellAt o = some c) : c.bytes <+: I.idxBytes.drop o :=
  ⟨_, (drop_idx h).symm⟩

theorem rec_front (h : I.cellAt o = some (.record r)) : r.bytes <+: I.idxBytes.drop o :=
  bytes_front h

theorem ptr_front (h : I.HasPtr o v) : field ptrSz v <+: I.idxBytes.drop o := by
  obtain ⟨c, hc, hv⟩ := h
  refine .trans ?_ (bytes_front hc)
  rw [Cell.bytes_of_ptr hv]
  exact List.prefix_append ..

theorem files_setPtr (h : I.HasPtr o v) (w : Ptr) :
    I.files.set .idx (overwrite 0 I.idxBytes o (field ptrSz w)) = (I.setPtr o w).files := by
  obtain ⟨c, hc, hv⟩ := h
  have ho : overwrite 0 I.idxBytes o (field ptrSz w) = (I.setPtr o w).idxBytes := by
    rw [setPtr_eq hc]
    refine Cells.overwrite_put 0 hc (Cell.bytes_of_ptr hv) ?_
      ((length_ptrField w).trans (length_ptrField v).symm)
    rw [Cell.bytes_of_ptr (Cell.ptr?_withPtr hv w), Cell.tail_withPtr]
  simp only [ho, files, Files.set, datBytes, blks_setPtr]

theorem files_putCell (h : I.cellAt o = some (.record r)) {r' : Rec}
    (hl : r'.text.length = r.text.length) :
    I.files.set .idx (overwrite 0 I.idxBytes o r'.bytes) = (I.putCell o (.record r')).files := by
  have ho : overwrite 0 I.idxBytes o r'.bytes = (I.putCell o (.record r')).idxBytes := by
    refine Cells.overwrite_put 0 h (y := []) (x := r.bytes) (by simp [Cell.bytes])
      (by simp [Cell.bytes]) ?_
    rw [r.length_bytes, r'.length_bytes, hl]
  rw [ho]
  rfl

theorem files_addRec (r : Rec) :
    I.files.set .idx (overwrite 0 I.idxBytes I.idxBytes.length r.bytes) = (I.addRec r).files := by
  rw [overwrite_end]
  simp [files, Files.set, idxBytes, addRec, datBytes, Cell.bytes]

theorem files_putBlk (h : I.blkAt a = some d) (hl : d'.1.length = d.1.length) :
    I.files.set .dat (overwrite 0 I.datBytes a (blkBytes d')) = (I.putBlk a d').files := by
  have ho : overwrite 0 I.datBytes a (blkBytes d') = (I.putBlk a d').datBytes :=
    Cells.overwrite_put 0 h (y := []) (x := blkBytes d) (by simp) (by simp)
      (by simp [blkBytes, hl])
  rw [ho]
  rfl

theorem files_addBlk (d : CStr) :
    I.files.set .dat (overwrite 0 I.datBytes I.datBytes.length (blkBytes d)) =
      (I.addBlk d).files := by
  rw [overwrite_end]
  simp [files, Files.set, datBytes, addBlk, idxBytes]

end Image

section Calls

variable {I : Image} {p : Fds} {f : Files} {o a : ℕ} {r r' : Rec} {v w : Ptr} {d d' : CStr}

theorem exec_lseek (fd : Fd) (off : ℕ) (whence : Whence) :
    exec (.lseek fd off whence) (p, f) =
      (some (seekBase fd p f whence + off), p.setPos fd (seekBase fd p f whence + off), f) := by
  have htarget : (seekBase fd p f whence : ℤ) + off = (seekBase fd p f whence + off : ℕ) :=
    (Int.natCast_add _ _).symm
  dsimp only [exec]
  rw [htarget, if_neg (Int.natCast_nonneg _).not_gt, Int.toNat_natCast]

theorem exec_seek (fd : Fd) (o : ℕ) :
    exec (.lseek fd o .set) (p, f) = (some o, p.setPos fd o, f) := by
  simp [exec, seekBase]

theorem exec_seek_neg {fd : Fd} {o : ℤ} (ho : o < 0) :
    exec (.lseek fd o .set) (p, f) = (none, p, f) := by
  simp [exec, seekBase, ho]

theorem exec_seek_cur (fd : Fd) :
    exec (.lseek fd 0 .cur) (p, f) = (some (p.pos fd), p.setPos fd (p.pos fd), f) := by
  simp [exec, seekBase]

theorem exec_seek_fin (fd : Fd) :
    exec (.lseek fd (0 : ℕ) .fin) (p, f) =
      (some (f.bytes fd).length, p.setPos fd (f.bytes fd).length, f) := by
  simp [exec, seekBase]

theorem exec_read_eq {fd : Fd} {n : ℕ} (hr : p.acc.readable = true) :
    exec (.read fd n) (p, f) = (some (((f.bytes fd).drop (p.pos fd)).take n),
      p.setPos fd (p.pos fd + (((f.bytes fd).drop (p.pos fd)).take n).length), f) := by
  simp [exec, hr]

theorem exec_read_denied {fd : Fd} {n : ℕ} (hr : p.acc.readable = false) :
    exec (.read fd n) (p, f) = (none, p, f) := by
  simp [exec, hr]

theorem exec_read (hr : p.acc.readable = true) (fd : Fd) {n : ℕ} {x y : List Byte}
    (h : (f.bytes fd).drop (p.pos fd) = x ++ y) (hn : x.length = n) :
    exec (.read fd n) (p, f) = (some x, p.setPos fd (p.pos fd + n), f) := by
  rw [exec_read_eq hr, h, List.take_left' hn, hn]

theorem exec_readptr (hr : p.acc.readable = true) (h : I.HasPtr o v) (hp : p.idxpos = o) :
    exec (.read .idx ptrSz) (p, I.files) =
      (some (field ptrSz v), p.setPos .idx (o + ptrSz), I.files) := by
  obtain ⟨c, hc, hv⟩ := h
  subst hp
  refine exec_read hr .idx (y := c.tail ++ I.idxBytes.drop (p.idxpos + c.bytes.length)) ?_
    (length_ptrField v)
  exact (Image.drop_idx hc).trans (by rw [Cell.bytes_of_ptr hv, List.append_assoc])

theorem exec_readhead (hr : p.acc.readable = true) (h : I.cellAt o = some (.record r))
    (hp : p.idxpos = o) :
    exec (.read .idx (ptrSz + idxlenSz)) (p, I.files) =
      (some r.head, p.setPos .idx (o + (ptrSz + idxlenSz)), I.files) := by
  subst hp
  refine exec_read hr .idx (y := r.text ++ I.idxBytes.drop (p.idxpos + r.bytes.length)) ?_
    r.length_head
  exact (Image.drop_idx h).trans (by simp [Cell.bytes, Rec.bytes])

theorem exec_readtext (hr : p.acc.readable = true) (h : I.cellAt o = some (.record r))
    (hp : p.idxpos = o + (ptrSz + idxlenSz)) :
    exec (.read .idx r.text.length) (p, I.files) =
      (some r.text, p.setPos .idx (o + r.bytes.length), I.files) := by
  have hd : (I.files.bytes .idx).drop (p.pos .idx) =
      r.text ++ I.idxBytes.drop (o + r.bytes.length) := by
    change I.idxBytes.drop p.idxpos = _
    rw [hp, ← List.drop_drop, Image.drop_idx h]
    simp only [Cell.bytes, Rec.bytes, List.append_assoc]
    exact List.drop_left' r.length_head
  rw [exec_read hr .idx hd rfl]
  have hl : p.pos .idx + r.text.length = o + r.bytes.length := by
    change p.idxpos + _ = _
    rw [hp, r.length_bytes, Nat.add_assoc]
  rw [hl]

theorem exec_readend (hr : p.acc.readable = true) (hp : p.idxpos = I.idxBytes.length) (n : ℕ) :
    exec (.read .idx n) (p, I.files) = (some [], p, I.files) := by
  simp [exec, hr, Fds.setPos, Fds.pos, ← hp]

theorem exec_readblk (hr : p.acc.readable = true) (h : I.blkAt a = some d) (hp : p.datpos = a) :
    exec (.read .dat (d.1.length + 1)) (p, I.files) =
      (some (blkBytes d), p.setPos .dat (a + (d.1.length + 1)), I.files) := by
  subst hp
  exact exec_read hr .dat (Image.drop_dat h) (by simp [blkBytes])

theorem exec_write (hw : p.acc.writable = true) (fd : Fd) (bs : List Byte) :
    exec (.write fd bs) (p, f) = (some bs.length, p.setPos fd (p.pos fd + bs.length),
      f.set fd (overwrite 0 (f.bytes fd) (p.pos fd) bs)) := by
  simp [exec, hw]

theorem exec_writeptr (hw : p.acc.writable = true) (h : I.HasPtr o v) (hp : p.idxpos = o)
    (w : Ptr) : exec (.write .idx (field ptrSz w)) (p, I.files) =
      (some ptrSz, p.setPos .idx (o + ptrSz), (I.setPtr o w).files) := by
  subst hp
  rw [exec_write hw, length_ptrField]
  exact congrArg (fun f => (some ptrSz, _, f)) (Image.files_setPtr h w)

theorem exec_writerec (hw : p.acc.writable = true) (h : I.cellAt o = some (.record r))
    (hl : r'.text.length = r.text.length) (hp : p.idxpos = o) :
    exec (.write .idx r'.bytes) (p, I.files) =
      (some r'.bytes.length, p.setPos .idx (o + r'.bytes.length),
        (I.putCell o (.record r')).files) := by
  subst hp
  rw [exec_write hw]
  exact congrArg (fun f => (some r'.bytes.length, _, f)) (Image.files_putCell h hl)

theorem exec_addrec (hw : p.acc.writable = true) (hp : p.idxpos = I.idxBytes.length) (r : Rec) :
    exec (.write .idx r.bytes) (p, I.files) =
      (some r.bytes.length, p.setPos .idx (I.idxBytes.length + r.bytes.length),
        (I.addRec r).files) := by
  rw [← hp, exec_write hw]
  have hf := Image.files_addRec (I := I) r
  rw [← hp] at hf
  exact congrArg (fun f => (some r.bytes.length, _, f)) hf

theorem exec_writeblk (hw : p.acc.writable = true) (h : I.blkAt a = some d)
    (hl : d'.1.length = d.1.length) (hp : p.datpos = a) :
    exec (.write .dat (blkBytes d')) (p, I.files) =
      (some (d'.1.length + 1), p.setPos .dat (a + (d'.1.length + 1)), (I.putBlk a d').files) := by
  subst hp
  rw [exec_write hw, length_blkBytes]
  exact congrArg (fun f => (some (d'.1.length + 1), _, f)) (Image.files_putBlk h hl)

theorem exec_addblk (hw : p.acc.writable = true) (hp : p.datpos = I.datBytes.length)
    (d : CStr) : exec (.write .dat (blkBytes d)) (p, I.files) =
      (some (d.1.length + 1), p.setPos .dat (I.datBytes.length + (d.1.length + 1)),
        (I.addBlk d).files) := by
  rw [← hp, exec_write hw, length_blkBytes]
  have hf := Image.files_addBlk (I := I) d
  rw [← hp] at hf
  exact congrArg (fun f => (some (d.1.length + 1), _, f)) hf

end Calls

end Somenote.Db
