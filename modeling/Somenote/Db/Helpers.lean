import Somenote.Db.Access
import Somenote.Db.Parse

/-! # Runs of the helper functions

What `_db_readptr`, `_db_readidx`, `_db_readdat`, `_db_writeptr`, `_db_writeidx` and
`_db_writedat` return and write when one process runs them at the offset of a cell.
-/

namespace Somenote.Db

open Decimal

variable {I : Image} {p : Fds} {f : Files} {o a : ℕ} {r r' : Rec} {v w : Ptr} {d d' : CStr} {b : DB}
  {s s' : Fds × Files} {e : Err}

theorem run_orDump {c : Call} {x : c.Val} (h : exec c s = (some x, s')) :
    (orDump c e).run exec s = (.ok x, s') := by
  simp only [orDump, Prog.run_call, h, Prog.run_ret]

theorem run_orDump_none {c : Call} (h : exec c s = (none, s')) :
    (orDump c e).run exec s = (.dump e, s') := by
  simp only [orDump, Prog.run_call, h, Prog.run_dump]

theorem dumpIf_neg {q : Prop} [Decidable q] (h : ¬ q) : dumpIf q e = .ret () := if_neg h

theorem dumpIf_pos {q : Prop} [Decidable q] (h : q) : dumpIf q e = .dump e := if_pos h

theorem onEnd_set (m : DbProg Unit) : onEnd .set m = .ret () := rfl

theorem onEnd_fin (m : DbProg Unit) : onEnd .fin m = m := rfl

theorem run_lock {fd : Fd} {t : LockType} {off len : ℕ} {f : Files}
    (h : p.acc.allows t = true) :
    (orDump (.setlkw fd t off len) e).run exec (p, f) = (.ok (), p, f) :=
  run_orDump (by simp [exec, h])

theorem run_lock_denied {fd : Fd} {t : LockType} {off len : ℕ} {f : Files}
    (h : p.acc.allows t = false) :
    (orDump (.setlkw fd t off len) e).run exec (p, f) = (.dump e, p, f) :=
  run_orDump_none (by simp [exec, h])

theorem run_unlock {fd : Fd} {off len : ℕ} :
    (orDump (.unlck fd off len) e).run exec s = (.ok (), s) :=
  run_orDump rfl

/-- `_db_readidx` with this offset argument reads at the file offset `o`. -/
def ReadsAt (p : Fds) (offset : ℤ) (o : ℕ) : Prop :=
  offset = o ∧ o ≠ 0 ∨ offset = 0 ∧ p.idxpos = o

theorem exec_seekAt {offset : ℤ} {f : Files} (h : ReadsAt p offset o) :
    exec (.lseek .idx offset (if offset = 0 then .cur else .set)) (p, f) =
      (some o, p.setPos .idx o, f) := by
  rcases h with ⟨rfl, h0⟩ | ⟨rfl, rfl⟩
  · rw [if_neg (by exact_mod_cast h0), exec_seek]
  · rw [if_pos rfl]
    exact exec_seek_cur .idx

theorem run_readptr_denied (hr : p.acc.readable = false) :
    (dbReadptr o).run exec (p, f) = (.dump .readptrRead, p.setPos .idx o, f) := by
  rw [dbReadptr, Prog.run_bind_ok (run_orDump (exec_seek .idx o)),
    Prog.run_bind_dump (run_orDump_none (exec_read_denied (by simpa using hr)))]

section Read

variable (hr : p.acc.readable = true)
include hr

theorem run_readptr_at (h : field ptrSz v <+: (f.bytes .idx).drop o) :
    (dbReadptr o).run exec (p, f) = (.ok (v : ℤ), p.setPos .idx (o + ptrSz), f) := by
  obtain ⟨z, hz⟩ := h
  rw [dbReadptr, Prog.run_bind_ok (run_orDump (exec_seek .idx o)),
    Prog.run_bind_ok (run_orDump (exec_read (p := p.setPos .idx o) hr .idx hz.symm
      (length_ptrField v)))]
  rw [dumpIf_neg (by simp [length_ptrField]), Prog.ret_bind, atol_field]
  rfl

theorem run_readptr (h : I.HasPtr o v) :
    (dbReadptr o).run exec (p, I.files) =
      (.ok (v : ℤ), p.setPos .idx (o + ptrSz), I.files) :=
  run_readptr_at hr (Image.ptr_front h)

/-- Where the file has a record, `_db_readidx` reads the text of the record and parses it. -/
theorem run_readidx_text {offset : ℤ} (ho : ReadsAt p offset o)
    (h : r.bytes <+: (f.bytes .idx).drop o) :
    (dbReadidx b offset).run exec (p, f) =
      (dbParseidx { b with idxoff := o, ptrval := r.ptr, idxlen := r.text.length } r.text >>=
        fun b => pure ((r.ptr : ℤ), b)).run exec (p.setPos .idx (o + r.bytes.length), f) := by
  have hge := r.text_ge
  have hle := r.text_le
  obtain ⟨z, hz⟩ := h
  have hhead : (f.bytes .idx).drop o = r.head ++ (r.text ++ z) := by
    rw [← hz, Rec.bytes, List.append_assoc]
  have htext : (f.bytes .idx).drop (o + (ptrSz + idxlenSz)) = r.text ++ z := by
    rw [← List.drop_drop, hhead, List.drop_left' r.length_head]
  rw [dbReadidx, Prog.run_bind_ok (run_orDump (exec_seekAt ho)),
    Prog.run_bind_ok (run_orDump (exec_read (p := p.setPos .idx o) hr .idx hhead r.length_head)),
    if_neg (by simp [r.length_head]), r.take_head, r.drop_head, atol_field, atol_field]
  simp only [Int.toNat_natCast, Fds.pos_setPos]
  rw [dumpIf_neg (by omega), Prog.ret_bind,
    Prog.run_bind_ok (run_orDump (exec_read
      (p := (p.setPos .idx o).setPos .idx (o + (ptrSz + idxlenSz))) hr .idx htext rfl)),
    dumpIf_neg (by simp), Prog.ret_bind]
  rw [Fds.pos_setPos, Nat.add_assoc, ← r.length_bytes]
  rfl

theorem run_readidx_at {offset : ℤ} (ho : ReadsAt p offset o)
    (h : r.bytes <+: (f.bytes .idx).drop o) (hs : SEP ∉ r.key.1) :
    (dbReadidx b offset).run exec (p, f) =
      (.ok ((r.ptr : ℤ), b.load o r), p.setPos .idx (o + r.bytes.length), f) := by
  rw [run_readidx_text hr ho h, dbParseidx_text _ r hs]
  rfl

theorem run_readidx {offset : ℤ} (ho : ReadsAt p offset o) (h : I.cellAt o = some (.record r))
    (hs : SEP ∉ r.key.1) :
    (dbReadidx b offset).run exec (p, I.files) =
      (.ok ((r.ptr : ℤ), b.load o r), p.setPos .idx (o + r.bytes.length), I.files) :=
  run_readidx_at hr ho (Image.rec_front h) hs

theorem run_readidx_sep {offset : ℤ} (ho : ReadsAt p offset o)
    (h : I.cellAt o = some (.record r)) (hs : SEP ∈ r.key.1) :
    (dbReadidx b offset).run exec (p, I.files) =
      (.dump .readidxSep3, p.setPos .idx (o + r.bytes.length), I.files) := by
  rw [run_readidx_text hr ho (Image.rec_front h), dbParseidx_sep _ r hs]
  rfl

theorem run_readidx_end (hp : p.idxpos = I.idxBytes.length) :
    (dbReadidx b 0).run exec (p, I.files) =
      (.ok (-1, { b with idxoff := I.idxBytes.length }), p, I.files) := by
  have hpos : p.setPos .idx I.idxBytes.length = p := by rw [← hp]; rfl
  rw [dbReadidx, Prog.run_bind_ok (run_orDump (exec_seekAt (Or.inr ⟨rfl, hp⟩))), hpos,
    Prog.run_bind_ok (run_orDump (exec_readend hr hp _))]
  simp

theorem run_readdat (h : I.blkAt b.datoff = some d) (hl : b.datlen = d.1.length + 1) :
    (dbReaddat b).run exec (p, I.files) =
      (.ok (d.1, { b with datbuf := d.1 }), p.setPos .dat (b.datoff + b.datlen), I.files) := by
  rw [dbReaddat, Prog.run_bind_ok (run_orDump (exec_seek .dat b.datoff)), hl,
    Prog.run_bind_ok (run_orDump (exec_readblk (p := p.setPos .dat b.datoff) hr h rfl))]
  rw [dumpIf_neg (by simp [blkBytes]), Prog.ret_bind,
    dumpIf_neg (by simp [blkBytes]), Prog.ret_bind, blkBytes, List.dropLast_concat, cstr_eq d.2]
  rfl

end Read

section Write

variable (hw : p.acc.writable = true)
include hw

theorem run_writeptr_at (w : Ptr) :
    (dbWriteptr o w).run exec (p, f) =
      (.ok (), p.setPos .idx (o + ptrSz),
        f.set .idx (overwrite 0 (f.bytes .idx) o (field ptrSz w))) := by
  have hlt := w.isLt
  rw [dbWriteptr, dumpIf_neg (by omega), Prog.ret_bind,
    Prog.run_bind_ok (run_orDump (exec_seek .idx o)), Int.toNat_natCast,
    List.take_of_length_le (length_ptrField w).le,
    Prog.run_bind_ok (run_orDump (exec_write (p := p.setPos .idx o) hw .idx _)),
    dumpIf_neg (by simp [length_ptrField]), length_ptrField]
  rfl

theorem run_writeptr (h : I.HasPtr o v) (w : Ptr) :
    (dbWriteptr o w).run exec (p, I.files) =
      (.ok (), p.setPos .idx (o + ptrSz), (I.setPtr o w).files) := by
  rw [run_writeptr_at hw, Image.bytes_idx, Image.files_setPtr h]

theorem run_writedat_at (d : CStr) :
    (dbWritedat b d a .set).run exec (p, f) =
      (.ok { b with datoff := a, datlen := d.1.length + 1 }, p.setPos .dat (a + (d.1.length + 1)),
        f.set .dat (overwrite 0 (f.bytes .dat) a (blkBytes d))) := by
  rw [dbWritedat, onEnd_set, Prog.ret_bind, Prog.run_bind_ok (run_orDump (exec_seek .dat a))]
  dsimp only
  rw [← blkBytes, Prog.run_bind_ok (run_orDump (exec_write (p := p.setPos .dat a) hw .dat _)),
    length_blkBytes, dumpIf_neg (by simp), Prog.ret_bind, onEnd_set]
  rfl

theorem run_writedat_set (h : I.blkAt a = some d) (d' : CStr) (hl : d'.1.length = d.1.length) :
    (dbWritedat b d' a .set).run exec (p, I.files) =
      (.ok { b with datoff := a, datlen := d'.1.length + 1 },
        p.setPos .dat (a + (d'.1.length + 1)), (I.putBlk a d').files) := by
  rw [run_writedat_at hw, Image.bytes_dat, Image.files_putBlk h hl]

theorem run_writedat_fin (d : CStr) :
    (dbWritedat b d 0 .fin).run exec (p, I.files) =
      (.ok { b with datoff := I.datBytes.length, datlen := d.1.length + 1 },
        p.setPos .dat (I.datBytes.length + (d.1.length + 1)), (I.addBlk d).files) := by
  rw [dbWritedat, onEnd_fin, Prog.run_bind_ok (run_lock (t := .wr) hw),
    Prog.run_bind_ok (run_orDump (exec_seek_fin .dat))]
  dsimp only
  rw [← blkBytes, Prog.run_bind_ok (run_orDump
      (exec_addblk (p := p.setPos .dat (I.files.bytes .dat).length) hw rfl d)),
    dumpIf_neg (by simp), Prog.ret_bind, onEnd_fin, Prog.run_bind_ok run_unlock]
  rfl

/-- The handle after `_db_writeidx` has written the record. -/
def DB.wrote (db : DB) (o : ℕ) (r : Rec) : DB :=
  { db with ptrval := r.ptr, idxbuf := r.text, idxoff := o }

omit hw in
theorem writeidx_bytes (r : Rec) :
    (field ptrSz r.ptr ++ field idxlenSz r.text.length).take (ptrSz + idxlenSz) ++ r.text =
      r.bytes := by
  rw [← Rec.head, List.take_of_length_le r.length_head.le]
  rfl

theorem run_writeidx_at {offset : ℕ} {whence : Whence} (ho : seekBase .idx p f whence + offset = o)
    (hoff : b.datoff = r.datoff) (hlen : b.datlen = r.datlen) :
    (dbWriteidx b r.key offset whence r.ptr).run exec (p, f) =
      (.ok (b.wrote o r), p.setPos .idx (o + r.bytes.length),
        f.set .idx (overwrite 0 (f.bytes .idx) o r.bytes)) := by
  have hlt := r.ptr.isLt
  have hge := r.text_ge
  have hle := r.text_le
  have ht : idxText r.key b.datoff b.datlen = r.text := by rw [hoff, hlen]; rfl
  have hlock : (onEnd whence (orDump (.setlkw .idx .wr idxStart 0) .writeidxLock)).run exec (p, f) =
      (.ok (), p, f) := by
    unfold onEnd
    split
    · exact run_lock (t := .wr) hw
    · rfl
  have hunlock : ∀ s, (onEnd whence (orDump (.unlck .idx idxStart 0) .writeidxUnLock)).run exec s =
      (.ok (), s) := by
    intro s
    unfold onEnd
    split <;> rfl
  have hseek : exec (.lseek .idx offset whence) (p, f) = (some o, p.setPos .idx o, f) := by
    rw [exec_lseek, ho]
  rw [dbWriteidx, dumpIf_neg (by omega), Prog.ret_bind]
  dsimp only
  rw [ht, dumpIf_neg (by omega), Prog.ret_bind, Prog.run_bind_ok hlock,
    Prog.run_bind_ok (run_orDump hseek), Int.toNat_natCast, writeidx_bytes,
    Prog.run_bind_ok (run_orDump (exec_write (p := p.setPos .idx o) hw .idx _)),
    dumpIf_neg (by simp [r.length_bytes]), Prog.ret_bind, Prog.run_bind_ok (hunlock _)]
  rfl

theorem run_writeidx_set (h : I.cellAt o = some (.record r)) (r' : Rec)
    (hl : r'.text.length = r.text.length)
    (hoff : b.datoff = r'.datoff) (hlen : b.datlen = r'.datlen) :
    (dbWriteidx b r'.key o .set r'.ptr).run exec (p, I.files) =
      (.ok (b.wrote o r'), p.setPos .idx (o + r'.bytes.length),
        (I.putCell o (.record r')).files) := by
  rw [run_writeidx_at hw (Nat.zero_add o) hoff hlen, Image.bytes_idx, Image.files_putCell h hl]

theorem run_writeidx_fin (r : Rec) (hoff : b.datoff = r.datoff) (hlen : b.datlen = r.datlen) :
    (dbWriteidx b r.key 0 .fin r.ptr).run exec (p, I.files) =
      (.ok (b.wrote I.idxBytes.length r), p.setPos .idx (I.idxBytes.length + r.bytes.length),
        (I.addRec r).files) := by
  have ho : seekBase .idx p I.files .fin + 0 = I.idxBytes.length := rfl
  rw [run_writeidx_at hw ho hoff hlen, Image.bytes_idx, Image.files_addRec]

end Write

theorem run_writeptr_big {w : ℤ} (h : ptrMax < w) {offset : ℤ} :
    (dbWriteptr offset w).run exec s = (.dump .writeptrPtr, s) := by
  rw [dbWriteptr, dumpIf_pos (Or.inr h)]
  rfl

theorem run_writeidx_len (key : List Byte) (offset : ℕ) (whence : Whence)
    (h : (idxText key b.datoff b.datlen).length < idxlenMin ∨
      idxlenMax < (idxText key b.datoff b.datlen).length) (v : Ptr) :
    (dbWriteidx b key offset whence v).run exec s = (.dump .writeidxLen, s) := by
  have hlt := v.isLt
  rw [dbWriteidx, dumpIf_neg (by omega), Prog.ret_bind]
  dsimp only
  rw [dumpIf_pos h]
  rfl

end Somenote.Db
