import Somenote.Db.Updates
import Somenote.Db.Walk

/-! # Runs of the operations

What a search of a chain returns, and what each path of `db_fetch`, `db_delete` and
`db_store` returns and writes when one process runs it on files that satisfy the
invariant.
-/

namespace Somenote.Db

open Decimal

variable {I : Image} {L : Lists} {X Y : Set ℕ} {M : Map} {p : Fds} {o fuel : ℕ} {r : Rec}
  {j : Fin nhashDef} {k d d' : CStr} {b : DB} {l m : List ℕ} {wl : Bool} {v w : Ptr}

/-- The lock type of a search. -/
def lockFor (writelock : Bool) : LockType := if writelock then .wr else .rd

section Search

variable (wl) (hr : p.acc.readable = true) (ha : p.acc.allows (lockFor wl) = true) (hs : I.Shape)
include hr ha hs

theorem run_find_start (k : CStr) :
    (dbFindAndLock fuel b k.1 wl).run exec (p, I.files) =
      (findLoop k.1 fuel
        { b with chainoff := slot (dbHash k), ptroff := (slot (dbHash k) : ℕ) }
        (I.next (slot (dbHash k))) >>= fun x =>
          pure (if x.1 = 0 then -1 else 0, x.2)).run exec
        (p.setPos .idx (slot (dbHash k) + ptrSz), I.files) := by
  obtain ⟨v, hv⟩ := hs.slot_hasPtr (dbHash k)
  rw [hv.next_eq]
  exact (Prog.run_bind_ok (run_lock (t := lockFor wl) ha) _).trans
    (Prog.run_bind_ok (run_readptr hr hv) _)

theorem run_find_hit (hlink : Linked 0 I.next (slot (dbHash k)) (l ++ o :: m))
    (hl : ∀ x ∈ l, I.Passes k x) (ho : I.RecAt o r) (hsep : SEP ∉ r.key.1) (hk : r.key = k)
    (hf : l.length < fuel) :
    (dbFindAndLock fuel b k.1 wl).run exec (p, I.files) =
      (.ok (0, { b with chainoff := slot (dbHash k) }.found (slot (dbHash k)) l o r),
        p.setPos .idx (I.endOf o), I.files) := by
  have h0 : o ≠ 0 := hlink.ne_null (by simp)
  rw [run_find_start wl hr ha hs, Prog.run_bind_ok
    (run_findLoop_hit (by simpa using hr) hl hlink ho hsep hk hf rfl)]
  simp [h0, DB.found]

theorem run_find_miss (hlink : Linked 0 I.next (slot (dbHash k)) l)
    (hl : ∀ x ∈ l, I.Passes k x) (hf : l.length < fuel) :
    ∃ b', (dbFindAndLock fuel b k.1 wl).run exec (p, I.files) =
      (.ok (-1, b'), I.walked (p.setPos .idx (slot (dbHash k) + ptrSz)) l, I.files) ∧
      b'.chainoff = slot (dbHash k) := by
  obtain ⟨b', hrun, hdb⟩ := run_findLoop_miss (p := p.setPos .idx (slot (dbHash k) + ptrSz))
    (b := { b with chainoff := slot (dbHash k), ptroff := (slot (dbHash k) : ℕ) })
    (by simpa using hr) hl hlink hf
  refine ⟨b', ?_, hdb⟩
  rw [run_find_start wl hr ha hs, Prog.run_bind_ok hrun]
  rfl

theorem run_find_sep (hlink : Linked 0 I.next (slot (dbHash k)) (l ++ o :: m))
    (hl : ∀ x ∈ l, I.Passes k x) (ho : I.RecAt o r) (hsep : SEP ∈ r.key.1)
    (hf : l.length < fuel) :
    (dbFindAndLock fuel b k.1 wl).run exec (p, I.files) =
      (.dump .readidxSep3, p.setPos .idx (I.endOf o), I.files) := by
  rw [run_find_start wl hr ha hs, Prog.run_bind_dump
    (run_findLoop_sep (by simpa using hr) hl hlink ho hsep hf), Fds.setPos_setPos]

end Search

section Fetch

variable (hr : p.acc.readable = true) (hs : I.Shape)
include hr hs

theorem run_fetch_hit (hlink : Linked 0 I.next (slot (dbHash k)) (l ++ o :: m))
    (hl : ∀ x ∈ l, I.Passes k x) (ho : I.RecAt o r) (hsep : SEP ∉ r.key.1) (hk : r.key = k)
    (hf : l.length < fuel) (hd : I.blkAt r.datoff = some d) (hlen : r.datlen = d.1.length + 1) :
    ∃ b', (dbFetch fuel b k.1).run exec (p, I.files) =
      (.ok (some d.1, b'), (p.setPos .idx (I.endOf o)).setPos .dat (r.datoff + r.datlen),
        I.files) := by
  refine ⟨{ DB.found { b with chainoff := slot (dbHash k) } (slot (dbHash k)) l o r with
    datbuf := d.1 }, ?_⟩
  rw [dbFetch, Prog.run_bind_ok (run_find_hit false hr hr hs hlink hl ho hsep hk hf)]
  dsimp only
  rw [if_neg (by decide), Prog.bind_assoc, Prog.run_bind_ok
    (run_readdat (p := p.setPos .idx (I.endOf o)) (by simpa using hr) hd hlen)]
  exact Prog.run_bind_ok run_unlock _

theorem run_fetch_miss (hlink : Linked 0 I.next (slot (dbHash k)) l)
    (hl : ∀ x ∈ l, I.Passes k x) (hf : l.length < fuel) :
    ∃ b', (dbFetch fuel b k.1).run exec (p, I.files) =
      (.ok (none, b'), I.walked (p.setPos .idx (slot (dbHash k) + ptrSz)) l, I.files) := by
  obtain ⟨b', hrun, -⟩ := run_find_miss (b := b) false hr hr hs hlink hl hf
  refine ⟨b', ?_⟩
  rw [dbFetch, Prog.run_bind_ok hrun]
  dsimp only
  rw [if_pos (by decide), Prog.pure_eq, Prog.ret_bind]
  exact Prog.run_bind_ok run_unlock _

theorem run_fetch_sep (hlink : Linked 0 I.next (slot (dbHash k)) (l ++ o :: m))
    (hl : ∀ x ∈ l, I.Passes k x) (ho : I.RecAt o r) (hsep : SEP ∈ r.key.1)
    (hf : l.length < fuel) :
    (dbFetch fuel b k.1).run exec (p, I.files) =
      (.dump .readidxSep3, p.setPos .idx (I.endOf o), I.files) := by
  rw [dbFetch, Prog.run_bind_dump (run_find_sep false hr hr hs hlink hl ho hsep hf)]

end Fetch

section Write

variable (hr : p.acc.readable = true) (hw : p.acc.writable = true)
include hr hw

/-- `_db_dodelete` behind a search that found the record. -/
theorem run_dodelete (h : Inv I L X Y M) (hl : L.chain j = l ++ o :: m) (ho : I.RecAt o r)
    (hv : I.HasPtr freeOff v) (hwo : (w : ℕ) = o) :
    ∃ b' p', (dbDodelete (b.found (slot j) l o r)).run exec (p, I.files) =
      (.ok b', p', (I.deleted (l.getLastD (slot j)) o r v w).files) ∧
      b'.chainoff = b.chainoff ∧ p'.acc = p.acc := by
  obtain ⟨d, hd, hlen⟩ := h.stock.blk ho
  have hlw := h.length_wiped ho hd
  have hlf := r.length_text_freed v
  have hne : l.getLastD (slot j) ≠ o := h.filed.prev_ne h.shape (i := some j) hl
  have hof : freeOff ≠ o := h.shape.free_ne ho
  have ho₁ : (I.putBlk r.datoff r.wiped).RecAt o r := ho
  obtain ⟨u, hu⟩ : ∃ u, I.HasPtr (l.getLastD (slot j)) u :=
    h.hasPtr (Filed.prev_mem (i := some j) hl)
  have hv₂ : ((I.putBlk r.datoff r.wiped).putCell o (.record (r.freed v))).HasPtr freeOff v :=
    Image.hasPtr_putCell ho₁ hlf hof hv
  have hu₃ : ((((I.putBlk r.datoff r.wiped).putCell o (.record (r.freed v)))).setPtr freeOff
      w).HasPtr (l.getLastD (slot j)) u :=
    Image.hasPtr_setPtr_ne hv₂ (h.filed.prev_ne_free h.shape hl)
      (Image.hasPtr_putCell ho₁ hlf hne hu) w
  have hwl : r.wiped.1.length + 1 = r.datlen := by rw [hlw, hlen]
  subst hwo
  refine ⟨_, _, (Prog.run_bind_ok (run_lock (t := .wr) hw) _).trans <|
    (Prog.run_bind_ok (run_writedat_set hw hd r.wiped hlw) _).trans <|
    (Prog.run_bind_ok (run_readptr (I := I.putBlk r.datoff r.wiped) (by simpa using hr) hv) _).trans <|
    (Prog.run_bind_ok (run_writeidx_set (by simpa using hw) ho₁ (r.freed v) hlf rfl hwl)
      _).trans <|
    (Prog.run_bind_ok (run_writeptr (by simpa using hw) hv₂ w) _).trans <|
    (Prog.run_bind_ok (run_writeptr (by simpa using hw) hu₃ r.ptr) _).trans <|
    Prog.run_bind_ok run_unlock _, rfl, by simp⟩

theorem run_delete_hit (h : Inv I L X Y M) (hl : L.chain (dbHash k) = l ++ o :: m)
    (hpass : ∀ x ∈ l, I.Passes k x) (ho : I.RecAt o r) (hsep : SEP ∉ r.key.1) (hk : r.key = k)
    (hv : I.HasPtr freeOff v) (hwo : (w : ℕ) = o) (hf : ptrMax < fuel) :
    ∃ b' p', (dbDelete fuel b k.1).run exec (p, I.files) =
      (.ok (0, b'), p', (I.deleted (l.getLastD (slot (dbHash k))) o r v w).files) ∧
      p'.acc = p.acc := by
  obtain ⟨hlink, hlen⟩ := h.walk_to hf hl
  obtain ⟨b', p', hrun, -, hacc⟩ := run_dodelete
    (p := p.setPos .idx (I.endOf o)) (b := { b with chainoff := slot (dbHash k) })
    (by simpa using hr) (by simpa using hw) h hl ho hv hwo
  refine ⟨b', p', ?_, by simpa using hacc⟩
  rw [dbDelete, Prog.run_bind_ok
    (run_find_hit true hr hw h.shape hlink hpass ho hsep hk hlen)]
  dsimp only
  rw [if_pos rfl, Prog.bind_assoc, Prog.run_bind_ok hrun]
  exact Prog.run_bind_ok run_unlock _

theorem run_delete_miss (hs : I.Shape) (hlink : Linked 0 I.next (slot (dbHash k)) l)
    (hl : ∀ x ∈ l, I.Passes k x) (hf : l.length < fuel) :
    ∃ b', (dbDelete fuel b k.1).run exec (p, I.files) =
      (.ok (-1, b'), I.walked (p.setPos .idx (slot (dbHash k) + ptrSz)) l, I.files) := by
  obtain ⟨b', hrun, -⟩ := run_find_miss (b := b) true hr hw hs hlink hl hf
  refine ⟨b', ?_⟩
  rw [dbDelete, Prog.run_bind_ok hrun]
  dsimp only
  rw [if_neg (by decide), Prog.pure_eq, Prog.ret_bind]
  exact Prog.run_bind_ok run_unlock _

theorem run_delete_sep (hs : I.Shape) (hlink : Linked 0 I.next (slot (dbHash k)) (l ++ o :: m))
    (hl : ∀ x ∈ l, I.Passes k x) (ho : I.RecAt o r) (hsep : SEP ∈ r.key.1)
    (hf : l.length < fuel) :
    (dbDelete fuel b k.1).run exec (p, I.files) =
      (.dump .readidxSep3, p.setPos .idx (I.endOf o), I.files) := by
  rw [dbDelete, Prog.run_bind_dump (run_find_sep true hr hw hs hlink hl ho hsep hf)]

omit hw in
theorem run_findfree_start (h : Inv I L X Y M) (hw : p.acc.writable = true) (keylen datlen : ℕ) :
    (dbFindfree fuel b keylen datlen).run exec (p, I.files) =
      (findfreeLoop keylen datlen fuel b freeOff (I.next freeOff) >>= fun x =>
        (if x.2.1 = 0 then pure (-1)
          else do
            dbWriteptr x.1 x.2.2.ptrval
            pure 0 : DbProg ℤ) >>= fun rc => do
          orDump (.unlck .idx freeOff 1) .findfreeUnLock
          pure (rc, x.2.2)).run exec (p.setPos .idx (freeOff + ptrSz), I.files) := by
  obtain ⟨v, hv⟩ := h.shape.free_hasPtr
  rw [hv.next_eq]
  exact (Prog.run_bind_ok (run_lock (t := .wr) hw) _).trans
    (Prog.run_bind_ok (run_readptr hr hv) _)

theorem run_findfree_hit {keylen datlen : ℕ} (h : Inv I L X Y M) (hl : L.free = l ++ o :: m)
    (hunfit : ∀ x ∈ l, I.Unfit keylen datlen x) (ho : I.RecAt o r) (hsep : SEP ∉ r.key.1)
    (hk : r.key.1.length = keylen ∧ r.datlen = datlen) (hf : ptrMax < fuel) :
    ∃ p', (dbFindfree fuel b keylen datlen).run exec (p, I.files) =
      (.ok (0, b.load o r), p', (I.setPtr (l.getLastD freeOff) r.ptr).files) ∧
      p'.acc = p.acc := by
  have hlink := h.linked none
  have hlen := h.length_le none
  simp only [Lists.nodes, head, hl, List.length_append] at hlink hlen
  have h0 : (o : ℤ) ≠ 0 := by exact_mod_cast hlink.ne_null (by simp)
  obtain ⟨u, hu⟩ : ∃ u, I.HasPtr (l.getLastD freeOff) u := h.hasPtr (Filed.prev_mem (i := none) hl)
  refine ⟨p.setPos .idx (l.getLastD freeOff + ptrSz), ?_, by simp⟩
  rw [run_findfree_start hr h hw, Prog.run_bind_ok (run_findfreeLoop_hit (by simpa using hr) hunfit
    hlink ho hsep hk (by omega)), Fds.setPos_setPos]
  dsimp only
  rw [if_neg h0, Prog.bind_assoc, DB.load]
  dsimp only
  rw [Prog.run_bind_ok (run_writeptr (by simpa using hw) hu r.ptr), Fds.setPos_setPos,
    Prog.pure_eq, Prog.ret_bind]
  exact Prog.run_bind_ok run_unlock _

theorem run_findfree_miss {keylen datlen : ℕ} (h : Inv I L X Y M)
    (hunfit : ∀ x ∈ L.free, I.Unfit keylen datlen x) (hf : ptrMax < fuel) :
    ∃ b' p', (dbFindfree fuel b keylen datlen).run exec (p, I.files) =
      (.ok (-1, b'), p', I.files) ∧ b'.chainoff = b.chainoff ∧ p'.acc = p.acc := by
  have hlen := h.length_le none
  obtain ⟨s, b', hrun, hdb⟩ := run_findfreeLoop_miss (p := p.setPos .idx (freeOff + ptrSz))
    (b := b) (by simpa using hr) hunfit (h.linked none) (hlen.trans_lt hf)
  refine ⟨b', I.walked (p.setPos .idx (freeOff + ptrSz)) L.free, ?_, hdb, by simp⟩
  rw [run_findfree_start hr h hw]
  refine (Prog.run_bind_ok hrun _).trans ?_
  dsimp only
  rw [if_pos rfl, Prog.pure_eq, Prog.ret_bind]
  exact Prog.run_bind_ok run_unlock _

end Write

section Append

variable (hw : p.acc.writable = true)
include hw

/-- The block is appended before the length of the index record is checked. -/
theorem run_storeAppend_len (hno : (idxText k.1 I.datBytes.length (d.1.length + 1)).length < idxlenMin ∨
      idxlenMax < (idxText k.1 I.datBytes.length (d.1.length + 1)).length) (v : Ptr) :
    ∃ p', (storeAppend b k.1 d.1 v).run exec (p, I.files) =
      (.dump .writeidxLen, p', (I.addBlk d).files) ∧ p'.acc = p.acc := by
  have hlen := run_writeidx_len k.1 0 .fin
    (b := { b with datoff := I.datBytes.length, datlen := d.1.length + 1 })
    (s := (p.setPos .dat (I.datBytes.length + (d.1.length + 1)), (I.addBlk d).files)) hno v
  exact ⟨_, (Prog.run_bind_ok (run_writedat_fin hw d) _).trans (Prog.run_bind_dump hlen _),
    by simp⟩

theorem run_storeAppend_start (hoff : r.datoff = I.datBytes.length)
    (hlen : r.datlen = d.1.length + 1) :
    ∃ b' p', (storeAppend b r.key.1 d.1 r.ptr).run exec (p, I.files) =
      (dbWriteptr b.chainoff I.idxBytes.length >>= fun _ => pure b').run exec
        (p', ((I.addBlk d).addRec r).files) ∧
      b'.chainoff = b.chainoff ∧ p'.acc = p.acc := by
  refine ⟨DB.wrote { b with datoff := I.datBytes.length, datlen := d.1.length + 1 }
    I.idxBytes.length r, (p.setPos .dat (I.datBytes.length + (d.1.length + 1))).setPos .idx
      (I.idxBytes.length + r.bytes.length), ?_, rfl, by simp⟩
  rw [storeAppend, Prog.run_bind_ok (run_writedat_fin hw d)]
  exact Prog.run_bind_ok (run_writeidx_fin (I := I.addBlk d) (by simpa using hw) r hoff.symm
    hlen.symm) _

theorem run_storeAppend (hv : I.HasPtr (slot j) v) (hc : b.chainoff = slot j)
    (hoff : r.datoff = I.datBytes.length) (hlen : r.datlen = d.1.length + 1)
    (hwo : (w : ℕ) = I.idxBytes.length) :
    ∃ b' p', (storeAppend b r.key.1 d.1 r.ptr).run exec (p, I.files) =
      (.ok b', p', (I.appended (slot j) r d w).files) ∧ b'.chainoff = slot j ∧
      p'.acc = p.acc := by
  obtain ⟨b', p', hrun, hdb, hacc⟩ := run_storeAppend_start (b := b) hw hoff hlen
  have hv₂ : ((I.addBlk d).addRec r).HasPtr (slot j) v := Image.hasPtr_addRec hv
  refine ⟨b', p'.setPos .idx (slot j + ptrSz), ?_, hdb.trans hc, by simpa using hacc⟩
  rw [hrun, hc, ← hwo, Prog.run_bind_ok (run_writeptr (by rw [hacc]; exact hw) hv₂ w)]
  rfl

/-- The block and the record are appended before their offset is checked. -/
theorem run_storeAppend_big (hoff : r.datoff = I.datBytes.length)
    (hlen : r.datlen = d.1.length + 1) (hbig : ptrMax < I.idxBytes.length) :
    ∃ p', (storeAppend b r.key.1 d.1 r.ptr).run exec (p, I.files) =
      (.dump .writeptrPtr, p', ((I.addBlk d).addRec r).files) ∧ p'.acc = p.acc := by
  obtain ⟨b', p', hrun, -, hacc⟩ := run_storeAppend_start (b := b) hw hoff hlen
  refine ⟨p', ?_, hacc⟩
  rw [hrun, Prog.run_bind_dump (run_writeptr_big (by exact_mod_cast hbig))]

theorem run_storeReuse (hv : I.HasPtr (slot j) v) (ho : I.RecAt o r) (hne : slot j ≠ o)
    (hd : I.blkAt r.datoff = some d') (hl : d.1.length = d'.1.length)
    (hlen : r.datlen = d.1.length + 1) (hk : k.1.length = r.key.1.length) (hc : b.chainoff = slot j)
    (hwo : (w : ℕ) = o) (v' : Ptr) :
    ∃ b' p', (storeReuse (b.load o r) k.1 d.1 v').run exec (p, I.files) =
      (.ok b', p', (((I.putBlk r.datoff d).putCell o (.record (r.withKey v' k hk))).setPtr (slot j)
        w).files) ∧ b'.chainoff = slot j ∧ p'.acc = p.acc := by
  have hlt := r.length_text_withKey v' hk
  have ho₁ : (I.putBlk r.datoff d).RecAt o r := ho
  have hv₂ : ((I.putBlk r.datoff d).putCell o (.record (r.withKey v' k hk))).HasPtr (slot j) v :=
    Image.hasPtr_putCell ho₁ hlt hne hv
  subst hwo
  rw [← hc] at hv₂ ⊢
  exact ⟨_, _, (Prog.run_bind_ok (run_writedat_set hw hd d hl) _).trans <|
    (Prog.run_bind_ok (run_writeidx_set (by simpa using hw) ho₁ (r.withKey v' k hk) hlt rfl
      hlen.symm) _).trans <|
    (Prog.run_bind_ok (run_writeptr (by simpa using hw) hv₂ w) _).trans rfl, rfl, by simp⟩

end Append

end Somenote.Db
