import Somenote.Bytes.Blocks
import Somenote.Db.Operations

/-! # Index records in any file

An index record that is written at an offset of any file is read back as it was. A record that is
rewritten with a key of the same length, by a deletion or a store, takes the same bytes.
-/

namespace Somenote.Db

open Decimal

variable {p q : Fds} {f : Files} {o a : ℕ} {r r' : Rec} {v w : Ptr} {b : DB} {k d : CStr}
  {s s' : List Byte}

theorem Files.bytes_set (f : Files) (fd : Fd) (s : List Byte) : (f.set fd s).bytes fd = s := by
  cases fd <;> rfl

theorem Rec.length_bytes_withKey (hl : k.1.length = r.key.1.length) :
    (r.withKey v k hl).bytes.length = r.bytes.length := by
  rw [Rec.length_bytes, Rec.length_bytes, r.length_text_withKey v hl]

/-- The record `r'` takes the bytes of the record `r` at the offset `o`. -/
structure Replaces (o : ℕ) (r r' : Rec) (s s' : List Byte) : Prop where
  old : r.bytes <+: s.drop o
  new : r'.bytes <+: s'.drop o
  size : r'.bytes.length = r.bytes.length
  length : s'.length = s.length
  same : ∀ x, x < o ∨ o + r.bytes.length ≤ x → s'[x]? = s[x]?

theorem replaces_overwrite (h : r.bytes <+: s.drop o) (hl : r'.bytes.length = r.bytes.length) :
    Replaces o r r' s (overwrite 0 s o r'.bytes) := by
  have hle : o + r.bytes.length ≤ s.length := by
    have hlen := h.length_le
    have hpos := (Cell.record r).length_pos
    rw [List.length_drop] at hlen
    change 0 < r.bytes.length at hpos
    omega
  refine ⟨h, ?_, hl, ?_, fun x hx => ?_⟩
  · rw [drop_overwrite]
    exact List.prefix_append ..
  · rw [length_overwrite, hl, max_eq_left hle]
  · by_cases hs : x < s.length
    · exact overwrite_outside (hl ▸ hx) hs
    · rw [List.getElem?_eq_none (Nat.not_lt.mp hs), List.getElem?_eq_none]
      rw [length_overwrite, hl, max_eq_left hle]
      exact Nat.not_lt.mp hs

section Run

variable (hr : p.acc.readable = true) (hw : p.acc.writable = true)

include hw in
theorem run_rewrite (h : r.bytes <+: (f.bytes .idx).drop o) (hk : k.1.length = r.key.1.length)
    (hoff : b.datoff = r.datoff) (hlen : b.datlen = r.datlen) (v : Ptr) :
    ∃ s, (dbWriteidx b k.1 o .set v).run exec (p, f) =
        (.ok (b.wrote o (r.withKey v k hk)), p.setPos .idx (o + r.bytes.length), f.set .idx s) ∧
      Replaces o r (r.withKey v k hk) (f.bytes .idx) s := by
  have ho : seekBase .idx p f .set + o = o := Nat.zero_add o
  have hrun := run_writeidx_at (r := r.withKey v k hk) hw ho hoff hlen
  rw [Rec.length_bytes_withKey hk] at hrun
  exact ⟨_, hrun, replaces_overwrite h (Rec.length_bytes_withKey hk)⟩

include hr hw in
/-- `_db_dodelete`, on a handle that has read the record, rewrites it and two pointers. -/
theorem run_dodelete_at (h : r.bytes <+: (f.bytes .idx).drop o)
    (hv : field ptrSz v <+: (f.bytes .idx).drop freeOff) (hwo : (w : ℕ) = o) (hp : b.ptroff = a) :
    ∃ b' p' f' s, (dbDodelete (b.load o r)).run exec (p, f) = (.ok b', p', f') ∧
      Replaces o r (r.freed v) (f.bytes .idx) s ∧
      f'.bytes .idx =
        overwrite 0 (overwrite 0 s freeOff (field ptrSz w)) a (field ptrSz r.ptr) := by
  have hwl : r.wiped.1.length + 1 = r.datlen := by
    have hpos := r.datlen_pos
    rw [Rec.wiped, length_blank]
    omega
  have hk : (blank r.key.1.length).1.length = r.key.1.length := length_blank _
  obtain ⟨s, hidx, hs⟩ := run_rewrite
    (p := (p.setPos .dat (r.datoff + (r.wiped.1.length + 1))).setPos .idx (freeOff + ptrSz))
    (f := f.set .dat (overwrite 0 (f.bytes .dat) r.datoff (blkBytes r.wiped))) (by simpa using hw)
    h hk (b := { b.load o r with
      datbuf := r.wiped, idxbuf := (blank r.key.1.length).1, datlen := r.wiped.1.length + 1 })
    rfl hwl v
  have hread := run_readptr_at (p := p.setPos .dat (r.datoff + (r.wiped.1.length + 1)))
    (f := f.set .dat (overwrite 0 (f.bytes .dat) r.datoff (blkBytes r.wiped)))
    (by simpa using hr) hv
  have hlast : ∀ (q : Fds) (g : Files), q.acc.writable = true →
      (dbWriteptr b.ptroff r.ptr).run exec (q, g) = (.ok (), q.setPos .idx (a + ptrSz),
        g.set .idx (overwrite 0 (g.bytes .idx) a (field ptrSz r.ptr))) := by
    intro q g hq
    rw [hp]
    exact run_writeptr_at hq r.ptr
  subst hwo
  refine ⟨_, _, _, s, (Prog.run_bind_ok (run_lock (t := .wr) hw) _).trans <|
    (Prog.run_bind_ok (run_writedat_at hw r.wiped) _).trans <|
    (Prog.run_bind_ok hread _).trans <|
    (Prog.run_bind_ok hidx _).trans <|
    (Prog.run_bind_ok (run_writeptr_at (by simpa using hw) w) _).trans <|
    (Prog.run_bind_ok (hlast _ _ (by simpa using hw)) _).trans <|
    Prog.run_bind_ok run_unlock _, hs, ?_⟩
  simp only [Files.bytes_set]

include hw in
theorem run_storeReuse_at (h : r.bytes <+: (f.bytes .idx).drop o) (hk : k.1.length = r.key.1.length)
    (hd : d.1.length + 1 = r.datlen) (hwo : (w : ℕ) = o) :
    ∃ b' p' f' s, (storeReuse (b.load o r) k.1 d.1 v).run exec (p, f) = (.ok b', p', f') ∧
      Replaces o r (r.withKey v k hk) (f.bytes .idx) s ∧
      f'.bytes .idx = overwrite 0 s b.chainoff (field ptrSz w) := by
  subst hwo
  obtain ⟨s, hidx, hs⟩ := run_rewrite (p := p.setPos .dat (r.datoff + (d.1.length + 1)))
    (f := f.set .dat (overwrite 0 (f.bytes .dat) r.datoff (blkBytes d))) (by simpa using hw) h hk
    (b := { b.load w r with datlen := d.1.length + 1 }) rfl hd v
  refine ⟨_, _, _, s, (Prog.run_bind_ok (run_writedat_at hw d) _).trans <|
    (Prog.run_bind_ok hidx _).trans <|
    (Prog.run_bind_ok (run_writeptr_at (by simpa using hw) w) _).trans rfl, hs, ?_⟩
  rw [Files.bytes_set, Files.bytes_set]
  rfl

end Run

/-- The index file has the record `r` at the offset `o`: it is read as it is, and each rewrite
with a key of the same length, that of `_db_dodelete` and that of `db_store` among them, takes its
bytes. -/
structure Stands (o : ℕ) (r : Rec) (f : Files) : Prop where
  read : ∀ (b : DB) p, p.acc.readable = true → (dbReadidx b o).run exec (p, f) =
    (.ok ((r.ptr : ℤ), b.load o r), p.setPos .idx (o + r.bytes.length), f)
  rewrite : ∀ (b : DB) p (v : Ptr) (k : CStr), p.acc.writable = true → b.datoff = r.datoff →
    b.datlen = r.datlen → ∀ hk : k.1.length = r.key.1.length,
    ∃ s, (dbWriteidx b k.1 o .set v).run exec (p, f) =
      (.ok (b.wrote o (r.withKey v k hk)), p.setPos .idx (o + r.bytes.length), f.set .idx s) ∧
        Replaces o r (r.withKey v k hk) (f.bytes .idx) s
  delete : ∀ (b : DB) p (v w : Ptr) (a : ℕ), p.acc.readable = true → p.acc.writable = true →
    field ptrSz v <+: (f.bytes .idx).drop freeOff → (w : ℕ) = o → b.ptroff = a →
    ∃ b' p' f' s, (dbDodelete (b.load o r)).run exec (p, f) = (.ok b', p', f') ∧
      Replaces o r (r.freed v) (f.bytes .idx) s ∧ f'.bytes .idx =
        overwrite 0 (overwrite 0 s freeOff (field ptrSz w)) a (field ptrSz r.ptr)
  reuse : ∀ (b : DB) p (v w : Ptr) (k d : CStr), p.acc.writable = true →
    d.1.length + 1 = r.datlen → (w : ℕ) = o → ∀ hk : k.1.length = r.key.1.length,
    ∃ b' p' f' s, (storeReuse (b.load o r) k.1 d.1 v).run exec (p, f) = (.ok b', p', f') ∧
      Replaces o r (r.withKey v k hk) (f.bytes .idx) s ∧
      f'.bytes .idx = overwrite 0 s b.chainoff (field ptrSz w)

theorem stands_of_front (h : r.bytes <+: (f.bytes .idx).drop o) (ho : 0 < o) (hs : SEP ∉ r.key.1) :
    Stands o r f where
  read _ _ hr := run_readidx_at hr (Or.inl ⟨rfl, ho.ne'⟩) h hs
  rewrite _ _ v _ hw hoff hlen hk := run_rewrite hw h hk hoff hlen v
  delete _ _ _ _ _ hr hw hv hwo hp := run_dodelete_at hr hw h hv hwo hp
  reuse _ _ _ _ _ _ hw hd hwo hk := run_storeReuse_at hw h hk hd hwo

/-- A record that `_db_writeidx` writes is read back as it was and rewritten in its own bytes, and a
pointer that `_db_writeptr` writes is read back. -/
theorem idx_codec (hs : SEP ∉ r.key.1) (ho : 0 < o) (hw : p.acc.writable = true) {offset : ℕ}
    {whence : Whence} (hseek : seekBase .idx p f whence + offset = o) (hoff : b.datoff = r.datoff)
    (hlen : b.datlen = r.datlen) :
    (∃ s, (dbWriteidx b r.key.1 offset whence r.ptr).run exec (p, f) =
        (.ok (b.wrote o r), p.setPos .idx (o + r.bytes.length), f.set .idx s) ∧
      Stands o r (f.set .idx s)) ∧
    ∀ (q : Fds) (g : Files) (x : ℕ) (v : Ptr), q.acc.readable = true → q.acc.writable = true →
      ∃ s, (dbWriteptr x v).run exec (q, g) = (.ok (), q.setPos .idx (x + ptrSz), g.set .idx s) ∧
        (dbReadptr x).run exec (q.setPos .idx (x + ptrSz), g.set .idx s) =
          (.ok (v : ℤ), q.setPos .idx (x + ptrSz), g.set .idx s) := by
  constructor
  · refine ⟨_, run_writeidx_at hw hseek hoff hlen, stands_of_front ?_ ho hs⟩
    rw [Files.bytes_set, drop_overwrite]
    exact List.prefix_append ..
  · intro q g x v hr hw
    refine ⟨_, run_writeptr_at hw v, ?_⟩
    rw [run_readptr_at (v := v) (by simpa using hr), Fds.setPos_setPos]
    rw [Files.bytes_set, drop_overwrite]
    exact List.prefix_append ..

/-- The record of the key `a`. -/
theorem idx_codec_sample : ∃ r : Rec, r.key.1 = [97] ∧
    ∃ s, (dbWriteidx { dbAlloc with datlen := 2 } r.key.1 967 .set r.ptr).run exec
        (⟨.rdwr, 0, 0⟩, ⟨some [], some []⟩) =
        (.ok (DB.wrote { dbAlloc with datlen := 2 } 967 r), ⟨.rdwr, 967 + r.bytes.length, 0⟩,
          ⟨some s, some []⟩) ∧ Stands 967 r ⟨some s, some []⟩ := by
  have hcodec := idx_codec (p := ⟨.rdwr, 0, 0⟩) (f := ⟨some [], some []⟩) (o := 967)
    (b := { dbAlloc with datlen := 2 })
    (r := ⟨0, ⟨[97], by decide⟩, 0, 2, by decide, by decide, by decide, by decide⟩)
    (by decide) (by decide) rfl
    (rfl : seekBase .idx ⟨.rdwr, 0, 0⟩ ⟨some [], some []⟩ .set + 967 = 967) rfl rfl
  exact ⟨_, rfl, hcodec.1⟩

end Somenote.Db
