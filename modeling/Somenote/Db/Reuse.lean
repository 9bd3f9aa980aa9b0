import Somenote.Db.Codec
import Somenote.Db.Usable

/-! # Free space

The free list as the bytes of the index file have it. A store of an absent key takes the first free
record that fits and leaves the sizes of the files, or appends to both files; a deletion never
changes a size.
-/

namespace Somenote.Db

open Decimal

variable {f f' : Files} {o : ℕ} {r r' : Rec} {k d : CStr} {s : List Byte}

theorem append_sep_inj {x x' y y' : List Byte} {c : Byte} (hy : c ∉ y) (hy' : c ∉ y')
    (h : x ++ c :: y = x' ++ c :: y') : x = x' ∧ y = y' := by
  have hrev := congrArg List.reverse h
  simp only [List.reverse_append, List.reverse_cons, List.append_assoc,
    List.singleton_append] at hrev
  have hs := strchr_append (t := x.reverse) (mt List.mem_reverse.mp hy)
  rw [hrev, strchr_append (mt List.mem_reverse.mp hy'), Option.some.injEq, Prod.mk.injEq] at hs
  exact ⟨(List.reverse_injective hs.2).symm, (List.reverse_injective hs.1).symm⟩

theorem eq_of_fronts {x y : List Byte} (h : x <+: s) (h' : y <+: s) (hl : x.length = y.length) :
    x = y :=
  (List.prefix_of_prefix_length_le h h' hl.le).eq_of_length hl

theorem field_injective {n n' : ℕ} {w : ℕ} (h : field w n = field w n') : n = n' := by
  have ha := congrArg atol h
  rw [atol_field, atol_field] at ha
  exact Int.ofNat_inj.mp ha

theorem Rec.text_injective (h : r.text = r'.text) :
    r.key = r'.key ∧ r.datoff = r'.datoff ∧ r.datlen = r'.datlen := by
  have hd : ∀ {n n'}, dec n = dec n' → n = n' := by
    intro n n' he
    rw [← digitsVal_dec n, he, digitsVal_dec]
  have ht := congrArg List.dropLast h
  rw [text_dropLast, text_dropLast, ← List.cons_append, ← List.append_assoc, ← List.cons_append,
    ← List.append_assoc] at ht
  obtain ⟨hkey, hlen⟩ := append_sep_inj (not_mem_dec_sep _) (not_mem_dec_sep _) ht
  obtain ⟨hkey, hoff⟩ := append_sep_inj (not_mem_dec_sep _) (not_mem_dec_sep _) hkey
  exact ⟨Subtype.ext hkey, hd hoff, hd hlen⟩

theorem Rec.eq_of_front (h : r.bytes <+: s) (h' : r'.bytes <+: s) : r = r' := by
  have hhead : r.head = r'.head :=
    eq_of_fronts ((List.prefix_append _ _).trans h) ((List.prefix_append _ _).trans h')
      (r.length_head.trans r'.length_head.symm)
  have hptr : r.ptr = r'.ptr := by
    have ht := congrArg (List.take ptrSz) hhead
    rw [r.take_head, r'.take_head] at ht
    exact Fin.ext (field_injective ht)
  have hlen : r.text.length = r'.text.length := by
    have ht := congrArg (List.drop ptrSz) hhead
    rw [r.drop_head, r'.drop_head] at ht
    exact field_injective ht
  have hbytes : r.bytes = r'.bytes :=
    eq_of_fronts h h' (by rw [r.length_bytes, r'.length_bytes, hlen])
  rw [bytes, bytes, hhead] at hbytes
  obtain ⟨hkey, hoff, hdatlen⟩ := text_injective (List.append_cancel_left hbytes)
  obtain ⟨⟩ := r
  obtain ⟨⟩ := r'
  subst hptr hkey hoff hdatlen
  rfl

namespace Files

/-- The pointer at an offset of the index file. -/
def ptrAt (f : Files) (o : ℕ) : ℕ := (atol (((f.bytes .idx).drop o).take ptrSz)).toNat

/-- The index file has the record at the offset. -/
def Has (f : Files) (o : ℕ) (r : Rec) : Prop := r.bytes <+: (f.bytes .idx).drop o

/-- The free list, from the pointer at the front of the index file on. -/
def Free (f : Files) (l : List ℕ) : Prop := Linked 0 f.ptrAt freeOff l

/-- The record at the offset has the key length and the data length that are asked for. -/
def Fit (f : Files) (k d : CStr) (o : ℕ) : Prop :=
  ∃ r, f.Has o r ∧ r.key.1.length = k.1.length ∧ r.datlen = d.1.length + 1

/-- A fetch of the key returns `x`. -/
def Fetches (f : Files) (k : CStr) (x : Option (List Byte)) : Prop :=
  ∃ fuel b c p s, ptrMax < fuel ∧ (dbFetch fuel b k.1).run exec (p, f) = (.ok (x, c), s)

/-- A fetch of the key finds nothing. -/
abbrev Absent (f : Files) (k : CStr) : Prop := f.Fetches k none

end Files

/-- The first free record that fits has been taken, and the others are free as before. -/
structure Reused (f f' : Files) (k d : CStr) (l : List ℕ) (o : ℕ) (m : List ℕ) : Prop where
  fit : f.Fit k d o
  first : ∀ x ∈ l, ¬ f.Fit k d x
  free : f'.Free (l ++ m)
  keeps : ∀ x ∈ l ++ m, ∀ r, f.Has x r → ∃ v, f'.Has x (r.withPtr v)
  filed : ∃ r r', f.Has o r ∧ f'.Has o r' ∧ r'.key = k ∧ r'.datoff = r.datoff ∧
    r'.datlen = r.datlen ∧ blkBytes d <+: (f'.bytes .dat).drop r.datoff
  head : f'.ptrAt (slot (dbHash k)) = o
  idx : (f'.bytes .idx).length = (f.bytes .idx).length
  dat : (f'.bytes .dat).length = (f.bytes .dat).length

/-- No free record fits, and both files have grown by the new record. -/
structure Grown (f f' : Files) (k d : CStr) (l : List ℕ) : Prop where
  unfit : ∀ x ∈ l, ¬ f.Fit k d x
  free : f'.Free l
  keeps : ∀ x ∈ l, ∀ r, f.Has x r → f'.Has x r
  idx : (f'.bytes .idx).length = (f.bytes .idx).length + (ptrSz + idxlenSz +
    (idxText k.1 (f.bytes .dat).length (d.1.length + 1)).length)
  dat : (f'.bytes .dat).length = (f.bytes .dat).length + (d.1.length + 1)

theorem Grown.longer {f f' : Files} {k d : CStr} {l : List ℕ} (h : Grown f f' k d l) :
    (f.bytes .idx).length < (f'.bytes .idx).length := by
  rw [h.idx]
  simp only [ptrSz, idxlenSz]
  omega

variable {I : Image} {L : Lists} {X Y : Set ℕ} {M : Map} {v w : Ptr} {l m : List ℕ}

theorem Image.HasPtr.ptrAt (h : I.HasPtr o v) : I.files.ptrAt o = v := by
  obtain ⟨z, hz⟩ := ptr_front h
  rw [Files.ptrAt, bytes_idx, ← hz, List.take_left' (length_ptrField v), atol_field]
  exact Int.toNat_natCast _

theorem Image.RecAt.has (h : I.RecAt o r) : I.files.Has o r := rec_front h

theorem Image.RecAt.eq_of_has (h : I.RecAt o r) (h' : I.files.Has o r') : r' = r :=
  Rec.eq_of_front h' h.has

theorem Inv.free (h : Inv I L X Y M) : I.files.Free L.free := by
  refine (h.linked none).congr fun x hx => ?_
  obtain ⟨v, hv⟩ := h.hasPtr hx
  rw [hv.ptrAt, hv.next_eq]

theorem Image.Unfit.not_fit (h : I.Unfit k.1.length (d.1.length + 1) o) : ¬ I.files.Fit k d o := by
  obtain ⟨r, hr, -, hne⟩ := h
  rintro ⟨q, hq, hfit⟩
  rw [hr.eq_of_has hq] at hfit
  exact hne hfit

theorem Image.RecAt.setPtr_withPtr {a : ℕ} {u : Ptr} (h : I.RecAt o r) (hu : I.HasPtr a u)
    (w : Ptr) : ∃ v, (I.setPtr a w).RecAt o (r.withPtr v) := by
  have hset := h.setPtr hu w
  by_cases ha : o = a
  · rw [if_pos ha] at hset
    exact ⟨w, hset⟩
  · rw [if_neg ha] at hset
    exact ⟨r.ptr, hset⟩

theorem Inv.reused_free (h : Inv I L X Y M) (hl : L.free = l ++ o :: m)
    (hunfit : ∀ x ∈ l, I.Unfit k.1.length (d.1.length + 1) x) (ho : I.RecAt o r)
    (hk : k.1.length = r.key.1.length) (hlen : r.datlen = d.1.length + 1) (hM : M k = none)
    (hv : I.HasPtr (slot (dbHash k)) v) (hw : (w : ℕ) = o) :
    Reused I.files (I.reused (l.getLastD freeOff) o r (slot (dbHash k)) k d hk v w).files k d l o
      m := by
  obtain ⟨d₀, hd₀, hlen₀⟩ := h.stock.blk ho
  have hdl : d.1.length = d₀.1.length := by omega
  have hne : l.getLastD freeOff ≠ o := h.filed.prev_ne h.shape (i := none) hl
  have hslot : slot (dbHash k) ≠ o := h.shape.slot_ne _ ho
  obtain ⟨u, hu⟩ : ∃ u, I.HasPtr (l.getLastD freeOff) u := h.hasPtr (Filed.prev_mem (i := none) hl)
  have hlt := r.length_text_withKey v hk
  -- the image in front of each write
  have ho₁ : (I.setPtr (l.getLastD freeOff) r.ptr).RecAt o r := by
    rw [Image.recAt_setPtr hu, if_neg hne.symm]
    exact ho
  have hv₁ := Image.hasPtr_setPtr_ne hu (h.filed.slot_ne_prev h.shape hl) hv r.ptr
  have hd₁ : (I.setPtr (l.getLastD freeOff) r.ptr).blkAt r.datoff = some d₀ := by simpa using hd₀
  have ho₂ : ((I.setPtr (l.getLastD freeOff) r.ptr).putBlk r.datoff d).RecAt o r := ho₁
  have hv₃ := Image.hasPtr_putCell ho₂ hlt hslot hv₁
  have ho₃ := Image.recAt_putCell_self ho₂ hlt
  have hb : (Cell.record (r.withKey v k hk)).bytes.length = (Cell.record r).bytes.length := by
    simp only [Cell.bytes, Rec.length_bytes, hlt]
  have hnd := h.filed.free_nodup
  rw [hl, List.perm_middle.nodup_iff, List.nodup_cons] at hnd
  constructor
  · exact ⟨r, ho.has, hk.symm, hlen⟩
  · exact fun x hx => (hunfit x hx).not_fit
  · exact (h.reused (w := w) hl ho hd₀ hdl hk rfl hM hv.next_eq.symm hw).free
  · intro x hx q hq
    have hxo : x ≠ o := fun he => hnd.1 (he ▸ hx)
    have hmem : x ∈ L.free := by
      rw [hl]
      exact List.perm_middle.mem_iff.mpr (List.mem_cons_of_mem _ hx)
    obtain ⟨q', hq'⟩ := h.filed.rec_free hmem
    obtain rfl := hq'.eq_of_has hq
    obtain ⟨v₁, hq₁⟩ := hq'.setPtr_withPtr hu r.ptr
    have hq₃ := (Image.recAt_putCell ho₂ hlt x (q.withPtr v₁)).mpr (by rw [if_neg hxo]; exact hq₁)
    obtain ⟨v₂, hq₄⟩ := hq₃.setPtr_withPtr hv₃ w
    exact ⟨v₂, hq₄.has⟩
  · refine ⟨r, r.withKey v k hk, ho.has, ?_, rfl, rfl, rfl, ?_⟩
    · have ho₄ := ho₃.setPtr hv₃ w
      rw [if_neg hslot.symm] at ho₄
      exact ho₄.has
    · have hd₂ : (I.reused (l.getLastD freeOff) o r (slot (dbHash k)) k d hk v w).blkAt r.datoff =
          some d := by
        rw [Image.reused, Image.blkAt_setPtr, Image.blkAt_putCell, Image.blkAt_putBlk hd₁ hdl,
          if_pos rfl]
      exact ⟨_, (Image.drop_dat hd₂).symm⟩
  · exact (Image.hasPtr_setPtr hv₃ w).ptrAt.trans hw
  · exact (Image.length_idx_setPtr hv₃ w).trans
      ((Image.length_idx_putCell ho₂ hb).trans (Image.length_idx_setPtr hu r.ptr))
  · rw [Image.bytes_dat, Image.bytes_dat, Image.reused, Image.datBytes, Image.blks_setPtr]
    refine (Image.length_dat_putBlk hd₁ hdl).trans ?_
    rw [Image.datBytes, Image.blks_setPtr]
    rfl

theorem Inv.appended_grown (h : Inv I L X Y M)
    (hunfit : ∀ x ∈ L.free, I.Unfit k.1.length (d.1.length + 1) x) (hM : M k = none)
    (hk : r.key = k) (hoff : r.datoff = I.datBytes.length) (hlen : r.datlen = d.1.length + 1)
    (hv : I.HasPtr (slot (dbHash k)) r.ptr) (hw : (w : ℕ) = I.idxBytes.length) :
    Grown I.files (I.appended (slot (dbHash k)) r d w).files k d L.free := by
  subst hk
  have hv₁ : ((I.addBlk d).addRec r).HasPtr (slot (dbHash r.key)) r.ptr := Image.hasPtr_addRec hv
  constructor
  · exact fun x hx => (hunfit x hx).not_fit
  · exact (h.appended (w := w) hoff hlen rfl hM hv.next_eq.symm hw).free
  · intro x hx q hq
    obtain ⟨q', hq'⟩ := h.filed.rec_free hx
    obtain rfl := hq'.eq_of_has hq
    have hxe : x ≠ (I.addBlk d).idxBytes.length := Image.cellAt_ne_end hq'
    have hq₁ := ((I.addBlk d).recAt_addRec (r := r) x q).mpr (by rw [if_neg hxe]; exact hq')
    have hq₂ := hq₁.setPtr hv₁ w
    rw [if_neg (h.shape.slot_ne _ hq').symm] at hq₂
    exact hq₂.has
  · refine (Image.length_idx_setPtr hv₁ w).trans (Image.length_idx_addRec.trans ?_)
    rw [r.length_bytes, Rec.text, hoff, hlen]
    rfl
  · rw [Image.bytes_dat, Image.appended, Image.datBytes, Image.blks_setPtr]
    exact Image.length_dat_addBlk

variable {fuel : ℕ} {b b' : DB} {p p' : Fds} {flag : ℤ}

/-- What a fetch returns is what is stored, and no key with a separator is in front of it. -/
theorem Inv.fetched (h : Inv I L X Y M) {x : Option (List Byte)} (hx : I.files.Fetches k x) :
    x = M.fetch k ∧ ¬ ∃ l o m r, L.chain (dbHash k) = l ++ o :: m ∧ (∀ x ∈ l, I.Passes k x) ∧
      I.RecAt o r ∧ SEP ∈ r.key.1 := by
  obtain ⟨fuel, b, c, p, s, hf, hrun⟩ := hx
  have hr : p.acc.readable = true := by
    by_contra hr
    obtain ⟨e, p', hden, -⟩ := fetch_denied fuel b I.files k.1 (eq_false_of_ne_true hr)
    rw [hden] at hrun
    cases hrun
  constructor
  · obtain ⟨out, p', hspec, -, ⟨b', rfl⟩ | ⟨rfl, -⟩⟩ := fetch_spec (b := b) h hf hr k
    · rw [hspec] at hrun
      cases hrun
      rfl
    · rw [hspec] at hrun
      cases hrun
  · rintro ⟨l, o, m, r, hc, hl, ho, hs⟩
    obtain ⟨hlink, hlen⟩ := h.walk_to hf hc
    rw [run_fetch_sep hr h.shape hlink hl ho hs hlen] at hrun
    cases hrun

theorem Inv.absent_passes (h : Inv I L X Y M) (ha : I.files.Absent k) :
    (∀ x ∈ L.chain (dbHash k), I.Passes k x) ∧ M k = none := by
  obtain ⟨hnone, hsep⟩ := h.fetched ha
  cases h.search k with
  | miss hl hM => exact ⟨hl, hM⟩
  | hit hc hl ho hs hk hd hdl hM =>
    rw [Map.fetch, hM] at hnone
    cases hnone
  | sep hc hl ho hs hM => exact absurd ⟨_, _, _, _, hc, hl, ho, hs⟩ hsep

/-- A store that returns zero has a valid flag, valid data and access to the files. -/
theorem Inv.stored (h : Inv I L X Y M) (hf : ptrMax < fuel) (hM : M k = none)
    (hrun : (dbStore fuel b k.1 d.1 flag).run exec (p, I.files) = (.ok (0, b'), p', f')) :
    (p.acc.readable = true ∧ p.acc.writable = true) ∧
      (flag = Flag.dbInsert ∨ flag = Flag.dbStore) ∧ DatlenOk d := by
  have hacc := store_granted fuel b I.files hrun
  obtain ⟨out, q, I', hspec, -, hend⟩ := store_spec (b := b) h hf hacc.1 hacc.2 k d flag
  have hout : out = .ok (0, b') := congrArg Prod.fst (hspec.symm.trans hrun)
  subst hout
  have hflag : flag = Flag.dbInsert ∨ flag = Flag.dbStore := by
    cases hend with
    | done hmap h' hY =>
      rw [Map.store, hM] at hmap
      dsimp only at hmap
      split_ifs at hmap with hbad hrep
      · cases hmap
      · cases hmap
      · omega
  refine ⟨hacc, hflag, ?_⟩
  by_contra hd
  rw [dbStore_dump fuel b (by rcases hflag with rfl | rfl <;> decide) hd] at hrun
  cases hrun

theorem Inv.store_free (h : Inv I L X Y M) (hf : ptrMax < fuel)
    (hl : ∀ x ∈ L.chain (dbHash k), I.Passes k x) (hM : M k = none)
    (hrun : (dbStore fuel b k.1 d.1 flag).run exec (p, I.files) = (.ok (0, b'), p', f')) :
    (∃ l o m, L.free = l ++ o :: m ∧ Reused I.files f' k d l o m) ∨
      Grown I.files f' k d L.free := by
  obtain ⟨⟨hr, hw⟩, hflag, hd⟩ := h.stored hf hM hrun
  obtain ⟨v, hv⟩ := h.shape.slot_hasPtr (dbHash k)
  obtain ⟨b₁, p₁, hstore, hc, hacc⟩ := run_store_miss (b := b) h hf hr hw hl hflag hd
  rw [hstore] at hrun
  rw [← hacc] at hr hw
  rcases h.fitting k.1.length (d.1.length + 1) with
    hunfit | ⟨l, o, m, r, hfree, hunfit, ho, -, hk, hlen⟩
  · obtain ⟨b₂, p₂, hmiss, hc₂, hacc₂⟩ := run_storeAbsent_miss (b := b₁) h hf hr hw hunfit hv hc
    rw [← hacc₂] at hw
    by_cases hfit : Fits I.files k d
    · let r : Rec := ⟨v, k, I.datBytes.length, d.1.length + 1, hfit.1, hfit.2, Nat.succ_pos _, hd.2⟩
      by_cases hbig : ptrMax < I.idxBytes.length
      · obtain ⟨p₃, happ, -⟩ := run_storeAppend_big (b := b₂) (r := r) hw rfl rfl hbig
        rw [Prog.run_bind_dump (hmiss.trans happ)] at hrun
        cases hrun
      · obtain ⟨b₃, p₃, happ, -, -⟩ := run_storeAppend (b := b₂) (r := r)
          (w := ⟨I.idxBytes.length, by omega⟩) hw hv hc₂ rfl rfl rfl
        rw [Prog.run_bind_ok (hmiss.trans happ)] at hrun
        obtain rfl := (Prod.mk.inj (Prod.mk.inj hrun).2).2
        exact Or.inr (h.appended_grown (r := r) hunfit hM rfl rfl rfl hv rfl)
    · simp only [Fits, Image.bytes_dat] at hfit
      obtain ⟨p₃, happ, -⟩ := run_storeAppend_len (b := b₂) (I := I) (k := k) (d := d) hw
        (by omega) v
      rw [Prog.run_bind_dump (hmiss.trans happ)] at hrun
      cases hrun
  · have hle : o ≤ ptrMax := h.node_le (i := none) (by rw [Lists.nodes, hfree]; simp)
    obtain ⟨b₂, p₂, hhit, -, -⟩ := run_storeAbsent_hit (b := b₁) (w := ⟨o, by omega⟩) h hf hr hw
      hfree hunfit ho hk.symm hlen hv hc rfl
    rw [Prog.run_bind_ok hhit] at hrun
    obtain rfl := (Prod.mk.inj (Prod.mk.inj hrun).2).2
    exact Or.inl ⟨l, o, m, hfree, h.reused_free hfree hunfit ho hk.symm hlen hM hv rfl⟩

theorem Inv.deleted_sizes (h : Inv I L X Y M) {j : Fin nhashDef} (hl : L.chain j = l ++ o :: m)
    (ho : I.RecAt o r) (hv : I.HasPtr freeOff v) :
    (I.deleted (l.getLastD (slot j)) o r v w).idxBytes.length = I.idxBytes.length ∧
      (I.deleted (l.getLastD (slot j)) o r v w).datBytes.length = I.datBytes.length := by
  obtain ⟨d, hd, -⟩ := h.stock.blk ho
  obtain ⟨u, hu⟩ : ∃ u, I.HasPtr (l.getLastD (slot j)) u :=
    h.hasPtr (Filed.prev_mem (i := some j) hl)
  have ho₁ : (I.putBlk r.datoff r.wiped).RecAt o r := ho
  have hlf := r.length_text_freed v
  have hb : (Cell.record (r.freed v)).bytes.length = (Cell.record r).bytes.length := by
    simp only [Cell.bytes, Rec.length_bytes, hlf]
  have hne : l.getLastD (slot j) ≠ o := h.filed.prev_ne h.shape (i := some j) hl
  have hv₂ := Image.hasPtr_putCell ho₁ hlf (h.shape.free_ne ho) hv
  have hu₃ := Image.hasPtr_setPtr_ne hv₂ (h.filed.prev_ne_free h.shape hl)
    (Image.hasPtr_putCell ho₁ hlf hne hu) w
  constructor
  · exact (Image.length_idx_setPtr hu₃ r.ptr).trans
      ((Image.length_idx_setPtr hv₂ w).trans (Image.length_idx_putCell ho₁ hb))
  · rw [Image.deleted, Image.datBytes, Image.blks_setPtr, Image.blks_setPtr]
    exact Image.length_dat_putBlk hd (h.length_wiped ho hd)

theorem Inv.delete_sizes (h : Inv I L X Y M) (hf : ptrMax < fuel) {out : Out Err (ℤ × DB)}
    (hrun : (dbDelete fuel b k.1).run exec (p, I.files) = (out, p', f')) :
    (f'.bytes .idx).length = I.idxBytes.length ∧ (f'.bytes .dat).length = I.datBytes.length := by
  by_cases hrw : p.acc.writable = false ∨ p.acc.readable = false
  · obtain ⟨e, q, hden, -⟩ := delete_denied fuel b I.files hrw k.1
    rw [hden] at hrun
    obtain rfl := (Prod.mk.inj (Prod.mk.inj hrun).2).2
    exact ⟨rfl, rfl⟩
  obtain ⟨hw, hr⟩ : p.acc.writable = true ∧ p.acc.readable = true := by simpa using hrw
  cases h.search k with
  | miss hl hM =>
    obtain ⟨hlink, hlen⟩ := h.walk hf k
    obtain ⟨c, hmiss⟩ := run_delete_miss (b := b) hr hw h.shape hlink hl hlen
    rw [hmiss] at hrun
    obtain rfl := (Prod.mk.inj (Prod.mk.inj hrun).2).2
    exact ⟨rfl, rfl⟩
  | @hit l o m r d hc hl ho hs hk hd hdl hM =>
    subst hk
    obtain ⟨v, hv⟩ := h.shape.free_hasPtr
    have hle : o ≤ ptrMax := h.node_le (i := some (dbHash r.key)) (by rw [Lists.nodes, hc]; simp)
    obtain ⟨c, q, hhit, -⟩ := run_delete_hit (b := b) (w := ⟨o, Nat.lt_succ_of_le hle⟩)
      hr hw h hc hl ho hs rfl hv rfl hf
    rw [hhit] at hrun
    obtain rfl := (Prod.mk.inj (Prod.mk.inj hrun).2).2
    exact h.deleted_sizes hc ho hv
  | @sep l o m r d hc hl ho hs hM =>
    obtain ⟨hlink, hlen⟩ := h.walk_to hf hc
    rw [run_delete_sep hr hw h.shape hlink hl ho hs hlen] at hrun
    obtain rfl := (Prod.mk.inj (Prod.mk.inj hrun).2).2
    exact ⟨rfl, rfl⟩

/-- A store of an absent key takes the first free record that fits and leaves the sizes of the
files, or appends to both; a deletion never changes a size. -/
theorem free_space (hr : Reachable (fun _ => True) f) (hf : ptrMax < fuel) :
    (∀ k d flag b b' p p' f', f.Absent k →
      (dbStore fuel b k.1 d.1 flag).run exec (p, f) = (.ok (0, b'), p', f') →
      ∃ l, f.Free l ∧ ((∃ l₁ o l₂, l = l₁ ++ o :: l₂ ∧ Reused f f' k d l₁ o l₂) ∨
        Grown f f' k d l)) ∧
    ∀ (k : CStr) b p out p' f', (dbDelete fuel b k.1).run exec (p, f) = (out, p', f') →
      (f'.bytes .idx).length = (f.bytes .idx).length ∧
        (f'.bytes .dat).length = (f.bytes .dat).length := by
  obtain ⟨I, L, X, Y, M, rfl, h, -⟩ := hr.valid
  constructor
  · intro k d flag b b' p p' f' ha hrun
    obtain ⟨hl, hM⟩ := h.absent_passes ha
    exact ⟨L.free, h.free, h.store_free hf hl hM hrun⟩
  · exact fun k b p out p' f' => h.delete_sizes hf

section Sample

/-- A key of two bytes. -/
def keyBb : CStr := ⟨[98, 98], by decide⟩

/-- The database of `keyB`, behind the deletions of a key of one byte and of one of two. -/
def released : Fds × Files :=
  ((newSession 100000 [.store keyA dataX Flag.dbInsert, .store keyBb dataX Flag.dbInsert,
    .store keyB dataX Flag.dbInsert, .delete keyA, .delete keyBb]).run exec noFiles).2

/-- The store of a new key of one byte. -/
def reuse : Out Err (ℤ × DB) × Fds × Files :=
  (dbStore 100000 dbAlloc keyC.1 dataY.1 Flag.dbInsert).run exec released

def deletion : Out Err (ℤ × DB) × Fds × Files := (dbDelete 100000 dbAlloc keyB.1).run exec released

theorem released_reachable : Reachable (fun _ => True) released.2 := by
  unfold released
  exact newSession_reachable (by decide) (by simp [Op.Stores, Op.Opens]) noFiles

set_option maxRecDepth 100000 in
/-- The free list behind both deletions, with the record of the longer key in front, and what a
fetch of the new key, its store and another deletion give. -/
theorem released_outcomes :
    (released.2.ptrAt freeOff = 984 ∧ released.2.ptrAt 984 = 967 ∧ released.2.ptrAt 967 = 0) ∧
    ((dbFetch 100000 dbAlloc keyC.1).run exec released).1.map Prod.fst = .ok none ∧
    (reuse.1.map Prod.fst = .ok 0 ∧ reuse.2.2.ptrAt (slot (dbHash keyC)) = 967 ∧
      (reuse.2.2.bytes .idx).length = (released.2.bytes .idx).length) ∧
    deletion.1.map Prod.fst = .ok 0 := by
  decide +kernel

set_option maxRecDepth 100000 in
theorem absent_released : released.2.Absent keyC := by
  obtain ⟨⟨d, c⟩, s, hrun, rfl⟩ := Prog.run_of_map released_outcomes.2.1
  rw [← Prod.eta released] at hrun
  exact ⟨_, _, c, _, s, by decide, hrun⟩

theorem released_free : released.2.Free [984, 967] := by
  obtain ⟨hfree, hlong, hshort⟩ := released_outcomes.1
  exact ⟨hfree, by decide, hlong, by decide, hshort⟩

theorem free_space_sample : released.2.Free [984, 967] ∧
    (∃ b t, reuse = (.ok (0, b), t) ∧ Reused released.2 t.2 keyC dataY [984] 967 []) ∧
    ∃ b t, deletion = (.ok (0, b), t) ∧
      (t.2.bytes .idx).length = (released.2.bytes .idx).length ∧
      (t.2.bytes .dat).length = (released.2.bytes .dat).length := by
  obtain ⟨hstore, hdelete⟩ := free_space released_reachable (by decide : ptrMax < 100000)
  refine ⟨released_free, ?_, ?_⟩
  · obtain ⟨hok, hhead, hlen⟩ := released_outcomes.2.2.1
    obtain ⟨⟨rc, b⟩, t, hrun, rfl⟩ := Prog.run_of_map hok
    have hreuse : reuse = (.ok (0, b), t) := hrun
    rw [← Prod.eta released] at hrun
    rw [hreuse] at hhead hlen
    refine ⟨b, t, hreuse, ?_⟩
    obtain ⟨l, hl, ⟨l₁, o, l₂, rfl, hreused⟩ | hgrown⟩ :=
      hstore keyC dataY Flag.dbInsert dbAlloc b released.1 t.1 t.2 absent_released hrun
    · obtain rfl : o = 967 := hreused.head.symm.trans hhead
      have hlist := hl.unique released_free
      rw [List.append_eq_cons_iff] at hlist
      rcases hlist with ⟨rfl, hcons⟩ | ⟨m, rfl, hm⟩
      · cases hcons
      · obtain ⟨rfl, hm⟩ | ⟨m', rfl, hm⟩ := List.append_eq_cons_iff.mp hm.symm
        · cases hm
          exact hreused
        · exact absurd hm.symm (by simp)
    · exact absurd hlen hgrown.longer.ne'
  · obtain ⟨⟨rc, b⟩, t, hrun, rfl⟩ := Prog.run_of_map released_outcomes.2.2.2
    have hdeletion : deletion = (.ok (0, b), t) := hrun
    rw [← Prod.eta released] at hrun
    exact ⟨b, t, hdeletion, hdelete keyB dbAlloc _ _ t.1 t.2 hrun⟩

end Sample

end Somenote.Db
