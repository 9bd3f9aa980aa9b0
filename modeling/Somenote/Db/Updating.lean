import Somenote.Db.Sections

/-! # Deletions and stores inside a chain

What a process that is inside the chain of a key goes through in `_db_dodelete`, in
`_db_findfree` and in the branches of `db_store`, while other processes are inside
other chains. A store takes effect with the write of the index record, or of the data when
the record stays.
-/

namespace Somenote.Db

open Decimal World

variable {Pid : Type} [DecidableEq Pid] {α : Type} {p : Pid} {w w' : World Pid} {k d : CStr}
  {v : Option CStr} {n o a : ℕ} {r : Rec} {g : Locking} {j : Fin nhashDef} {op : Req} {l : Fds}
  {τ : Option Ans} {b : DB} {Q : α → Fds → World Pid → Option Ans → Prop} {res : Ans} {e : Err}

section Stages

theorem World.Pending.lock {fd : Fd} {off len : ℕ} {x : Option LockType}
    (h : Pending p w k v n) (hout : fd = .idx → ¬ inRange off len (slot (dbHash k.1))) :
    Pending p (w.lock p fd off len x) k v n :=
  { h with
    writes := h.writes.lock fun _ => hout
    timely := h.timely }

omit [DecidableEq Pid] in
theorem World.Pending.inside (h : Pending p w k v n) (hl : w.locks p = Locking.chain (dbHash k.1) .wr)
    (hh : w'.hand p = .empty) (hlocks : w'.locks = w.locks) (hlate : w'.late = w.late)
    (hmap : ∀ k', k' ≠ k → w'.map k' = w.map k' ∧ w'.chained k' = w.chained k')
    (hk : w'.map k = w'.chained k) : Inside p w' (dbHash k.1) .wr where
  locks := by rw [hlocks, hl]
  hand := hh
  timely x := by
    rw [hlate]
    exact h.timely x
  agree k' hk' := by
    by_cases he : k' = k
    · exact he ▸ hk
    · rw [(hmap k' he).1, (hmap k' he).2]
      exact h.others k' hk' he

omit [DecidableEq Pid] in
theorem Locking.chain_free (j : Fin nhashDef) (t : LockType) :
    ∀ x, inRange freeOff 1 x → Locking.chain j t .idx x = Option.none := by
  intro x hx
  refine Locking.chain_idx ?_
  rintro rfl
  exact slot_notInFree hx

theorem guarded_release {f : Unit → DbProg α} {fd : Fd} {off len : ℕ} {x : Option LockType}
    (hp : Pending p w k v n) (hl : w.locks p = g.add fd off len x)
    (hg : ∀ b, inRange off len b → g fd b = none) (hd : ∀ o, w.hand p ≠ .dying o)
    (hout : ∀ j, fd = .idx → ¬ inRange off len (slot j))
    (h : ∀ w', Rely p w w' → (w'.lock p fd off len none).Ok →
      Pending p (w'.lock p fd off len none) k v n → (w'.lock p fd off len none).locks p = g →
      Guarded p op (f ()) Q l (w'.lock p fd off len none) τ) :
    Guarded p op (orDump (.unlck fd off len) e >>= f) Q l w τ := by
  refine guarded_unlock fun w' ok' h' => ?_
  have hp' := hp.rely h'
  have hok : (w'.lock p fd off len none).Ok :=
    unlock_ok ok' (by rw [h'.hand]; exact hd) hp'.timely (fun hfd k hk => absurd hk (hout _ hfd))
      fun hfd _ _ _ _ _ => hout _ hfd
  have hg' : (w'.lock p fd off len none).locks p = g := by
    rw [lock_self, h'.locks, hl]
    exact Locking.add_clear hg
  exact ⟨w', τ, .stay ok', rfl, rfl, hok, h w' h' hok (hp'.lock (hout _)) hg'⟩

end Stages

section Append

theorem guarded_writedat_fin {f : DB → DbProg α} (hg : w.locks p = g)
    (hdat : ∀ x, g .dat x = none) (hp : Pending p w k v n) (hh : w.hand p = .empty)
    (h : ∀ l' w' a, w'.Ok → Pending p w' k v n → w'.locks p = g → w'.hand p = .blk a →
      w'.image.blkAt a = some d →
      Guarded p op (f { b with datoff := a, datlen := d.1.length + 1 }) Q l' w' τ) :
    Guarded p op (dbWritedat b d.1 0 .fin >>= f) Q l w τ := by
  rw [dbWritedat, onEnd_fin, Prog.bind_assoc]
  refine guarded_lock (fun x _ => by rw [hg, hdat]) fun w₁ ok₁ h₁ hgrant => ?_
  have hg₁ : w₁.locks p = g := h₁.locks.trans hg
  have hp₁ : Pending p (w₁.lock p .dat 0 0 (some .wr)) k v n := (hp.rely h₁).lock (by simp)
  have hl₁ : (w₁.lock p .dat 0 0 (some .wr)).locks p = g.add .dat 0 0 (some .wr) := by
    rw [lock_self, hg₁]
  rw [Prog.bind_assoc]
  refine guarded_seek_end fun w₂ ok₂ h₂ => ?_
  dsimp only
  rw [← blkBytes, Prog.bind_assoc]
  refine guarded_write fun hw w₃ ok₃ h₃ => ?_
  have h₂₃ := h₂.trans h₃
  have hdat₂ : w₂.locks p .dat 0 = some .wr := by
    rw [h₂.locks, hl₁]
    exact Locking.add_in ⟨le_rfl, Or.inl rfl⟩
  have hdat₃ : w₃.locks p .dat 0 = some .wr := by rw [h₃.locks, hdat₂]
  have hend : (w₂.real.files.bytes .dat).length = w₃.real.datBytes.length :=
    Ok.length_dat_real.trans ((h₃.datEnd hdat₂).symm.trans Ok.length_dat_real.symm)
  have hh₃ : w₃.hand p = .empty := h₂₃.hand.trans (h₁.hand.trans hh)
  have hx := exec_addblk (p := l.setPos .dat (w₂.real.files.bytes .dat).length) hw hend d
  rw [← addBlk_real (p := p)] at hx
  have ok₃' := addBlk_ok (d := d) ok₃ hdat₃ hh₃
  refine ⟨_, _, w₃.addBlk p d, τ, hx, rfl, (addBlk_change hdat₃).moves ok₃ ok₃' rfl, ?_⟩
  rw [dumpIf_neg (by simp), Prog.ret_bind, onEnd_fin, Prog.bind_assoc]
  have hp₃ : Pending p (w₃.addBlk p d) k v n :=
    { hp₁.rely h₂₃ with timely := (hp₁.rely h₂₃).timely }
  have hself : (w₃.addBlk p d).hand p = .blk w₃.image.datBytes.length := Function.update_self ..
  refine guarded_release hp₃ (h₂₃.locks.trans hl₁) (fun x _ => hdat x) (by simp [hself]) (by simp)
    fun w₄ h₄ hok hp₄ hg₄ => ?_
  have hblk₄ : w₄.image.blkAt w₃.image.datBytes.length = some d := by
    rw [h₄.blk _ hself, addBlk, Image.blkAt_addBlk, if_pos rfl]
  have hf := h ((l.setPos .dat (w₂.real.files.bytes .dat).length).setPos .dat
    (w₃.real.datBytes.length + (d.1.length + 1))) (w₄.lock p .dat 0 0 none)
    w₃.image.datBytes.length hok hp₄ hg₄ (h₄.hand.trans hself) hblk₄
  rw [show (w₂.real.files.bytes .dat).length = w₃.image.datBytes.length from
    hend.trans Ok.length_dat_real]
  exact hf

theorem World.Pending.addRec (h : Pending p w k v n) (ok : w.Ok) (hk : r.key = k) :
    Pending p (w.addRec p r d) k (some d) n := by
  subst hk
  obtain ⟨c, hc⟩ := ok.inv.shape.slot (dbHash r.key.1)
  exact { h with
    timely := h.timely
    map := Function.update_self ..
    others := fun k' hk' hne => by
      change Function.update w.map r.key (some d) k' = w.chained k'
      rw [Function.update_of_ne hne]
      exact h.others k' hk' hne
    first := by
      rw [World.addRec, Image.next_addRec, if_neg (Image.cellAt_ne_end hc)]
      exact h.first }

/-- A record is appended under the lock of the index records, and the call takes effect. -/
theorem guarded_writeidx_fin {f : DB → DbProg α} (hg : w.locks p = g)
    (hidx : ∀ x, inRange idxStart 0 x → g .idx x = none) (hp : Pending p w k v n)
    (hh : w.hand p = .blk b.datoff) (hd : w.image.blkAt b.datoff = some d)
    (hlen : b.datlen = d.1.length + 1) (hle : b.datlen ≤ datlenMax) (hs : SEP ∉ k.1)
    (heff : ∀ M : Map, M k = v → op.Effect M res (Function.update M k (some d)))
    (h : ∀ l' w' o r, w'.Ok → Pending p w' k (some d) n → w'.locks p = g → w'.hand p = .record o →
      w'.image.RecAt o r → r.key = k → (r.ptr : ℕ) = n → w'.image.blkAt r.datoff = some d →
      Guarded p op (f (b.wrote o r)) Q l' w' (some res)) :
    Guarded p op (dbWriteidx b k.1 0 .fin n >>= f) Q l w none := by
  rw [dbWriteidx, Prog.bind_assoc]
  refine guarded_dumpIf fun hn => ?_
  dsimp only
  rw [Prog.bind_assoc]
  refine guarded_dumpIf fun hlen' => ?_
  let r : Rec := ⟨⟨n, by omega⟩, k, b.datoff, b.datlen, by omega, by omega, by omega, hle⟩
  have htext : idxText k b.datoff b.datlen = r.text := rfl
  have hbytes : (field ptrSz n ++ field idxlenSz r.text.length).take (ptrSz + idxlenSz) ++ r.text =
      r.bytes := writeidx_bytes r
  rw [htext, Int.toNat_natCast, onEnd_fin, Prog.bind_assoc]
  refine guarded_lock (fun x hx => by rw [hg, hidx x hx]) fun w₁ ok₁ h₁ hgrant => ?_
  have hg₁ : w₁.locks p = g := h₁.locks.trans hg
  have hp₁ : Pending p (w₁.lock p .idx idxStart 0 (some .wr)) k v n :=
    (hp.rely h₁).lock fun _ => slot_notInRange
  have hl₁ : (w₁.lock p .idx idxStart 0 (some .wr)).locks p = g.add .idx idxStart 0 (some .wr) := by
    rw [lock_self, hg₁]
  rw [Prog.bind_assoc]
  refine guarded_seek_end fun w₂ ok₂ h₂ => ?_
  rw [hbytes, Prog.bind_assoc]
  refine guarded_write fun hw w₃ ok₃ h₃ => ?_
  have h₂₃ := h₂.trans h₃
  have hidx₂ : w₂.Writes p idxStart := by
    rw [Writes, h₂.locks, hl₁]
    exact Locking.add_in ⟨le_rfl, Or.inl rfl⟩
  have hidx₃ : w₃.Writes p idxStart := h₃.writes.mpr hidx₂
  have hend : (w₂.real.files.bytes .idx).length = w₃.image.idxBytes.length :=
    ok₂.length_idx_real.trans (h₃.idxEnd hidx₂).symm
  have hh₁ : w₁.hand p = .blk b.datoff := h₁.hand.trans hh
  have hh₃ : w₃.hand p = .blk r.datoff := h₂₃.hand.trans hh₁
  have hd₃ : w₃.image.blkAt r.datoff = some d :=
    (h₂₃.blk _ hh₁).trans ((h₁.blk _ hh).trans hd)
  have hp₃ := hp₁.rely h₂₃
  have hx := exec_addrec (p := l.setPos .idx (w₂.real.files.bytes .idx).length) hw
    (hend.trans ok₃.length_idx_real.symm) r
  rw [← addRec_real (p := p) (d := d) ok₃] at hx
  have hch := addRec_change (d := d) hp₃.writes hidx₃ (r := r)
  have ok₃' : (w₃.addRec p r d).Ok :=
    addRec_ok ok₃ hp₃.writes hidx₃ hh₃ hp₃.chained hs hd₃ hlen
  refine ⟨_, _, w₃.addRec p r d, some res, hx, rfl,
    hch.takes ok₃ ok₃' (heff _ hp₃.map), ?_⟩
  rw [dumpIf_neg (by simp [r.length_bytes]), Prog.ret_bind, onEnd_fin, Prog.bind_assoc]
  have hp₃' : Pending p (w₃.addRec p r d) k (some d) n := hp₃.addRec ok₃ rfl
  have hself : (w₃.addRec p r d).hand p = .record w₃.image.idxBytes.length :=
    Function.update_self ..
  have hr₃ : (w₃.addRec p r d).image.RecAt w₃.image.idxBytes.length r := w₃.image.recAt_addRec_end r
  refine guarded_release hp₃' (h₂₃.locks.trans hl₁) hidx (by simp [hself])
    (fun _ _ => slot_notInRange) fun w₄ h₄ hok hp₄ hg₄ => ?_
  obtain ⟨hc₄, hb₄⟩ := h₄.record _ hself
  have hf := h ((l.setPos .idx (w₂.real.files.bytes .idx).length).setPos .idx
    (w₃.real.idxBytes.length + r.bytes.length)) (w₄.lock p .idx idxStart 0 none)
    w₃.image.idxBytes.length r hok hp₄ hg₄ (h₄.hand.trans hself) (hc₄.trans hr₃) rfl rfl
    ((hb₄ r hr₃).trans hd₃)
  rw [hend]
  exact hf

theorem guarded_writeptr_chain {f : Unit → DbProg α} (hl : w.locks p = Locking.chain (dbHash k.1) .wr)
    (hp : Pending p w k (some d) n) (hh : w.hand p = .record o) (ho : w.image.RecAt o r)
    (hk : r.key = k) (hptr : (r.ptr : ℕ) = n) (hd : w.image.blkAt r.datoff = some d)
    (h : ∀ l' w', w'.Ok → Inside p w' (dbHash k.1) .wr → Guarded p op (f ()) Q l' w' τ) :
    Guarded p op (dbWriteptr (slot (dbHash k.1)) o >>= f) Q l w τ := by
  subst hk
  refine guarded_writeptr fun w₁ u ok₁ h₁ hu => ?_
  have hp₁ := hp.rely h₁
  obtain ⟨hc₁, hb₁⟩ := h₁.record _ hh
  have hd₁ : w₁.image.blkAt r.datoff = some d := (hb₁ r ho).trans hd
  have ho₁ : w₁.image.RecAt o r := hc₁.trans ho
  obtain ⟨c, hc⟩ := ok₁.inv.shape.slot_hasPtr (dbHash r.key.1)
  have ok₁' := pushChain_ok ok₁ hp₁.writes hp₁.timely (h₁.hand.trans hh) ho₁ rfl hp₁.chained hd₁
    (hptr.trans hp₁.first.symm) hu
  refine ⟨w₁.pushChain p (dbHash r.key.1) o u r.key d, τ,
    (pushChain_change ok₁ hp₁.writes rfl).moves ok₁ ok₁' rfl,
    pushChain_real ok₁ hp₁.writes hp₁.timely, rfl, ⟨c, ?_⟩, fun l' => h l' _ ok₁' ?_⟩
  · obtain ⟨x, hx, hv⟩ := hc
    refine ⟨x, (ok₁.cellAt_real hp₁.timely ?_).trans hx, hv⟩
    exact .inl ⟨some (dbHash r.key.1), hp₁.writes.holds, List.mem_cons_self⟩
  · refine hp₁.inside (h₁.locks.trans hl) (Function.update_self ..) rfl rfl (fun k' hne => ?_) ?_
    · exact ⟨rfl, Function.update_of_ne hne ..⟩
    · have hchained : (w₁.pushChain p (dbHash r.key.1) o u r.key d).chained r.key = some d :=
        Function.update_self ..
      rw [hchained]
      exact hp₁.map

theorem guarded_storeAppend {f : DB → DbProg α} (hl : w.locks p = Locking.chain (dbHash k.1) .wr)
    (hp : Pending p w k v n) (hh : w.hand p = .empty) (hle : d.1.length + 1 ≤ datlenMax)
    (hs : SEP ∉ k.1) (hc : b.chainoff = slot (dbHash k.1))
    (heff : ∀ M : Map, M k = v → op.Effect M res (Function.update M k (some d)))
    (h : ∀ l' w' (b' : DB), w'.Ok → Inside p w' (dbHash k.1) .wr → b'.chainoff = b.chainoff →
      Guarded p op (f b') Q l' w' (some res)) :
    Guarded p op (storeAppend b k.1 d.1 n >>= f) Q l w none := by
  rw [storeAppend, Prog.bind_assoc]
  refine guarded_writedat_fin hl (fun x => Locking.chain_dat) hp hh
    fun l₁ w₁ a ok₁ hp₁ hl₁ hh₁ hd₁ => ?_
  rw [Prog.bind_assoc]
  refine guarded_writeidx_fin hl₁ (fun x hx => Locking.chain_idx ?_) hp₁ hh₁ hd₁ rfl hle hs heff
    fun l₂ w₂ o r ok₂ hp₂ hl₂ hh₂ ho₂ hk hptr hd₂ => ?_
  · rintro rfl
    exact slot_notInRange hx
  · rw [Prog.bind_assoc]
    change Guarded p op (dbWriteptr b.chainoff o >>= _) Q l₂ w₂ (some res)
    rw [hc]
    refine guarded_writeptr_chain hl₂ hp₂ hh₂ ho₂ hk hptr hd₂ fun l₃ w₃ ok₃ hin₃ => ?_
    exact h l₃ w₃ _ ok₃ hin₃ hc.symm

end Append

section Reuse

theorem World.Pending.takeFree (h : Pending p w k v n) (ok : w.Ok) {l₀ m : List ℕ}
    (hl : w.lists.free = l₀ ++ o :: m) : Pending p (w.takeFree p l₀ o m r) k v n :=
  { h with
    timely := h.timely
    first := by
      obtain ⟨c, hc⟩ : ∃ c, w.image.HasPtr (l₀.getLastD freeOff) c :=
        ok.inv.hasPtr (Filed.prev_mem (i := none) hl)
      rw [World.takeFree, Image.next_setPtr hc, if_neg (ok.inv.filed.slot_ne_prev ok.inv.shape hl)]
      exact h.first }

theorem guarded_writeptr_free {f : Unit → DbProg α} {l₀ m : List ℕ}
    (hl : w.locks p = (Locking.chain (dbHash k.1) .wr).add .idx freeOff 1 (some .wr))
    (hp : Pending p w k v n) (hh : w.hand p = .empty) (hfree : w.lists.free = l₀ ++ o :: m)
    (ho : w.image.RecAt o r)
    (h : ∀ l' w', w'.Ok → Pending p w' k v n →
      w'.locks p = (Locking.chain (dbHash k.1) .wr).add .idx freeOff 1 (some .wr) →
      w'.hand p = .record o → w'.image.RecAt o r → IsBlank r.key →
      Guarded p op (f ()) Q l' w' τ) :
    Guarded p op (dbWriteptr (l₀.getLastD freeOff) r.ptr >>= f) Q l w τ := by
  refine guarded_writeptr fun w₁ u ok₁ h₁ hu => ?_
  obtain rfl : u = r.ptr := Fin.ext hu
  have hf : w.Writes p freeOff := by
    rw [Writes, hl]
    exact Locking.add_in (Locking.inRange_one.mpr rfl)
  have hf₁ : w₁.Writes p freeOff := h₁.writes.mpr hf
  have hfree₁ : w₁.lists.free = l₀ ++ o :: m := (h₁.free hf.holds).trans hfree
  have hmem : o ∈ w.lists.nodes none := by simp [Lists.nodes, hfree]
  have ho₁ : w₁.image.RecAt o r := (h₁.recAt (i := none) hf.holds hmem).mpr ho
  have hp₁ := hp.rely h₁
  have ok₁' := takeFree_ok ok₁ hf₁ hp₁.timely (h₁.hand.trans hh) hfree₁ ho₁
  have hprev : l₀.getLastD freeOff ∈ freeOff :: w₁.lists.free := Filed.prev_mem (i := none) hfree₁
  obtain ⟨c, x, hx, hv⟩ := ok₁.inv.hasPtr (i := none) hprev
  refine ⟨w₁.takeFree p l₀ o m r, τ, (takeFree_change ok₁ hf₁ hfree₁).moves ok₁ ok₁' rfl,
    takeFree_real ok₁ hf₁ hp₁.timely, rfl, ⟨c, x, ?_, hv⟩, fun l₂ => ?_⟩
  · exact (ok₁.cellAt_real hp₁.timely (.inl ⟨none, hf₁.holds, hprev⟩)).trans hx
  · exact h l₂ _ ok₁' (hp₁.takeFree ok₁ hfree₁) (h₁.locks.trans hl) (Function.update_self ..)
      (takeFree_recAt ok₁ hfree₁ ho₁) (ok₁.inv.filed.free_blank (by simp [hfree₁]) ho₁)

/-- A free record of the lengths asked for is taken off the free list, if there is one. -/
theorem guarded_findfree {f : ℤ × DB → DbProg α} {keylen datlen fuel : ℕ}
    (hl : w.locks p = Locking.chain (dbHash k.1) .wr) (hp : Pending p w k v n)
    (hh : w.hand p = .empty)
    (hit : ∀ l' w' (b' : DB) o r, w'.Ok → Pending p w' k v n →
      w'.locks p = Locking.chain (dbHash k.1) .wr → w'.hand p = .record o → w'.image.RecAt o r →
      IsBlank r.key → r.key.1.length = keylen → r.datlen = datlen → b'.chainoff = b.chainoff →
      Guarded p op (f (0, b'.load o r)) Q l' w' τ)
    (miss : ∀ l' w' (b' : DB), w'.Ok → Pending p w' k v n →
      w'.locks p = Locking.chain (dbHash k.1) .wr → w'.hand p = .empty →
      b'.chainoff = b.chainoff → Guarded p op (f (-1, b')) Q l' w' τ) :
    Guarded p op (dbFindfree fuel b keylen datlen >>= f) Q l w τ := by
  have hnone := Locking.chain_free (dbHash k.1) .wr
  rw [dbFindfree, Prog.bind_assoc]
  refine guarded_lock (fun x hx => by rw [hl, hnone x hx]) fun w₁ ok₁ h₁ hgrant => ?_
  have hl₁ := h₁.locks.trans hl
  have hself : (w₁.lock p .idx freeOff 1 (some .wr)).locks p =
      (Locking.chain (dbHash k.1) .wr).add .idx freeOff 1 (some .wr) := by rw [lock_self, hl₁]
  have ok₁' := lock_ok ok₁ hgrant fun x hx => by rw [hl₁, hnone x hx]
  have hp₁ : Pending p (w₁.lock p .idx freeOff 1 (some .wr)) k v n :=
    (hp.rely h₁).lock fun _ => slot_notInFree
  have hf₁ : (w₁.lock p .idx freeOff 1 (some .wr)).Writes p freeOff := by
    rw [Writes, hself]
    exact Locking.add_in (Locking.inRange_one.mpr rfl)
  rw [Prog.bind_assoc]
  refine guarded_readptr (i := none) (x := freeOff) hf₁.holds List.mem_cons_self hp₁.timely
    fun l₂ w₂ ok₂ h₂ => ?_
  have hnext : w₂.image.next freeOff = w₂.lists.free.headD 0 := (ok₂.inv.linked none).next_headD
  rw [Prog.bind_assoc, hnext, findfreeLoop_eq]
  refine guarded_search (i := none) (F := fun r => r.key.1.length = keylen ∧ r.datlen = datlen)
    (K := fun w' => Pending p w' k v n ∧ w'.hand p = .empty ∧
      w'.locks p = (Locking.chain (dbHash k.1) .wr).add .idx freeOff 1 (some .wr))
    (P := fun _ b' => b'.chainoff = b.chainoff) (fun _ _ _ => Iff.rfl) (fun _ _ _ _ h => h)
    (fun _ _ h hr => ⟨h.1.rely hr, hr.hand.trans h.2.1, hr.locks.trans h.2.2⟩)
    (fun w' h => ⟨?_, h.1.timely⟩) ?_ ?_ ok₂
    ⟨hp₁.rely h₂, h₂.hand.trans (h₁.hand.trans hh), h₂.locks.trans hself⟩
    (List.nil_append _).symm (by simp) rfl
  · rw [Holds, h.2.2, head, Locking.add_in (Locking.inRange_one.mpr rfl)]
    exact Option.some_ne_none _
  · rintro l₃ w₃ b' l₀ o m r ok₃ ⟨hp₃, hh₃, hl₃⟩ hfree₃ ho₃ ⟨hk, hd⟩ h0 hc
    dsimp only
    rw [if_neg (by exact_mod_cast h0), Prog.bind_assoc, Prog.bind_assoc]
    refine guarded_writeptr_free hl₃ hp₃ hh₃ hfree₃ ho₃ fun l₅ w₅ ok₅ hp₅ hl₅ hh₅ ho₅ hb => ?_
    rw [Prog.pure_eq, Prog.ret_bind, Prog.bind_assoc]
    refine guarded_release hp₅ hl₅ hnone (by simp [hh₅]) (fun _ _ => slot_notInFree)
      fun w₆ h₆ hok hp₆ hg₆ => ?_
    have ho₆ : w₆.image.RecAt o r := (h₆.record o hh₅).1.trans ho₅
    exact hit _ _ b' o r hok hp₆ hg₆ (h₆.hand.trans hh₅) ho₆ hb hk hd hc
  · rintro l₃ w₃ b' a s ok₃ ⟨hp₃, hh₃, hl₃⟩ - hc
    dsimp only
    rw [if_pos rfl, Prog.pure_eq, Prog.ret_bind, Prog.bind_assoc]
    exact guarded_release hp₃ hl₃ hnone (by simp [hh₃]) (fun _ _ => slot_notInFree)
      fun w₄ h₄ hok hp₄ hg₄ => miss _ _ b' hok hp₄ hg₄ (h₄.hand.trans hh₃) hc

theorem guarded_storeReuse {f : DB → DbProg α} (hl : w.locks p = Locking.chain (dbHash k.1) .wr)
    (hp : Pending p w k v n) (hh : w.hand p = .record o) (ho : w.image.RecAt o r)
    (hb : IsBlank r.key) (hk : k.1.length = r.key.1.length) (hlen : r.datlen = d.1.length + 1)
    (hs : SEP ∉ k.1) (hc : b.chainoff = slot (dbHash k.1))
    (heff : ∀ M : Map, M k = v → op.Effect M res (Function.update M k (some d)))
    (h : ∀ l' w' (b' : DB), w'.Ok → Inside p w' (dbHash k.1) .wr → b'.chainoff = b.chainoff →
      Guarded p op (f b') Q l' w' (some res)) :
    Guarded p op (storeReuse (b.load o r) k.1 d.1 n >>= f) Q l w none := by
  have hn : n < ptrMax + 1 := by
    rw [← hp.first]
    exact Nat.lt_succ_of_le (Image.next_le _ _)
  have hlt := r.length_text_withKey ⟨n, hn⟩ hk
  rw [storeReuse, Prog.bind_assoc]
  refine guarded_writedat_set (a := r.datoff) fun w₁ ok₁ h₁ => ?_
  have hh₁ := h₁.hand.trans hh
  have ho₁ : w₁.image.RecAt o r := (h₁.record o hh).1.trans ho
  obtain ⟨d₀, hd₀, hlen₀⟩ := ok₁.inv.stock.blk ho₁
  have hdl : d.1.length = d₀.1.length := by omega
  have hp₁ := hp.rely h₁
  have ok₁' : (w₁.fill r d).Ok := fill_ok ok₁ ho₁ hd₀ hdl hh₁ hb
  refine ⟨d₀, w₁.fill r d, none, hd₀, hdl, (fill_change ho₁ hd₀ hdl hh₁).moves ok₁ ok₁' rfl,
    fill_real, rfl, fun l₂ => ?_⟩
  have hd₁ : (w₁.fill r d).image.blkAt r.datoff = some d := by
    rw [fill, Image.blkAt_putBlk hd₀ hdl, if_pos rfl]
  have hp₁' : Pending p (w₁.fill r d) k v n := { hp₁ with timely := hp₁.timely }
  rw [Prog.bind_assoc]
  refine guarded_writeidx_set (o := o) (q := r.withKey ⟨n, hn⟩ k hk) rfl hlen.symm
    fun w₂ ok₂ h₂ => ?_
  have hh₂ : w₂.hand p = .record o := h₂.hand.trans hh₁
  obtain ⟨hc₂, hb₂⟩ := h₂.record o hh₁
  have ho₂ : w₂.image.RecAt o r := hc₂.trans ho₁
  have hd₂ : w₂.image.blkAt r.datoff = some d := (hb₂ r ho₁).trans hd₁
  have hp₂ := hp₁'.rely h₂
  have ok₂' : (w₂.rekey o r ⟨n, hn⟩ k d hk).Ok :=
    rekey_ok ok₂ ho₂ hk hh₂ hb hp₂.writes hp₂.chained hs hd₂
  refine ⟨r, w₂.rekey o r ⟨n, hn⟩ k d hk, some res,
    (ok₂.cellAt_real hp₂.timely (.inr hh₂)).trans ho₂, hlt,
    (rekey_change ho₂ hk hh₂ hb hp₂.writes).takes ok₂ ok₂' (heff _ hp₂.map),
    rekey_real ok₂ ho₂ hk hh₂ hp₂.timely, rfl, fun l₃ => ?_⟩
  have hne : slot (dbHash k.1) ≠ o := ok₂.inv.shape.slot_ne _ ho₂
  have hp₃ : Pending p (w₂.rekey o r ⟨n, hn⟩ k d hk) k (some d) n :=
    { hp₂ with
      timely := hp₂.timely
      map := Function.update_self ..
      others := fun k' hk' hne => by
        change Function.update w₂.map k (some d) k' = w₂.chained k'
        rw [Function.update_of_ne hne]
        exact hp₂.others k' hk' hne
      first := by
        rw [rekey, Image.next_putCell ho₂ hlt, if_neg hne]
        exact hp₂.first }
  rw [Prog.bind_assoc]
  change Guarded p op (dbWriteptr b.chainoff o >>= _) Q l₃ _ (some res)
  rw [hc]
  refine guarded_writeptr_chain ((h₂.locks.trans h₁.locks).trans hl) hp₃ hh₂
    (Image.recAt_putCell_self ho₂ hlt) rfl rfl hd₂ fun l₄ w₄ ok₄ hin₄ => ?_
  exact h l₄ w₄ _ ok₄ hin₄ rfl

theorem guarded_storeAbsent {f : DB → DbProg α} {fuel : ℕ} (hin : Inside p w (dbHash k.1) .wr)
    (hM : w.chained k = none) (hle : d.1.length + 1 ≤ datlenMax) (hs : SEP ∉ k.1)
    (hc : b.chainoff = slot (dbHash k.1))
    (heff : ∀ M : Map, M k = none → op.Effect M res (Function.update M k (some d)))
    (h : ∀ l' w' (b' : DB), w'.Ok → Inside p w' (dbHash k.1) .wr → b'.chainoff = b.chainoff →
      Guarded p op (f b') Q l' w' (some res)) :
    Guarded p op (storeAbsent fuel b k.1 d.1 >>= f) Q l w none := by
  rw [storeAbsent, Prog.bind_assoc, hc]
  refine guarded_readptr (i := some (dbHash k.1)) (x := slot (dbHash k.1)) hin.holds
    List.mem_cons_self hin.timely fun l₁ w₁ ok₁ h₁ => ?_
  have hin₁ := hin.rely h₁
  have hp₁ := hin₁.pending ((h₁.chained k hin.holds).trans hM)
  rw [Prog.bind_assoc]
  refine guarded_findfree hin₁.locks hp₁ hin₁.hand ?_ ?_
  · intro l₂ w₂ b₂ o r ok₂ hp₂ hl₂ hh₂ ho₂ hb hk hd hc₂
    dsimp only
    rw [if_neg (by decide)]
    exact guarded_storeReuse hl₂ hp₂ hh₂ ho₂ hb hk.symm hd hs (hc₂.trans hc) heff
      fun l' w' b' ok' hin' hc' => h l' w' b' ok' hin' (hc'.trans hc₂)
  · intro l₂ w₂ b₂ ok₂ hp₂ hl₂ hh₂ hc₂
    dsimp only
    rw [if_pos (by decide)]
    exact guarded_storeAppend hl₂ hp₂ hh₂ hle hs (hc₂.trans hc) heff
      fun l' w' b' ok' hin' hc' => h l' w' b' ok' hin' (hc'.trans hc₂)

end Reuse

section Delete

/-- Inside the chain of a record that is taken off it, with the free list locked as well. The map
has `v` for the key. -/
structure World.Taking (p : Pid) (w : World Pid) (x : Hand) (l : List ℕ) (o : ℕ) (m : List ℕ)
    (r : Rec) (v : Option CStr) : Prop where
  locks : w.locks p = (Locking.chain (dbHash r.key.1) .wr).add .idx freeOff 1 (some .wr)
  hand : w.hand p = x
  timely : w.Timely p
  chain : w.lists.chain (dbHash r.key.1) = l ++ o :: m
  record : w.image.RecAt o r
  map : w.map r.key = v
  others : ∀ k', dbHash k'.1 = dbHash r.key.1 → k' ≠ r.key → w.map k' = w.chained k'

section Taking

variable {x : Hand} {l₀ m : List ℕ} (h : Taking p w x l₀ o m r v)
include h

omit [DecidableEq Pid] in
theorem World.Taking.writes : w.Writes p (slot (dbHash r.key.1)) := by
  rw [Writes, h.locks, Locking.add_out fun _ => slot_notInFree, Locking.chain_self]

omit [DecidableEq Pid] in
theorem World.Taking.free : w.Writes p freeOff := by
  rw [Writes, h.locks]
  exact Locking.add_in (Locking.inRange_one.mpr rfl)

omit [DecidableEq Pid] in
theorem World.Taking.mem : o ∈ w.lists.chain (dbHash r.key.1) := by simp [h.chain]

omit [DecidableEq Pid] in
theorem World.Taking.rely (hr : Rely p w w') : Taking p w' x l₀ o m r v where
  locks := hr.locks.trans h.locks
  hand := hr.hand.trans h.hand
  timely := hr.timely h.timely
  chain := (hr.chain h.writes.holds).trans h.chain
  record := (hr.recAt (i := some (dbHash r.key.1)) h.writes.holds h.mem).mpr h.record
  map := (hr.map r.key h.writes.holds).trans h.map
  others k' hk hne := by
    rw [hr.map k' (hk ▸ h.writes.holds), hr.chained k' (hk ▸ h.writes.holds)]
    exact h.others k' hk hne

theorem World.Taking.wiped : Taking p (w.wipe p o r) (.dying o) l₀ o m r v where
  locks := h.locks
  hand := Function.update_self ..
  timely := h.timely
  chain := h.chain
  record := h.record
  map := h.map
  others k' hk hne := (h.others k' hk hne).trans (Function.update_of_ne hne ..).symm

theorem World.Taking.away {u s : Ptr} :
    Away p (w.unchain p (dbHash r.key.1) l₀ o m r u s) r.key v where
  writes := h.writes
  chained := Function.update_self ..
  map := h.map
  others k' hk hne := (h.others k' hk hne).trans (Function.update_of_ne hne ..).symm

end Taking

theorem guarded_dodelete_end {f : DB → DbProg α} {x : ℕ} {y : ℤ} {u s : Ptr} (hy : y = x)
    (hw : Away p w k v)
    (hl : w.locks p = (Locking.chain (dbHash k.1) .wr).add .idx freeOff 1 (some .wr))
    (hh : w.hand p = .record o) (ho : w.image.RecAt o r) (hb : IsBlank r.key)
    (hptr : (r.ptr : ℕ) = w.image.next freeOff) (hlate : w.late = some (p, x, u))
    (hx : x ∈ head (some (dbHash k.1)) :: w.lists.nodes (some (dbHash k.1)))
    (hs : w.image.HasPtr x s)
    (h : ∀ l' w', w'.Ok → Pending p w' k v (w'.image.next (slot (dbHash k.1))) →
      w'.locks p = Locking.chain (dbHash k.1) .wr → w'.hand p = .empty →
      Guarded p op (f b) Q l' w' τ) :
    Guarded p op ((dbWriteptr freeOff o >>= fun _ => dbWriteptr y (s : ℕ) >>= fun _ =>
      orDump (.unlck .idx freeOff 1) e >>= fun _ => pure b) >>= f) Q l w τ := by
  subst hy
  have hf : w.Writes p freeOff := by
    rw [Writes, hl]
    exact Locking.add_in (Locking.inRange_one.mpr rfl)
  rw [Prog.bind_assoc]
  refine guarded_writeptr fun w₁ u₁ ok₁ h₁ hu₁ => ?_
  have hf₁ := h₁.writes.mpr hf
  have hh₁ := h₁.hand.trans hh
  have ho₁ : w₁.image.RecAt o r := (h₁.record o hh).1.trans ho
  have hnext₁ : w₁.image.next freeOff = w.image.next freeOff :=
    Image.next_congr (h₁.cells none hf.holds freeOff List.mem_cons_self)
  have hx₁ : x ∈ head (some (dbHash k.1)) :: w₁.lists.nodes (some (dbHash k.1)) := by
    rwa [h₁.nodes (some (dbHash k.1)) hw.writes.holds]
  have hs₁ : w₁.image.HasPtr x s := by
    obtain ⟨c, hc, hv⟩ := hs
    exact ⟨c, (h₁.cells (some (dbHash k.1)) hw.writes.holds x hx).trans hc, hv⟩
  have hw₁ := hw.rely h₁
  have hlate₁ : w₁.late = some (p, x, u) := (h₁.late _).mpr hlate
  obtain ⟨c, hc⟩ := ok₁.inv.shape.free_hasPtr
  have hxf : x ≠ freeOff := ok₁.late_ne_free hlate₁
  have ok₁' := pushFree_ok ok₁ hf₁ hh₁ ho₁ hb (hptr.trans hnext₁.symm) hu₁
  refine ⟨w₁.pushFree p o u₁, τ, (pushFree_change ok₁ hf₁).moves ok₁ ok₁' rfl, pushFree_real ok₁,
    rfl, ⟨c, ?_⟩, fun l₂ => ?_⟩
  · obtain ⟨y, hy, hv⟩ := hc
    exact ⟨y, (cellAt_lag fun q x u h => ok₁.late_ne_free h).trans hy, hv⟩
  rw [Prog.bind_assoc]
  refine guarded_writeptr fun w₃ u₃ ok₃ h₃ hu₃ => ?_
  obtain rfl : u₃ = s := Fin.ext hu₃
  have hlate₃ : w₃.late = some (p, x, u) := (h₃.late _).mpr hlate₁
  have hw₂ : Away p (w₁.pushFree p o u₁) k v := { hw₁ with }
  have hw₃ := hw₂.rely h₃
  have hs₃ : w₃.image.HasPtr x u₃ := by
    obtain ⟨y, hy, hv⟩ := Image.hasPtr_setPtr_ne hc hxf hs₁ u₁
    exact ⟨y, (h₃.cells (some (dbHash k.1)) hw₂.writes.holds x hx₁).trans hy, hv⟩
  have ok₃' : w₃.settle.Ok := settle_ok ok₃
  refine ⟨w₃.settle, τ, (settle_change hlate₃).moves ok₃ ok₃' rfl, settle_real hlate₃ hs₃, rfl,
    ⟨u, ?_⟩, fun l₄ => ?_⟩
  · rw [real, hlate₃]
    exact Image.hasPtr_setPtr hs₃ u
  have hp₃ : Pending p w₃.settle k v (w₃.settle.image.next (slot (dbHash k.1))) :=
    { hw₃ with
      timely := fun y hy => by cases hy
      first := rfl }
  have hself : (w₁.pushFree p o u₁).hand p = .empty := Function.update_self ..
  rw [Prog.bind_assoc]
  have hh₃ : w₃.settle.hand p = .empty := h₃.hand.trans hself
  have hl₃ : w₃.settle.locks p = w.locks p := h₃.locks.trans h₁.locks
  exact guarded_release hp₃ (hl₃.trans hl) (Locking.chain_free _ _) (by simp [hh₃])
    (fun _ _ => slot_notInFree)
    fun w₅ h₅ hok hp₅ hg₅ => h l₄ _ hok { hp₅ with first := rfl } hg₅ (h₅.hand.trans hh₃)

theorem guarded_dodelete_unchain {f : DB → DbProg α} {l₀ m : List ℕ} {u : Ptr}
    (hw : Taking p w (.dying o) l₀ o m r v) (hu : (u : ℕ) = w.image.next freeOff)
    (hoff : b.datoff = r.datoff) (hlen : b.datlen = r.datlen)
    (hpt : b.ptroff = (l₀.getLastD (slot (dbHash r.key.1)) : ℕ))
    (h : ∀ l' w' (b' : DB), w'.Ok → Pending p w' r.key v (w'.image.next (slot (dbHash r.key.1))) →
      w'.locks p = Locking.chain (dbHash r.key.1) .wr → w'.hand p = .empty →
      b'.chainoff = b.chainoff → Guarded p op (f b') Q l' w' τ) :
    Guarded p op ((dbWriteidx b (r.freed u).key.1 o .set (r.freed u).ptr >>= fun b' =>
      dbWriteptr freeOff b'.idxoff >>= fun _ => dbWriteptr b'.ptroff r.ptr >>= fun _ =>
      orDump (.unlck .idx freeOff 1) .dodeleteUnLock >>= fun _ => pure b') >>= f) Q l w τ := by
  rw [Prog.bind_assoc]
  refine guarded_writeidx_set (o := o) (q := r.freed u) hoff hlen fun w₁ ok₁ h₁ => ?_
  have hw₁ := hw.rely h₁
  have hl := hw₁.chain
  have ho := hw₁.record
  have hne : l₀.getLastD (slot (dbHash r.key.1)) ≠ o :=
    ok₁.inv.filed.prev_ne ok₁.inv.shape (i := some (dbHash r.key.1)) hl
  have hnf : l₀.getLastD (slot (dbHash r.key.1)) ≠ freeOff :=
    ok₁.inv.filed.prev_ne_free ok₁.inv.shape hl
  obtain ⟨s, hs⟩ := prev_ptr ok₁ hl
  have hlt := r.length_text_freed u
  have ok₁' : (w₁.unchain p (dbHash r.key.1) l₀ o m r u s).Ok :=
    unchain_ok ok₁ ho hl hw₁.writes hw₁.free hw₁.timely hw₁.hand
  refine ⟨r, w₁.unchain p (dbHash r.key.1) l₀ o m r u s, τ,
    (ok₁.cellAt_real hw₁.timely (.inl ⟨some (dbHash r.key.1), hw₁.writes.holds, ?_⟩)).trans ho, hlt,
    (unchain_change ok₁ ho hl hw₁.writes hw₁.free hw₁.timely).moves ok₁ ok₁' rfl,
    unchain_real ok₁ ho hl hw₁.free hw₁.timely hs, rfl, fun l₂ => ?_⟩
  · exact List.mem_cons_of_mem _ hw₁.mem
  have hunlinked := unlinked ok₁ ho hl
  have hnext : w₁.image.next freeOff = w.image.next freeOff :=
    Image.next_congr (h₁.cells none hw.free.holds freeOff List.mem_cons_self)
  have hfree : freeOff ≠ o := ok₁.inv.shape.free_ne ho
  refine guarded_dodelete_end (r := r.freed u) (k := r.key) (s := r.ptr) hpt hw₁.away
    hw₁.locks (Function.update_self ..) (Image.recAt_putCell_self hunlinked hlt)
    (isBlank_blank _) ?_ rfl ?_ ?_ fun l' w' ok' hp' hl' hh' => h l' w' _ ok' hp' hl' hh' rfl
  · rw [unchain, Image.next_putCell hunlinked hlt, if_neg hfree, Image.next_setPtr hs,
      if_neg hnf.symm, hnext]
    exact hu
  · rw [unchain]
    change _ ∈ slot (dbHash r.key.1) :: (w₁.lists.setChain _ (l₀ ++ m)).chain _
    rw [Lists.chain_setChain, ← List.cons_append]
    exact List.mem_append_left _ (Linked.getLastD_mem l₀ _)
  · exact Image.hasPtr_putCell hunlinked hlt hne (Image.hasPtr_setPtr hs r.ptr)

/-- `_db_dodelete` behind a search that found the record. -/
theorem guarded_dodelete {f : DB → DbProg α} {l₀ m : List ℕ} (hin : Inside p w (dbHash k.1) .wr)
    (hl : w.lists.chain (dbHash k.1) = l₀ ++ o :: m) (ho : w.image.RecAt o r) (hk : r.key = k)
    (hpt : b.ptroff = (l₀.getLastD (slot (dbHash k.1)) : ℕ))
    (h : ∀ l' w' (b' : DB), w'.Ok → Pending p w' k (w.map k) (w'.image.next (slot (dbHash k.1))) →
      w'.locks p = Locking.chain (dbHash k.1) .wr → w'.hand p = .empty →
      b'.chainoff = b.chainoff → Guarded p op (f b') Q l' w' τ) :
    Guarded p op (dbDodelete (b.load o r) >>= f) Q l w τ := by
  subst hk
  have hwl : r.datlen = r.wiped.1.length + 1 := by
    have hpos := r.datlen_pos
    rw [Rec.wiped, length_blank]
    omega
  rw [dbDodelete, Prog.bind_assoc]
  refine guarded_lock (fun x hx => ?_) fun w₁ ok₁ h₁ hgrant => ?_
  · rw [hin.locks]
    exact Locking.chain_free _ _ x hx
  have hin₁ := hin.rely h₁
  have htake : Taking p (w₁.lock p .idx freeOff 1 (some .wr)) .empty l₀ o m r (w.map r.key) := {
    locks := by rw [lock_self, hin₁.locks]
    hand := hin₁.hand
    timely := hin₁.timely
    chain := (h₁.chain hin.holds).trans hl
    record := (h₁.recAt (i := some (dbHash r.key.1)) hin.holds (by simp [Lists.nodes, hl])).mpr ho
    map := h₁.map r.key hin.holds
    others := fun k' hk' _ => hin₁.agree k' hk' }
  -- the data
  rw [Prog.bind_assoc]
  refine guarded_writedat_set (a := r.datoff) (d := r.wiped) fun w₂ ok₂ h₂ => ?_
  have htake₂ := htake.rely h₂
  obtain ⟨d₀, hd₀, hlen₀⟩ := ok₂.inv.stock.blk htake₂.record
  have ok₂' : (w₂.wipe p o r).Ok :=
    wipe_ok ok₂ htake₂.record hd₀ htake₂.mem htake₂.writes htake₂.free htake₂.hand
  refine ⟨d₀, w₂.wipe p o r, τ, hd₀, ok₂.inv.length_wiped htake₂.record hd₀,
    (wipe_change ok₂ htake₂.record hd₀ htake₂.mem htake₂.writes).moves ok₂ ok₂' rfl, wipe_real, rfl,
    fun l₂ => ?_⟩
  have htake₂' := htake₂.wiped
  -- the head of the free list
  rw [Prog.bind_assoc]
  refine guarded_readptr (i := none) (x := freeOff) (w := w₂.wipe p o r) htake₂'.free.holds
    List.mem_cons_self htake₂'.timely fun l₃ w₃ ok₃ h₃ => ?_
  have hle : w₃.image.next freeOff < ptrMax + 1 := Nat.lt_succ_of_le (Image.next_le _ _)
  exact guarded_dodelete_unchain (u := ⟨w₃.image.next freeOff, hle⟩) (htake₂'.rely h₃) rfl rfl
    hwl.symm hpt h

theorem guarded_storePresent {f : DB → DbProg α} {l₀ m : List ℕ} (ok : w.Ok)
    (hin : Inside p w (dbHash k.1) .wr) (hl : w.lists.chain (dbHash k.1) = l₀ ++ o :: m)
    (ho : w.image.RecAt o r) (hk : r.key = k) (hc : b.chainoff = slot (dbHash k.1))
    (hpt : b.ptroff = (l₀.getLastD (slot (dbHash k.1)) : ℕ)) (hle : d.1.length + 1 ≤ datlenMax)
    (hs : SEP ∉ k.1)
    (heff : ∀ M : Map, M k ≠ none → op.Effect M res (Function.update M k (some d)))
    (h : ∀ l' w' (b' : DB), w'.Ok → Inside p w' (dbHash k.1) .wr → b'.chainoff = b.chainoff →
      Guarded p op (f b') Q l' w' (some res)) :
    Guarded p op (storePresent (b.load o r) k.1 d.1 >>= f) Q l w none := by
  have hmem : o ∈ w.lists.chain (dbHash k.1) := by simp [hl]
  obtain ⟨d₀, hd₀, hlen₀⟩ := ok.inv.stock.blk ho
  obtain ⟨-, hM⟩ := hin.found ok hmem ho hk hd₀
  rw [storePresent]
  by_cases hne : d.1.length + 1 ≠ r.datlen
  · rw [if_pos (show d.1.length + 1 ≠ (b.load o r).datlen from hne), Prog.bind_assoc]
    refine guarded_dodelete hin hl ho hk hpt fun l₁ w₁ b₁ ok₁ hp₁ hl₁ hh₁ hc₁ => ?_
    rw [Prog.bind_assoc, hc₁, hc]
    refine guarded_readptr (i := some (dbHash k.1)) (x := slot (dbHash k.1)) hp₁.writes.holds
      List.mem_cons_self hp₁.timely fun l₂ w₂ ok₂ h₂ => ?_
    have hp₂ : Pending p w₂ k (some d₀) (w₂.image.next (slot (dbHash k.1))) := by
      rw [← hM]
      exact { hp₁.rely h₂ with first := rfl }
    refine guarded_storeAppend (h₂.locks.trans hl₁) hp₂ (h₂.hand.trans hh₁) hle hs (hc₁.trans hc)
      (fun M hv => heff M (by simp [hv])) fun l' w' b' ok' hin' hc' => ?_
    exact h l' w' b' ok' hin' (hc'.trans hc₁)
  · rw [if_neg (show ¬ d.1.length + 1 ≠ (b.load o r).datlen from hne)]
    subst hk
    refine guarded_writedat_set (a := r.datoff) fun w₁ ok₁ h₁ => ?_
    have hin₁ := hin.rely h₁
    have hmem₁ : o ∈ w₁.lists.chain (dbHash r.key.1) := by
      rw [h₁.chain hin.holds]
      exact hmem
    have ho₁ : w₁.image.RecAt o r := (h₁.recAt (i := some (dbHash r.key.1)) hin.holds hmem).mpr ho
    have hd₁ : w₁.image.blkAt r.datoff = some d₀ := (h₁.blks _ hin.holds o hmem r ho).trans hd₀
    have hM₁ : w₁.map r.key = some d₀ := (h₁.map r.key hin.holds).trans hM
    have hdl : d.1.length = d₀.1.length := by omega
    have hch := replace_change ok₁ ho₁ hd₁ hdl hmem₁ hin₁.writes
    have ok₁' := replace_ok ok₁ ho₁ hd₁ hdl hmem₁ hin₁.writes hin₁.hand
    refine ⟨d₀, w₁.replace r d, some res, hd₁, hdl, hch.takes ok₁ ok₁' (heff _ (by simp [hM₁])),
      replace_real, rfl, fun l' => h l' _ _ ok₁' ?_ rfl⟩
    exact {
      locks := hin₁.locks
      hand := hin₁.hand
      timely := hin₁.timely
      agree := fun k' hk' => by
        change Function.update w₁.map r.key (some d) k' = Function.update w₁.chained r.key (some d) k'
        rw [Function.update_apply, Function.update_apply, hin₁.agree k' hk'] }

end Delete

end Somenote.Db
