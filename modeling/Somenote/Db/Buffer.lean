import Somenote.Db.Reuse
import Somenote.Program.Notes

/-! # The index buffer

The functions of the module that write index records, with a note of each text that is formatted
into the index buffer. The text fits the buffer, unless a store appends a record with a key that is
too long: the length of the text is checked behind the formatting.
-/

namespace Somenote.Db

open Decimal

/-- The bytes that `_db_alloc` reserves for `idxbuf`. -/
abbrev idxbufSize : ℕ := idxlenMax + 2

/-- The programs that note the texts in the index buffer. -/
abbrev BufProg := Prog (Noting Call (List Byte)) (Noting.Reply Reply) Err

/-- A part that formats nothing into the buffer. -/
abbrev quiet {α : Type} (m : DbProg α) : BufProg α := m.lift

namespace Buffer

/-- `_db_writeidx`, whose text is formatted behind the check of the pointer. -/
def dbWriteidx (db : DB) (key : List Byte) (offset : ℕ) (whence : Whence) (ptrval : ℤ) :
    BufProg DB := do
  quiet (dumpIf (ptrval < 0 ∨ ptrMax < ptrval) .writeidxPtr)
  Prog.note (idxText key db.datoff db.datlen)
  quiet (Db.dbWriteidx db key offset whence ptrval)

def dbDodelete (db : DB) : BufProg DB := do
  let db := { db with datbuf := List.replicate (db.datlen - 1) SPACE,
                      idxbuf := List.replicate db.idxbuf.length SPACE }
  quiet (orDump (.setlkw .idx .wr freeOff 1) .dodeleteLock)
  let db ← quiet (dbWritedat db db.datbuf db.datoff .set)
  let freeptr ← quiet (dbReadptr freeOff)
  let saveptr := db.ptrval
  let db ← dbWriteidx db db.idxbuf db.idxoff .set freeptr
  quiet (dbWriteptr freeOff db.idxoff)
  quiet (dbWriteptr db.ptroff saveptr)
  quiet (orDump (.unlck .idx freeOff 1) .dodeleteUnLock)
  pure db

def storeAppend (db : DB) (key data : List Byte) (ptrval : ℤ) : BufProg DB := do
  let db ← quiet (dbWritedat db data 0 .fin)
  let db ← dbWriteidx db key 0 .fin ptrval
  quiet (dbWriteptr db.chainoff db.idxoff)
  pure db

def storeReuse (db : DB) (key data : List Byte) (ptrval : ℤ) : BufProg DB := do
  let db ← quiet (dbWritedat db data db.datoff .set)
  let db ← dbWriteidx db key db.idxoff .set ptrval
  quiet (dbWriteptr db.chainoff db.idxoff)
  pure db

def storeAbsent (fuel : ℕ) (db : DB) (key data : List Byte) : BufProg DB := do
  let ptrval ← quiet (dbReadptr db.chainoff)
  let (rc, db) ← quiet (dbFindfree fuel db key.length (data.length + 1))
  if rc < 0 then storeAppend db key data ptrval
  else storeReuse db key data ptrval

def storePresent (db : DB) (key data : List Byte) : BufProg DB := do
  if data.length + 1 ≠ db.datlen then
    let db ← dbDodelete db
    let ptrval ← quiet (dbReadptr db.chainoff)
    storeAppend db key data ptrval
  else quiet (dbWritedat db data db.datoff .set)

def dbStore (fuel : ℕ) (db : DB) (key data : List Byte) (flag : ℤ) : BufProg (ℤ × DB) := do
  if flag ≠ Flag.dbInsert ∧ flag ≠ Flag.dbReplace ∧ flag ≠ Flag.dbStore then
    pure (-1, db)
  else
    let datlen := data.length + 1
    quiet (dumpIf (datlen < datlenMin ∨ datlenMax < datlen) .storeDatlen)
    let (found, db) ← quiet (dbFindAndLock fuel db key true)
    let (rc, db) ← (
      if found < 0 then
        if flag = Flag.dbReplace then pure (-1, db)
        else do
          let db ← storeAbsent fuel db key data
          pure (0, db)
      else
        if flag = Flag.dbInsert then pure (1, db)
        else do
          let db ← storePresent db key data
          pure (0, db) : BufProg (ℤ × DB))
    quiet (orDump (.unlck .idx db.chainoff 1) .storeUnLock)
    pure (rc, db)

theorem erase_dbWriteidx (db : DB) (key : List Byte) (offset : ℕ) (whence : Whence) (ptrval : ℤ) :
    (dbWriteidx db key offset whence ptrval).erase = Db.dbWriteidx db key offset whence ptrval := by
  simp only [dbWriteidx, Prog.erase_bind, Prog.erase_lift]
  rw [dumpIf]
  split
  · rw [Prog.dump_bind, Db.dbWriteidx, dumpIf_pos ‹_›, Prog.dump_bind]
  · rfl

theorem erase_pure {α : Type} (a : α) : (pure a : BufProg α).erase = pure a := rfl

theorem erase_dbDodelete (db : DB) : (dbDodelete db).erase = Db.dbDodelete db := by
  simp only [dbDodelete, Db.dbDodelete, Prog.erase_bind, Prog.erase_lift, erase_dbWriteidx,
    erase_pure]

theorem erase_storeAppend (db : DB) (key data : List Byte) (ptrval : ℤ) :
    (storeAppend db key data ptrval).erase = Db.storeAppend db key data ptrval := by
  simp only [storeAppend, Db.storeAppend, Prog.erase_bind, Prog.erase_lift, erase_dbWriteidx,
    erase_pure]

theorem erase_storeReuse (db : DB) (key data : List Byte) (ptrval : ℤ) :
    (storeReuse db key data ptrval).erase = Db.storeReuse db key data ptrval := by
  simp only [storeReuse, Db.storeReuse, Prog.erase_bind, Prog.erase_lift, erase_dbWriteidx,
    erase_pure]

theorem erase_storeAbsent (fuel : ℕ) (db : DB) (key data : List Byte) :
    (storeAbsent fuel db key data).erase = Db.storeAbsent fuel db key data := by
  simp only [storeAbsent, Db.storeAbsent, Prog.erase_bind, Prog.erase_lift, Prog.erase_ite,
    erase_storeAppend, erase_storeReuse]

theorem erase_storePresent (db : DB) (key data : List Byte) :
    (storePresent db key data).erase = Db.storePresent db key data := by
  simp only [storePresent, Db.storePresent, Prog.erase_bind, Prog.erase_lift, Prog.erase_ite,
    erase_storeAppend, erase_dbDodelete]

/-- Without its notes, `db_store` is that of the module. -/
theorem erase_dbStore (fuel : ℕ) (db : DB) (key data : List Byte) (flag : ℤ) :
    (dbStore fuel db key data flag).erase = Db.dbStore fuel db key data flag := by
  simp only [dbStore, Db.dbStore, Prog.erase_bind, Prog.erase_lift, Prog.erase_ite,
    erase_storeAbsent, erase_storePresent, erase_pure]

section Notes

variable {I : Image} {L : Lists} {X Y : Set ℕ} {M : Map} {p : Fds} {f : Files} {o fuel : ℕ}
  {r : Rec} {k d : CStr} {b : DB} {v : Ptr} {flag : ℤ} {s : Fds × Files} {l m : List ℕ}

theorem notes_quiet_bind {α β : Type} (m : DbProg α) {f : α → BufProg β}
    (hf : ∀ a t, (f a).notes exec t = []) (s : Fds × Files) :
    (quiet m >>= f).notes exec s = [] := by
  rw [Prog.notes_bind_quiet hf, Prog.notes_lift]

theorem notes_dbWriteidx (key : List Byte) (offset : ℕ) (whence : Whence) (v : Ptr) :
    (dbWriteidx b key offset whence v).notes exec s = [idxText key b.datoff b.datlen] := by
  have hlt := v.isLt
  rw [dbWriteidx, dumpIf_neg (by omega)]
  exact congrArg _ (Prog.notes_lift _ _)

section Write

variable (hw : p.acc.writable = true)
include hw

theorem notes_storeAppend (v : Ptr) : (storeAppend b k.1 d.1 v).notes exec (p, I.files) =
    [idxText k.1 I.datBytes.length (d.1.length + 1)] := by
  rw [storeAppend, Prog.notes_lift_ok (run_writedat_fin hw d),
    Prog.notes_bind_quiet fun _ _ => notes_quiet_bind _ (fun _ _ => rfl) _, notes_dbWriteidx]

theorem notes_storeReuse (v : Ptr) : (storeReuse (b.load o r) k.1 d.1 v).notes exec (p, f) =
    [idxText k.1 r.datoff (d.1.length + 1)] := by
  have hdat := run_writedat_at (a := (b.load o r).datoff) (b := b.load o r) (f := f) hw d
  rw [storeReuse, Prog.notes_lift_ok hdat,
    Prog.notes_bind_quiet fun _ _ => notes_quiet_bind _ (fun _ _ => rfl) _, notes_dbWriteidx]
  rfl

theorem notes_dbDodelete (hr : p.acc.readable = true)
    (hv : field ptrSz v <+: (f.bytes .idx).drop freeOff) :
    (dbDodelete (b.load o r)).notes exec (p, f) = [(r.freed v).text] := by
  have hwl : r.wiped.1.length + 1 = r.datlen := by
    have hpos := r.datlen_pos
    rw [Rec.wiped, length_blank]
    omega
  have hdat := run_writedat_at (a := r.datoff) (b := { b.load o r with
    datbuf := r.wiped, idxbuf := List.replicate r.key.1.length SPACE }) (f := f) hw r.wiped
  have hread := run_readptr_at (p := p.setPos .dat (r.datoff + (r.wiped.1.length + 1)))
    (f := f.set .dat (overwrite 0 (f.bytes .dat) r.datoff (blkBytes r.wiped)))
    (by simpa using hr) hv
  refine (Prog.notes_lift_ok (run_lock (t := .wr) hw)).trans <|
    (Prog.notes_lift_ok hdat).trans <| (Prog.notes_lift_ok hread).trans ?_
  rw [Prog.notes_bind_quiet fun _ _ => notes_quiet_bind _ (fun _ _ => notes_quiet_bind _
    (fun _ _ => notes_quiet_bind _ (fun _ _ => rfl) _) _) _, notes_dbWriteidx]
  dsimp only
  rw [hwl]
  rfl

end Write

section Store

variable (h : Inv I L X Y M) (hf : ptrMax < fuel) (hr : p.acc.readable = true)
  (hw : p.acc.writable = true)
include h hf hr hw

theorem notes_storeAbsent_miss (hunfit : ∀ x ∈ L.free, I.Unfit k.1.length (d.1.length + 1) x)
    (hc : b.chainoff = slot (dbHash k)) :
    (storeAbsent fuel b k.1 d.1).notes exec (p, I.files) =
      [idxText k.1 I.datBytes.length (d.1.length + 1)] := by
  obtain ⟨v, hv⟩ := h.shape.slot_hasPtr (dbHash k)
  obtain ⟨b', p', hrun, -, hacc⟩ := run_findfree_miss (b := b)
    (p := p.setPos .idx (slot (dbHash k) + ptrSz)) (by simpa using hr) (by simpa using hw) h
    hunfit hf
  rw [storeAbsent, hc, Prog.notes_lift_ok (run_readptr hr hv), Prog.notes_lift_ok hrun]
  exact notes_storeAppend (by rw [hacc]; simpa using hw) v

theorem notes_storeAbsent_hit (hl : L.free = l ++ o :: m)
    (hunfit : ∀ x ∈ l, I.Unfit k.1.length (d.1.length + 1) x) (ho : I.RecAt o r)
    (hs : SEP ∉ r.key.1) (hk : r.key.1.length = k.1.length) (hlen : r.datlen = d.1.length + 1)
    (hc : b.chainoff = slot (dbHash k)) :
    (storeAbsent fuel b k.1 d.1).notes exec (p, I.files) =
      [idxText k.1 r.datoff (d.1.length + 1)] := by
  obtain ⟨v, hv⟩ := h.shape.slot_hasPtr (dbHash k)
  obtain ⟨p', hrun, hacc⟩ := run_findfree_hit (b := b)
    (p := p.setPos .idx (slot (dbHash k) + ptrSz)) (by simpa using hr) (by simpa using hw) h hl
    hunfit ho hs ⟨hk, hlen⟩ hf
  rw [storeAbsent, hc, Prog.notes_lift_ok (run_readptr hr hv), Prog.notes_lift_ok hrun]
  exact notes_storeReuse (by rw [hacc]; simpa using hw) v

omit hf in
theorem notes_storePresent (hl : L.chain (dbHash k) = l ++ o :: m) (ho : I.RecAt o r)
    (hc : b.chainoff = slot (dbHash k)) (hne : d.1.length + 1 ≠ r.datlen) :
    ∃ v, (storePresent (b.found (slot (dbHash k)) l o r) k.1 d.1).notes exec (p, I.files) =
      [(r.freed v).text, idxText k.1 I.datBytes.length (d.1.length + 1)] := by
  obtain ⟨v, hv⟩ := h.shape.free_hasPtr
  have hle : o ≤ ptrMax := h.node_le (i := some (dbHash k)) (by rw [Lists.nodes, hl]; simp)
  obtain ⟨b₁, p₁, hrun, hdb, hacc⟩ := run_dodelete (b := b) (w := ⟨o, by omega⟩) hr hw h hl ho hv
    rfl
  have h₁ := h.deleted (w := ⟨o, by omega⟩) hl ho hv.next_eq.symm rfl
  obtain ⟨u, hu⟩ := h₁.shape.slot_hasPtr (dbHash k)
  refine ⟨v, ?_⟩
  have hlen : d.1.length + 1 ≠ (b.found (slot (dbHash k)) l o r).datlen := hne
  rw [storePresent, if_pos hlen,
    Prog.notes_bind_ok (by rw [erase_dbDodelete]; exact hrun), hdb, hc,
    Prog.notes_lift_ok (run_readptr (by rw [hacc]; exact hr) hu),
    notes_storeAppend (by rw [Fds.setPos_acc, hacc]; exact hw), (h.deleted_sizes hl ho hv).2,
    DB.found,
    notes_dbDodelete hw hr (Image.ptr_front hv)]
  rfl

end Store

theorem notes_dbStore
    (hflag : ¬ (flag ≠ Flag.dbInsert ∧ flag ≠ Flag.dbReplace ∧ flag ≠ Flag.dbStore))
    (hd : DatlenOk d) {x : ℤ × DB} {t : Fds × Files}
    (hfind : (dbFindAndLock fuel b k.1 true).run exec s = (.ok x, t)) :
    (dbStore fuel b k.1 d.1 flag).notes exec s =
      if x.1 < 0 then
        if flag = Flag.dbReplace then [] else (storeAbsent fuel x.2 k.1 d.1).notes exec t
      else
        if flag = Flag.dbInsert then [] else (storePresent x.2 k.1 d.1).notes exec t := by
  rw [dbStore, if_neg hflag]
  dsimp only
  rw [dumpIf_neg (by unfold DatlenOk at hd; omega)]
  refine (Prog.notes_lift_ok hfind).trans ?_
  rw [Prog.notes_bind_quiet fun _ _ => notes_quiet_bind _ (fun _ _ => rfl) _]
  split_ifs
  · rfl
  · exact Prog.notes_bind_quiet (fun _ _ => rfl) _
  · rfl
  · exact Prog.notes_bind_quiet (fun _ _ => rfl) _

theorem notes_dbStore_dump {e : Err} {t : Fds × Files}
    (hfind : (dbFindAndLock fuel b k.1 true).run exec s = (.dump e, t)) :
    (dbStore fuel b k.1 d.1 flag).notes exec s = [] := by
  rw [dbStore]
  by_cases hflag : flag ≠ Flag.dbInsert ∧ flag ≠ Flag.dbReplace ∧ flag ≠ Flag.dbStore
  · rw [if_pos hflag]
    rfl
  rw [if_neg hflag]
  dsimp only
  by_cases hd : d.1.length + 1 < datlenMin ∨ datlenMax < d.1.length + 1
  · rw [dumpIf_pos hd]
    rfl
  · rw [dumpIf_neg hd]
    exact (Prog.notes_lift_ok (m := .ret ()) rfl).trans (Prog.notes_lift_dump hfind)

end Notes

end Buffer

/-- `db_store` comes to one of its branches that append a record. -/
structure Appends (p : Fds) (f : Files) (k d : CStr) (flag : ℤ) : Prop where
  readable : p.acc.readable = true
  writable : p.acc.writable = true
  datlen : DatlenOk d
  branch : (flag = Flag.dbInsert ∨ flag = Flag.dbStore) ∧ f.Absent k ∧
      (∃ l, f.Free l ∧ ∀ x ∈ l, ¬ f.Fit k d x) ∨
    (flag = Flag.dbReplace ∨ flag = Flag.dbStore) ∧
      ∃ d₀, f.Fetches k (some d₀) ∧ d.1.length ≠ d₀.length

variable {I : Image} {L : Lists} {X Y : Set ℕ} {M : Map} {p : Fds} {f : Files} {fuel : ℕ}
  {k d : CStr} {b : DB} {flag : ℤ} {t : List Byte}

theorem Rec.length_le_of_fit {r : Rec} (hk : r.key.1.length = k.1.length)
    (hlen : r.datlen = d.1.length + 1) :
    (idxText k.1 r.datoff (d.1.length + 1)).length ≤ idxlenMax := by
  have hle := (r.withKey r.ptr k hk.symm).len_le
  rwa [← hlen]

/-- The texts that a store formats: that of an appended record comes last, and all others are those
of records that fit. -/
inductive Texts (p : Fds) (f : Files) (k d : CStr) (flag : ℤ) : List (List Byte) → Prop
  | appends {l} (h : Appends p f k d flag) (hl : ∀ t ∈ l, t.length ≤ idxlenMax) :
      Texts p f k d flag (l ++ [idxText k.1 (f.bytes .dat).length (d.1.length + 1)])
  | fits {l} (h : ¬ Appends p f k d flag) (hl : ∀ t ∈ l, t.length ≤ idxlenMax) :
      Texts p f k d flag l

theorem Texts.nil (h : ¬ Appends p f k d flag) : Texts p f k d flag [] := .fits h (by simp)

section Branches

variable (h : Inv I L X Y M) (hf : ptrMax < fuel)
  (hflag : ¬ (flag ≠ Flag.dbInsert ∧ flag ≠ Flag.dbReplace ∧ flag ≠ Flag.dbStore))
  (hd : DatlenOk d) (hr : p.acc.readable = true) (hw : p.acc.writable = true)
include h hf hflag hd hr hw

theorem Inv.texts_miss (hl : ∀ x ∈ L.chain (dbHash k), I.Passes k x) (hM : M k = none) :
    Texts p I.files k d flag ((Buffer.dbStore fuel b k.1 d.1 flag).notes exec (p, I.files)) := by
  obtain ⟨hlink, hlen⟩ := h.walk hf k
  obtain ⟨b₁, hrun, hdb⟩ := run_find_miss (b := b) true hr hw h.shape hlink hl hlen
  have hfetch : ∀ d₀, ¬ I.files.Fetches k (some d₀) := by
    intro d₀ hx
    have hsome := (h.fetched hx).1
    rw [Map.fetch, hM] at hsome
    cases hsome
  rw [Buffer.notes_dbStore hflag hd hrun]
  dsimp only
  rw [if_pos (by decide)]
  by_cases hrep : flag = Flag.dbReplace
  · rw [if_pos hrep]
    apply Texts.nil
    intro ha
    rcases ha.branch with ⟨hfl, -⟩ | ⟨-, d₀, hx, -⟩
    · rw [hrep] at hfl
      exact absurd hfl (by decide)
    · exact hfetch d₀ hx
  rw [if_neg hrep]
  have hr₁ : (I.walked (p.setPos .idx (slot (dbHash k) + ptrSz))
      (L.chain (dbHash k))).acc.readable = true := by simpa using hr
  have hw₁ : (I.walked (p.setPos .idx (slot (dbHash k) + ptrSz))
      (L.chain (dbHash k))).acc.writable = true := by simpa using hw
  rcases h.fitting k.1.length (d.1.length + 1) with
    hunfit | ⟨l, o, m, r, hfree, hunfit, ho, hs, hk, hdl⟩
  · rw [Buffer.notes_storeAbsent_miss h hf hr₁ hw₁ hunfit hdb]
    obtain ⟨c, hmiss⟩ := run_fetch_miss (b := b) hr h.shape hlink hl hlen
    have ha : Appends p I.files k d flag := by
      refine ⟨hr, hw, hd, Or.inl ⟨flag_of_ne_replace hflag hrep, ?_, L.free, h.free, ?_⟩⟩
      · exact ⟨fuel, b, c, p, _, hf, hmiss⟩
      · exact fun x hx => (hunfit x hx).not_fit
    exact .appends (l := []) ha (by simp)
  · rw [Buffer.notes_storeAbsent_hit h hf hr₁ hw₁ hfree hunfit ho hs hk hdl hdb]
    apply Texts.fits
    · intro ha
      rcases ha.branch with ⟨-, -, l', hl', hno⟩ | ⟨-, d₀, hx, -⟩
      · obtain rfl := h.free.unique hl'
        exact hno o (by rw [hfree]; simp) ⟨r, ho.has, hk, hdl⟩
      · exact hfetch d₀ hx
    · rw [List.forall_mem_singleton]
      exact Rec.length_le_of_fit hk hdl

theorem Inv.texts_hit {l m : List ℕ} {o : ℕ} {r : Rec} {d₀ : CStr}
    (hc : L.chain (dbHash k) = l ++ o :: m) (hl : ∀ x ∈ l, I.Passes k x) (ho : I.RecAt o r)
    (hs : SEP ∉ r.key.1) (hk : r.key = k) (hd₀ : I.blkAt r.datoff = some d₀)
    (hdl : r.datlen = d₀.1.length + 1) (hM : M k = some d₀) :
    Texts p I.files k d flag ((Buffer.dbStore fuel b k.1 d.1 flag).notes exec (p, I.files)) := by
  obtain ⟨hlink, hlen⟩ := h.walk_to hf hc
  have habs : ¬ I.files.Absent k := by
    intro hx
    rw [(h.absent_passes hx).2] at hM
    cases hM
  rw [Buffer.notes_dbStore hflag hd (run_find_hit true hr hw h.shape hlink hl ho hs hk
    hlen)]
  dsimp only
  rw [if_neg (by decide)]
  by_cases hins : flag = Flag.dbInsert
  · rw [if_pos hins]
    apply Texts.nil
    intro ha
    rcases ha.branch with ⟨-, hx, -⟩ | ⟨hfl, -⟩
    · exact habs hx
    · rw [hins] at hfl
      exact absurd hfl (by decide)
  rw [if_neg hins]
  by_cases hne : d.1.length + 1 ≠ r.datlen
  · obtain ⟨v, hnotes⟩ := Buffer.notes_storePresent (b := { b with chainoff := slot (dbHash k) })
      (p := p.setPos .idx (I.endOf o)) h (by simpa using hr) (by simpa using hw) hc ho rfl hne
    rw [hnotes]
    obtain ⟨c, hhit⟩ := run_fetch_hit (b := b) hr h.shape hlink hl ho hs hk
      hlen hd₀ hdl
    have ha : Appends p I.files k d flag := by
      refine ⟨hr, hw, hd, Or.inr ⟨flag_of_ne_insert hflag hins, d₀.1, ?_, by omega⟩⟩
      exact ⟨fuel, b, c, p, _, hf, hhit⟩
    refine .appends (l := [(r.freed v).text]) ha ?_
    rw [List.forall_mem_singleton]
    exact (r.freed v).text_le
  · have hlen₀ : ¬ d.1.length + 1 ≠ (({ b with chainoff := slot (dbHash k) } : DB).found
      (slot (dbHash k)) l o r).datlen := hne
    rw [Buffer.storePresent, if_neg hlen₀, Prog.notes_lift]
    apply Texts.nil
    intro ha
    rcases ha.branch with ⟨-, hx, -⟩ | ⟨-, d₁, hx, hne₁⟩
    · exact habs hx
    · have hsome := (h.fetched hx).1
      rw [Map.fetch, hM] at hsome
      obtain rfl := Option.some.inj hsome
      omega

end Branches

theorem Inv.texts (h : Inv I L X Y M) (hf : ptrMax < fuel) :
    Texts p I.files k d flag ((Buffer.dbStore fuel b k.1 d.1 flag).notes exec (p, I.files)) := by
  by_cases hflag : flag ≠ Flag.dbInsert ∧ flag ≠ Flag.dbReplace ∧ flag ≠ Flag.dbStore
  · rw [Buffer.dbStore, if_pos hflag]
    apply Texts.nil
    intro ha
    rcases ha.branch with ⟨hfl, -⟩ | ⟨hfl, -⟩ <;> omega
  by_cases hd : DatlenOk d
  swap
  · rw [Buffer.dbStore, if_neg hflag]
    dsimp only
    rw [dumpIf_pos (by unfold DatlenOk at hd; omega)]
    exact Texts.nil fun ha => hd ha.datlen
  by_cases hrw : p.acc.writable = false ∨ p.acc.readable = false
  · obtain ⟨e, p', hden, -⟩ := run_find_denied fuel b p I.files k.1 true hrw
    rw [Buffer.notes_dbStore_dump hden]
    apply Texts.nil
    intro ha
    rw [ha.readable, ha.writable] at hrw
    simp at hrw
  obtain ⟨hw, hr⟩ : p.acc.writable = true ∧ p.acc.readable = true := by simpa using hrw
  cases h.search k with
  | miss hl hM => exact h.texts_miss hf hflag hd hr hw hl hM
  | hit hc hl ho hs hk hd₀ hdl hM => exact h.texts_hit hf hflag hd hr hw hc hl ho hs hk hd₀ hdl hM
  | @sep l o m r d₀ hc hl ho hs hM =>
    obtain ⟨hlink, hlen⟩ := h.walk_to hf hc
    rw [Buffer.notes_dbStore_dump (run_find_sep true hr hw h.shape hlink hl ho hs
      hlen)]
    apply Texts.nil
    intro ha
    rcases ha.branch with ⟨-, hx, -⟩ | ⟨-, d₀, hx, -⟩
    · exact (h.fetched hx).2 ⟨l, o, m, r, hc, hl, ho, hs⟩
    · exact (h.fetched hx).2 ⟨l, o, m, r, hc, hl, ho, hs⟩

theorem length_idxText (key : List Byte) (datoff datlen : ℕ) : (idxText key datoff datlen).length =
    key.length + (dec datoff).length + (dec datlen).length + 3 := by
  simp only [idxText, List.length_append, List.length_singleton]
  omega

theorem Texts.fit_iff {l : List (List Byte)} (h : Texts p f k d flag l) :
    (∀ t ∈ l, t.length + 1 ≤ idxbufSize) ↔
      (Appends p f k d flag → k.1.length + (dec (f.bytes .dat).length).length +
        (dec (d.1.length + 1)).length + 4 ≤ idxbufSize) := by
  have hsize := length_idxText k.1 (f.bytes .dat).length (d.1.length + 1)
  have hfit : ∀ {t : List Byte}, t.length ≤ idxlenMax → t.length + 1 ≤ idxbufSize := by
    intro t ht
    unfold idxbufSize
    omega
  cases h with
  | appends ha hl =>
    constructor
    · intro hall _
      have hlast := hall _ (List.mem_append_right _ (List.mem_singleton_self _))
      rw [hsize] at hlast
      exact hlast
    · intro happ t ht
      rcases List.mem_append.mp ht with hin | hlast
      · exact hfit (hl t hin)
      · rw [List.mem_singleton.mp hlast, hsize]
        exact happ ha
  | fits ha hl =>
    constructor
    · intro _ hno
      exact absurd hno ha
    · intro _ t ht
      exact hfit (hl t ht)

/-- In every reachable database the texts that `db_store` formats fit the buffer with the zero
behind them, if and only if the store does not append or the text of the new record fits. -/
theorem idxbuf_fits_iff (hr : Reachable (fun _ => True) f) (hf : ptrMax < fuel) :
    (Buffer.dbStore fuel b k.1 d.1 flag).erase = Db.dbStore fuel b k.1 d.1 flag ∧
    ((∀ t ∈ (Buffer.dbStore fuel b k.1 d.1 flag).notes exec (p, f), t.length + 1 ≤ idxbufSize) ↔
      (Appends p f k d flag → k.1.length + (dec (f.bytes .dat).length).length +
        (dec (d.1.length + 1)).length + 4 ≤ idxbufSize)) := by
  obtain ⟨I, L, X, Y, M, rfl, h, -⟩ := hr.valid
  exact ⟨Buffer.erase_dbStore fuel b k.1 d.1 flag, (h.texts hf).fit_iff⟩

theorem idxbuf_fits_sample :
    (Buffer.dbStore 100000 dbAlloc keyA.1 dataX.1 Flag.dbInsert).erase =
        Db.dbStore 100000 dbAlloc keyA.1 dataX.1 Flag.dbInsert ∧
    ((∀ t ∈ (Buffer.dbStore 100000 dbAlloc keyA.1 dataX.1 Flag.dbInsert).notes exec
        (Fds.opened .rdwr, Image.fresh.files), t.length + 1 ≤ idxbufSize) ↔
      (Appends (Fds.opened .rdwr) Image.fresh.files keyA dataX Flag.dbInsert →
        keyA.1.length + (dec (Image.fresh.files.bytes .dat).length).length +
          (dec (dataX.1.length + 1)).length + 4 ≤ idxbufSize)) :=
  idxbuf_fits_iff (fresh_reachable fun _ => True) (by decide)

/-- A key whose record text is longer than the buffer. -/
def keyOver : CStr :=
  ⟨List.replicate 1100 97, fun h => absurd (List.eq_of_mem_replicate h) (by decide)⟩

/-- The text of a long key is formatted into the buffer in front of the check of its length. -/
theorem idxbuf_overrun : ¬ ∀ (p : Fds) (f : Files) (k d : CStr) (b : DB) (flag : ℤ) (fuel : ℕ),
    Reachable (fun _ => True) f → ptrMax < fuel →
    ∀ t ∈ (Buffer.dbStore fuel b k.1 d.1 flag).notes exec (p, f), t.length + 1 ≤ idxbufSize := by
  intro hall
  have hfit := hall (Fds.opened .rdwr) Image.fresh.files keyOver dataX dbAlloc Flag.dbInsert 100000
    (fresh_reachable fun _ => True) (by decide)
  exact absurd hfit (by decide +kernel)

end Somenote.Db
