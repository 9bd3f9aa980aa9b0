import Somenote.Db.Operations

/-! # The operations on the map

What each operation does to the key-to-data map of the database, and the ends that a
run on files with the invariant can have: the operation of the map, or an error exit
with what was written before it.
-/

namespace Somenote.Db

namespace Map

def fetch (M : Map) (k : CStr) : Option (List Byte) := (M k).map Subtype.val

/-- The return value of `db_delete` and the map behind it. -/
def delete (M : Map) (k : CStr) : ℤ × Map :=
  match M k with
  | none => (-1, M)
  | some _ => (0, Function.update M k none)

/-- The return value of `db_store` and the map behind it. -/
def store (M : Map) (k d : CStr) (flag : ℤ) : ℤ × Map :=
  if flag ≠ Flag.dbInsert ∧ flag ≠ Flag.dbReplace ∧ flag ≠ Flag.dbStore then (-1, M)
  else
    match M k with
    | none => if flag = Flag.dbReplace then (-1, M) else (0, Function.update M k (some d))
    | some _ => if flag = Flag.dbInsert then (1, M) else (0, Function.update M k (some d))

theorem delete_none {M : Map} {k : CStr} (h : M k = none) : M.delete k = (-1, M) := by
  rw [delete, h]

theorem delete_some {M : Map} {k d : CStr} (h : M k = some d) :
    M.delete k = (0, Function.update M k none) := by
  rw [delete, h]

section Store

variable {M : Map} {k d d₀ : CStr} {flag : ℤ}
  (hflag : ¬ (flag ≠ Flag.dbInsert ∧ flag ≠ Flag.dbReplace ∧ flag ≠ Flag.dbStore))
include hflag

theorem store_none (h : M k = none) : M.store k d flag =
    if flag = Flag.dbReplace then (-1, M) else (0, Function.update M k (some d)) := by
  rw [store, if_neg hflag, h]

theorem store_some (h : M k = some d₀) : M.store k d flag =
    if flag = Flag.dbInsert then (1, M) else (0, Function.update M k (some d)) := by
  rw [store, if_neg hflag, h]

end Store

theorem store_eq_zero {M M' : Map} {k d : CStr} {flag : ℤ} (h : M.store k d flag = (0, M')) :
    M' = Function.update M k (some d) := by
  unfold store at h
  split at h
  · simp at h
  · split at h <;> split_ifs at h
    all_goals simp only [Prod.mk.injEq, true_and] at h
    all_goals first | exact h.symm | omega

/-- The keys of the map satisfy `P`. -/
def Keys (M : Map) (P : CStr → Prop) : Prop := ∀ k, M k ≠ none → P k

/-- No key holds a separator. -/
abbrev Clean (M : Map) : Prop := M.Keys fun k => SEP ∉ k.1

variable {M : Map} {k : CStr} {P : CStr → Prop}

theorem keys_empty (P : CStr → Prop) : Keys (fun _ => none) P := fun _ h => absurd rfl h

theorem Keys.update (h : M.Keys P) {v : Option CStr} (hk : v ≠ none → P k) :
    Keys (Function.update M k v) P := by
  intro k' hk'
  rw [Function.update_apply] at hk'
  split_ifs at hk' with he
  · exact he ▸ hk hk'
  · exact h k' hk'

theorem Keys.store (h : M.Keys P) (hk : P k) (d : CStr) (flag : ℤ) : (M.store k d flag).2.Keys P := by
  unfold Map.store
  split
  · exact h
  · cases M k with
    | none => dsimp only; split_ifs <;> first | exact h | exact h.update fun _ => hk
    | some _ => dsimp only; split_ifs <;> first | exact h | exact h.update fun _ => hk

theorem Keys.delete (h : M.Keys P) (k : CStr) : (M.delete k).2.Keys P := by
  unfold Map.delete
  cases M k with
  | none => exact h
  | some _ => exact h.update fun hn => absurd rfl hn

end Map

/-- How the search for a key on its chain ends. -/
inductive Search (I : Image) (L : Lists) (M : Map) (k : CStr) : Prop
  | miss (hl : ∀ x ∈ L.chain (dbHash k), I.Passes k x) (hM : M k = none)
  | hit {l o m r d} (hc : L.chain (dbHash k) = l ++ o :: m) (hl : ∀ x ∈ l, I.Passes k x)
      (ho : I.RecAt o r) (hs : SEP ∉ r.key.1) (hk : r.key = k) (hd : I.blkAt r.datoff = some d)
      (hlen : r.datlen = d.1.length + 1) (hM : M k = some d)
  | sep {l o m r d} (hc : L.chain (dbHash k) = l ++ o :: m) (hl : ∀ x ∈ l, I.Passes k x)
      (ho : I.RecAt o r) (hs : SEP ∈ r.key.1) (hM : M r.key = some d)

/-- The data can be stored with the length field of its record. -/
def DatlenOk (d : CStr) : Prop := datlenMin ≤ d.1.length + 1 ∧ d.1.length + 1 ≤ datlenMax

section Store

variable {k d : CStr} {flag : ℤ} (fuel : ℕ) (b : DB)
  (hflag : ¬ (flag ≠ Flag.dbInsert ∧ flag ≠ Flag.dbReplace ∧ flag ≠ Flag.dbStore))
include hflag

theorem dbStore_dump (hd : ¬ DatlenOk d) :
    dbStore fuel b k.1 d.1 flag = Prog.dump .storeDatlen := by
  rw [dbStore, if_neg hflag]
  dsimp only
  rw [dumpIf_pos (by unfold DatlenOk at hd; omega), Prog.dump_bind]

theorem dbStore_find (hd : DatlenOk d) :
    dbStore fuel b k.1 d.1 flag = dbFindAndLock fuel b k.1 true >>= fun x =>
      ((if x.1 < 0 then
          if flag = Flag.dbReplace then pure (-1, x.2)
          else storeAbsent fuel x.2 k.1 d.1 >>= fun db => pure (0, db)
        else
          if flag = Flag.dbInsert then pure (1, x.2)
          else storePresent x.2 k.1 d.1 >>= fun db => pure (0, db) : DbProg (ℤ × DB)) >>= fun y =>
        orDump (.unlck .idx y.2.chainoff 1) .storeUnLock >>= fun _ => pure y) := by
  rw [dbStore, if_neg hflag]
  dsimp only
  rw [dumpIf_neg (by unfold DatlenOk at hd; omega), Prog.ret_bind]

theorem flag_of_ne_replace (h : flag ≠ Flag.dbReplace) :
    flag = Flag.dbInsert ∨ flag = Flag.dbStore := by
  by_contra hno
  exact hflag ⟨fun hx => hno (Or.inl hx), h, fun hx => hno (Or.inr hx)⟩

theorem flag_of_ne_insert (h : flag ≠ Flag.dbInsert) :
    flag = Flag.dbReplace ∨ flag = Flag.dbStore := by
  by_contra hno
  exact hflag ⟨h, fun hx => hno (Or.inl hx), fun hx => hno (Or.inr hx)⟩

end Store

/-- A record for the key and the data at the end of the data file has a valid length. -/
def Fits (f : Files) (k d : CStr) : Prop :=
  idxlenMin ≤ (idxText k.1 (f.bytes .dat).length (d.1.length + 1)).length ∧
    (idxText k.1 (f.bytes .dat).length (d.1.length + 1)).length ≤ idxlenMax

/-- An appending store ends in a limit check, behind the writes before the check. -/
inductive Refused (I : Image) (k d : CStr) : Err → Image → Prop
  | len (h : ¬ Fits I.files k d) : Refused I k d .writeidxLen (I.addBlk d)
  | ptr {r : Rec} (hk : r.key = k) (hoff : r.datoff = I.datBytes.length)
      (hlen : r.datlen = d.1.length + 1) (hbig : ptrMax < I.idxBytes.length) :
      Refused I k d .writeptrPtr ((I.addBlk d).addRec r)

/-- How a store on a database with the map `M` ends. -/
inductive StoreEnd (I : Image) (L : Lists) (X Y : Set ℕ) (M : Map) (k d : CStr) (flag : ℤ) :
    Out Err (ℤ × DB) → Image → Prop
  | done {db : DB} {I' : Image} {L' : Lists} {rc : ℤ} {M' : Map}
      (hspec : M.store k d flag = (rc, M')) (h : Inv I' L' X Y M') (hY : I.Keeps I' Y) :
      StoreEnd I L X Y M k d flag (.ok (rc, db)) I'
  | datlen (h : ¬ DatlenOk d) : StoreEnd I L X Y M k d flag (.dump .storeDatlen) I
  | sep {k' d' : CStr} (hM : M k' = some d') (hs : SEP ∈ k'.1) :
      StoreEnd I L X Y M k d flag (.dump .readidxSep3) I
  | absent {e : Err} {I' : Image} (hd : DatlenOk d)
      (hl : ∀ x ∈ L.chain (dbHash k), I.Passes k x) (hM : M k = none) (h : Refused I k d e I') :
      StoreEnd I L X Y M k d flag (.dump e) I'
  | present {e : Err} {I₁ I' : Image} {L₁ : Lists} {l m : List ℕ} {o : ℕ} {r : Rec} {d₀ : CStr}
      (hd : DatlenOk d) (hc : L.chain (dbHash k) = l ++ o :: m) (hl : ∀ x ∈ l, I.Passes k x)
      (ho : I.RecAt o r) (hs : SEP ∉ r.key.1) (hk : r.key = k) (hd₀ : I.blkAt r.datoff = some d₀)
      (hlen : r.datlen = d₀.1.length + 1) (hne : d.1.length ≠ d₀.1.length)
      (h₁ : Inv I₁ L₁ X Y (Function.update M k none)) (hY : I.Keeps I₁ Y)
      (h : Refused I₁ k d e I') : StoreEnd I L X Y M k d flag (.dump e) I'

variable {I I' : Image} {L : Lists} {X Y : Set ℕ} {M : Map} {p : Fds} {fuel : ℕ} {k d : CStr}
  {b : DB} {flag : ℤ} {e : Err} {v : Ptr}

/-- A refused store leaves a block or a record that nothing points to. -/
theorem Refused.inv (hr : Refused I k d e I') (h : Inv I L X Y M) :
    ∃ X' Y', Inv I' L X' Y' M ∧ ∀ o ∈ Y', o ∈ Y ∧ I'.cellAt o = I.cellAt o ∨
      ∃ r, I'.RecAt o r ∧ r.key = k := by
  cases hr with
  | len _ => exact ⟨_, _, h.addBlk d, fun o ho => Or.inl ⟨ho, rfl⟩⟩
  | @ptr r hk hoff hlen _ =>
    refine ⟨_, _, h.added hoff hlen, fun o ho => ?_⟩
    rcases ho with rfl | ho
    · exact Or.inr ⟨r, (I.addBlk d).recAt_addRec_end r, hk⟩
    · exact Or.inl ⟨ho, h.keeps_added o ho⟩

theorem Inv.search (h : Inv I L X Y M) (k : CStr) : Search I L M k := by
  have hrec : ∀ o ∈ L.chain (dbHash k), I.IsRec o := fun o ho => h.filed.rec_chain ho
  rcases search_cases k hrec with hl | ⟨l, o, m, r, hc, hl, ho, hkey⟩
  · refine .miss hl (h.absent fun o ho r hr => ?_)
    obtain ⟨q, hq, -, hne⟩ := hl o ho
    exact hr.unique hq ▸ hne
  · have hmem : o ∈ L.chain (dbHash k) := by rw [hc]; simp
    obtain ⟨d, hd, hlen⟩ := h.stock.blk ho
    have hM := h.present hmem ho hd
    rcases hkey with ⟨hs, hk⟩ | hs
    · exact .hit hc hl ho hs hk hd hlen (hk ▸ hM)
    · exact .sep hc hl ho hs hM

theorem Inv.fitting (h : Inv I L X Y M) (keylen datlen : ℕ) :
    (∀ x ∈ L.free, I.Unfit keylen datlen x) ∨
      ∃ s o t r, L.free = s ++ o :: t ∧ (∀ x ∈ s, I.Unfit keylen datlen x) ∧ I.RecAt o r ∧
        SEP ∉ r.key.1 ∧ r.key.1.length = keylen ∧ r.datlen = datlen :=
  findfree_cases keylen datlen fun _ ho => by
    obtain ⟨r, hr⟩ := h.filed.rec_free ho
    exact ⟨r, hr, h.filed.free_blank ho hr⟩

section Specs

variable (h : Inv I L X Y M) (hf : ptrMax < fuel) (hr : p.acc.readable = true)
include h hf hr

/-- A fetch returns the value of the map, unless it meets a key with a separator. -/
theorem fetch_spec (k : CStr) :
    ∃ out p', (dbFetch fuel b k.1).run exec (p, I.files) = (out, p', I.files) ∧ p'.acc = p.acc ∧
      ((∃ b', out = .ok (M.fetch k, b')) ∨ out = .dump .readidxSep3 ∧ ¬ M.Clean) := by
  cases h.search k with
  | miss hl hM =>
    obtain ⟨hlink, hlen⟩ := h.walk hf k
    obtain ⟨b', hrun⟩ := run_fetch_miss (b := b) hr h.shape hlink hl hlen
    exact ⟨_, _, hrun, by simp, Or.inl ⟨b', by rw [Map.fetch, hM]; rfl⟩⟩
  | @hit l o m r d hc hl ho hs hk hd hdl hM =>
    obtain ⟨hlink, hlen⟩ := h.walk_to hf hc
    obtain ⟨b', hrun⟩ := run_fetch_hit (b := b) hr h.shape hlink hl ho hs hk
      hlen hd hdl
    exact ⟨_, _, hrun, by simp, Or.inl ⟨b', by rw [Map.fetch, hM]; rfl⟩⟩
  | @sep l o m r d hc hl ho hs hM =>
    obtain ⟨hlink, hlen⟩ := h.walk_to hf hc
    refine ⟨_, _, run_fetch_sep hr h.shape hlink hl ho hs hlen, by simp,
      Or.inr ⟨rfl, ?_⟩⟩
    exact fun hclean => hclean r.key (by simp [hM]) hs

variable (hw : p.acc.writable = true)
include hw

/-- A deletion does what the map does, unless it meets a key with a separator. -/
theorem delete_spec (k : CStr) :
    ∃ out p' I', (dbDelete fuel b k.1).run exec (p, I.files) = (out, p', I'.files) ∧
      p'.acc = p.acc ∧
      ((∃ b' L', out = .ok ((M.delete k).1, b') ∧ Inv I' L' X Y (M.delete k).2 ∧ I.Keeps I' Y) ∨
        out = .dump .readidxSep3 ∧ I' = I ∧ ¬ M.Clean) := by
  cases h.search k with
  | miss hl hM =>
    obtain ⟨hlink, hlen⟩ := h.walk hf k
    obtain ⟨b', hrun⟩ := run_delete_miss (b := b) hr hw h.shape hlink hl hlen
    refine ⟨_, _, I, hrun, by simp, Or.inl ⟨b', L, ?_, ?_, fun _ _ => rfl⟩⟩
    · rw [Map.delete_none hM]
    · rw [Map.delete_none hM]
      exact h
  | @hit l o m r d hc hl ho hs hk hd hdl hM =>
    subst hk
    obtain ⟨v, hv⟩ := h.shape.free_hasPtr
    have hle : o ≤ ptrMax := h.node_le (i := some (dbHash r.key)) (by rw [Lists.nodes, hc]; simp)
    obtain ⟨b', p', hrun, hacc⟩ := run_delete_hit (b := b) (w := ⟨o, Nat.lt_succ_of_le hle⟩)
      hr hw h hc hl ho hs rfl hv rfl hf
    refine ⟨_, _, _, hrun, hacc, Or.inl ⟨b', (L.setChain (dbHash r.key) (l ++ m)).setFree
      (o :: L.free), ?_, ?_, h.keeps_deleted hc ho⟩⟩
    · rw [Map.delete_some hM]
    · rw [Map.delete_some hM]
      exact h.deleted hc ho hv.next_eq.symm rfl
  | @sep l o m r d hc hl ho hs hM =>
    obtain ⟨hlink, hlen⟩ := h.walk_to hf hc
    refine ⟨_, _, I, run_delete_sep hr hw h.shape hlink hl ho hs hlen,
      by simp, Or.inr ⟨rfl, rfl, ?_⟩⟩
    exact fun hclean => hclean r.key (by simp [hM]) hs

omit hf hr in
theorem append_spec (hM : M k = none) (hd : DatlenOk d) (hv : I.HasPtr (slot (dbHash k)) v)
    (hc : b.chainoff = slot (dbHash k)) :
    ∃ out p' I', (storeAppend b k.1 d.1 v).run exec (p, I.files) = (out, p', I'.files) ∧
      p'.acc = p.acc ∧
      ((∃ b' L', out = .ok b' ∧ b'.chainoff = slot (dbHash k) ∧
          Inv I' L' X Y (Function.update M k (some d)) ∧ I.Keeps I' Y) ∨
        ∃ e, out = .dump e ∧ Refused I k d e I') := by
  by_cases hfit : Fits I.files k d
  · let r : Rec := ⟨v, k, I.datBytes.length, d.1.length + 1, hfit.1, hfit.2, Nat.succ_pos _, hd.2⟩
    by_cases hbig : ptrMax < I.idxBytes.length
    · obtain ⟨p', hrun, hacc⟩ := run_storeAppend_big (b := b) (r := r) hw rfl rfl hbig
      exact ⟨_, p', _, hrun, hacc, Or.inr ⟨_, rfl, .ptr (r := r) rfl rfl rfl hbig⟩⟩
    · obtain ⟨b', p', hrun, hdb, hacc⟩ := run_storeAppend (r := r)
        (w := ⟨I.idxBytes.length, by omega⟩) hw hv hc rfl rfl rfl
      exact ⟨_, p', _, hrun, hacc, Or.inl ⟨b', _, rfl, hdb,
        h.appended (r := r) rfl rfl rfl hM hv.next_eq.symm rfl, h.keeps_appended⟩⟩
  · simp only [Fits, Image.bytes_dat] at hfit
    have hno : (idxText k.1 I.datBytes.length (d.1.length + 1)).length < idxlenMin ∨
        idxlenMax < (idxText k.1 I.datBytes.length (d.1.length + 1)).length := by omega
    obtain ⟨p', hrun, hacc⟩ := run_storeAppend_len (b := b) hw hno v
    exact ⟨_, p', _, hrun, hacc, Or.inr ⟨_, rfl, .len hfit⟩⟩

theorem run_storeAbsent_miss (hunfit : ∀ x ∈ L.free, I.Unfit k.1.length (d.1.length + 1) x)
    (hv : I.HasPtr (slot (dbHash k)) v) (hc : b.chainoff = slot (dbHash k)) :
    ∃ b' p', (storeAbsent fuel b k.1 d.1).run exec (p, I.files) =
      (storeAppend b' k.1 d.1 v).run exec (p', I.files) ∧ b'.chainoff = slot (dbHash k) ∧
      p'.acc = p.acc := by
  obtain ⟨b', p', hrun, hdb, hacc⟩ := run_findfree_miss (b := b)
    (p := p.setPos .idx (slot (dbHash k) + ptrSz)) (by simpa using hr) (by simpa using hw) h
    hunfit hf
  refine ⟨b', p', ?_, hdb.trans hc, hacc.trans (by simp)⟩
  rw [storeAbsent, hc]
  exact (Prog.run_bind_ok (run_readptr hr hv) _).trans (Prog.run_bind_ok hrun _)

theorem run_storeAbsent_hit {l m : List ℕ} {o : ℕ} {r : Rec} (hl : L.free = l ++ o :: m)
    (hunfit : ∀ x ∈ l, I.Unfit k.1.length (d.1.length + 1) x) (ho : I.RecAt o r)
    (hk : k.1.length = r.key.1.length) (hlen : r.datlen = d.1.length + 1) {w : Ptr}
    (hv : I.HasPtr (slot (dbHash k)) v) (hc : b.chainoff = slot (dbHash k)) (hwo : (w : ℕ) = o) :
    ∃ b' p', (storeAbsent fuel b k.1 d.1).run exec (p, I.files) =
      (.ok b', p', (I.reused (l.getLastD freeOff) o r (slot (dbHash k)) k d hk v w).files) ∧
      b'.chainoff = slot (dbHash k) ∧ p'.acc = p.acc := by
  have hmem : o ∈ L.free := by rw [hl]; simp
  obtain ⟨p₁, hrun₁, hacc₁⟩ := run_findfree_hit (b := b)
    (p := p.setPos .idx (slot (dbHash k) + ptrSz)) (by simpa using hr) (by simpa using hw) h hl
    hunfit ho (not_sep_of_isBlank (h.filed.free_blank hmem ho)) ⟨hk.symm, hlen⟩ hf
  obtain ⟨d₀, hd₀, hlen₀⟩ := h.stock.blk ho
  have hne : l.getLastD freeOff ≠ o := h.filed.prev_ne h.shape (i := none) hl
  obtain ⟨u, hu⟩ : ∃ u, I.HasPtr (l.getLastD freeOff) u :=
    h.hasPtr (Filed.prev_mem (i := none) hl)
  have ho₁ : (I.setPtr (l.getLastD freeOff) r.ptr).RecAt o r := by
    rw [Image.recAt_setPtr hu, if_neg hne.symm]
    exact ho
  have hd₁ : (I.setPtr (l.getLastD freeOff) r.ptr).blkAt r.datoff = some d₀ := by
    simpa using hd₀
  obtain ⟨b', p', hrun, hdb, hacc⟩ := run_storeReuse (b := b) (p := p₁) (w := w) (d := d)
    (by rw [hacc₁]; simpa using hw)
    (Image.hasPtr_setPtr_ne hu (h.filed.slot_ne_prev h.shape hl) hv r.ptr) ho₁
    (h.shape.slot_ne _ ho) hd₁ (by omega) hlen hk hc hwo v
  refine ⟨b', p', ?_, hdb, hacc.trans (hacc₁.trans (by simp))⟩
  rw [storeAbsent, hc]
  exact (Prog.run_bind_ok (run_readptr hr hv) _).trans ((Prog.run_bind_ok hrun₁ _).trans hrun)

theorem absent_spec (hM : M k = none) (hd : DatlenOk d) (hc : b.chainoff = slot (dbHash k)) :
    ∃ out p' I', (storeAbsent fuel b k.1 d.1).run exec (p, I.files) = (out, p', I'.files) ∧
      p'.acc = p.acc ∧
      ((∃ b' L', out = .ok b' ∧ b'.chainoff = slot (dbHash k) ∧
          Inv I' L' X Y (Function.update M k (some d)) ∧ I.Keeps I' Y) ∨
        ∃ e, out = .dump e ∧ Refused I k d e I') := by
  obtain ⟨v, hv⟩ := h.shape.slot_hasPtr (dbHash k)
  rcases h.fitting k.1.length (d.1.length + 1) with
    hunfit | ⟨l, o, m, r, hl, hunfit, ho, -, hk, hlen⟩
  · obtain ⟨b₁, p₁, hrun₁, hdb₁, hacc₁⟩ := run_storeAbsent_miss (b := b) h hf hr hw hunfit hv hc
    obtain ⟨out, p', I', hrun, hacc, hend⟩ := append_spec (b := b₁) (p := p₁) h
      (by rw [hacc₁]; exact hw) hM hd hv hdb₁
    exact ⟨out, p', I', hrun₁.trans hrun, hacc.trans hacc₁, hend⟩
  · have hle : o ≤ ptrMax := h.node_le (i := none) (by rw [Lists.nodes, hl]; simp)
    obtain ⟨d₀, hd₀, hlen₀⟩ := h.stock.blk ho
    obtain ⟨b', p', hrun, hdb, hacc⟩ := run_storeAbsent_hit (b := b) (w := ⟨o, by omega⟩) h hf hr hw
      hl hunfit ho hk.symm hlen hv hc rfl
    exact ⟨_, p', _, hrun, hacc, Or.inl ⟨b', _, rfl, hdb,
      h.reused (w := ⟨o, by omega⟩) hl ho hd₀ (by omega) hk.symm rfl hM hv.next_eq.symm rfl,
      h.keeps_reused hl ho hk.symm⟩⟩

theorem run_store_miss (hl : ∀ x ∈ L.chain (dbHash k), I.Passes k x)
    (hflag : flag = Flag.dbInsert ∨ flag = Flag.dbStore) (hd : DatlenOk d) :
    ∃ b' p', (dbStore fuel b k.1 d.1 flag).run exec (p, I.files) =
      (storeAbsent fuel b' k.1 d.1 >>= fun db => do
        orDump (.unlck .idx db.chainoff 1) .storeUnLock
        pure ((0 : ℤ), db)).run exec (p', I.files) ∧
      b'.chainoff = slot (dbHash k) ∧ p'.acc = p.acc := by
  obtain ⟨hlink, hlen⟩ := h.walk hf k
  obtain ⟨b₁, hrun₁, hdb₁⟩ := run_find_miss (b := b) true hr hw h.shape hlink hl hlen
  refine ⟨b₁, I.walked (p.setPos .idx (slot (dbHash k) + ptrSz)) (L.chain (dbHash k)), ?_, hdb₁,
    by simp⟩
  rw [dbStore_find fuel b (by rcases hflag with rfl | rfl <;> decide) hd, Prog.run_bind_ok hrun₁]
  dsimp only
  rw [if_pos (by decide), if_neg (by rcases hflag with rfl | rfl <;> decide), Prog.bind_assoc]
  rfl

omit hf in
theorem present_spec {l m : List ℕ} {o : ℕ} {r : Rec} {d₀ : CStr} (hd : DatlenOk d)
    (hl : L.chain (dbHash k) = l ++ o :: m) (ho : I.RecAt o r) (hk : r.key = k)
    (hd₀ : I.blkAt r.datoff = some d₀) (hdl : r.datlen = d₀.1.length + 1)
    (hc : b.chainoff = slot (dbHash k)) :
    ∃ out p' I', (storePresent (b.found (slot (dbHash k)) l o r) k.1 d.1).run exec (p, I.files) =
        (out, p', I'.files) ∧ p'.acc = p.acc ∧
      ((∃ b' L', out = .ok b' ∧ b'.chainoff = slot (dbHash k) ∧
          Inv I' L' X Y (Function.update M k (some d)) ∧ I.Keeps I' Y) ∨
        ∃ e I₁ L₁, out = .dump e ∧ d.1.length ≠ d₀.1.length ∧
          Inv I₁ L₁ X Y (Function.update M k none) ∧ I.Keeps I₁ Y ∧ Refused I₁ k d e I') := by
  subst hk
  have hmem : o ∈ L.chain (dbHash r.key) := by rw [hl]; simp
  rw [storePresent]
  by_cases hne : d.1.length + 1 ≠ r.datlen
  · rw [if_pos (show d.1.length + 1 ≠ (b.found (slot (dbHash r.key)) l o r).datlen from hne)]
    obtain ⟨v, hv⟩ := h.shape.free_hasPtr
    have hle : o ≤ ptrMax := h.node_le (i := some (dbHash r.key)) hmem
    obtain ⟨b₁, p₁, hrun₁, hdb₁, hacc₁⟩ := run_dodelete (b := b) (w := ⟨o, by omega⟩) hr hw h hl
      ho hv rfl
    have h₁ := h.deleted (w := ⟨o, by omega⟩) hl ho hv.next_eq.symm rfl
    obtain ⟨u, hu⟩ := h₁.shape.slot_hasPtr (dbHash r.key)
    obtain ⟨out, p', I', hrun, hacc, hend⟩ := append_spec (b := b₁) (d := d)
      (p := p₁.setPos .idx (slot (dbHash r.key) + ptrSz)) h₁ (by simpa [hacc₁] using hw)
      (Function.update_self ..) hd hu (hdb₁.trans hc)
    refine ⟨out, p', I', ?_, hacc.trans (by simpa using hacc₁), ?_⟩
    · rw [Prog.run_bind_ok hrun₁, hdb₁, hc]
      exact (Prog.run_bind_ok (run_readptr (by simpa [hacc₁] using hr) hu) _).trans hrun
    · rcases hend with ⟨b', L', rfl, hdb', hinv, hY⟩ | ⟨e, rfl, href⟩
      · exact Or.inl ⟨b', L', rfl, hdb', by rwa [Function.update_idem] at hinv,
          fun y hy => (hY y hy).trans (h.keeps_deleted hl ho y hy)⟩
      · exact Or.inr ⟨e, _, _, rfl, by omega, h₁, h.keeps_deleted hl ho, href⟩
  · rw [if_neg (show ¬ d.1.length + 1 ≠ (b.found (slot (dbHash r.key)) l o r).datlen from hne)]
    exact ⟨_, _, _, run_writedat_set hw hd₀ d (by omega), by simp, Or.inl ⟨_, L, rfl, hc,
      h.putBlk_rec hmem ho hd₀ (by omega), fun _ _ => rfl⟩⟩

/-- A store does what the map does, or ends in one of the error exits. -/
theorem store_spec (k d : CStr) (flag : ℤ) :
    ∃ out p' I', (dbStore fuel b k.1 d.1 flag).run exec (p, I.files) = (out, p', I'.files) ∧
      p'.acc = p.acc ∧ StoreEnd I L X Y M k d flag out I' := by
  by_cases hflag : flag ≠ Flag.dbInsert ∧ flag ≠ Flag.dbReplace ∧ flag ≠ Flag.dbStore
  · refine ⟨.ok (-1, b), p, I, ?_, rfl, .done (if_pos hflag) h fun _ _ => rfl⟩
    rw [dbStore, if_pos hflag]
    rfl
  by_cases hd : DatlenOk d
  swap
  · refine ⟨.dump .storeDatlen, p, I, ?_, rfl, .datlen hd⟩
    rw [dbStore_dump fuel b hflag hd]
    rfl
  cases h.search k with
  | miss hl hM =>
    by_cases hrep : flag = Flag.dbReplace
    · obtain ⟨hlink, hlen⟩ := h.walk hf k
      obtain ⟨b₁, hrun₁, hdb₁⟩ := run_find_miss (b := b) true hr hw h.shape hlink hl hlen
      have hspec : M.store k d flag = (-1, M) := by
        rw [Map.store_none hflag hM, if_pos hrep]
      rw [dbStore_find fuel b hflag hd, Prog.run_bind_ok hrun₁]
      dsimp only
      rw [if_pos (by decide), if_pos hrep]
      exact ⟨_, _, I, Prog.run_bind_ok run_unlock _, by simp, .done hspec h fun _ _ => rfl⟩
    · obtain ⟨b₁, p₁, hrun₁, hdb₁, hacc₁⟩ := run_store_miss (b := b) h hf hr hw hl
        (flag_of_ne_replace hflag hrep) hd
      rw [hrun₁]
      rw [← hacc₁] at hr hw
      obtain ⟨out, p', I', hrun, hacc, hend⟩ := absent_spec (b := b₁) (d := d) h hf hr hw hM hd hdb₁
      rcases hend with ⟨b', L', rfl, hdb', hinv, hY⟩ | ⟨e, rfl, href⟩
      · rw [Prog.run_bind_ok hrun]
        refine ⟨_, _, I', Prog.run_bind_ok run_unlock _, hacc.trans hacc₁, .done ?_ hinv hY⟩
        rw [Map.store_none hflag hM, if_neg hrep]
      · rw [Prog.run_bind_dump hrun]
        exact ⟨_, p', I', rfl, hacc.trans hacc₁, .absent hd hl hM href⟩
  | @hit l o m r d₀ hc hl ho hs hk hd₀ hdl hM =>
    obtain ⟨hlink, hlen⟩ := h.walk_to hf hc
    rw [dbStore_find fuel b hflag hd, Prog.run_bind_ok (run_find_hit true hr hw h.shape hlink hl ho
      hs hk hlen)]
    dsimp only
    rw [if_neg (by decide)]
    by_cases hins : flag = Flag.dbInsert
    · rw [if_pos hins]
      have hspec : M.store k d flag = (1, M) := by
        rw [Map.store_some hflag hM, if_pos hins]
      exact ⟨_, _, I, Prog.run_bind_ok run_unlock _, by simp, .done hspec h fun _ _ => rfl⟩
    · rw [if_neg hins, Prog.bind_assoc]
      obtain ⟨out, p', I', hrun, hacc, hend⟩ := present_spec (d := d)
        (p := p.setPos .idx (I.endOf o)) (b := { b with chainoff := slot (dbHash k) }) h
        (by simpa using hr) (by simpa using hw) hd hc ho hk hd₀ hdl rfl
      rcases hend with ⟨b', L', rfl, hdb', hinv, hY⟩ | ⟨e, I₁, L₁, rfl, hne, h₁, hY, href⟩
      · rw [Prog.run_bind_ok hrun]
        refine ⟨_, _, I', Prog.run_bind_ok run_unlock _, by simpa using hacc, .done ?_ hinv hY⟩
        rw [Map.store_some hflag hM, if_neg hins]
      · rw [Prog.run_bind_dump hrun]
        exact ⟨_, p', I', rfl, by simpa using hacc,
          .present hd hc hl ho hs hk hd₀ hdl hne h₁ hY href⟩
  | @sep l o m r d₀ hc hl ho hs hM =>
    obtain ⟨hlink, hlen⟩ := h.walk_to hf hc
    rw [dbStore_find fuel b hflag hd, Prog.run_bind_dump (run_find_sep true hr hw h.shape hlink hl
      ho hs hlen)]
    exact ⟨_, _, I, rfl, by simp, .sep hM hs⟩

end Specs

end Somenote.Db
