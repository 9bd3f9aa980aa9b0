import Somenote.Db.Moves

/-! # Writes of records and blocks among other processes

The writes of data and of index records by `db_store` and `db_delete`, in place and at the ends
of the files, and the locks that a process takes and gives up. A key gets new data with the
write of the index record, or of the data when the record stays.
-/

namespace Somenote.Db

variable {Pid : Type} {p q : Pid} {o a x : ℕ} {r r' : Rec} {k d d' : CStr}
  {i : ListId} {j : Fin nhashDef} {u v : Ptr} {l m : List ℕ}

namespace World

variable {w w' : World Pid}

section Blocks

theorem Change.putBlk (hm : w.Mine p o) (ho : w.image.RecAt o r)
    (hd : w.image.blkAt r.datoff = some d) (hl : d'.1.length = d.1.length)
    (himage : w'.image = w.image.putBlk r.datoff d') (locks : w'.locks = w.locks)
    (hand : ∀ q, q ≠ p → w'.hand q = w.hand q) (late : w'.late = w.late)
    (map : ∀ k, ¬ w.Writes p (slot (dbHash k.1)) → w'.map k = w.map k)
    (chained : ∀ k, ¬ w.Writes p (slot (dbHash k.1)) → w'.chained k = w.chained k)
    (lists : w'.lists = w.lists) : Change p w w' where
  locks := locks
  hand := hand
  late q _ x := by rw [late]
  map := map
  chained := chained
  nodes i _ := by rw [lists]
  cells hc _ := by rw [himage, Image.cellAt_putBlk, hc]
  blks {a d₁} hd₁ ha := by
    have hne : a ≠ r.datoff := by
      rintro rfl
      exact ha (Or.inr ⟨o, r, hm, ho, rfl⟩)
    rw [himage, Image.blkAt_putBlk hd hl, if_neg hne, hd₁]
  kept ho := ⟨_, by rwa [himage], rfl, rfl, rfl, fun _ _ => rfl⟩
  datEnd _ := by rw [himage, Image.length_dat_putBlk hd hl]
  idxEnd _ := by
    rw [himage]
    rfl
  bound := by
    rw [himage]
    exact Or.inl rfl

theorem Change.clean_putBlk (himage : w'.image = w.image.putBlk a d) :
    w'.image.RecAt o r' → (∃ r, w.image.RecAt o r ∧ r.key = r'.key) ∨ SEP ∉ r'.key.1 := by
  intro ho
  rw [himage] at ho
  exact Or.inl ⟨r', ho, rfl⟩

theorem Ok.blkAt_putBlk (ok : w.Ok) (ho : w.image.RecAt o r)
    (hd : w.image.blkAt r.datoff = some d) (hl : d'.1.length = d.1.length)
    (hx : w.image.RecAt x r') (hne : x ≠ o) :
    (w.image.putBlk r.datoff d').blkAt r'.datoff = w.image.blkAt r'.datoff := by
  rw [Image.blkAt_putBlk hd hl, if_neg fun he => hne (ok.inv.stock.inj hx ho he)]

/-- The data of a record in the hands of a process. -/
def fill (w : World Pid) (r : Rec) (d : CStr) : World Pid :=
  { w with image := w.image.putBlk r.datoff d }

variable (ok : w.Ok) (ho : w.image.RecAt o r) (hd : w.image.blkAt r.datoff = some d)
  (hl : d'.1.length = d.1.length)

section Fill

variable (hp : w.hand p = .record o)
include ok ho hd hl hp

omit ok in
theorem fill_change : Change p w (w.fill r d') :=
  .putBlk (.inl hp) ho hd hl rfl rfl (fun _ _ => rfl) rfl (fun _ _ => rfl) (fun _ _ => rfl) rfl

theorem fill_ok (hb : IsBlank r.key) : (w.fill r d').Ok := by
  have hchain : ∀ j, o ∉ w.lists.chain j := fun j hj =>
    ok.out hp (some j) (List.mem_cons_of_mem _ hj)
  refine (fill_change ho hd hl hp).ok ok (ok.inv.putBlk_out ho hchain hd hl) ?_
    (Change.clean_putBlk rfl) ?_ ?_ ?_ ok.late
  · intro x r' hx hb'
    have hne : x ≠ o := by
      rintro rfl
      obtain rfl : r = r' := ho.unique hx
      exact hb' hb
    refine Or.inr (Or.inr ⟨r', hx, rfl, ok.blkAt_putBlk ho hd hl hx hne, rfl, ?_⟩)
    rw [hp]
    exact Hand.noConfusion
  · intro q hq he
    exact absurd (ok.apart he (by rw [he]; simp [fill, hp])) hq
  · intro x r' hx hr' hb'
    exact ok.keyed hx hr' hb'
  · intro x hx
    exact ok.dying hx

omit ok ho hd hl hp in
theorem fill_real : (w.fill r d').real = w.real.putBlk r.datoff d' := lag_putBlk

end Fill

section Replace

/-- New data for a key, of the length of the old. -/
def replace (w : World Pid) (r : Rec) (d : CStr) : World Pid :=
  { w with
    image := w.image.putBlk r.datoff d
    chained := Function.update w.chained r.key (some d)
    map := Function.update w.map r.key (some d) }

variable (hj : o ∈ w.lists.chain j) (hw : w.Writes p (slot j))
include ok ho hd hl hj hw

theorem replace_change : Change p w (w.replace r d') := by
  have hne : ∀ k : CStr, ¬ w.Writes p (slot (dbHash k.1)) → k ≠ r.key := by
    rintro k hk rfl
    exact hk (ok.inv.filed.hash hj ho ▸ hw)
  exact .putBlk (.inr ⟨some j, hw, List.mem_cons_of_mem _ hj⟩) ho hd hl rfl rfl (fun _ _ => rfl) rfl
    (fun k hk => Function.update_of_ne (hne k hk) ..)
    (fun k hk => Function.update_of_ne (hne k hk) ..) rfl

theorem replace_ok (hp : w.hand p = .empty) : (w.replace r d').Ok := by
  refine (replace_change ok ho hd hl hj hw).ok ok (ok.inv.putBlk_rec hj ho hd hl) ?_
    (Change.clean_putBlk rfl) ?_ ?_ ?_ ok.late
  · intro x r' hx hb
    replace hx : w.image.RecAt x r' := hx
    by_cases hxo : x = o
    · subst hxo
      obtain rfl : r = r' := ho.unique hx
      refine Or.inr (Or.inl ?_)
      change (w.image.putBlk r.datoff d').blkAt r.datoff =
        Function.update w.map r.key (some d') r.key
      rw [Function.update_self, Image.blkAt_putBlk hd hl, if_pos rfl]
    · have hk : r'.key ≠ r.key := by
        intro hk
        have hw' : w.Writes p (slot (dbHash r'.key.1)) := by
          rwa [hk, ok.inv.filed.hash hj ho]
        rcases ok.place hx hb hw' with hx' | hx'
        · rw [hk, ok.inv.filed.hash hj ho] at hx'
          exact hxo (ok.inv.filed.key_inj hx' hj hx ho hk)
        · rw [hp] at hx'
          cases hx'
      refine Or.inr (Or.inr ⟨r', hx, rfl, ok.blkAt_putBlk ho hd hl hx hxo, ?_, ?_⟩)
      · exact Function.update_of_ne hk ..
      · rw [hp]
        exact Hand.noConfusion
  · intro q _ he
    exact hp
  · intro x r' hx
    rw [show (w.replace r d').hand p = .empty from hp] at hx
    cases hx
  · intro x hx
    rw [show (w.replace r d').hand p = .empty from hp] at hx
    cases hx

omit ok ho hd hl hj hw in
theorem replace_real : (w.replace r d').real = w.real.putBlk r.datoff d' := lag_putBlk

end Replace

section Wipe

variable [DecidableEq Pid]

/-- The data of a record that is about to be deleted. -/
def wipe (w : World Pid) (p : Pid) (o : ℕ) (r : Rec) : World Pid :=
  { w with
    image := w.image.putBlk r.datoff r.wiped
    hand := Function.update w.hand p (.dying o)
    chained := Function.update w.chained r.key (some r.wiped) }

variable (hj : o ∈ w.lists.chain j) (hw : w.Writes p (slot j))
include ok ho hd hj hw

theorem wipe_change : Change p w (w.wipe p o r) := by
  have hne : ∀ k : CStr, ¬ w.Writes p (slot (dbHash k.1)) → k ≠ r.key := by
    rintro k hk rfl
    exact hk (ok.inv.filed.hash hj ho ▸ hw)
  exact .putBlk (.inr ⟨some j, hw, List.mem_cons_of_mem _ hj⟩) ho hd (ok.inv.length_wiped ho hd)
    rfl rfl (fun q hq => Function.update_of_ne hq ..) rfl (fun _ _ => rfl)
    (fun k hk => Function.update_of_ne (hne k hk) ..) rfl

theorem wipe_ok (hf : w.Writes p freeOff) (hp : w.hand p = .empty) : (w.wipe p o r).Ok := by
  have hlen := ok.inv.length_wiped ho hd
  have hself : (w.wipe p o r).hand p = .dying o := Function.update_self ..
  have hblks : (w.wipe p o r).blks = w.blks := carried_keep (by simp [hp]) (by simp)
  have hrecs : (w.wipe p o r).recs = w.recs := carried_keep (by simp [hp]) (by simp)
  refine (wipe_change ok ho hd hj hw).ok ok ?_ ?_ (Change.clean_putBlk rfl) ?_ ?_ ?_ ok.late
  · rw [hblks, hrecs]
    exact ok.inv.putBlk_rec hj ho hd hlen
  · intro x r' hx _
    replace hx : w.image.RecAt x r' := hx
    by_cases hxo : x = o
    · subst hxo
      exact Or.inl hself
    · refine Or.inr (Or.inr ⟨r', hx, rfl, ok.blkAt_putBlk ho hd hlen hx hxo, rfl, ?_⟩)
      rw [hp]
      exact Hand.noConfusion
  · intro q hq he
    rw [hself] at he
    obtain ⟨-, j', hj', ho'⟩ := ok.dying he
    obtain rfl := ok.inv.filed.chain_inj hj ho'
    exact absurd hw (ok.not_writes hq hj'.holds)
  · intro x r' hx
    rw [hself] at hx
    cases hx
  · intro x hx
    obtain rfl : o = x := by
      rw [hself] at hx
      injection hx
    exact ⟨hf, j, hw, hj⟩

omit ok ho hd hj hw in
theorem wipe_real : (w.wipe p o r).real = w.real.putBlk r.datoff r.wiped := lag_putBlk

end Wipe

end Blocks

section Records

/-- A new key for the record in the hands of a process, with which the key has its new data. -/
def rekey (w : World Pid) (o : ℕ) (r : Rec) (v : Ptr) (k d : CStr)
    (hl : k.1.length = r.key.1.length) : World Pid :=
  { w with
    image := w.image.putCell o (.record (r.withKey v k hl))
    map := Function.update w.map k (some d) }

variable (ok : w.Ok) (ho : w.image.RecAt o r)

section Rekey

variable (hl : k.1.length = r.key.1.length) (hp : w.hand p = .record o) (hb : IsBlank r.key)
  (hw : w.Writes p (slot (dbHash k.1)))
include ho hp hb hw

theorem rekey_change : Change p w (w.rekey o r v k d hl) where
  locks := rfl
  hand _ _ := rfl
  late _ _ _ := Iff.rfl
  map k' hk' := by
    refine Function.update_of_ne ?_ ..
    rintro rfl
    exact hk' hw
  chained _ _ := rfl
  nodes _ _ := rfl
  cells {x c} hc hx := by
    have hne : x ≠ o := by
      rintro rfl
      exact hx (Or.inl hp)
    rw [rekey, Image.cellAt_putCell ho, if_neg hne, hc]
    simp only [Cell.bytes, Rec.length_bytes, r.length_text_withKey]
  blks hd _ := hd
  kept {x r'} hx := by
    by_cases hxo : x = o
    · subst hxo
      obtain rfl : r = r' := ho.unique hx
      exact ⟨_, Image.recAt_putCell_self ho (r.length_text_withKey v hl), rfl, rfl,
        r.length_text_withKey v hl, fun _ hb' => absurd hb hb'⟩
    · refine ⟨r', ?_, rfl, rfl, rfl, fun _ _ => rfl⟩
      rwa [rekey, Image.recAt_putCell ho (r.length_text_withKey v hl), if_neg hxo]
  datEnd _ := rfl
  idxEnd _ := by
    rw [rekey, Image.length_idx_putCell ho]
    simp only [Cell.bytes, Rec.length_bytes, r.length_text_withKey]
  bound := by
    refine Or.inl (Image.length_idx_putCell ho ?_).symm
    simp only [Cell.bytes, Rec.length_bytes, r.length_text_withKey]

include ok in
theorem rekey_ok (hk : w.chained k = none) (hs : SEP ∉ k.1)
    (hd : w.image.blkAt r.datoff = some d) : (w.rekey o r v k d hl).Ok := by
  have hlt := r.length_text_withKey v hl
  have hblank : ∀ o' r', w.hand p = .record o' → w.image.RecAt o' r' → IsBlank r'.key := by
    intro o' r' hp' ho'
    obtain rfl : o = o' := Hand.record_injective (hp.symm.trans hp')
    exact ho.unique ho' ▸ hb
  have hcases : ∀ {x r'}, (w.rekey o r v k d hl).image.RecAt x r' →
      x = o ∧ r' = r.withKey v k hl ∨ x ≠ o ∧ w.image.RecAt x r' := by
    intro x r' hx
    rw [rekey, Image.recAt_putCell ho hlt] at hx
    split_ifs at hx with hxo
    · exact Or.inl ⟨hxo, hx⟩
    · exact Or.inr ⟨hxo, hx⟩
  refine (rekey_change ho hl hp hb hw).ok ok (ok.inv.rewrite ⟨p, hp⟩ ho v hl) ?_ ?_ ?_ ?_ ?_ ok.late
  · intro x r' hx hb'
    rcases hcases hx with ⟨rfl, rfl⟩ | ⟨hxo, hx⟩
    · refine Or.inr (Or.inl ?_)
      change w.image.blkAt r.datoff = Function.update w.map k (some d) k
      rw [Function.update_self, hd]
    · refine Or.inr (Or.inr ⟨r', hx, rfl, rfl, ?_, ?_⟩)
      · exact Function.update_of_ne (ok.key_ne hk hw hblank hx hb') ..
      · rw [hp]
        exact Hand.noConfusion
  · intro x r' hx
    rcases hcases hx with ⟨rfl, rfl⟩ | ⟨hxo, hx⟩
    · exact Or.inr hs
    · exact Or.inl ⟨r', hx, rfl⟩
  · intro q hq he
    exact absurd (ok.apart he (by rw [he]; simp [rekey, hp])) hq
  · intro x r' hx hr' hb'
    rcases hcases hr' with ⟨rfl, rfl⟩ | ⟨hxo, hr'⟩
    · exact hw
    · exact ok.keyed hx hr' hb'
  · intro x hx
    exact ok.dying hx

include ok in
omit hb hw in
theorem rekey_real (ht : w.Timely p) :
    (w.rekey o r v k d hl).real = w.real.putCell o (.record (r.withKey v k hl)) :=
  lag_putCell (fun q x v h => ⟨ok.late_ne ht (.inr hp) q x v h, ok.late_ptr q x v h⟩) ho
    (r.length_text_withKey v hl)

end Rekey

section Unchain

variable [DecidableEq Pid]

/-- The record whose data is wiped gets a blank key. It is off its chain once the pointer in
front of it is written, which is late. -/
def unchain (w : World Pid) (p : Pid) (j : Fin nhashDef) (l : List ℕ) (o : ℕ) (m : List ℕ) (r : Rec)
    (v u : Ptr) : World Pid :=
  { w with
    image := (w.image.setPtr (l.getLastD (slot j)) r.ptr).putCell o (.record (r.freed v))
    late := some (p, l.getLastD (slot j), u)
    lists := w.lists.setChain j (l ++ m)
    hand := Function.update w.hand p (.record o)
    chained := Function.update w.chained r.key none }

variable (hl : w.lists.chain j = l ++ o :: m) (hw : w.Writes p (slot j)) (hf : w.Writes p freeOff)
  (ht : w.Timely p)
include ok ho hl

omit [DecidableEq Pid] ho in
theorem prev_ptr : ∃ v, w.image.HasPtr (l.getLastD (slot j)) v :=
  ok.inv.hasPtr (Filed.prev_mem (i := some j) hl)

omit [DecidableEq Pid] in
theorem unlinked : (w.image.setPtr (l.getLastD (slot j)) r.ptr).RecAt o r := by
  obtain ⟨v, hv⟩ := prev_ptr ok hl
  have hne : l.getLastD (slot j) ≠ o := ok.inv.filed.prev_ne ok.inv.shape (i := some j) hl
  rw [Image.recAt_setPtr hv, if_neg hne.symm]
  exact ho

theorem unchain_recAt {x : ℕ} {r' : Rec} (hx : (w.unchain p j l o m r v u).image.RecAt x r') :
    x = o ∧ r' = r.freed v ∨ x ≠ o ∧ ∃ q, w.image.RecAt x q ∧ q.key = r'.key ∧
      q.datoff = r'.datoff := by
  obtain ⟨c, hc⟩ := prev_ptr ok hl
  rw [unchain, Image.recAt_putCell (unlinked ok ho hl) (r.length_text_freed v)] at hx
  split_ifs at hx with hxo
  · exact Or.inl ⟨hxo, hx⟩
  · obtain ⟨q, hq, hk, hoff, -⟩ := hx.of_setPtr hc
    exact Or.inr ⟨hxo, q, hq, hk, hoff⟩

include hw hf ht

theorem unchain_change : Change p w (w.unchain p j l o m r v u) := by
  have hmem : o ∈ w.lists.chain j := by simp [hl]
  have hprev : l.getLastD (slot j) ∈ head (some j) :: w.lists.nodes (some j) :=
    Filed.prev_mem (i := some j) hl
  have ho' := unlinked ok ho hl
  have hlt := r.length_text_freed v
  have hlen : (Cell.record (r.freed v)).bytes.length = (Cell.record r).bytes.length := by
    simp only [Cell.bytes, Rec.length_bytes, hlt]
  obtain ⟨c, hc⟩ := prev_ptr ok hl
  exact {
    locks := rfl
    hand := fun q hq => Function.update_of_ne hq ..
    late := fun q hq x => by
      rw [ok.late_none hf.holds ht, unchain]
      constructor
      · intro h
        cases h
        exact absurd rfl hq
      · exact fun h => by cases h
    map := fun _ _ => rfl
    chained := fun k hk => by
      refine Function.update_of_ne ?_ ..
      rintro rfl
      exact hk (ok.inv.filed.hash hmem ho ▸ hw)
    nodes := fun i hi => by
      change (w.lists.set (some j) (l ++ m)).nodes i = _
      rw [Lists.nodes_set, if_neg]
      rintro rfl
      exact hi hw
    cells := fun {x c'} hc' hx => by
      have hxo : x ≠ o := by
        rintro rfl
        exact hx (Or.inr ⟨some j, hw, List.mem_cons_of_mem _ hmem⟩)
      have hxp : x ≠ l.getLastD (slot j) := by
        rintro rfl
        exact hx (Or.inr ⟨some j, hw, hprev⟩)
      rw [unchain, Image.cellAt_putCell ho' hlen, if_neg hxo, Image.cellAt_setPtr_ne hxp, hc']
    blks := fun hd _ => by rw [unchain, Image.blkAt_putCell, Image.blkAt_setPtr, hd]
    kept := fun {x q} hx => by
      by_cases hxo : x = o
      · subst hxo
        obtain rfl : r = q := ho.unique hx
        exact ⟨_, Image.recAt_putCell_self ho' hlt, rfl, rfl, hlt, fun hf' => absurd hf hf'⟩
      · refine ⟨if x = l.getLastD (slot j) then q.withPtr r.ptr else q,
          (Image.recAt_putCell ho' hlt x _).mpr ?_, ?_⟩
        · rw [if_neg hxo]
          exact hx.setPtr hc r.ptr
        · split_ifs
          · exact ⟨rfl, rfl, rfl, fun _ _ => rfl⟩
          · exact ⟨rfl, rfl, rfl, fun _ _ => rfl⟩
    datEnd := fun _ => by simp [unchain, Image.datBytes, Image.putCell]
    idxEnd := fun _ => by
      rw [unchain, Image.length_idx_putCell ho' hlen, Image.length_idx_setPtr hc]
    bound := by
      refine Or.inl ?_
      rw [unchain, Image.length_idx_putCell ho' hlen, Image.length_idx_setPtr hc] }

theorem unchain_ok (hp : w.hand p = .dying o) : (w.unchain p j l o m r v u).Ok := by
  have hmem : o ∈ w.lists.chain j := by simp [hl]
  have hself : (w.unchain p j l o m r v u).hand p = .record o := Function.update_self ..
  have hblks : (w.unchain p j l o m r v u).blks = w.blks := carried_keep (by simp [hp]) (by simp)
  have hrecs : (w.unchain p j l o m r v u).recs = insert o w.recs :=
    carried_take Hand.record_injective (by simp [hp]) o
  refine (unchain_change ok ho hl hw hf ht).ok ok ?_ ?_ ?_ ?_ ?_ ?_ ?_
  · rw [hblks, hrecs]
    exact (ok.inv.take_chain hl ho).rewrite (Set.mem_insert o _) (unlinked ok ho hl) v
      (length_blank r.key.1.length)
  · intro x r' hx hb
    rcases unchain_recAt ok ho hl hx with ⟨rfl, rfl⟩ | ⟨hxo, q, hq, hk, hoff⟩
    · exact absurd (isBlank_blank _) hb
    · refine Or.inr (Or.inr ⟨q, hq, hk, ?_, rfl, ?_⟩)
      · rw [unchain, Image.blkAt_putCell, Image.blkAt_setPtr, hoff]
      · rw [hp]
        intro he
        injection he with he
        exact hxo he.symm
  · intro x r' hx
    rcases unchain_recAt ok ho hl hx with ⟨rfl, rfl⟩ | ⟨hxo, q, hq, hk, -⟩
    · exact Or.inr (not_sep_of_isBlank (isBlank_blank _))
    · exact Or.inl ⟨q, hq, hk⟩
  · intro q hq he
    rw [hself] at he
    exact absurd ⟨q, he⟩ (ok.inv.filed.chain_out hmem)
  · intro x r' hx hr' hb
    obtain rfl : o = x := Hand.record_injective (hself.symm.trans hx)
    rcases unchain_recAt ok ho hl hr' with ⟨-, rfl⟩ | ⟨hxo, -⟩
    · exact absurd (isBlank_blank _) hb
    · exact absurd rfl hxo
  · intro x hx
    rw [hself] at hx
    cases hx
  · intro x c hx
    obtain ⟨rfl, rfl⟩ : l.getLastD (slot j) = x ∧ u = c := by
      injection hx with hx
      injection hx with _ hx
      injection hx with hx hc
      exact ⟨hx, hc⟩
    refine ⟨hf, j, hw, ?_⟩
    rw [unchain, Lists.chain_setChain, ← List.cons_append]
    exact List.mem_append_left _ (Linked.getLastD_mem l _)

omit hw in
theorem unchain_real (hu : w.image.HasPtr (l.getLastD (slot j)) u) :
    (w.unchain p j l o m r v u).real = w.real.putCell o (.record (r.freed v)) := by
  have hlen : (Cell.record (r.freed v)).bytes.length = (Cell.record r).bytes.length := by
    simp only [Cell.bytes, Rec.length_bytes, r.length_text_freed]
  have hne := ok.inv.filed.prev_ne ok.inv.shape (i := some j) hl
  rw [real, real, ok.late_none hf.holds ht]
  change ((w.image.setPtr (l.getLastD (slot j)) r.ptr).putCell o (.record (r.freed v))).setPtr
    (l.getLastD (slot j)) u = w.image.putCell o (.record (r.freed v))
  rw [Image.setPtr_putCell_comm (unlinked ok ho hl) hlen (Image.hasPtr_setPtr hu r.ptr) hne,
    Image.setPtr_setPtr hu, Image.setPtr_self hu]

end Unchain

end Records

section Append

variable [DecidableEq Pid]

/-- A block at the end of the data file, in the hands of `p`. -/
def addBlk (w : World Pid) (p : Pid) (d : CStr) : World Pid :=
  { w with
    image := w.image.addBlk d
    hand := Function.update w.hand p (.blk w.image.datBytes.length) }

/-- A record at the end of the index file for the block in the hands of `p`, with which its key has
the data of the block. -/
def addRec (w : World Pid) (p : Pid) (r : Rec) (d : CStr) : World Pid :=
  { w with
    image := w.image.addRec r
    hand := Function.update w.hand p (.record w.image.idxBytes.length)
    map := Function.update w.map r.key (some d) }

variable (ok : w.Ok)

theorem addBlk_change (hl : w.locks p .dat 0 = some .wr) : Change p w (w.addBlk p d) where
  locks := rfl
  hand q hq := Function.update_of_ne hq ..
  late _ _ _ := Iff.rfl
  map _ _ := rfl
  chained _ _ := rfl
  nodes _ _ := rfl
  cells hc _ := hc
  blks {a d'} hd _ := by
    have hlt := Image.blkAt_lt hd
    rw [addBlk, Image.blkAt_addBlk, if_neg hlt.ne, hd]
  kept ho := ⟨_, ho, rfl, rfl, rfl, fun _ _ => rfl⟩
  datEnd hno := absurd hl hno
  idxEnd _ := rfl
  bound := Or.inl rfl

include ok

theorem addBlk_ok (hl : w.locks p .dat 0 = some .wr) (hp : w.hand p = .empty) :
    (w.addBlk p d).Ok := by
  have hself : (w.addBlk p d).hand p = .blk w.image.datBytes.length := Function.update_self ..
  have hblks : (w.addBlk p d).blks = insert w.image.datBytes.length w.blks :=
    carried_take Hand.blk_injective (by simp [hp]) _
  have hrecs : (w.addBlk p d).recs = w.recs := carried_keep (by simp [hp]) (by simp)
  refine (addBlk_change hl).ok ok ?_ ?_ (fun ho => Or.inl ⟨_, ho, rfl⟩) ?_ ?_ ?_ ok.late
  · rw [hblks, hrecs]
    exact ok.inv.addBlk d
  · intro x r' hx _
    replace hx : w.image.RecAt x r' := hx
    obtain ⟨d', hd', -⟩ := ok.inv.stock.blk hx
    have hlt := Image.blkAt_lt hd'
    refine Or.inr (Or.inr ⟨r', hx, rfl, ?_, rfl, ?_⟩)
    · rw [addBlk, Image.blkAt_addBlk, if_neg hlt.ne]
    · rw [hp]
      exact Hand.noConfusion
  · intro q _ he
    rw [hself] at he
    obtain ⟨⟨d', hd'⟩, -⟩ := ok.inv.stock.extra (a := w.image.datBytes.length) ⟨q, he⟩
    exact absurd (Image.blkAt_lt hd') (lt_irrefl _)
  · intro x r' hx
    rw [hself] at hx
    cases hx
  · intro x hx
    rw [hself] at hx
    cases hx

omit ok in
theorem addBlk_real : (w.addBlk p d).real = w.real.addBlk d := lag_addBlk

section Record

variable (hw : w.Writes p (slot (dbHash r.key.1)))
include hw

omit ok in
theorem addRec_change (hl : w.Writes p idxStart) : Change p w (w.addRec p r d) where
  locks := rfl
  hand q hq := Function.update_of_ne hq ..
  late _ _ _ := Iff.rfl
  map k hk := by
    refine Function.update_of_ne ?_ ..
    rintro rfl
    exact hk hw
  chained _ _ := rfl
  nodes _ _ := rfl
  cells hc _ := Image.cellAt_addRec_of_some hc
  blks hd _ := hd
  kept ho := ⟨_, Image.cellAt_addRec_of_some ho, rfl, rfl, rfl, fun _ _ => rfl⟩
  datEnd _ := rfl
  idxEnd hno := absurd hl hno
  bound := Or.inr ⟨r, w.image.recAt_addRec_end r⟩

theorem addRec_ok (hl : w.Writes p idxStart) (hp : w.hand p = .blk r.datoff)
    (hk : w.chained r.key = none) (hs : SEP ∉ r.key.1) (hd : w.image.blkAt r.datoff = some d)
    (hlen : r.datlen = d.1.length + 1) : (w.addRec p r d).Ok := by
  have hself : (w.addRec p r d).hand p = .record w.image.idxBytes.length :=
    Function.update_self ..
  have hblks : (w.addRec p r d).blks = w.blks \ {r.datoff} :=
    carried_give Hand.blk_injective hp (fun q hq => ok.apart hq (by simp [hq, hp])) (by simp)
  have hrecs : (w.addRec p r d).recs = insert w.image.idxBytes.length w.recs :=
    carried_take Hand.record_injective (by simp [hp]) _
  have hcases : ∀ {x r'}, (w.addRec p r d).image.RecAt x r' →
      x = w.image.idxBytes.length ∧ r' = r ∨ w.image.RecAt x r' := by
    intro x r' hx
    rw [addRec, Image.recAt_addRec] at hx
    split_ifs at hx with hxo
    · exact Or.inl ⟨hxo, hx⟩
    · exact Or.inr hx
  refine (addRec_change hw hl).ok ok ?_ ?_ ?_ ?_ ?_ ?_ ok.late
  · rw [hblks, hrecs]
    exact ok.inv.addRec ⟨p, hp⟩ hd hlen
  · intro x r' hx hb
    rcases hcases hx with ⟨rfl, rfl⟩ | hx
    · refine Or.inr (Or.inl ?_)
      change w.image.blkAt r'.datoff = Function.update w.map r'.key (some d) r'.key
      rw [Function.update_self, hd]
    · refine Or.inr (Or.inr ⟨r', hx, rfl, rfl, ?_, ?_⟩)
      · exact Function.update_of_ne (ok.key_ne hk hw (by simp [hp]) hx hb) ..
      · rw [hp]
        exact Hand.noConfusion
  · intro x r' hx
    rcases hcases hx with ⟨rfl, rfl⟩ | hx
    · exact Or.inr hs
    · exact Or.inl ⟨r', hx, rfl⟩
  · intro q _ he
    rw [hself] at he
    obtain ⟨r', hr'⟩ := ok.recAt_of_record he
    exact absurd rfl (Image.cellAt_ne_end hr')
  · intro x r' hx hr' hb
    obtain rfl : w.image.idxBytes.length = x := Hand.record_injective (hself.symm.trans hx)
    rcases hcases hr' with ⟨-, rfl⟩ | hr'
    · exact hw
    · exact absurd rfl (Image.cellAt_ne_end hr')
  · intro x hx
    rw [hself] at hx
    cases hx

omit hw in
theorem addRec_real : (w.addRec p r d).real = w.real.addRec r := lag_addRec ok.late_ptr

end Record

end Append

section Forget

/-- The key that a deletion has taken off its chain has no data any more. -/
def forget (w : World Pid) (k : CStr) : World Pid :=
  { w with map := Function.update w.map k none }

variable (hw : w.Writes p (slot (dbHash k.1)))
include hw

theorem forget_change : Change p w (w.forget k) where
  locks := rfl
  hand _ _ := rfl
  late _ _ _ := Iff.rfl
  map k' hk' := by
    refine Function.update_of_ne ?_ ..
    rintro rfl
    exact hk' hw
  chained _ _ := rfl
  nodes _ _ := rfl
  cells hc _ := hc
  blks hd _ := hd
  kept ho := ⟨_, ho, rfl, rfl, rfl, fun _ _ => rfl⟩
  datEnd _ := rfl
  idxEnd _ := rfl
  bound := Or.inl rfl

theorem forget_ok (ok : w.Ok) (hp : w.hand p = .empty) (hk : w.chained k = none) :
    (w.forget k).Ok := by
  refine (forget_change hw).ok ok ok.inv (fun {x r'} hx hb => ?_) (fun hx => Or.inl ⟨_, hx, rfl⟩)
    (fun _ _ _ => hp) (fun hx hr hb => ok.keyed hx hr hb) (fun hx => ok.dying hx) ok.late
  refine Or.inr (Or.inr ⟨r', hx, rfl, rfl, ?_, ?_⟩)
  · exact Function.update_of_ne (ok.key_ne hk hw (by simp [hp]) hx hb) ..
  · rw [hp]
    exact Hand.noConfusion

end Forget

section Locks

variable [DecidableEq Pid] {fd : Fd} {t : LockType} {off len : ℕ} {x : Option LockType}

/-- The locks of a process on a range. -/
def lock (w : World Pid) (p : Pid) (fd : Fd) (off len : ℕ) (x : Option LockType) : World Pid :=
  { w with locks := w.locks.assign p fd off len x }

theorem lock_rely (hq : q ≠ p) : Rely q w (w.lock p fd off len x) :=
  { Rely.refl q w with locks := LockTable.assign_other hq x }

theorem Writes.lock {b : ℕ} (h : w.Writes q b)
    (hno : q = p → fd = .idx → ¬ inRange off len b) : (w.lock p fd off len x).Writes q b := by
  refine (if_neg ?_).trans h
  rintro ⟨hq, hfd, hb⟩
  exact hno hq hfd.symm hb

variable (ok : w.Ok)
include ok

theorem lock_ok (hg : w.locks.Grantable p fd t off len)
    (hnone : ∀ b, inRange off len b → w.locks p fd b = none) :
    (w.lock p fd off len (some t)).Ok := by
  have hkeep : ∀ {q b}, w.Writes q b → (w.lock p fd off len (some t)).Writes q b := by
    intro q b h
    refine h.lock fun hq hfd hb => ?_
    subst hq hfd
    rw [Writes, hnone b hb] at h
    cases h
  exact {
    inv := ok.inv
    locks := ok.locks.assign hg
    agree := fun k => (ok.agree k).imp_right fun ⟨q, hq⟩ => ⟨q, hkeep hq⟩
    shown := ok.shown
    clean := ok.clean
    apart := ok.apart
    keyed := fun hq hr hb => hkeep (ok.keyed hq hr hb)
    dying := fun hq => by
      obtain ⟨hf, j, hj, ho⟩ := ok.dying hq
      exact ⟨hkeep hf, j, hkeep hj, ho⟩
    late := fun hq => by
      obtain ⟨hf, j, hj, ho⟩ := ok.late hq
      exact ⟨hkeep hf, j, hkeep hj, ho⟩ }

/-- A lock on a chain is granted when its records are the map. -/
theorem lock_agree (hg : w.locks.Grantable p .idx t (slot (dbHash k.1)) 1)
    (hnone : ¬ w.Holds p (slot (dbHash k.1))) : w.map k = w.chained k := by
  refine (ok.agree k).resolve_right ?_
  rintro ⟨q, hq⟩
  by_cases hqp : q = p
  · subst hqp
    exact hnone hq.holds
  · exact hg q hqp _ ⟨le_rfl, Or.inr (Nat.lt_succ_self _)⟩ .wr hq (Or.inr rfl)

/-- A lock on a chain is given up when its records are the map. -/
theorem unlock_ok (hd : ∀ o, w.hand p ≠ .dying o) (ht : w.Timely p)
    (hk : fd = .idx → ∀ k : CStr, inRange off len (slot (dbHash k.1)) → w.map k = w.chained k)
    (hr : fd = .idx → ∀ o r, w.hand p = .record o → w.image.RecAt o r → ¬ IsBlank r.key →
      ¬ inRange off len (slot (dbHash r.key.1))) :
    (w.lock p fd off len none).Ok where
  inv := ok.inv
  locks := ok.locks.clear
  agree k := by
    rcases ok.agree k with he | ⟨q, hq⟩
    · exact Or.inl he
    · by_cases hin : fd = .idx ∧ inRange off len (slot (dbHash k.1))
      · exact Or.inl (hk hin.1 k hin.2)
      · exact Or.inr ⟨q, hq.lock fun _ hfd hb => hin ⟨hfd, hb⟩⟩
  shown := ok.shown
  clean := ok.clean
  apart := ok.apart
  keyed {q o r} hq ho hb := by
    refine (ok.keyed hq ho hb).lock fun hqp hfd => ?_
    subst hqp
    exact hr hfd o r hq ho hb
  dying {q o} hq := by
    have hqp : q ≠ p := by
      rintro rfl
      exact hd o hq
    obtain ⟨hf, j, hj, ho⟩ := ok.dying hq
    exact ⟨hf.lock fun he => absurd he hqp, j, hj.lock fun he => absurd he hqp, ho⟩
  late {q x v} hq := by
    have hqp : q ≠ p := by
      rintro rfl
      exact ht _ hq
    obtain ⟨hf, j, hj, ho⟩ := ok.late hq
    exact ⟨hf.lock fun he => absurd he hqp, j, hj.lock fun he => absurd he hqp, ho⟩

end Locks

end World

end Somenote.Db
