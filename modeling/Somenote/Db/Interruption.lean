import Somenote.Db.Refusal
import Somenote.Program.Cuts

/-! # Interrupted operations

A store or a deletion may end behind any of its writes. Each write leaves the other keys
as they are, and the lists apart, but for two: between the write of the blank index record
and that of the pointer in front of it, the chain of the deleted key leads into the free
list, and the keys behind the deleted key on that chain are lost.
-/

namespace Somenote.Db

/-- The walks of the lists in `S` meet the records of their own list only. -/
def Walks (I : Image) (S : Set ListId) : Prop :=
  ∃ L X Y, I.Shape ∧ I.Stock X ∧ Filed I L Y ∧ ∀ i ∈ S, Linked 0 I.next (head i) (L.nodes i)

/-- The first two writes of `_db_dodelete`: the data and the index record. -/
def Image.blanked (I : Image) (o : ℕ) (r : Rec) (v : Ptr) : Image :=
  (I.putBlk r.datoff r.wiped).putCell o (.record (r.freed v))

/-- The chain `j` goes on behind the record at `o` with the free list. -/
structure Diverted (I J : Image) (L : Lists) (j : Fin nhashDef) (l : List ℕ) (o : ℕ) (r : Rec) :
    Prop where
  walks : Walks J {i | i ≠ some j}
  chain : Linked 0 J.next (slot j) (l ++ o :: L.free)
  other : ∀ i, i ≠ j → Linked 0 J.next (slot i) (L.chain i)
  cell : ∀ x, x ≠ o → x ≠ freeOff → J.cellAt x = I.cellAt x
  blk : ∀ a, a ≠ r.datoff → J.blkAt a = I.blkAt a

variable {I J : Image} {L : Lists} {X Y : Set ℕ} {M : Map} {fuel o x : ℕ} {r q : Rec}
  {k d : CStr} {l m : List ℕ} {j : Fin nhashDef} {v w : Ptr}

section Deletion

variable (h : Inv I L X Y M) (hl : L.chain j = l ++ o :: m) (ho : I.RecAt o r)
include h hl ho

/-- Writes to the record and to the head of the free list divert the chain of the record. -/
theorem diverted_of {L' : Lists} {X' Y' : Set ℕ} (hs : J.Shape) (hst : J.Stock X')
    (hfiled : Filed J L' Y') (hlists : ∀ i, i ≠ j → L'.chain i = L.chain i)
    (hfree : Linked 0 J.next freeOff L'.free) (hnext : J.next o = I.next freeOff)
    (hcell : ∀ x, x ≠ o → x ≠ freeOff → J.cellAt x = I.cellAt x)
    (hblk : ∀ a, a ≠ r.datoff → J.blkAt a = I.blkAt a) : Diverted I J L j l o r := by
  have hmem : o ∈ head (some j) :: L.nodes (some j) :=
    List.mem_cons_of_mem _ (by rw [Lists.nodes, hl]; simp)
  have hsame : ∀ i, ∀ x ∈ L.nodes i, x ≠ o → J.next x = I.next x := by
    intro i x hx hxo
    refine Image.next_congr (hcell x hxo ?_)
    obtain ⟨q, hq⟩ := h.filed.rec_node hx
    exact (h.shape.free_ne hq).symm
  have hslot : ∀ i, J.next (slot i) = I.next (slot i) := fun i =>
    Image.next_congr (hcell _ (h.shape.slot_ne i ho) (slot_ne_free i))
  have hother : ∀ i, i ≠ j → Linked 0 J.next (slot i) (L.chain i) := by
    intro i hi
    refine (h.linked (some i)).congr fun x hx => ?_
    rcases List.mem_cons.mp hx with rfl | hx'
    · exact hslot i
    · refine hsame (some i) x hx' ?_
      rintro rfl
      exact hi (Option.some.inj (h.filed.separate h.shape hx hmem))
  have hchain := h.linked (some j)
  simp only [Lists.nodes, head, hl] at hchain
  have hnd := hchain.nodup
  rw [List.perm_middle.nodup_iff, List.nodup_cons] at hnd
  refine ⟨⟨L', X', Y', hs, hst, hfiled, fun i hi => ?_⟩, ?_, hother, hcell, hblk⟩
  · cases i with
    | none => exact hfree
    | some i =>
      have hij : i ≠ j := fun he => hi (congrArg some he)
      simp only [Lists.nodes, head, hlists i hij]
      exact hother i hij
  · refine hchain.divert (fun x hx => ?_) ((h.linked none).anchor hnext fun x hx => ?_)
    · rcases List.mem_cons.mp hx with rfl | hx
      · exact hslot j
      · refine hsame (some j) x (by rw [Lists.nodes, hl]; simp [hx]) ?_
        rintro rfl
        exact hnd.1 (List.mem_append_left _ hx)
    · refine hsame none x hx ?_
      rintro rfl
      have := h.filed.separate h.shape (i := none) (List.mem_cons_of_mem _ hx) hmem
      simp at this

theorem diverted_blanked (hv : (v : ℕ) = I.next freeOff) :
    Diverted I (I.blanked o r v) L j l o r ∧
      ∀ w : Ptr, (w : ℕ) = o → Diverted I ((I.blanked o r v).setPtr freeOff w) L j l o r := by
  obtain ⟨d, hd, -⟩ := h.stock.blk ho
  have hlw := h.length_wiped ho hd
  have hlf := r.length_text_freed v
  have ho₁ : (I.putBlk r.datoff r.wiped).RecAt o r := ho
  have ho₂ : (I.blanked o r v).RecAt o (r.freed v) := Image.recAt_putCell_self ho₁ hlf
  have hlen : (Cell.record (r.freed v)).bytes.length = (Cell.record r).bytes.length := by
    simp only [Cell.bytes, Rec.length_bytes, hlf]
  have hs : (I.blanked o r v).Shape := h.shape.putCell ho₁ rfl
  have hst : (I.blanked o r v).Stock X := (h.stock.putBlk hd hlw).putCell ho₁ hlf rfl rfl
  have hfiled : Filed (I.blanked o r v) (L.setChain j (l ++ m)) (insert o Y) :=
    ((h.filed.take_chain hl).putBlk _ _).putCell ho₁ hlf (Set.mem_insert o Y)
  have hlists : ∀ i, i ≠ j → (L.setChain j (l ++ m)).chain i = L.chain i := fun i hi =>
    L.chain_setChain_ne hi _
  have hcell : ∀ x, x ≠ o → (I.blanked o r v).cellAt x = I.cellAt x := by
    intro x hx
    rw [Image.blanked, Image.cellAt_putCell ho₁ hlen, if_neg hx, Image.cellAt_putBlk]
  have hblk : ∀ a, a ≠ r.datoff → (I.blanked o r v).blkAt a = I.blkAt a := by
    intro a ha
    rw [Image.blanked]
    exact (Image.blkAt_putBlk hd hlw a).trans (if_neg ha)
  have hnext : (I.blanked o r v).next o = I.next freeOff := by
    rw [ho₂.next, ← hv]
    rfl
  have hfree : Linked 0 (I.blanked o r v).next freeOff L.free := by
    refine (h.linked none).congr fun x hx => Image.next_congr (hcell x ?_)
    rintro rfl
    have := h.filed.separate h.shape (k := some j) hx
      (List.mem_cons_of_mem _ (by rw [Lists.nodes, hl]; simp))
    simp at this
  refine ⟨diverted_of h hl ho hs hst hfiled hlists hfree hnext (fun x hx _ => hcell x hx) hblk,
    fun w hw => ?_⟩
  obtain ⟨u, hu⟩ := hs.free_hasPtr
  have hof : freeOff ≠ o := h.shape.free_ne ho
  have hget : ∀ x, x ≠ freeOff → ((I.blanked o r v).setPtr freeOff w).next x =
      (I.blanked o r v).next x := fun x hx => Image.next_congr (Image.cellAt_setPtr_ne hx w)
  refine diverted_of h hl ho (hs.setPtr hu w) (hst.setPtr hu w)
    ((hfiled.give_free (Set.mem_insert o Y) ho₂ (isBlank_blank _)).setPtr hu w)
    (fun i hi => by rw [Lists.chain_setFree]; exact hlists i hi) ?_
    ((hget o hof.symm).trans hnext) (fun x hx hxf => ?_) (fun a ha => ?_)
  · refine hfree.push hof.symm ?_ ?_ fun x hx => hget x ?_
    · rw [Image.next_setPtr hu, if_pos rfl, hw]
    · rw [hget o hof.symm, hnext]
      exact (Image.next_congr (hcell freeOff hof)).symm
    · obtain ⟨q, hq⟩ := h.filed.rec_free hx
      exact (h.shape.free_ne hq).symm
  · rw [Image.cellAt_setPtr_ne hxf, hcell x hx]
  · rw [Image.blkAt_setPtr, hblk a ha]

end Deletion

section Found

theorem Inv.passes (h : Inv I L X Y M) (hc : M.Clean) (hl : L.chain j = l ++ o :: m)
    (ho : I.RecAt o r) : ∀ x ∈ l, I.Passes r.key x := by
  intro x hx
  have hxj : x ∈ L.chain j := by
    rw [hl]
    exact List.mem_append_left _ hx
  obtain ⟨q, hq⟩ := h.filed.rec_chain hxj
  obtain ⟨d, hd, -⟩ := h.stock.blk hq
  refine ⟨q, hq, hc q.key (by simp [h.present hxj hq hd]), fun hkey => ?_⟩
  obtain rfl := h.filed.key_inj hxj (by rw [hl]; simp) hq ho hkey
  have hnd := h.filed.chain_nodup j
  rw [hl, List.perm_middle.nodup_iff, List.nodup_cons] at hnd
  exact hnd.1 (List.mem_append_left _ hx)

theorem seenFetch_clean (h : Inv I L X Y M) (hc : M.Clean) (hf : ptrMax < fuel) (k : CStr) :
    seenFetch fuel k I.files = .ok (M.fetch k) := by
  obtain ⟨out, p', hrun, -, ⟨b', rfl⟩ | ⟨-, hno⟩⟩ := fetch_spec (p := Fds.opened .rdonly)
    (b := { dbAlloc with idxoff := idxStart }) h hf rfl k
  · rw [seenFetch, seen_files, hrun]
    rfl
  · exact absurd hc hno

/-- Keys on other chains, and keys in front of the deleted record, are still found. -/
theorem Diverted.found (hD : Diverted I J L j l o r) (h : Inv I L X Y M) (hc : M.Clean)
    (hf : ptrMax < fuel) (hs : J.Shape) (hl : L.chain j = l ++ o :: m) (ho : I.RecAt o r)
    (hM : M k = some d)
    (hcase : dbHash k ≠ j ∨ ∃ x ∈ l, ∃ q, I.RecAt x q ∧ q.key = k) :
    seenFetch fuel k J.files = .ok (some d.1) := by
  obtain ⟨x, q, hx, hq, rfl, hd⟩ := ((h.maps k d).mp hM).chain h.filed
  obtain ⟨d', hd', hlen⟩ := h.stock.blk hq
  obtain rfl : d = d' := by simpa using hd.symm.trans hd'
  have hoj : o ∈ L.chain j := by rw [hl]; simp
  have hnd := h.filed.chain_nodup j
  rw [hl, List.perm_middle.nodup_iff, List.nodup_cons] at hnd
  -- the walk in `J` up to the record of the key, which does not come past `o`
  obtain ⟨l₁, m₁, m₂, hx₁, hx₂, hno⟩ : ∃ l₁ m₁ m₂, L.chain (dbHash q.key) = l₁ ++ x :: m₁ ∧
      Linked 0 J.next (slot (dbHash q.key)) (l₁ ++ x :: m₂) ∧ o ∉ l₁ ++ [x] := by
    by_cases hj : dbHash q.key = j
    · obtain ⟨x', hx', q', hq', hk'⟩ := hcase.resolve_left (not_not.mpr hj)
      have hxj' : x' ∈ L.chain j := by
        rw [hl]
        exact List.mem_append_left _ hx'
      obtain rfl := h.filed.key_inj (hj ▸ hx) hxj' hq hq' hk'.symm
      obtain ⟨l₁, l₂, rfl⟩ := List.append_of_mem hx'
      refine ⟨l₁, l₂ ++ o :: m, l₂ ++ o :: L.free, by simpa [hj] using hl, ?_, fun hol => ?_⟩
      · have hlink := hD.chain
        rw [List.append_assoc] at hlink
        rw [hj]
        exact hlink
      · refine hnd.1 (List.mem_append_left _ ?_)
        simp only [List.mem_append, List.mem_cons] at hol ⊢
        tauto
    · obtain ⟨l₁, m₁, hx₁⟩ := List.append_of_mem hx
      refine ⟨l₁, m₁, m₁, hx₁, hx₁ ▸ hD.other _ hj, fun hol => hj (h.filed.chain_inj ?_ hoj)⟩
      rw [hx₁]
      simp only [List.mem_append, List.mem_cons] at hol ⊢
      tauto
  have hcell : ∀ y ∈ l₁ ++ [x], ∀ p, I.RecAt y p → J.RecAt y p := by
    intro y hy p hp
    refine (hD.cell y ?_ (h.shape.free_ne hp).symm).trans hp
    rintro rfl
    exact hno hy
  have hlen₁ := h.length_le (some (dbHash q.key))
  rw [Lists.nodes, hx₁, List.length_append] at hlen₁
  refine seenFetch_found hs hx₂ (fun y hy => ?_) (hcell x (by simp) q hq)
    (hc q.key (by simp [hM])) rfl ?_ hlen (by omega)
  · obtain ⟨p, hp, hne⟩ := h.passes hc hx₁ hq y hy
    exact ⟨p, hcell y (by simp [hy]) p hp, hne⟩
  · rw [hD.blk q.datoff, hd]
    intro he
    obtain rfl := h.stock.inj hq ho he
    exact hno (by simp)

end Found

/-- The calls that may change a file. -/
def Call.Writes : Call → Prop
  | write .. | openFd .. => True
  | _ => False

section Writes

variable {c : Call} {e : Err} {n : ℕ} {b : DB} {key data : List Byte} {offset ptrval : ℤ}
  {whence : Whence}

theorem exec_quiet (c : Call) (s : Fds × Files) (hc : ¬ c.Writes) : (exec c s).2.2 = s.2 := by
  obtain ⟨p, f⟩ := s
  cases c with
  | openFd fd oflag => exact absurd trivial hc
  | write fd bs => exact absurd trivial hc
  | lseek fd off whence => simp only [exec]; split <;> rfl
  | read fd n => simp only [exec]; split <;> rfl
  | _ => rfl

theorem atMost_orDump (hc : ¬ c.Writes) : (orDump c e).AtMost Call.Writes n :=
  Prog.atMost_quiet hc fun v => by cases v <;> trivial

theorem atMost_orDump_succ : (orDump c e).AtMost Call.Writes (n + 1) :=
  Prog.atMost_succ fun v => by cases v <;> trivial

theorem atMost_dumpIf {q : Prop} [Decidable q] : (dumpIf q e).AtMost Call.Writes n :=
  Prog.atMost_ite trivial trivial

theorem atMost_onEnd {m : DbProg Unit} (h : m.AtMost Call.Writes n) :
    (onEnd whence m).AtMost Call.Writes n :=
  Prog.atMost_ite h trivial

open Prog (atMost_bind atMost_bind_one atMost_ite)

theorem atMost_readptr : (dbReadptr offset).AtMost Call.Writes 0 := by
  unfold dbReadptr
  exact atMost_bind (atMost_orDump id) fun _ => atMost_bind (atMost_orDump id) fun _ =>
    atMost_bind atMost_dumpIf fun _ => trivial

theorem atMost_parseidx (buf : List Byte) : (dbParseidx b buf).AtMost Call.Writes 0 := by
  unfold dbParseidx
  refine atMost_bind atMost_dumpIf fun _ => ?_
  cases strchr (cstr buf.dropLast) SEP with
  | none => trivial
  | some x =>
    dsimp only
    cases strchr x.2 SEP with
    | none => trivial
    | some y =>
      exact atMost_bind atMost_dumpIf fun _ => atMost_bind atMost_dumpIf fun _ =>
        atMost_bind atMost_dumpIf fun _ => trivial

theorem atMost_readidx : (dbReadidx b offset).AtMost Call.Writes 0 := by
  unfold dbReadidx
  refine atMost_bind (atMost_orDump id) fun idxoff => atMost_bind (atMost_orDump id) fun iov => ?_
  refine atMost_ite (atMost_ite trivial trivial) ?_
  exact atMost_bind atMost_dumpIf fun _ => atMost_bind (atMost_orDump id) fun buf =>
    atMost_bind atMost_dumpIf fun _ => atMost_bind (atMost_parseidx buf) fun _ => trivial

theorem atMost_search {found : DB → Prop} [DecidablePred found] {past : ℤ → DB → DB} {fuel : ℕ}
    {saveoffset : ℤ} : (search found past fuel b saveoffset offset).AtMost Call.Writes 0 := by
  induction fuel generalizing b saveoffset offset with
  | zero => trivial
  | succ fuel ih =>
    unfold search
    exact atMost_ite (atMost_bind atMost_readidx fun x => atMost_ite trivial ih) trivial

theorem atMost_findLoop {fuel : ℕ} : (findLoop key fuel b offset).AtMost Call.Writes 0 := by
  rw [findLoop_eq key fuel b 0]
  exact atMost_bind atMost_search fun _ => trivial

theorem atMost_find {fuel : ℕ} {wl : Bool} :
    (dbFindAndLock fuel b key wl).AtMost Call.Writes 0 := by
  unfold dbFindAndLock
  exact atMost_bind (atMost_orDump id) fun _ => atMost_bind atMost_readptr fun _ =>
    atMost_bind atMost_findLoop fun _ => trivial

theorem atMost_findfreeLoop {keylen datlen fuel : ℕ} {saveoffset : ℤ} :
    (findfreeLoop keylen datlen fuel b saveoffset offset).AtMost Call.Writes 0 := by
  rw [findfreeLoop_eq]
  exact atMost_search

theorem atMost_writeptr : (dbWriteptr offset ptrval).AtMost Call.Writes 1 := by
  unfold dbWriteptr
  exact atMost_bind atMost_dumpIf fun _ => atMost_bind (atMost_orDump id) fun _ =>
    atMost_bind_one atMost_orDump_succ fun _ => atMost_dumpIf

theorem atMost_findfree {keylen datlen fuel : ℕ} :
    (dbFindfree fuel b keylen datlen).AtMost Call.Writes 1 := by
  unfold dbFindfree
  refine atMost_bind (atMost_orDump id) fun _ => atMost_bind atMost_readptr fun _ =>
    atMost_bind atMost_findfreeLoop fun _ => atMost_bind_one (atMost_ite trivial ?_) fun _ =>
    atMost_bind (atMost_orDump id) fun _ => trivial
  exact atMost_bind_one atMost_writeptr fun _ => trivial

theorem atMost_writedat {o : ℕ} : (dbWritedat b data o whence).AtMost Call.Writes 1 := by
  unfold dbWritedat
  exact atMost_bind (atMost_onEnd (atMost_orDump id)) fun _ => atMost_bind (atMost_orDump id)
    fun _ => atMost_bind_one atMost_orDump_succ fun _ => atMost_bind atMost_dumpIf fun _ =>
    atMost_bind (atMost_onEnd (atMost_orDump id)) fun _ => trivial

theorem atMost_writeidx {o : ℕ} : (dbWriteidx b key o whence ptrval).AtMost Call.Writes 1 := by
  unfold dbWriteidx
  exact atMost_bind atMost_dumpIf fun _ => atMost_bind atMost_dumpIf fun _ =>
    atMost_bind (atMost_onEnd (atMost_orDump id)) fun _ => atMost_bind (atMost_orDump id) fun _ =>
    atMost_bind_one atMost_orDump_succ fun _ => atMost_bind atMost_dumpIf fun _ =>
    atMost_bind (atMost_onEnd (atMost_orDump id)) fun _ => trivial

theorem atMost_unlock {off len : ℕ} {α : Type} (a : α) :
    (orDump (.unlck .idx off len) e >>= fun _ => (pure a : DbProg α)).AtMost Call.Writes 0 :=
  atMost_bind (atMost_orDump id) fun _ => trivial

end Writes

/-- The files have the invariant, and the map holds what `M` holds but at the key `k`. -/
def Spared (M : Map) (k : CStr) (f : Files) : Prop :=
  ∃ I L X Y M', f = Image.files I ∧ Inv I L X Y M' ∧ ∀ k' ≠ k, M' k' = M k'

/-- The files between the second and the fourth write of a deletion of the key `k`. -/
def Cut (I : Image) (L : Lists) (k : CStr) (f : Files) : Prop :=
  ∃ l o m r J, L.chain (dbHash k) = l ++ o :: m ∧ I.RecAt o r ∧ r.key = k ∧ f = Image.files J ∧
    J.Shape ∧ (∃ v w : Ptr, J = I.blanked o r v ∨ J = (I.blanked o r v).setPtr freeOff w) ∧
    Diverted I J L (dbHash k) l o r

/-- What a store or a deletion of the key `k` leaves when it ends behind any of its writes. -/
def Remains (I : Image) (L : Lists) (M : Map) (k : CStr) (f : Files) : Prop :=
  Spared M k f ∨ Cut I L k f

section Stages

open Prog (AtMost)

variable {M₁ : Map} {p : Fds} {b : DB} (hw : p.acc.writable = true)
include hw

theorem always_append (h : Inv I L X Y M₁) (hsame : ∀ k' ≠ k, M₁ k' = M k') (hM : M₁ k = none)
    (hd : DatlenOk d) (hv : I.HasPtr (slot (dbHash k)) v) (hc : b.chainoff = slot (dbHash k)) :
    (storeAppend b k.1 d.1 v).Always exec (fun t => Spared M k t.2) (p, I.files) := by
  have h₀ : Spared M k I.files := ⟨I, L, X, Y, M₁, rfl, h, hsame⟩
  have h₁ : Spared M k (I.addBlk d).files := ⟨_, _, _, _, _, rfl, h.addBlk d, hsame⟩
  unfold storeAppend
  refine AtMost.then_one exec_quiet atMost_writedat h₀ (run_writedat_fin hw d) h₁ ?_
  by_cases hfit : Fits I.files k d
  · let r : Rec := ⟨v, k, I.datBytes.length, d.1.length + 1, hfit.1, hfit.2, Nat.succ_pos _, hd.2⟩
    have h₂ : Spared M k ((I.addBlk d).addRec r).files :=
      ⟨_, _, _, _, _, rfl, h.added (r := r) rfl rfl, hsame⟩
    refine AtMost.then_one exec_quiet atMost_writeidx h₁
      (run_writeidx_fin (I := I.addBlk d) (by simpa using hw) r rfl rfl) h₂ ?_
    by_cases hbig : ptrMax < I.idxBytes.length
    · have hrun : ∀ s, (dbWriteptr b.chainoff (I.idxBytes.length : ℤ)).run exec s = _ := fun s =>
        run_writeptr_big (by exact_mod_cast hbig)
      exact (AtMost.always_one exec_quiet atMost_writeptr h₂ (hrun _) h₂).bind_dump (hrun _)
    · let w : Ptr := ⟨I.idxBytes.length, by omega⟩
      have h₃ : Spared M k (I.appended b.chainoff r d w).files := by
        rw [hc]
        refine ⟨_, _, _, _, _, rfl, h.appended (r := r) rfl rfl rfl hM hv.next_eq.symm rfl, ?_⟩
        intro k' hk'
        rw [Function.update_of_ne hk']
        exact hsame k' hk'
      have hv₂ : ((I.addBlk d).addRec r).HasPtr b.chainoff v := by
        rw [hc]
        exact Image.hasPtr_addRec hv
      refine AtMost.then_one exec_quiet atMost_writeptr h₂ (run_writeptr (by simpa using hw) hv₂ w)
        h₃ ?_
      exact Prog.always_ret h₃
  · have hno : (idxText k.1 I.datBytes.length (d.1.length + 1)).length < idxlenMin ∨
        idxlenMax < (idxText k.1 I.datBytes.length (d.1.length + 1)).length := by
      simp only [Fits, Image.bytes_dat] at hfit
      omega
    have hrun := fun s => run_writeidx_len k.1 0 .fin (s := s)
      (b := { b with datoff := I.datBytes.length, datlen := d.1.length + 1 }) hno v
    exact (AtMost.always_one exec_quiet atMost_writeidx h₁ (hrun _) h₁).bind_dump (hrun _)

theorem always_reuse (h : Inv I L X Y M) (hl : L.free = l ++ o :: m) (ho : I.RecAt o r)
    (hk : k.1.length = r.key.1.length) (hlen : r.datlen = d.1.length + 1) (hM : M k = none)
    (hv : I.HasPtr (slot (dbHash k)) v) (hc : b.chainoff = slot (dbHash k)) :
    Spared M k (I.setPtr (l.getLastD freeOff) r.ptr).files ∧
      (storeReuse (b.load o r) k.1 d.1 v).Always exec (fun t => Spared M k t.2)
        (p, (I.setPtr (l.getLastD freeOff) r.ptr).files) := by
  obtain ⟨d₀, hd₀, hlen₀⟩ := h.stock.blk ho
  have hd' : d.1.length = d₀.1.length := by omega
  have hle : o ≤ ptrMax := h.node_le (i := none) (by rw [Lists.nodes, hl]; simp)
  let w : Ptr := ⟨o, by omega⟩
  have hne : l.getLastD freeOff ≠ o := h.filed.prev_ne h.shape (i := none) hl
  obtain ⟨u, hu⟩ : ∃ u, I.HasPtr (l.getLastD freeOff) u := h.hasPtr (Filed.prev_mem (i := none) hl)
  have hlt := r.length_text_withKey v hk
  have i₁ := h.take_free hl ho
  have ho₁ : (I.setPtr (l.getLastD freeOff) r.ptr).RecAt o r := by
    rw [Image.recAt_setPtr hu, if_neg hne.symm]
    exact ho
  have hd₁ : (I.setPtr (l.getLastD freeOff) r.ptr).blkAt r.datoff = some d₀ := by simpa using hd₀
  have i₂ := i₁.putBlk_out ho₁ (fun i hi => i₁.filed.chain_out hi (Set.mem_insert o Y)) hd₁ hd'
  have i₃ := i₂.rewrite (Set.mem_insert o Y) ho₁ v hk
  have hv₁ : (I.setPtr (l.getLastD freeOff) r.ptr).HasPtr (slot (dbHash k)) v :=
    Image.hasPtr_setPtr_ne hu (h.filed.slot_ne_prev h.shape hl) hv r.ptr
  have hv₂ : (((I.setPtr (l.getLastD freeOff) r.ptr).putBlk r.datoff d).putCell o
      (.record (r.withKey v k hk))).HasPtr b.chainoff v := by
    rw [hc]
    exact Image.hasPtr_putCell (I := (I.setPtr (l.getLastD freeOff) r.ptr).putBlk r.datoff d) ho₁
      hlt (h.shape.slot_ne _ ho) hv₁
  have h₁ : Spared M k (I.setPtr (l.getLastD freeOff) r.ptr).files :=
    ⟨_, _, _, _, _, rfl, i₁, fun _ _ => rfl⟩
  have h₂ : Spared M k ((I.setPtr (l.getLastD freeOff) r.ptr).putBlk r.datoff d).files :=
    ⟨_, _, _, _, _, rfl, i₂, fun _ _ => rfl⟩
  have h₃ : Spared M k (((I.setPtr (l.getLastD freeOff) r.ptr).putBlk r.datoff d).putCell o
      (.record (r.withKey v k hk))).files := ⟨_, _, _, _, _, rfl, i₃, fun _ _ => rfl⟩
  have h₄ : Spared M k ((((I.setPtr (l.getLastD freeOff) r.ptr).putBlk r.datoff d).putCell o
      (.record (r.withKey v k hk))).setPtr b.chainoff w).files := by
    rw [hc]
    exact ⟨_, _, _, _, _, rfl, h.reused hl ho hd₀ hd' hk rfl hM hv.next_eq.symm (w := w) rfl,
      fun k' hk' => Function.update_of_ne hk' ..⟩
  refine ⟨h₁, ?_⟩
  unfold storeReuse
  refine AtMost.then_one exec_quiet atMost_writedat h₁ (run_writedat_set hw hd₁ d hd') h₂ ?_
  refine AtMost.then_one exec_quiet atMost_writeidx h₂ (run_writeidx_set
    (I := (I.setPtr (l.getLastD freeOff) r.ptr).putBlk r.datoff d) (by simpa using hw) ho₁
    (r.withKey v k hk) hlt rfl hlen.symm) h₃ ?_
  exact AtMost.then_one exec_quiet atMost_writeptr h₃ (run_writeptr (by simpa using hw) hv₂ w) h₄
    (Prog.always_ret h₄)

variable (hr : p.acc.readable = true)
include hr

theorem always_dodelete (h : Inv I L X Y M) (hl : L.chain (dbHash k) = l ++ o :: m)
    (ho : I.RecAt o r) (hk : r.key = k) :
    (dbDodelete (b.found (slot (dbHash k)) l o r)).Always exec
      (fun t => Remains I L M k t.2) (p, I.files) := by
  obtain ⟨d, hd, hlen⟩ := h.stock.blk ho
  have hmem : o ∈ L.chain (dbHash k) := by rw [hl]; simp
  have hle : o ≤ ptrMax := h.node_le (i := some (dbHash k)) hmem
  let w : Ptr := ⟨o, by omega⟩
  obtain ⟨v, hv⟩ := h.shape.free_hasPtr
  obtain ⟨u, hu⟩ : ∃ u, I.HasPtr (l.getLastD (slot (dbHash k))) u :=
    h.hasPtr (Filed.prev_mem (i := some (dbHash k)) hl)
  have hlw := h.length_wiped ho hd
  have hlf := r.length_text_freed v
  have hne : l.getLastD (slot (dbHash k)) ≠ o :=
    h.filed.prev_ne h.shape (i := some (dbHash k)) hl
  have ho₁ : (I.putBlk r.datoff r.wiped).RecAt o r := ho
  have hv₂ : (I.blanked o r v).HasPtr freeOff v :=
    Image.hasPtr_putCell ho₁ hlf (h.shape.free_ne ho) hv
  have hu₃ : ((I.blanked o r v).setPtr freeOff w).HasPtr (l.getLastD (slot (dbHash k))) u :=
    Image.hasPtr_setPtr_ne hv₂ (h.filed.prev_ne_free h.shape hl)
      (Image.hasPtr_putCell ho₁ hlf hne hu) w
  obtain ⟨hD₂, hD₃⟩ := diverted_blanked h hl ho (v := v) hv.next_eq.symm
  have hs₂ : (I.blanked o r v).Shape := h.shape.putCell ho₁ rfl
  have h₀ : Remains I L M k I.files := Or.inl ⟨_, _, _, _, _, rfl, h, fun _ _ => rfl⟩
  have h₁ : Remains I L M k (I.putBlk r.datoff r.wiped).files := by
    refine Or.inl ⟨_, _, _, _, _, rfl, h.putBlk_rec hmem ho hd hlw, fun k' hk' => ?_⟩
    exact Function.update_of_ne (hk ▸ hk') ..
  have h₂ : Remains I L M k (I.blanked o r v).files :=
    Or.inr ⟨l, o, m, r, _, hl, ho, hk, rfl, hs₂, ⟨v, w, Or.inl rfl⟩, hD₂⟩
  have h₃ : Remains I L M k ((I.blanked o r v).setPtr freeOff w).files :=
    Or.inr ⟨l, o, m, r, _, hl, ho, hk, rfl, hs₂.setPtr hv₂ w, ⟨v, w, Or.inr rfl⟩, hD₃ w rfl⟩
  have h₄ : Remains I L M k (I.deleted (l.getLastD (slot (dbHash k))) o r v w).files := by
    refine Or.inl ⟨_, _, _, _, _, rfl, h.deleted hl ho hv.next_eq.symm (w := w) rfl,
      fun k' hk' => ?_⟩
    exact Function.update_of_ne (hk ▸ hk') ..
  have hwl : r.wiped.1.length + 1 = r.datlen := by rw [hlw, hlen]
  unfold dbDodelete
  refine AtMost.then_zero exec_quiet (atMost_orDump id) h₀ (run_lock (t := .wr) hw) ?_
  refine AtMost.then_one exec_quiet atMost_writedat h₀ (run_writedat_set hw hd r.wiped hlw) h₁ ?_
  refine AtMost.then_zero exec_quiet atMost_readptr h₁
    (run_readptr (I := I.putBlk r.datoff r.wiped) (by simpa using hr) hv) ?_
  refine AtMost.then_one exec_quiet atMost_writeidx h₁
    (run_writeidx_set (by simpa using hw) ho₁ (r.freed v) hlf rfl hwl) h₂ ?_
  refine AtMost.then_one exec_quiet atMost_writeptr h₂ (run_writeptr (by simpa using hw) hv₂ w)
    h₃ ?_
  refine AtMost.then_one exec_quiet atMost_writeptr h₃
    (run_writeptr (by simpa using hw) hu₃ r.ptr) h₄ ?_
  exact AtMost.always_zero exec_quiet (atMost_unlock _) h₄

variable (hf : ptrMax < fuel)

theorem always_present (h : Inv I L X Y M) (hd : DatlenOk d)
    (hl : L.chain (dbHash k) = l ++ o :: m) (ho : I.RecAt o r) (hk : r.key = k) {d₀ : CStr}
    (hd₀ : I.blkAt r.datoff = some d₀) (hdl : r.datlen = d₀.1.length + 1)
    (hc : b.chainoff = slot (dbHash k)) :
    (storePresent (b.found (slot (dbHash k)) l o r) k.1 d.1).Always exec
      (fun t => Remains I L M k t.2) (p, I.files) := by
  have hmem : o ∈ L.chain (dbHash k) := by rw [hl]; simp
  have h₀ : Remains I L M k I.files := Or.inl ⟨_, _, _, _, _, rfl, h, fun _ _ => rfl⟩
  rw [storePresent]
  by_cases hne : d.1.length + 1 ≠ r.datlen
  · rw [if_pos (show d.1.length + 1 ≠ (b.found (slot (dbHash k)) l o r).datlen from hne)]
    obtain ⟨v, hv⟩ := h.shape.free_hasPtr
    have hle : o ≤ ptrMax := h.node_le (i := some (dbHash k)) hmem
    obtain ⟨b₁, p₁, hrun₁, hdb₁, hacc₁⟩ := run_dodelete (b := b) (w := ⟨o, by omega⟩) hr hw h hl
      ho hv rfl
    have i₁ := h.deleted (w := ⟨o, by omega⟩) hl ho hv.next_eq.symm rfl
    rw [hk] at i₁
    have h₁ : Spared M k _ := ⟨_, _, _, _, _, rfl, i₁, fun k' hk' => Function.update_of_ne hk' ..⟩
    obtain ⟨u, hu⟩ := i₁.shape.slot_hasPtr (dbHash k)
    refine (always_dodelete hw hr h hl ho hk).bind_ok hrun₁ (Prog.Always.mono ?_ fun _ => Or.inl)
    rw [hdb₁, hc]
    refine AtMost.then_zero exec_quiet atMost_readptr h₁
      (run_readptr (by simpa [hacc₁] using hr) hu) ?_
    exact always_append (by simpa [hacc₁] using hw) i₁ (fun k' hk' => Function.update_of_ne hk' ..)
      (Function.update_self ..) hd hu (hdb₁.trans hc)
  · rw [if_neg (show ¬ d.1.length + 1 ≠ (b.found (slot (dbHash k)) l o r).datlen from hne)]
    have h₁ : Remains I L M k (I.putBlk r.datoff d).files := by
      refine Or.inl ⟨_, _, _, _, _, rfl, h.putBlk_rec hmem ho hd₀ (by omega), fun k' hk' => ?_⟩
      exact Function.update_of_ne (hk ▸ hk') ..
    exact AtMost.always_one exec_quiet atMost_writedat h₀ (run_writedat_set hw hd₀ d (by omega)) h₁

include hf

theorem always_absent (h : Inv I L X Y M) (hM : M k = none) (hd : DatlenOk d)
    (hc : b.chainoff = slot (dbHash k)) :
    (storeAbsent fuel b k.1 d.1).Always exec (fun t => Spared M k t.2) (p, I.files) := by
  have h₀ : Spared M k I.files := ⟨_, _, _, _, _, rfl, h, fun _ _ => rfl⟩
  obtain ⟨v, hv⟩ := h.shape.slot_hasPtr (dbHash k)
  unfold storeAbsent
  rw [hc]
  refine AtMost.then_zero exec_quiet atMost_readptr h₀ (run_readptr hr hv) ?_
  rcases findfree_cases k.1.length (d.1.length + 1) (I := I) (l := L.free) (fun o ho => by
    obtain ⟨r, hr⟩ := h.filed.rec_free ho
    exact ⟨r, hr, h.filed.free_blank ho hr⟩) with hunfit | ⟨l, o, m, r, hl, hunfit, ho, hs, hk, hlen⟩
  · obtain ⟨b₁, p₁, hrun₁, hdb₁, hacc₁⟩ := run_findfree_miss (b := b)
      (p := p.setPos .idx (slot (dbHash k) + ptrSz)) (by simpa using hr) (by simpa using hw) h hunfit hf
    refine AtMost.then_one exec_quiet atMost_findfree h₀ hrun₁ h₀ ?_
    dsimp only
    rw [if_pos (by decide)]
    exact always_append (by rw [hacc₁]; simpa using hw) h (fun _ _ => rfl) hM hd hv (hdb₁.trans hc)
  · obtain ⟨p₁, hrun₁, hacc₁⟩ := run_findfree_hit (b := b)
      (p := p.setPos .idx (slot (dbHash k) + ptrSz)) (by simpa using hr) (by simpa using hw) h hl
      hunfit ho hs ⟨hk, hlen⟩ hf
    obtain ⟨h₁, hreuse⟩ := always_reuse (b := b) (p := p₁) (by rw [hacc₁]; simpa using hw) h hl ho
      hk.symm hlen hM hv hc
    refine AtMost.then_one exec_quiet atMost_findfree h₀ hrun₁ h₁ ?_
    dsimp only
    rw [if_neg (by decide)]
    exact hreuse

theorem always_delete (h : Inv I L X Y M) (k : CStr) :
    (dbDelete fuel b k.1).Always exec (fun t => Remains I L M k t.2) (p, I.files) := by
  have h₀ : Remains I L M k I.files := Or.inl ⟨_, _, _, _, _, rfl, h, fun _ _ => rfl⟩
  rw [dbDelete]
  cases h.search k with
  | miss hl hM =>
    obtain ⟨hlink, hlen⟩ := h.walk hf k
    obtain ⟨b', hrun, -⟩ := run_find_miss (b := b) true hr hw h.shape hlink hl hlen
    refine AtMost.then_zero exec_quiet atMost_find h₀ hrun ?_
    exact AtMost.always_zero exec_quiet (atMost_unlock _) h₀
  | @hit l o m r d hc hl ho hs hk hd hdl hM =>
    obtain ⟨hlink, hlen⟩ := h.walk_to hf hc
    refine AtMost.then_zero exec_quiet atMost_find h₀ (run_find_hit true hr hw h.shape hlink hl ho
      hs hk hlen) ?_
    dsimp only
    rw [if_pos rfl, Prog.bind_assoc]
    obtain ⟨v, hv⟩ := h.shape.free_hasPtr
    have hle : o ≤ ptrMax := h.node_le (i := some (dbHash k)) (by rw [Lists.nodes, hc]; simp)
    obtain ⟨b', p', hrun, -⟩ := run_dodelete (p := p.setPos .idx (I.endOf o)) (w := ⟨o, by omega⟩)
      (b := { b with chainoff := slot (dbHash k) }) (by simpa using hr) (by simpa using hw) h hc
      ho hv rfl
    have h₁ : Remains I L M k _ := Or.inl ⟨_, _, _, _, _, rfl,
      h.deleted (w := ⟨o, by omega⟩) hc ho hv.next_eq.symm rfl,
      fun k' hk' => Function.update_of_ne (hk ▸ hk') ..⟩
    refine (always_dodelete (by simpa using hw) (by simpa using hr) h hc ho hk).bind_ok hrun ?_
    exact AtMost.always_zero exec_quiet (atMost_unlock _) h₁
  | @sep l o m r d hc hl ho hs hM =>
    obtain ⟨hlink, hlen⟩ := h.walk_to hf hc
    exact (AtMost.always_zero exec_quiet atMost_find h₀).bind_dump (run_find_sep true hr hw h.shape
      hlink hl ho hs hlen)

theorem always_store (h : Inv I L X Y M) (k d : CStr) (flag : ℤ) :
    (dbStore fuel b k.1 d.1 flag).Always exec (fun t => Remains I L M k t.2) (p, I.files) := by
  have h₀ : Remains I L M k I.files := Or.inl ⟨_, _, _, _, _, rfl, h, fun _ _ => rfl⟩
  by_cases hflag : flag ≠ Flag.dbInsert ∧ flag ≠ Flag.dbReplace ∧ flag ≠ Flag.dbStore
  · rw [dbStore, if_pos hflag]
    exact Prog.always_ret h₀
  by_cases hd : DatlenOk d
  swap
  · rw [dbStore_dump fuel b hflag hd]
    exact Prog.always_dump h₀
  rw [dbStore_find fuel b hflag hd]
  cases h.search k with
  | miss hl hM =>
    obtain ⟨hlink, hlen⟩ := h.walk hf k
    obtain ⟨b₁, hrun₁, hdb₁⟩ := run_find_miss (b := b) true hr hw h.shape hlink hl hlen
    refine AtMost.then_zero exec_quiet atMost_find h₀ hrun₁ ?_
    dsimp only
    rw [if_pos (by decide)]
    by_cases hrep : flag = Flag.dbReplace
    · rw [if_pos hrep]
      exact AtMost.always_zero exec_quiet (atMost_unlock _) h₀
    · rw [if_neg hrep, Prog.bind_assoc]
      have habsent := always_absent (b := b₁) (d := d)
        (p := I.walked (p.setPos .idx (slot (dbHash k) + ptrSz)) (L.chain (dbHash k)))
        (by simpa using hw) (by simpa using hr) hf h hM hd hdb₁
      obtain ⟨out, p', I', hrun, -, ⟨b', L', rfl, -, hinv, -⟩ | ⟨e, rfl, -⟩⟩ := absent_spec (b := b₁)
        (k := k) (d := d)
        (p := I.walked (p.setPos .idx (slot (dbHash k) + ptrSz)) (L.chain (dbHash k))) h hf
        (by simpa using hr) (by simpa using hw) hM hd hdb₁
      · have h₁ : Remains I L M k I'.files := Or.inl ⟨_, _, _, _, _, rfl, hinv, fun k' hk' =>
          Function.update_of_ne hk' ..⟩
        refine Prog.Always.bind_ok (habsent.mono fun _ => Or.inl) hrun ?_
        exact AtMost.always_zero exec_quiet (atMost_unlock _) h₁
      · exact Prog.Always.bind_dump (habsent.mono fun _ => Or.inl) hrun
  | @hit l o m r d₀ hc hl ho hs hk hd₀ hdl hM =>
    obtain ⟨hlink, hlen⟩ := h.walk_to hf hc
    refine AtMost.then_zero exec_quiet atMost_find h₀ (run_find_hit true hr hw h.shape hlink hl ho
      hs hk hlen) ?_
    dsimp only
    rw [if_neg (by decide)]
    by_cases hins : flag = Flag.dbInsert
    · rw [if_pos hins]
      exact AtMost.always_zero exec_quiet (atMost_unlock _) h₀
    · rw [if_neg hins, Prog.bind_assoc]
      have hpresent := always_present (p := p.setPos .idx (I.endOf o))
        (b := { b with chainoff := slot (dbHash k) }) (by simpa using hw) (by simpa using hr) h hd
        hc ho hk hd₀ hdl rfl
      obtain ⟨out, p', I', hrun, -, hend⟩ := present_spec (d := d) (p := p.setPos .idx (I.endOf o))
        (b := { b with chainoff := slot (dbHash k) }) h (by simpa using hr) (by simpa using hw) hd
        hc ho hk hd₀ hdl rfl
      rcases hend with ⟨b', L', rfl, -, hinv, -⟩ | ⟨e, I₁, L₁, rfl, -⟩
      · have h₁ : Remains I L M k I'.files := Or.inl ⟨_, _, _, _, _, rfl, hinv, fun k' hk' =>
          Function.update_of_ne hk' ..⟩
        refine hpresent.bind_ok hrun ?_
        exact AtMost.always_zero exec_quiet (atMost_unlock _) h₁
      · exact hpresent.bind_dump hrun
  | @sep l o m r d₀ hc hl ho hs hM =>
    obtain ⟨hlink, hlen⟩ := h.walk_to hf hc
    exact (AtMost.always_zero exec_quiet atMost_find h₀).bind_dump (run_find_sep true hr hw h.shape
      hlink hl ho hs hlen)

end Stages

section Result

/-- The lists are apart, and the other keys are found as before. -/
def Intact (fuel : ℕ) (k : CStr) (f f' : Files) : Prop :=
  (∃ J, f' = Image.files J ∧ Walks J Set.univ) ∧
    ∀ k' ≠ k, ∀ d', seenFetch fuel k' f = .ok (some d') → seenFetch fuel k' f' = .ok (some d')

/-- The deletion of the key `k` has blanked its record, and has not taken it off its chain. The
chain leads on into the free list; all other walks, and the keys that are not behind the record
on this chain, are as before. -/
inductive Severed (fuel : ℕ) (k : CStr) (f : Files) : Files → Prop
  | cut {I J : Image} {L : Lists} {l m : List ℕ} {o : ℕ} {r : Rec} {v w : Ptr}
      (hf : f = I.files) (hlink : Linked 0 I.next (slot (dbHash k)) (l ++ o :: m))
      (ho : I.RecAt o r) (hk : r.key = k)
      (hJ : J = I.blanked o r v ∨ J = (I.blanked o r v).setPtr freeOff w)
      (hfree : Linked 0 I.next freeOff L.free)
      (hwalks : Walks J {i | i ≠ some (dbHash k)})
      (hchain : Linked 0 J.next (slot (dbHash k)) (l ++ o :: L.free))
      (hfound : ∀ (k' : CStr) (d' : List Byte), (dbHash k' ≠ dbHash k ∨ ∃ x ∈ l, ∃ q, I.RecAt x q ∧ q.key = k') →
        seenFetch fuel k' f = .ok (some d') → seenFetch fuel k' J.files = .ok (some d')) :
      Severed fuel k f J.files

/-- A store or a deletion of the key `k`. -/
def Op.On (k : CStr) : Op → Prop
  | store key _ _ => key = k
  | delete key => key = k
  | _ => False

variable (h : Inv I L X Y M) (hc : M.Clean) (hf : ptrMax < fuel) (hk : SEP ∉ k.1)
include h hc hf

theorem stored_of_seen {k' : CStr} {d' : List Byte}
    (hs : seenFetch fuel k' I.files = .ok (some d')) : ∃ d, M k' = some d ∧ d.1 = d' := by
  rw [seenFetch_clean h hc hf] at hs
  exact Option.map_eq_some_iff.mp (Out.ok.inj hs)

theorem Cut.severed {f : Files} (hcut : Cut I L k f) : Severed fuel k I.files f := by
  obtain ⟨l, o, m, r, J, hl, ho, hk, rfl, hs, ⟨v, w, hJ⟩, hD⟩ := hcut
  have hlink := h.linked (some (dbHash k))
  simp only [Lists.nodes, head, hl] at hlink
  refine .cut rfl hlink ho hk hJ (h.linked none) hD.walks hD.chain fun k' d' hcase hseen => ?_
  obtain ⟨d, hM, rfl⟩ := stored_of_seen h hc hf hseen
  exact hD.found h hc hf hs hl ho hM hcase

include hk

theorem Spared.intact {f : Files} (hs : Spared M k f) : Intact fuel k I.files f := by
  obtain ⟨I', L', X', Y', M', rfl, h', hsame⟩ := hs
  have hc' : M'.Clean := by
    intro k' hk'
    by_cases he : k' = k
    · exact he ▸ hk
    · rw [hsame k' he] at hk'
      exact hc k' hk'
  refine ⟨⟨I', rfl, L', X', Y', h'.shape, h'.stock, h'.filed, fun i _ => h'.linked i⟩, ?_⟩
  intro k' hk' d' hseen
  rw [seenFetch_clean h hc hf] at hseen
  rw [seenFetch_clean h' hc' hf, ← hseen, Map.fetch, Map.fetch, hsame k' hk']

theorem Remains.intact_or_severed {f : Files} (hr : Remains I L M k f) :
    Intact fuel k I.files f ∨ Severed fuel k I.files f :=
  hr.imp (Spared.intact h hc hf hk) (Cut.severed h hc hf)

omit h hc hf hk

theorem visits_denied {p : Fds} {op : Op} {b : DB} {f : Files} {t : Fds × Files}
    (hop : op.On k) (hrw : p.acc.writable = false ∨ p.acc.readable = false)
    (ht : (op.call fuel b).Visits exec (p, f) t) : t.2 = f := by
  have hfind : ∀ (k : CStr) {β : Type} (g : ℤ × DB → DbProg β),
      (dbFindAndLock fuel b k.1 true >>= g).Always exec (fun t => t.2 = f) (p, f) := by
    intro k β g
    obtain ⟨e, p', hrun, -⟩ := run_find_denied fuel b p f k.1 true hrw
    exact (Prog.AtMost.always_zero (Q := (· = f)) exec_quiet atMost_find rfl).bind_dump hrun
  cases op with
  | fetch _ => exact hop.elim
  | reopen _ => exact hop.elim
  | delete key =>
    rw [Op.call, dbDelete, Prog.bind_assoc] at ht
    exact hfind key _ t ht
  | store key data flag =>
    rw [Op.call, dbStore] at ht
    split at ht
    · exact congrArg Prod.snd ht
    · dsimp only at ht
      by_cases hd : data.1.length + 1 < datlenMin ∨ datlenMax < data.1.length + 1
      · rw [dumpIf_pos hd] at ht
        exact congrArg Prod.snd ht
      · rw [dumpIf_neg hd, Prog.ret_bind, Prog.bind_assoc] at ht
        exact hfind key _ t ht

/-- A store or a deletion that ends anywhere leaves the other keys and the lists as they were,
unless it is a deletion that ends between its index record and the pointer in front of it. -/
theorem interrupted {f : Files} {p : Fds} {b : DB} {op : Op} {t : Fds × Files}
    (hreach : Reachable (fun k => SEP ∉ k.1) f) (hf : ptrMax < fuel) (hop : op.On k)
    (hk : SEP ∉ k.1) (ht : (op.call fuel b).Visits exec (p, f) t) :
    Intact fuel k f t.2 ∨ Severed fuel k f t.2 := by
  obtain ⟨I, L, X, Y, M, rfl, h, hrec⟩ := hreach.valid
  have hc : M.Clean := fun k' hk' => (h.keys (P := fun k => SEP ∉ k.1) hrec k' hk').elim not_sep_of_isBlank id
  refine Remains.intact_or_severed (L := L) h hc hf hk ?_
  by_cases hrw : p.acc.writable = false ∨ p.acc.readable = false
  · rw [visits_denied hop hrw ht]
    exact Or.inl ⟨I, L, X, Y, M, rfl, h, fun _ _ => rfl⟩
  obtain ⟨hw, hr⟩ : p.acc.writable = true ∧ p.acc.readable = true := by simpa using hrw
  cases op with
  | fetch _ => exact hop.elim
  | reopen _ => exact hop.elim
  | delete key =>
    obtain rfl : key = k := hop
    rcases Prog.visits_bind.mp ht with ht | ⟨x, u, hrun, rfl⟩
    · exact always_delete hw hr hf h key t ht
    · refine always_delete (b := b) (p := p) hw hr hf h key t ?_
      exact Prog.visits_of_run hrun
  | store key data flag =>
    obtain rfl : key = k := hop
    rcases Prog.visits_bind.mp ht with ht | ⟨x, u, hrun, rfl⟩
    · exact always_store hw hr hf h key data flag t ht
    · refine always_store (b := b) (p := p) hw hr hf h key data flag t ?_
      exact Prog.visits_of_run hrun

end Result

section Sample

/-- Two keys on one chain. -/
def keyCa : CStr := ⟨[99, 97], by decide⟩
def keyAb : CStr := ⟨[97, 98], by decide⟩

/-- The database with both keys, the second in front of the first. -/
def sharing : Fds × Files :=
  ((newSession 100000 [.store keyCa dataX Flag.dbInsert, .store keyAb dataX Flag.dbInsert]).run
    exec noFiles).2

/-- The deletion of the second key, cut short behind its write of the index record. -/
def severed : Fds × Files :=
  ((Op.delete keyAb).call 100000 dbAlloc).after exec 13 sharing

theorem sharing_reachable : Reachable (fun k => SEP ∉ k.1) sharing.2 := by
  unfold sharing
  refine newSession_reachable (by decide) (fun op hop => ?_) noFiles
  simp only [List.mem_cons, List.not_mem_nil, or_false] at hop
  rcases hop with rfl | rfl
  · exact ⟨show SEP ∉ keyCa.1 by decide, trivial⟩
  · exact ⟨show SEP ∉ keyAb.1 by decide, trivial⟩

/-- The key behind the record of an interrupted deletion is lost. -/
theorem interrupted_delete_loses :
    Reachable (fun k => SEP ∉ k.1) sharing.2 ∧ (Op.delete keyAb).On keyAb ∧ SEP ∉ keyAb.1 ∧
      ((Op.delete keyAb).call 100000 dbAlloc).Visits exec sharing severed ∧
      ¬ Intact 100000 keyAb sharing.2 severed.2 := by
  refine ⟨sharing_reachable, rfl, by decide, Prog.visits_after 13 _ _, fun h => ?_⟩
  obtain ⟨hbefore, hafter⟩ : seenFetch 100000 keyCa sharing.2 = .ok (some dataX.1) ∧
      seenFetch 100000 keyCa severed.2 = .ok none := by decide +kernel
  have hfound := h.2 keyCa (by decide) _ hbefore
  rw [hafter] at hfound
  cases hfound

theorem interrupted_sample :
    Intact 100000 keyAb sharing.2 severed.2 ∨ Severed 100000 keyAb sharing.2 severed.2 := by
  have ht : ((Op.delete keyAb).call 100000 dbAlloc).Visits exec (sharing.1, sharing.2) severed := by
    rw [Prod.mk.eta]
    exact Prog.visits_after 13 _ _
  have hop : (Op.delete keyAb).On keyAb := rfl
  exact interrupted sharing_reachable (by decide) hop (by decide) ht

end Sample

end Somenote.Db
