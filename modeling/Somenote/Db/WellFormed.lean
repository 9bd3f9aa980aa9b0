import Mathlib.Data.Set.List
import Somenote.Db.Session

/-! # The files of a database

What the invariant says about the bytes of the two files: records behind the header, each
on one list, and the data of all records tiling the data file.
-/

namespace Somenote.Db

open Decimal

/-- The record `r` starts at the offset `o` among the records behind the header. -/
def RecordAt (recs : List Rec) (o : ℕ) (r : Rec) : Prop :=
  ∃ pre post, recs = pre ++ r :: post ∧ o = idxStart + (pre.flatMap Rec.bytes).length

structure WellFormed (I : Image) (L : Lists) (recs : List Rec) : Prop where
  idx : I.idxBytes.drop idxStart = recs.flatMap Rec.bytes
  recAt : ∀ o r, I.RecAt o r ↔ RecordAt recs o r
  filed : ∀ o r, RecordAt recs o r → ∃ i, o ∈ L.nodes i ∧ ∀ k, o ∈ L.nodes k → k = i
  nodes : ∀ i, ∀ o ∈ L.nodes i, ∃ r, RecordAt recs o r
  hash : ∀ j, ∀ o ∈ L.chain j, ∀ r, RecordAt recs o r → dbHash r.key = j
  nodup : ∀ i, (L.nodes i).Nodup
  linked : ∀ i, Linked 0 I.next (head i) (L.nodes i)
  keys : ∀ j j', ∀ o ∈ L.chain j, ∀ o' ∈ L.chain j', ∀ r r', RecordAt recs o r →
    RecordAt recs o' r' → r.key = r'.key → o = o'
  blank : ∀ o ∈ L.free, ∀ r, RecordAt recs o r → ∀ c ∈ r.key.1, c = SPACE
  data : ∀ o r, RecordAt recs o r →
    ∃ d, (I.datBytes.drop r.datoff).take r.datlen = d ++ [NEWLINE] ∧ d.length + 1 = r.datlen
  disjoint : ∀ o o' r r', RecordAt recs o r → RecordAt recs o' r' → o ≠ o' →
    r.datoff + r.datlen ≤ r'.datoff ∨ r'.datoff + r'.datlen ≤ r.datoff
  cover : ∀ x < I.datBytes.length, ∃ o r, RecordAt recs o r ∧ r.datoff ≤ x ∧ x < r.datoff + r.datlen

variable {I : Image} {L : Lists} {M : Map} {o : ℕ} {r : Rec}

/-- The cells of an index file: the pointers, the newline, and the records. -/
theorem Image.Shape.cells (h : I.Shape) : ∃ (ptrs : List Ptr) (recs : List Rec),
    I.cells = ptrs.map Cell.ptr ++ .nl :: recs.map Cell.record ∧ ptrs.length = nhashDef + 1 := by
  obtain ⟨n, hn⟩ := h
  obtain ⟨l, m, hc, hl, hm⟩ := List.map_eq_append_iff.mp hn
  obtain ⟨c, m, rfl, hc', hm⟩ := List.map_eq_cons_iff.mp hm
  have hptrs : l ∈ Set.range (List.map Cell.ptr) := by
    rw [Set.range_list_map]
    intro x hx
    have hk : x.kind = .ptr := List.eq_of_mem_replicate (hl ▸ List.mem_map_of_mem hx)
    cases x with
    | ptr v => exact ⟨v, rfl⟩
    | nl => cases hk
    | record r => cases hk
  have hrecs : m ∈ Set.range (List.map Cell.record) := by
    rw [Set.range_list_map]
    intro x hx
    have hk : x.kind = .record := List.eq_of_mem_replicate (hm ▸ List.mem_map_of_mem hx)
    cases x with
    | ptr v => cases hk
    | nl => cases hk
    | record r => exact ⟨r, rfl⟩
  obtain ⟨ptrs, rfl⟩ := hptrs
  obtain ⟨recs, rfl⟩ := hrecs
  refine ⟨ptrs, recs, ?_, by simpa using congrArg List.length hl⟩
  rw [hc]
  cases c with
  | nl => rfl
  | ptr v => cases hc'
  | record r => cases hc'

theorem length_ptrs (ptrs : List Ptr) :
    (Cells.bytes Cell.bytes (ptrs.map Cell.ptr)).length = ptrs.length * ptrSz := by
  induction ptrs with
  | nil => rfl
  | cons v ptrs ih =>
    rw [List.map_cons, Cells.bytes_cons, List.length_append, ih, Cell.bytes, length_ptrField,
      List.length_cons, Nat.succ_mul, Nat.add_comm]

theorem bytes_records (recs : List Rec) :
    Cells.bytes Cell.bytes (recs.map Cell.record) = recs.flatMap Rec.bytes := by
  rw [Cells.bytes, List.flatMap_map]
  rfl

theorem length_header {ptrs : List Ptr} (h : ptrs.length = nhashDef + 1) :
    (Cells.bytes Cell.bytes (ptrs.map Cell.ptr ++ [.nl])).length = idxStart := by
  rw [Cells.bytes_append, List.length_append, length_ptrs, h]
  rfl

theorem recAt_iff {ptrs : List Ptr} {recs : List Rec}
    (hc : I.cells = ptrs.map Cell.ptr ++ .nl :: recs.map Cell.record)
    (hl : ptrs.length = nhashDef + 1) : I.RecAt o r ↔ RecordAt recs o r := by
  have hc' : I.cells = (ptrs.map Cell.ptr ++ [.nl]) ++ recs.map Cell.record := by simp [hc]
  constructor
  · intro h
    obtain ⟨pre, post, hsplit, ho⟩ := Cells.cellAt_split h
    rw [hc', List.append_eq_append_iff] at hsplit
    rcases hsplit with ⟨l, rfl, hl'⟩ | ⟨l, hl', hr⟩
    · obtain ⟨pre', post', rfl, rfl, hpost⟩ := List.map_eq_append_iff.mp hl'
      obtain ⟨r', post'', rfl, hr', -⟩ := List.map_eq_cons_iff.mp hpost
      obtain rfl : r' = r := by simpa using hr'
      refine ⟨pre', post'', rfl, ?_⟩
      rw [ho, Cells.bytes_append, List.length_append, length_header hl, bytes_records]
    · cases l with
      | nil =>
        cases recs with
        | nil => simp at hr
        | cons r' recs =>
          simp only [List.nil_append, List.map_cons, List.cons.injEq, Cell.record.injEq] at hr
          obtain ⟨rfl, -⟩ := hr
          refine ⟨[], recs, rfl, ?_⟩
          rw [ho, ← length_header hl, hl', List.append_nil]
          rfl
      | cons c l =>
        simp only [List.cons_append, List.cons.injEq] at hr
        obtain ⟨rfl, -⟩ := hr
        have : Cell.record r ∈ ptrs.map Cell.ptr ++ [.nl] := by rw [hl']; simp
        simp at this
  · rintro ⟨pre, post, rfl, rfl⟩
    have := Cells.cellAt_append_cons Cell.length_pos
      (ptrs.map Cell.ptr ++ [.nl] ++ pre.map Cell.record) (post.map Cell.record) (Cell.record r)
    rw [Cells.bytes_append, List.length_append, length_header hl, bytes_records] at this
    rw [Image.RecAt, Image.cellAt, hc', ← this]
    simp

/-- The index file from the offset `o` on consists of the records `rest`. -/
def Behind (I : Image) (o : ℕ) (rest : List Rec) : Prop :=
  ∃ (ptrs : List Ptr) (pre : List Rec),
    I.cells = ptrs.map Cell.ptr ++ .nl :: (pre ++ rest).map Cell.record ∧
    ptrs.length = nhashDef + 1 ∧ o = idxStart + (pre.flatMap Rec.bytes).length

theorem Inv.wellFormed (h : Inv I L ∅ ∅ M) :
    ∃ recs, Behind I idxStart recs ∧ WellFormed I L recs := by
  obtain ⟨ptrs, recs, hc, hl⟩ := h.shape.cells
  have hc' : I.cells = (ptrs.map Cell.ptr ++ [.nl]) ++ recs.map Cell.record := by simp [hc]
  have hrec : ∀ {o r}, RecordAt recs o r → I.RecAt o r := fun hr => (recAt_iff hc hl).mpr hr
  exact ⟨recs, ⟨ptrs, [], hc, hl, rfl⟩, {
    idx := by
      rw [Image.idxBytes, hc', Cells.bytes_append, List.drop_left' (length_header hl), bytes_records]
    recAt := fun o r => recAt_iff hc hl
    filed := fun o r hr => by
      have hi : ∃ i, o ∈ L.nodes i := by
        rcases (h.filed.isRec_iff o).mp ⟨r, hrec hr⟩ with ⟨j, hj⟩ | hf | hY
        · exact ⟨some j, hj⟩
        · exact ⟨none, hf⟩
        · exact absurd hY (Set.notMem_empty o)
      obtain ⟨i, hi⟩ := hi
      exact ⟨i, hi, fun k hk => h.filed.separate h.shape (List.mem_cons_of_mem _ hk)
        (List.mem_cons_of_mem _ hi)⟩
    nodes := fun i o ho => by
      obtain ⟨r, hr⟩ := h.filed.rec_node ho
      exact ⟨r, (recAt_iff hc hl).mp hr⟩
    hash := fun j o ho r hr => h.filed.hash ho (hrec hr)
    nodup := h.filed.nodup
    linked := h.linked
    keys := fun j j' o ho o' ho' r r' hr hr' hk => by
      obtain rfl : j = j' := by rw [← h.filed.hash ho (hrec hr), ← h.filed.hash ho' (hrec hr'), hk]
      exact h.filed.key_inj ho ho' (hrec hr) (hrec hr') hk
    blank := fun o ho r hr => h.filed.free_blank ho (hrec hr)
    data := fun o r hr => by
      obtain ⟨d, hd, hlen⟩ := h.stock.blk (hrec hr)
      refine ⟨d.1, ?_, hlen.symm⟩
      rw [Image.drop_dat hd, List.take_left' (by simp [blkBytes, hlen]), blkBytes]
    disjoint := fun o o' r r' hr hr' hne => by
      obtain ⟨d, hd, hlen⟩ := h.stock.blk (hrec hr)
      obtain ⟨d', hd', hlen'⟩ := h.stock.blk (hrec hr')
      have hoff : r.datoff ≠ r'.datoff := fun he => hne (h.stock.inj (hrec hr) (hrec hr') he)
      simpa [blkBytes, hlen, hlen'] using Cells.cellAt_disjoint hd hd' hoff
    cover := fun x hx => by
      obtain ⟨a, d, hd, hle, hlt⟩ := Cells.cellAt_cover blkBytes_pos hx
      rcases h.stock.cover hd with hX | ⟨o, r, hr, rfl⟩
      · exact absurd hX (Set.notMem_empty a)
      · obtain ⟨d', hd', hlen⟩ := h.stock.blk hr
        obtain rfl : d = d' := by simpa using hd.symm.trans hd'
        refine ⟨o, r, (recAt_iff hc hl).mp hr, hle, ?_⟩
        simpa [blkBytes, hlen] using hlt }⟩

/-- The files are well formed behind every session on a new database that does not abort. -/
theorem session_wellFormed (fuel : ℕ) (hf : ptrMax < fuel) (s : Fds × Files) (ops : List Op)
    (hops : ∀ op ∈ ops, op.Plain) (res : List Res × DB) (t : Fds × Files)
    (hrun : (newSession fuel ops).run exec s = (.ok res, t)) :
    ∃ I L recs, t.2 = I.files ∧ WellFormed I L recs := by
  obtain ⟨I, L, hfiles, hinv, -⟩ := newSession_ok hf hops hrun
  obtain ⟨recs, -, hwf⟩ := hinv.wellFormed
  exact ⟨I, L, recs, hfiles, hwf⟩

theorem wellFormed_sample : ∃ res t I L recs,
    (newSession 100000 sampleOps).run exec noFiles = (.ok res, t) ∧ t.2 = Image.files I ∧
      WellFormed I L recs := by
  obtain ⟨b, t, hrun⟩ := run_sample
  obtain ⟨I, L, recs, hfiles, hwf⟩ := session_wellFormed 100000 (by decide) noFiles sampleOps
    sampleOps_plain _ t hrun
  exact ⟨_, t, I, L, recs, hrun, hfiles, hwf⟩

end Somenote.Db
