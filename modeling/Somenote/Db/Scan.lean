import Mathlib.Data.List.Nodup
import Somenote.Db.WellFormed

/-! # The sequential scan

`db_nextrec` reads the index records in file order from the offset of the descriptor on,
goes past the records with a blank key, and returns the key and the data of the next one.
-/

namespace Somenote.Db

open Decimal

/-- `n` calls of `db_nextrec`, and what they return. -/
def nextrecs (fuel : ℕ) : ℕ → DB → DbProg (List (Option (List Byte × List Byte)) × DB)
  | 0, db => pure ([], db)
  | n + 1, db => do
    let (ptr, db) ← dbNextrec fuel db
    let (rs, db) ← nextrecs fuel n db
    pure (ptr :: rs, db)

/-- `db_rewind` and `n` calls of `db_nextrec`. -/
def scan (fuel n : ℕ) (db : DB) : DbProg (List (Option (List Byte × List Byte)) × DB) := do
  let db ← dbRewind db
  nextrecs fuel n db

/-- The records from the first one on whose key is not blank. -/
def shown (rest : List Rec) : List Rec := rest.dropWhile fun r => IsBlank r.key

/-- The key and the data of a record. -/
def pairOf (I : Image) (r : Rec) : List Byte × List Byte :=
  (r.key.1, (I.blkAt r.datoff).elim [] Subtype.val)

/-- What `n` calls of `db_nextrec` in front of the records return. -/
def scanned (I : Image) : List Rec → ℕ → Out Err (List (Option (List Byte × List Byte)))
  | _, 0 => .ok []
  | rest, n + 1 =>
    match shown rest with
    | [] => .ok (List.replicate (n + 1) none)
    | r :: rest =>
      if SEP ∈ r.key.1 then .dump .readidxSep3
      else (scanned I rest n).map (some (pairOf I r) :: ·)

theorem not_isBlank_of_shown {rest rest' : List Rec} {r : Rec} (h : shown rest = r :: rest') :
    ¬ IsBlank r.key := by
  have hhead := List.head?_dropWhile_not (fun r : Rec => decide (IsBlank r.key)) rest
  rw [show List.dropWhile _ rest = r :: rest' from h] at hhead
  simpa using hhead

theorem length_shown_le (rest : List Rec) : (shown rest).length ≤ rest.length :=
  List.length_dropWhile_le _ _

theorem scanned_nil (I : Image) (n : ℕ) : scanned I [] n = .ok (List.replicate n none) := by
  cases n with
  | zero => rfl
  | succ n => rfl

variable {I : Image} {L : Lists} {X : Set ℕ} {M : Map} {p : Fds} {o fuel n : ℕ} {r : Rec}
  {rest rest' : List Rec} {b : DB} {d : CStr}

section Behind

theorem Behind.recAt (h : Behind I o (r :: rest)) : I.RecAt o r := by
  obtain ⟨ptrs, pre, hc, hl, rfl⟩ := h
  exact (recAt_iff hc hl).mpr ⟨pre, rest, rfl, rfl⟩

theorem Behind.next (h : Behind I o (r :: rest)) : Behind I (o + r.bytes.length) rest := by
  obtain ⟨ptrs, pre, hc, hl, rfl⟩ := h
  refine ⟨ptrs, pre ++ [r], by simpa using hc, hl, ?_⟩
  simp [Nat.add_assoc]

theorem Behind.end_eq (h : Behind I o []) : o = I.idxBytes.length := by
  obtain ⟨ptrs, pre, hc, hl, rfl⟩ := h
  have hc' : I.cells = (ptrs.map Cell.ptr ++ [.nl]) ++ pre.map Cell.record := by simp [hc]
  rw [Image.idxBytes, hc', Cells.bytes_append, List.length_append, length_header hl, bytes_records]

theorem Behind.append {recs : List Rec} (h : Behind I idxStart recs) :
    Behind ((I.addBlk d).addRec r) idxStart (recs ++ [r]) := by
  obtain ⟨ptrs, pre, hc, hl, he⟩ := h
  exact ⟨ptrs, pre, by simp [Image.addRec, Image.addBlk, hc], hl, he⟩

theorem Image.Shape.behind (h : I.Shape) : ∃ recs, Behind I idxStart recs := by
  obtain ⟨ptrs, recs, hc, hl⟩ := h.cells
  exact ⟨recs, ptrs, [], hc, hl, rfl⟩

theorem Behind.of_recAt {recs : List Rec} (h : Behind I idxStart recs) (ho : I.RecAt o r) :
    ∃ pre rest, recs = pre ++ r :: rest ∧ Behind I (I.endOf o) rest := by
  obtain ⟨ptrs, pre₀, hc, hl, he⟩ := h
  obtain rfl : pre₀ = [] := by
    cases pre₀ with
    | nil => rfl
    | cons q pre =>
      have := q.length_bytes
      simp only [List.flatMap_cons, List.length_append, ptrSz] at he this
      omega
  obtain ⟨pre, rest, rfl, rfl⟩ := (recAt_iff hc hl).mp ho
  refine ⟨pre, rest, rfl, ptrs, pre ++ [r], by simpa using hc, hl, ?_⟩
  rw [ho.endOf]
  simp [Nat.add_assoc]

end Behind

section Nextrec

variable (hr : p.acc.readable = true)
include hr

theorem run_nextrecLoop_skip (h : Behind I o rest) (hp : p.idxpos = o) (hf : rest.length < fuel) :
    ∃ fuel' b' o', Behind I o' (shown rest) ∧
      (nextrecLoop fuel b).run exec (p, I.files) =
        (nextrecLoop (fuel' + 1) b').run exec (p.setPos .idx o', I.files) := by
  induction rest generalizing o fuel b p with
  | nil =>
    obtain ⟨fuel, rfl⟩ := Nat.exists_eq_succ_of_ne_zero (Nat.ne_of_gt hf)
    exact ⟨fuel, b, o, h, by rw [← hp]; rfl⟩
  | cons r rest ih =>
    obtain ⟨fuel, rfl⟩ := Nat.exists_eq_succ_of_ne_zero (Nat.ne_of_gt (Nat.zero_lt_of_lt hf))
    by_cases hb : IsBlank r.key
    · obtain ⟨fuel', b', o', hb', hrun⟩ := ih (p := p.setPos .idx (o + r.bytes.length))
        (b := b.load o r) (by simpa using hr) h.next rfl (by simpa using hf)
      refine ⟨fuel', b', o', by rwa [shown, List.dropWhile_cons_of_pos (by simpa using hb)], ?_⟩
      have hall : (b.load o r).idxbuf.all (· == SPACE) = true := isBlank_iff.mp hb
      rw [nextrecLoop, Prog.run_bind_ok
        (run_readidx hr (Or.inr ⟨rfl, hp⟩) h.recAt (not_sep_of_isBlank hb))]
      dsimp only
      rw [if_neg (by omega), if_pos hall, hrun, Fds.setPos_setPos]
    · refine ⟨fuel, b, o, by rwa [shown, List.dropWhile_cons_of_neg (by simpa using hb)], ?_⟩
      rw [← hp]
      rfl

theorem run_nextrec_end (h : Behind I o rest) (hp : p.idxpos = o) (hs : shown rest = [])
    (hf : rest.length < fuel) :
    ∃ b' p', (dbNextrec fuel b).run exec (p, I.files) = (.ok (none, b'), p', I.files) ∧
      p'.acc = p.acc ∧ Behind I p'.idxpos [] := by
  obtain ⟨fuel', b', o', hb', hrun⟩ := run_nextrecLoop_skip (b := b) hr h hp hf
  rw [hs] at hb'
  have hend : (p.setPos .idx o').idxpos = I.idxBytes.length := hb'.end_eq
  have hloop : (nextrecLoop fuel b).run exec (p, I.files) =
      (.ok (false, { b' with idxoff := I.idxBytes.length }), p.setPos .idx o', I.files) := by
    rw [hrun, nextrecLoop, Prog.run_bind_ok (run_readidx_end (by simpa using hr) hend)]
    rfl
  refine ⟨{ b' with idxoff := I.idxBytes.length }, p.setPos .idx o', ?_, by simp, hb'⟩
  rw [dbNextrec, Prog.run_bind_ok (run_lock (t := .rd) hr), Prog.run_bind_ok hloop]
  exact Prog.run_bind_ok run_unlock _

theorem run_nextrec_shown (hst : I.Stock X) (h : Behind I o rest) (hp : p.idxpos = o)
    (hs : shown rest = r :: rest') (hsep : SEP ∉ r.key.1) (hf : rest.length < fuel) :
    ∃ b' p', (dbNextrec fuel b).run exec (p, I.files) = (.ok (some (pairOf I r), b'), p', I.files) ∧
      p'.acc = p.acc ∧ Behind I p'.idxpos rest' ∧ ∃ o', I.RecAt o' r ∧ p'.idxpos = I.endOf o' := by
  obtain ⟨fuel', b', o', hb', hrun⟩ := run_nextrecLoop_skip (b := b) hr h hp hf
  rw [hs] at hb'
  have hnb : ¬ IsBlank r.key := not_isBlank_of_shown hs
  have hall : ¬ (b'.load o' r).idxbuf.all (· == SPACE) = true := mt isBlank_iff.mpr hnb
  obtain ⟨d, hd, hlen⟩ := hst.blk hb'.recAt
  have hloop : (nextrecLoop fuel b).run exec (p, I.files) =
      (.ok (true, b'.load o' r), p.setPos .idx (o' + r.bytes.length), I.files) := by
    rw [hrun, nextrecLoop, Prog.run_bind_ok
      (run_readidx (p := p.setPos .idx o') (o := o') (by simpa using hr) (Or.inr ⟨rfl, rfl⟩)
        hb'.recAt hsep),
      Fds.setPos_setPos]
    dsimp only
    rw [if_neg (by omega), if_neg hall]
    rfl
  have hpair : pairOf I r = (r.key.1, d.1) := by rw [pairOf, hd]; rfl
  refine ⟨{ b'.load o' r with datbuf := d.1 },
    (p.setPos .idx (o' + r.bytes.length)).setPos .dat (r.datoff + r.datlen), ?_, by simp, hb'.next,
    o', hb'.recAt, hb'.recAt.endOf.symm⟩
  rw [hpair, dbNextrec, Prog.run_bind_ok (run_lock (t := .rd) hr), Prog.run_bind_ok hloop]
  dsimp only
  rw [if_pos rfl, Prog.bind_assoc, Prog.run_bind_ok
    (run_readdat (by simpa using hr) (b := b'.load o' r) hd hlen)]
  exact Prog.run_bind_ok run_unlock _

theorem run_nextrec_sep (h : Behind I o rest) (hp : p.idxpos = o)
    (hs : shown rest = r :: rest') (hsep : SEP ∈ r.key.1) (hf : rest.length < fuel) :
    ∃ p', (dbNextrec fuel b).run exec (p, I.files) = (.dump .readidxSep3, p', I.files) ∧
      p'.acc = p.acc := by
  obtain ⟨fuel', b', o', hb', hrun⟩ := run_nextrecLoop_skip (b := b) hr h hp hf
  rw [hs] at hb'
  have hloop : (nextrecLoop fuel b).run exec (p, I.files) =
      (.dump .readidxSep3, p.setPos .idx (o' + r.bytes.length), I.files) := by
    rw [hrun, nextrecLoop, Prog.run_bind_dump
      (run_readidx_sep (p := p.setPos .idx o') (o := o') (by simpa using hr) (Or.inr ⟨rfl, rfl⟩)
        hb'.recAt hsep),
      Fds.setPos_setPos]
  refine ⟨p.setPos .idx (o' + r.bytes.length), ?_, by simp⟩
  rw [dbNextrec, Prog.run_bind_ok (run_lock (t := .rd) hr), Prog.run_bind_dump hloop]

/-- `n` calls of `db_nextrec` return what the records behind the file offset show. -/
theorem run_nextrecs (hst : I.Stock X) (h : Behind I p.idxpos rest) (hf : rest.length < fuel)
    (n : ℕ) :
    ∃ b' p', (nextrecs fuel n b).run exec (p, I.files) =
      ((scanned I rest n).map (·, b'), p', I.files) ∧ p'.acc = p.acc := by
  induction n generalizing rest p b with
  | zero => exact ⟨b, p, rfl, rfl⟩
  | succ n ih =>
    cases hs : shown rest with
    | nil =>
      obtain ⟨b₁, p₁, hrun, hacc, hb⟩ := run_nextrec_end (b := b) hr h rfl hs hf
      obtain ⟨b', p', hrest, hacc'⟩ := ih (b := b₁) (hacc ▸ hr) hb (Nat.zero_lt_of_lt hf)
      refine ⟨b', p', ?_, hacc'.trans hacc⟩
      rw [nextrecs, Prog.run_bind_ok hrun, Prog.run_map, hrest, scanned_nil, scanned, hs]
      rfl
    | cons r rest' =>
      have hlen := length_shown_le rest
      rw [hs, List.length_cons] at hlen
      by_cases hsep : SEP ∈ r.key.1
      · obtain ⟨p', hrun, hacc⟩ := run_nextrec_sep (b := b) hr h rfl hs hsep hf
        refine ⟨b, p', ?_, hacc⟩
        rw [nextrecs, Prog.run_bind_dump hrun, scanned, hs]
        dsimp only
        rw [if_pos hsep]
        rfl
      · obtain ⟨b₁, p₁, hrun, hacc, hb, -⟩ := run_nextrec_shown (b := b) hr hst h rfl hs hsep hf
        obtain ⟨b', p', hrest, hacc'⟩ := ih (b := b₁) (hacc ▸ hr) hb (by omega)
        refine ⟨b', p', ?_, hacc'.trans hacc⟩
        rw [nextrecs, Prog.run_bind_ok hrun, Prog.run_map, hrest, scanned, hs]
        dsimp only
        rw [if_neg hsep, Out.map_map, Out.map_map]

end Nextrec

/-- The key and the data of each record whose key is not blank, in file order. -/
def livePairs (I : Image) (recs : List Rec) : List (List Byte × List Byte) :=
  (recs.filter fun r => ¬ IsBlank r.key).map (pairOf I)

theorem livePairs_shown (rest : List Rec) : livePairs I (shown rest) = livePairs I rest := by
  induction rest with
  | nil => rfl
  | cons r rest ih =>
    by_cases hb : IsBlank r.key
    · rw [shown, List.dropWhile_cons_of_pos (by simpa using hb)]
      simpa [livePairs, hb, shown] using ih
    · rw [shown, List.dropWhile_cons_of_neg (by simpa using hb)]

/-- Without separators in the keys, the calls return the live pairs and then NULL. -/
theorem scanned_clean (hs : ∀ r ∈ rest, SEP ∉ r.key.1) (n : ℕ) :
    scanned I rest n = .ok (((livePairs I rest).map some ++ List.replicate n none).take n) := by
  induction n generalizing rest with
  | zero => rfl
  | succ n ih =>
    rw [scanned, ← livePairs_shown]
    cases hsh : shown rest with
    | nil => simp [livePairs]
    | cons r rest' =>
      have hsub : ∀ q ∈ r :: rest', q ∈ rest := by
        intro q hq
        rw [← hsh] at hq
        exact (List.dropWhile_sublist _).mem hq
      have hnb := not_isBlank_of_shown hsh
      dsimp only
      rw [if_neg (hs r (hsub r (by simp))),
        ih fun q hq => hs q (hsub q (List.mem_cons_of_mem _ hq))]
      simp only [Out.map, livePairs, hnb, not_false_iff, decide_true, List.filter_cons_of_pos,
        List.map_cons, List.cons_append, List.take_succ_cons]
      rw [List.take_append, List.take_append, List.take_replicate, List.take_replicate,
        Nat.min_eq_left (Nat.sub_le _ _), Nat.min_eq_left ((Nat.sub_le _ _).trans (Nat.le_succ n))]

theorem Behind.mem (h : Behind I o rest) (hr : r ∈ rest) : ∃ o', o ≤ o' ∧ I.RecAt o' r := by
  induction rest generalizing o with
  | nil => simp at hr
  | cons q rest ih =>
    rcases List.mem_cons.mp hr with rfl | hr
    · exact ⟨o, le_rfl, h.recAt⟩
    · obtain ⟨o', hle, ho'⟩ := ih h.next hr
      exact ⟨o', by omega, ho'⟩

theorem length_le_bytes (recs : List Rec) : recs.length ≤ (recs.flatMap Rec.bytes).length := by
  induction recs with
  | nil => exact le_rfl
  | cons r recs ih =>
    have := r.length_bytes
    simp only [List.length_cons, List.flatMap_cons, List.length_append, ptrSz] at ih this ⊢
    omega

theorem Behind.length_le (h : Behind I o rest) : rest.length ≤ I.idxBytes.length := by
  obtain ⟨ptrs, pre, hc, -, -⟩ := h
  have := length_le_bytes rest
  rw [← bytes_records] at this
  simp only [Image.idxBytes, hc, List.map_append, Cells.bytes_append, List.length_append,
    Cells.bytes_cons]
  omega

theorem Behind.nodup (hst : I.Stock X) (h : Behind I o rest) : rest.Nodup := by
  induction rest generalizing o with
  | nil => exact List.nodup_nil
  | cons r rest ih =>
    refine List.nodup_cons.mpr ⟨fun hr => ?_, ih h.next⟩
    obtain ⟨o', hle, ho'⟩ := h.next.mem hr
    have := hst.inj h.recAt ho' rfl
    have := r.length_bytes
    simp only [ptrSz] at this
    omega

namespace Inv

theorem length_records (h : Inv I L X ∅ M) (hb : Behind I idxStart rest) :
    rest.length ≤ ptrMax := by
  rcases List.eq_nil_or_concat rest with rfl | ⟨pre, r, rfl⟩
  · exact Nat.zero_le _
  · obtain ⟨ptrs, pre₀, hc, hl, -⟩ := hb
    have ho : I.RecAt (idxStart + ((pre₀ ++ pre).flatMap Rec.bytes).length) r :=
      (recAt_iff hc hl).mpr ⟨pre₀ ++ pre, [], by simp, rfl⟩
    have hle : idxStart + ((pre₀ ++ pre).flatMap Rec.bytes).length ≤ ptrMax := by
      rcases (h.filed.isRec_iff _).mp ⟨r, ho⟩ with ⟨j, hj⟩ | hf | hY
      · exact h.node_le (i := some j) hj
      · exact h.node_le (i := none) hf
      · exact absurd hY (Set.notMem_empty _)
    have := length_le_bytes (pre₀ ++ pre)
    simp only [List.concat_eq_append, List.length_append, List.length_singleton, idxStart,
      nhashDef, ptrSz] at this hle ⊢
    omega

/-- A record is on the free list and blank, or it shows a pair of the map. -/
theorem record_cases (h : Inv I L X ∅ M) (ho : I.RecAt o r) :
    IsBlank r.key ∨ (∃ j, o ∈ L.chain j) ∧ ∃ d, I.blkAt r.datoff = some d ∧ M r.key = some d := by
  obtain ⟨d, hd, -⟩ := h.stock.blk ho
  rcases (h.filed.isRec_iff o).mp ⟨r, ho⟩ with ⟨j, hj⟩ | hf | hY
  · exact Or.inr ⟨⟨j, hj⟩, d, hd, h.present hj ho hd⟩
  · exact Or.inl (h.filed.free_blank hf ho)
  · exact absurd hY (Set.notMem_empty _)

theorem clean_records (h : Inv I L X ∅ M) (hc : M.Clean) (hb : Behind I o rest) :
    ∀ r ∈ rest, SEP ∉ r.key.1 := by
  intro r hr
  obtain ⟨o', -, ho'⟩ := hb.mem hr
  rcases h.record_cases ho' with hbl | ⟨-, d, -, hM⟩
  · exact not_sep_of_isBlank hbl
  · exact hc r.key (by simp [hM])

theorem mem_livePairs (h : Inv I L X ∅ M) (hk : M.Keys fun k => ¬ IsBlank k)
    (hb : Behind I idxStart rest) (k d : CStr) :
    (k.1, d.1) ∈ livePairs I rest ↔ M k = some d := by
  simp only [livePairs, List.mem_map, List.mem_filter, decide_not, Bool.not_eq_eq_eq_not,
    Bool.not_true, decide_eq_false_iff_not]
  constructor
  · rintro ⟨r, ⟨hr, hnb⟩, hpair⟩
    obtain ⟨o', -, ho'⟩ := hb.mem hr
    rcases h.record_cases ho' with hbl | ⟨-, d', hd', hM⟩
    · exact absurd hbl hnb
    · rw [pairOf, hd', Prod.mk.injEq] at hpair
      obtain rfl : r.key = k := Subtype.ext hpair.1
      obtain rfl : d' = d := Subtype.ext hpair.2
      exact hM
  · intro hM
    obtain ⟨j, o', r, -, ho', rfl, hd⟩ := (h.maps k d).mp hM
    obtain ⟨pre, post, rfl, -⟩ := hb.of_recAt ho'
    exact ⟨r, ⟨by simp, hk r.key (by simp [hM])⟩, by rw [pairOf, hd]; rfl⟩

theorem nodup_livePairs (h : Inv I L X ∅ M) (hb : Behind I idxStart rest) :
    ((livePairs I rest).map Prod.fst).Nodup := by
  rw [livePairs, List.map_map]
  refine List.Nodup.map_on (fun r hr r' hr' hk => ?_) ((hb.nodup h.stock).filter _)
  simp only [List.mem_filter, decide_not, Bool.not_eq_eq_eq_not, Bool.not_true,
    decide_eq_false_iff_not] at hr hr'
  obtain ⟨o, -, ho⟩ := hb.mem hr.1
  obtain ⟨o', -, ho'⟩ := hb.mem hr'.1
  have hkey : r.key = r'.key := Subtype.ext hk
  rcases h.record_cases ho with hbl | ⟨⟨j, hj⟩, -⟩
  · exact absurd hbl hr.2
  rcases h.record_cases ho' with hbl | ⟨⟨j', hj'⟩, -⟩
  · exact absurd hbl hr'.2
  obtain rfl : j = j' := by rw [← h.filed.hash hj ho, ← h.filed.hash hj' ho', hkey]
  obtain rfl := h.filed.key_inj hj hj' ho ho' hkey
  exact ho.unique ho'

end Inv

/-- A call other than an open. -/
def Op.Stays : Op → Prop
  | .reopen _ => False
  | _ => True

/-- A call other than an open, with a key that has no separator and is not blank. -/
def Op.Usual : Op → Prop
  | .fetch key | .store key _ _ | .delete key => SEP ∉ key.1 ∧ ¬ IsBlank key
  | .reopen _ => False

theorem Op.Usual.plain {op : Op} (h : op.Usual) : op.Plain := by
  cases op with
  | reopen oflag => exact h.elim
  | _ => exact h.1

theorem Op.Usual.stays {op : Op} (h : op.Usual) : op.Stays := by
  cases op with
  | reopen oflag => exact h
  | _ => trivial

theorem Op.Usual.stores {op : Op} (h : op.Usual) : op.Stores fun k => ¬ IsBlank k := by
  cases op with
  | store key data flag => exact h.2
  | _ => trivial

theorem Op.acc_eq {ops : List Op} (h : ∀ op ∈ ops, op.Stays) (acc : Access) :
    ops.foldl Op.acc acc = acc := by
  induction ops with
  | nil => rfl
  | cons op ops ih =>
    have hop : op.acc acc = acc := by
      cases op with
      | reopen oflag => exact False.elim (h (.reopen oflag) (by simp))
      | _ => rfl
    rw [List.foldl_cons, hop]
    exact ih fun op ho => h op (List.mem_cons_of_mem _ ho)

theorem run_scan (hst : I.Stock X) (hr : p.acc.readable = true) (hb : Behind I idxStart rest)
    (hf : rest.length < fuel) (n : ℕ) (b : DB) :
    ∃ b' p', (scan fuel n b).run exec (p, I.files) =
      ((scanned I rest n).map (·, b'), p', I.files) ∧ p'.acc = p.acc := by
  rw [scan, Prog.run_bind_ok run_rewind]
  obtain ⟨b', p', hrun, hacc⟩ := run_nextrecs (p := p.setPos .idx idxStart) (n := n)
    (b := { b with idxoff := idxStart }) (by simpa using hr) hst hb hf
  exact ⟨b', p', hrun, by simpa using hacc⟩

/-- Behind a session whose calls do not abort, a scan returns each live pair once, in file order,
and then NULL; the live pairs are those that fetches return. -/
theorem scan_complete (fuel : ℕ) (hf : ptrMax < fuel) (s : Fds × Files) (ops : List Op)
    (hops : ∀ op ∈ ops, op.Usual) (rs : List Res) (b : DB) (t : Fds × Files)
    (hrun : (newSession fuel ops).run exec s = (.ok (rs, b), t)) :
    ∃ I L recs, t.2 = I.files ∧ WellFormed I L recs ∧
      (∀ j, ∀ o ∈ L.chain j, ∀ r, RecordAt recs o r → ¬ IsBlank r.key) ∧
      (∀ n, ∃ b' u, (scan fuel n b).run exec t =
        (.ok (((livePairs I recs).map some ++ List.replicate n none).take n, b'), u)) ∧
      ((livePairs I recs).map Prod.fst).Nodup ∧
      ∀ k d : CStr, (k.1, d.1) ∈ livePairs I recs ↔
        ∃ b' u, (dbFetch fuel b k.1).run exec t = (.ok (some d.1, b'), u) := by
  obtain ⟨I, L, hfiles, h, hacc⟩ := newSession_ok hf (fun op ho => (hops op ho).plain) hrun
  rw [Op.acc_eq fun op ho => (hops op ho).stays] at hacc
  obtain ⟨p, f⟩ := t
  obtain rfl : f = I.files := hfiles
  have hr : p.acc.readable = true := by rw [show p.acc = .rdwr from hacc]; rfl
  have hclean : (Map.empty.after ops).Clean :=
    (Map.keys_empty _).after fun op ho => (hops op ho).plain.stores
  have hshown : (Map.empty.after ops).Keys fun k => ¬ IsBlank k :=
    (Map.keys_empty _).after fun op ho => (hops op ho).stores
  obtain ⟨recs, hb, hwf⟩ := h.wellFormed
  refine ⟨I, L, recs, rfl, hwf, fun j o ho r hro => ?_, fun n => ?_, h.nodup_livePairs hb,
    fun k d => ?_⟩
  · obtain ⟨d, hd, -⟩ := h.stock.blk ((hwf.recAt o r).mpr hro)
    exact hshown r.key (by simp [h.present ho ((hwf.recAt o r).mpr hro) hd])
  · obtain ⟨b', p', hscan, -⟩ := run_scan h.stock hr hb ((h.length_records hb).trans_lt hf) n b
    exact ⟨b', _, by rw [hscan, scanned_clean (h.clean_records hclean hb)]; rfl⟩
  · rw [h.mem_livePairs hshown hb]
    obtain ⟨out, p', hfetch, -, ⟨b', rfl⟩ | ⟨-, hno⟩⟩ := fetch_spec (b := b) h hf hr k
    · rw [hfetch]
      constructor
      · intro hM
        exact ⟨b', _, by rw [Map.fetch, hM]; rfl⟩
      · rintro ⟨b₁, u, he⟩
        simp only [Prod.mk.injEq, Out.ok.injEq, Map.fetch, Option.map_eq_some_iff] at he
        obtain ⟨⟨⟨d', hd', hdd⟩, -⟩, -⟩ := he
        rw [hd', Subtype.ext hdd]
    · exact absurd hclean hno

theorem sampleOps_usual : ∀ op ∈ sampleOps, op.Usual := by
  intro op hop
  simp only [sampleOps, List.mem_cons, List.not_mem_nil, or_false] at hop
  rcases hop with rfl | rfl | rfl
  · exact ⟨show SEP ∉ keyA.1 by decide, show ¬ IsBlank keyA by decide⟩
  · exact ⟨show SEP ∉ keyB.1 by decide, show ¬ IsBlank keyB by decide⟩
  · exact ⟨show SEP ∉ keyA.1 by decide, show ¬ IsBlank keyA by decide⟩

theorem scan_sample : ∃ rs b t, (newSession 100000 sampleOps).run exec noFiles = (.ok (rs, b), t) ∧
    ∃ I recs, t.2 = Image.files I ∧ ∀ n, ∃ b' u, (scan 100000 n b).run exec t =
      (.ok (((livePairs I recs).map some ++ List.replicate n none).take n, b'), u) := by
  obtain ⟨b, t, hrun⟩ := run_sample
  obtain ⟨I, L, recs, hfiles, -, -, hscan, -⟩ :=
    scan_complete 100000 (by decide) noFiles sampleOps sampleOps_usual _ b t hrun
  exact ⟨_, b, t, hrun, I, recs, hfiles, hscan⟩

end Somenote.Db
