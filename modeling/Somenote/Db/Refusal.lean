import Somenote.Db.Reachable
import Somenote.Db.Scan

/-! # Refused stores

The limit checks of a store run behind earlier writes of the same store. What a process
that opens the database afterwards sees is as before, except after a replacement, whose
deletion has reached the files, and after a record that was appended behind the largest
pointer, which a scan shows and a fetch does not find.
-/

namespace Somenote.Db

/-- The limit checks of the module on the arguments of a store. -/
def Err.IsLimit : Err → Prop
  | storeDatlen | writeidxLen | writeidxPtr | writeptrPtr => True
  | _ => False

/-- The flags of a call of `db_open` for reading. -/
def OFlag.read : OFlag := ⟨.rdonly, false, false, false⟩

/-- What calls return to a process that opens the database. -/
def seen {α : Type} (body : DB → DbProg (α × DB)) (f : Files) : Out Err α :=
  ((do
    let h ← dbOpen .read
    body (h.getD dbAlloc) : DbProg (α × DB)).run exec (⟨.rdonly, 0, 0⟩, f)).1.map Prod.fst

def seenFetch (fuel : ℕ) (k : CStr) (f : Files) : Out Err (Option (List Byte)) :=
  seen (fun db => dbFetch fuel db k.1) f

def seenScan (fuel n : ℕ) (f : Files) : Out Err (List (Option (List Byte × List Byte))) :=
  seen (scan fuel n) f

/-- The fetches of all keys, and the scans of all lengths, return the same. -/
def SameView (fuel : ℕ) (f f' : Files) : Prop :=
  (∀ k, seenFetch fuel k f = seenFetch fuel k f') ∧ ∀ n, seenScan fuel n f = seenScan fuel n f'

variable {I I' : Image} {L : Lists} {X X' Y Y' : Set ℕ} {M M' : Map} {fuel o : ℕ} {r : Rec}
  {k d : CStr} {l m : List ℕ} {recs : List Rec} {n : ℕ}

theorem seen_files {α : Type} (body : DB → DbProg (α × DB)) (I : Image) :
    seen body I.files = ((body { dbAlloc with idxoff := idxStart }).run exec
      (Fds.opened .rdonly, I.files)).1.map Prod.fst := by
  have hkeeps : OFlag.read.Keeps := ⟨rfl, rfl⟩
  have hrun := run_reopen (p := ⟨.rdonly, 0, 0⟩) hkeeps (I := I)
  rw [seen, Prog.run_bind_ok hrun]
  rfl

theorem seenFetch_found (hs : I.Shape) (hlink : Linked 0 I.next (slot (dbHash k)) (l ++ o :: m))
    (hl : ∀ x ∈ l, I.Passes k x) (ho : I.RecAt o r) (hsep : SEP ∉ r.key.1) (hk : r.key = k)
    (hd : I.blkAt r.datoff = some d) (hlen : r.datlen = d.1.length + 1) (hf : l.length < fuel) :
    seenFetch fuel k I.files = .ok (some d.1) := by
  obtain ⟨b', hrun⟩ := run_fetch_hit (p := Fds.opened .rdonly)
    (b := { dbAlloc with idxoff := idxStart }) rfl hs hlink hl ho hsep hk hf hd hlen
  rw [seenFetch, seen_files, hrun]
  rfl

section Fetch

variable (h : Inv I L X Y M) (hf : ptrMax < fuel)
include h hf

theorem seenFetch_miss (hl : ∀ x ∈ L.chain (dbHash k), I.Passes k x) :
    seenFetch fuel k I.files = .ok none := by
  obtain ⟨b', hrun⟩ := run_fetch_miss (p := Fds.opened .rdonly)
    (b := { dbAlloc with idxoff := idxStart }) rfl h.shape (h.linked (some (dbHash k))) hl
    ((h.length_le (some (dbHash k))).trans_lt hf)
  rw [seenFetch, seen_files, hrun]
  rfl

theorem seenFetch_hit (hc : L.chain (dbHash k) = l ++ o :: m) (hl : ∀ x ∈ l, I.Passes k x)
    (ho : I.RecAt o r) (hs : SEP ∉ r.key.1) (hk : r.key = k) (hd : I.blkAt r.datoff = some d)
    (hlen : r.datlen = d.1.length + 1) : seenFetch fuel k I.files = .ok (some d.1) := by
  obtain ⟨hlink, hle⟩ := h.walk_to hf hc
  exact seenFetch_found h.shape hlink hl ho hs hk hd hlen hle

theorem seenFetch_sep (hc : L.chain (dbHash k) = l ++ o :: m) (hl : ∀ x ∈ l, I.Passes k x)
    (ho : I.RecAt o r) (hs : SEP ∈ r.key.1) : seenFetch fuel k I.files = .dump .readidxSep3 := by
  obtain ⟨hlink, hle⟩ := h.walk_to hf hc
  rw [seenFetch, seen_files, run_fetch_sep rfl h.shape hlink hl ho hs hle]
  rfl

theorem seenFetch_absent (hM : M k = none) : seenFetch fuel k I.files ≠ .ok (some d.1) := by
  cases h.search k with
  | miss hl _ =>
    rw [seenFetch_miss h hf hl]
    simp
  | hit _ _ _ _ _ _ _ hM' => simp [hM] at hM'
  | sep hc hl ho hs _ =>
    rw [seenFetch_sep h hf hc hl ho hs]
    simp

/-- Fetches see the same after writes that keep the lists, their records and the data. -/
theorem seenFetch_congr (h' : Inv I' L X' Y' M')
    (hrec : ∀ {j o}, o ∈ L.chain j → I'.cellAt o = I.cellAt o)
    (hblk : ∀ {a d}, I.blkAt a = some d → I'.blkAt a = some d) (k : CStr) :
    seenFetch fuel k I.files = seenFetch fuel k I'.files := by
  have hpass : ∀ {x}, x ∈ L.chain (dbHash k) → I.Passes k x → I'.Passes k x := by
    rintro x hx ⟨r, hr, hne⟩
    exact ⟨r, (hrec hx).trans hr, hne⟩
  cases h.search k with
  | miss hl _ => rw [seenFetch_miss h hf hl, seenFetch_miss h' hf fun x hx => hpass hx (hl x hx)]
  | @hit l o m r d hc hl ho hs hk hd hlen _ =>
    have hsub : ∀ x ∈ l, x ∈ L.chain (dbHash k) := by
      rw [hc]
      exact fun x => List.mem_append_left _
    have ho' : I'.RecAt o r := (hrec (j := dbHash k) (by rw [hc]; simp)).trans ho
    rw [seenFetch_hit h hf hc hl ho hs hk hd hlen, seenFetch_hit h' hf hc
      (fun x hx => hpass (hsub x hx) (hl x hx)) ho' hs hk (hblk hd) hlen]
  | @sep l o m r d hc hl ho hs _ =>
    have hsub : ∀ x ∈ l, x ∈ L.chain (dbHash k) := by
      rw [hc]
      exact fun x => List.mem_append_left _
    have ho' : I'.RecAt o r := (hrec (j := dbHash k) (by rw [hc]; simp)).trans ho
    rw [seenFetch_sep h hf hc hl ho hs, seenFetch_sep h' hf hc
      (fun x hx => hpass (hsub x hx) (hl x hx)) ho' hs]

end Fetch

section Scan

theorem seenScan_eq (hst : I.Stock X) (hb : Behind I idxStart recs) (hf : recs.length < fuel)
    (n : ℕ) : seenScan fuel n I.files = scanned I recs n := by
  obtain ⟨b', p', hrun, -⟩ := run_scan (p := Fds.opened .rdonly) hst rfl hb hf n
    { dbAlloc with idxoff := idxStart }
  rw [seenScan, seen_files, hrun, Out.map_map]
  cases scanned I recs n <;> rfl

theorem shown_append {pre post : List Rec} (h : shown pre ≠ []) :
    shown (pre ++ post) = shown pre ++ post := by
  induction pre with
  | nil => exact absurd rfl h
  | cons r pre ih =>
    by_cases hb : IsBlank r.key
    · simp only [shown, List.cons_append, List.dropWhile_cons, hb, decide_true, if_true] at h ih ⊢
      exact ih h
    · simp only [shown, List.cons_append, List.dropWhile_cons, hb, decide_false, Bool.false_eq_true,
        if_false]

theorem shown_blank (hb : IsBlank r.key) : shown [r] = [] := by
  simp [shown, hb]

theorem shown_append_blank (h : shown recs = []) (hb : IsBlank r.key) :
    shown (recs ++ [r]) = [] := by
  induction recs with
  | nil => exact shown_blank hb
  | cons q recs ih =>
    by_cases hq : IsBlank q.key
    · simp only [shown, List.cons_append, List.dropWhile_cons, hq, decide_true, if_true] at h ih ⊢
      exact ih h
    · simp [shown, hq] at h

theorem mem_shown {q : Rec} (hq : q ∈ recs) (hs : SEP ∈ q.key.1) : q ∈ shown recs := by
  induction recs with
  | nil => simp at hq
  | cons r recs ih =>
    by_cases hb : IsBlank r.key
    · rw [shown, List.dropWhile_cons_of_pos (by simpa using hb)]
      rcases List.mem_cons.mp hq with rfl | hq
      · exact absurd hs (not_sep_of_isBlank hb)
      · exact ih hq
    · rw [shown, List.dropWhile_cons_of_neg (by simpa using hb)]
      exact hq

theorem scanned_congr (h : ∀ r ∈ recs, pairOf I' r = pairOf I r) (n : ℕ) :
    scanned I' recs n = scanned I recs n := by
  induction n generalizing recs with
  | zero => rfl
  | succ n ih =>
    rw [scanned, scanned]
    cases hs : shown recs with
    | nil => rfl
    | cons r rest =>
      have hsub : ∀ q ∈ r :: rest, q ∈ recs := by
        intro q hq
        rw [← hs] at hq
        exact (List.dropWhile_sublist _).mem hq
      dsimp only
      rw [h r (hsub r (by simp)), ih fun q hq => h q (hsub q (by simp [hq]))]

theorem scanned_append_blank (hb : IsBlank r.key) (n : ℕ) :
    scanned I (recs ++ [r]) n = scanned I recs n := by
  induction n generalizing recs with
  | zero => rfl
  | succ n ih =>
    cases hs : shown recs with
    | nil => rw [scanned, scanned, hs, shown_append_blank hs hb]
    | cons q rest =>
      have happ : shown (recs ++ [r]) = q :: (rest ++ [r]) := by
        rw [shown_append (by simp [hs]), hs]
        rfl
      rw [scanned, scanned, hs, happ]
      dsimp only
      rw [ih]

/-- Nothing behind a key with a separator is seen. -/
theorem scanned_append_sep {q : Rec} (hq : q ∈ recs) (hs : SEP ∈ q.key.1) (post : List Rec)
    (n : ℕ) : scanned I (recs ++ post) n = scanned I recs n := by
  induction n generalizing recs with
  | zero => rfl
  | succ n ih =>
    have hmem := mem_shown hq hs
    cases hsh : shown recs with
    | nil => simp [hsh] at hmem
    | cons r rest =>
      have happ : shown (recs ++ post) = r :: (rest ++ post) := by
        rw [shown_append (by simp [hsh]), hsh]
        rfl
      rw [scanned, scanned, hsh, happ]
      dsimp only
      by_cases hr : SEP ∈ r.key.1
      · rw [if_pos hr, if_pos hr]
      · rw [hsh, List.mem_cons] at hmem
        rcases hmem with rfl | hmem
        · exact absurd hs hr
        · rw [ih hmem]

theorem scanned_dump {q : Rec} (hq : q ∈ recs) (hs : SEP ∈ q.key.1) (hn : recs.length ≤ n) :
    scanned I recs n = .dump .readidxSep3 := by
  induction n generalizing recs with
  | zero =>
    rw [Nat.le_zero, List.length_eq_zero_iff] at hn
    simp [hn] at hq
  | succ n ih =>
    have hmem := mem_shown hq hs
    have hlen := length_shown_le recs
    rw [scanned]
    cases hsh : shown recs with
    | nil => simp [hsh] at hmem
    | cons r rest =>
      rw [hsh, List.length_cons] at hlen
      dsimp only
      by_cases hr : SEP ∈ r.key.1
      · rw [if_pos hr]
      · rw [hsh, List.mem_cons] at hmem
        rcases hmem with rfl | hmem
        · exact absurd hs hr
        · rw [if_neg hr, ih hmem (by omega)]
          rfl

end Scan

section Refused

variable (h : Inv I L X Y M) (hf : ptrMax < fuel) (hb : Behind I idxStart recs)
include h hf hb

theorem sameView_addBlk (hlen : recs.length < fuel) (d : CStr) :
    SameView fuel I.files (I.addBlk d).files := by
  have hblk : ∀ {a d'}, I.blkAt a = some d' → (I.addBlk d).blkAt a = some d' := by
    intro a d' hd'
    rw [Image.blkAt_addBlk, if_neg (Image.blkAt_lt hd').ne, hd']
  constructor
  · exact seenFetch_congr h hf (h.addBlk d) (fun _ => rfl) hblk
  · intro n
    have hb' : Behind (I.addBlk d) idxStart recs := hb
    rw [seenScan_eq h.stock hb hlen, seenScan_eq (h.addBlk d).stock hb' hlen]
    refine (scanned_congr (fun r hr => ?_) n).symm
    obtain ⟨o, -, ho⟩ := hb.mem hr
    obtain ⟨d', hd', -⟩ := h.stock.blk ho
    rw [pairOf, pairOf, hblk hd', hd']

theorem sameView_addRec (hlen : recs.length + 1 < fuel) (hoff : r.datoff = I.datBytes.length)
    (hdl : r.datlen = d.1.length + 1) :
    SameView fuel I.files ((I.addBlk d).addRec r).files ↔
      IsBlank r.key ∨ ∃ n e, seenScan fuel n I.files = .dump e := by
  have h' := h.added hoff hdl
  have hblk : ∀ {a d'}, I.blkAt a = some d' → ((I.addBlk d).addRec r).blkAt a = some d' := by
    intro a d' hd'
    rw [Image.blkAt_addRec, Image.blkAt_addBlk, if_neg (Image.blkAt_lt hd').ne, hd']
  have hb' : Behind ((I.addBlk d).addRec r) idxStart (recs ++ [r]) := hb.append
  have hpair : ∀ q ∈ recs, pairOf ((I.addBlk d).addRec r) q = pairOf I q := by
    intro q hq
    obtain ⟨o, -, ho⟩ := hb.mem hq
    obtain ⟨d', hd', -⟩ := h.stock.blk ho
    rw [pairOf, pairOf, hblk hd', hd']
  have hseen : ∀ n, seenScan fuel n I.files = scanned ((I.addBlk d).addRec r) recs n := fun n =>
    (seenScan_eq h.stock hb (by omega) n).trans (scanned_congr hpair n).symm
  have hseen' : ∀ n, seenScan fuel n ((I.addBlk d).addRec r).files =
      scanned ((I.addBlk d).addRec r) (recs ++ [r]) n := fun n =>
    seenScan_eq h'.stock hb' (by simpa using hlen) n
  have hfetch : ∀ k, seenFetch fuel k I.files = seenFetch fuel k ((I.addBlk d).addRec r).files := by
    refine seenFetch_congr h hf h' (fun {j o} ho => ?_) hblk
    obtain ⟨q, hq⟩ := h.filed.rec_chain ho
    exact (Image.cellAt_addRec_of_some (I := I.addBlk d) hq).trans hq.symm
  constructor
  · rintro ⟨-, hscan⟩
    by_contra hno
    obtain ⟨hnb, hok⟩ := not_or.mp hno
    have hclean : ∀ q ∈ recs ++ [r], SEP ∉ q.key.1 := by
      intro q hq hs
      refine hok ⟨(recs ++ [r]).length, .readidxSep3, ?_⟩
      rw [hscan, hseen']
      exact scanned_dump hq hs le_rfl
    have hlive : livePairs ((I.addBlk d).addRec r) (recs ++ [r]) =
        livePairs ((I.addBlk d).addRec r) recs ++ [pairOf ((I.addBlk d).addRec r) r] := by
      simp [livePairs, hnb]
    have heq := hscan ((livePairs ((I.addBlk d).addRec r) recs).length + 1)
    rw [hseen, hseen', scanned_clean fun q hq => hclean q (by simp [hq]), scanned_clean hclean,
      hlive] at heq
    simp [List.take_append, List.take_replicate] at heq
  · intro hcase
    refine ⟨hfetch, fun n => ?_⟩
    rw [hseen, hseen']
    rcases hcase with hblank | ⟨n₀, e, hdump⟩
    · exact (scanned_append_blank hblank n).symm
    · by_cases hclean : ∀ q ∈ recs, SEP ∉ q.key.1
      · rw [hseen, scanned_clean hclean] at hdump
        cases hdump
      · push Not at hclean
        obtain ⟨q, hq, hs⟩ := hclean
        exact (scanned_append_sep hq hs [r] n).symm

end Refused

/-- A store that ends in a limit check loses nothing, unless it replaces data of another length,
or it has appended a record that scans see. -/
theorem refused_store_iff {fuel : ℕ} {f f' : Files} {b : DB} {p p' : Fds} {k d : CStr} {flag : ℤ}
    {e : Err} (hreach : Reachable (fun _ => True) f) (hf : ptrMax < fuel)
    (hlen : (f'.bytes .idx).length < fuel)
    (hrun : (dbStore fuel b k.1 d.1 flag).run exec (p, f) = (.dump e, p', f')) (he : e.IsLimit) :
    SameView fuel f f' ↔ ¬ DatlenOk d ∨ seenFetch fuel k f = .ok none ∧
      (¬ Fits f k d ∨ IsBlank k ∨ ∃ n e, seenScan fuel n f = .dump e) := by
  obtain ⟨I, L, X, Y, M, rfl, h, -⟩ := hreach.valid
  have hrefl : SameView fuel I.files I.files := ⟨fun _ => rfl, fun _ => rfl⟩
  obtain ⟨recs, hb⟩ := h.shape.behind
  by_cases hrw : p.acc.writable = false ∨ p.acc.readable = false
  · obtain ⟨out, q, hrun', hend⟩ := store_denied fuel b I.files hrw M k d flag
    rw [hrun, Prod.mk.injEq, Prod.mk.injEq] at hrun'
    obtain ⟨rfl, -, rfl⟩ := hrun'
    rcases hend with ⟨he', -⟩ | ⟨e', he', hacc | ⟨-, hd⟩⟩
    · cases he'
    · cases he'
      cases e <;> first | exact he.elim | exact hacc.elim
    · exact ⟨fun _ => Or.inl hd, fun _ => hrefl⟩
  obtain ⟨hw, hr⟩ : p.acc.writable = true ∧ p.acc.readable = true := by simpa using hrw
  obtain ⟨out, q, I', hrun', -, hend⟩ := store_spec (b := b) h hf hr hw k d flag
  rw [hrun, Prod.mk.injEq, Prod.mk.injEq] at hrun'
  obtain ⟨rfl, -, rfl⟩ := hrun'
  cases hend with
  | datlen hd => exact ⟨fun _ => Or.inl hd, fun _ => hrefl⟩
  | sep _ _ => exact he.elim
  | absent hd hl hM href =>
    have hnone := seenFetch_miss h hf hl
    cases href with
    | len hfit =>
      have hle : recs.length < fuel := hb.length_le.trans_lt hlen
      exact ⟨fun _ => Or.inr ⟨hnone, Or.inl hfit⟩, fun _ => sameView_addBlk h hf hb hle d⟩
    | @ptr r hk hoff hdl hbig =>
      subst hk
      have hfit : Fits I.files r.key d := by
        have hge := r.text_ge
        have hle := r.text_le
        rw [Rec.text, hoff, hdl] at hge hle
        exact ⟨hge, hle⟩
      have hle : recs.length + 1 < fuel := by
        have := (hb.append (d := d) (r := r)).length_le
        rw [List.length_append, List.length_singleton] at this
        exact this.trans_lt hlen
      rw [sameView_addRec h hf hb hle hoff hdl]
      simp [hd, hnone, hfit]
  | present hd hc hl ho hs hk hd₀ hdl hne h₁ hY href =>
    have hsome := seenFetch_hit h hf hc hl ho hs hk hd₀ hdl
    constructor
    · rintro ⟨hfetch, -⟩
      obtain ⟨X', Y', h', -⟩ := href.inv h₁
      exact absurd ((hfetch k).symm.trans hsome) (seenFetch_absent h' hf (Function.update_self ..))
    · rintro (hno | ⟨hnone, -⟩)
      · exact absurd hd hno
      · rw [hsome] at hnone
        cases hnone

section Sample

/-- The longest key that can be stored with nine bytes of data in an empty database. -/
def keyLong : CStr := ⟨List.replicate 1018 97, fun h => absurd (List.eq_of_mem_replicate h) (by decide)⟩

def dataNine : CStr := ⟨List.replicate 9 120, by decide⟩
def dataTen : CStr := ⟨List.replicate 10 120, by decide⟩

/-- The database before a replacement that is refused. -/
def replaced : Fds × Files :=
  ((newSession 100000 [.store keyLong dataNine Flag.dbInsert]).run exec noFiles).2

/-- The replacement, with a data offset of one more digit. -/
def replacement : Out Err (ℤ × DB) × Fds × Files :=
  (dbStore 100000 dbAlloc keyLong.1 dataTen.1 Flag.dbReplace).run exec replaced

theorem replaced_reachable : Reachable (fun _ => True) replaced.2 := by
  unfold replaced
  exact newSession_reachable (by decide) (by simp [Op.Stores, Op.Opens]) noFiles

set_option maxRecDepth 100000 in
/-- What the replacement leaves. -/
theorem replacement_outcome : replacement.1 = .dump .writeidxLen ∧
    (replacement.2.2.bytes .idx).length < 100000 ∧
    seenFetch 100000 keyLong replaced.2 = .ok (some dataNine.1) ∧
    seenFetch 100000 keyLong replacement.2.2 = .ok none := by
  decide +kernel

/-- The refused replacement has deleted the old value. -/
theorem refused_store_loses :
    Reachable (fun _ => True) replaced.2 ∧ replacement.1 = .dump .writeidxLen ∧
      Err.IsLimit .writeidxLen ∧ ¬ SameView 100000 replaced.2 replacement.2.2 := by
  obtain ⟨hrefused, -, hbefore, hafter⟩ := replacement_outcome
  refine ⟨replaced_reachable, hrefused, trivial, fun ⟨hfetch, _⟩ => ?_⟩
  have := (hbefore.symm.trans (hfetch keyLong)).trans hafter
  simp at this

theorem refused_store_sample :
    SameView 100000 replaced.2 replacement.2.2 ↔
      ¬ DatlenOk dataTen ∨ seenFetch 100000 keyLong replaced.2 = .ok none ∧
        (¬ Fits replaced.2 keyLong dataTen ∨ IsBlank keyLong ∨
          ∃ n e, seenScan 100000 n replaced.2 = .dump e) := by
  obtain ⟨hrefused, hlen, -⟩ := replacement_outcome
  have hpair : ∀ {x : Out Err (ℤ × DB) × Fds × Files} {a}, x.1 = a → x = (a, x.2.1, x.2.2) := by
    rintro x _ rfl
    rfl
  have hrun : (dbStore 100000 dbAlloc keyLong.1 dataTen.1 Flag.dbReplace).run exec
      (replaced.1, replaced.2) = (.dump .writeidxLen, replacement.2.1, replacement.2.2) := by
    have h := hpair hrefused
    unfold replacement at h ⊢
    rw [Prod.mk.eta]
    exact h
  exact refused_store_iff replaced_reachable (by decide) hlen hrun trivial

end Sample

end Somenote.Db
