import Mathlib.Data.Set.Insert
import Somenote.Db.Access
import Somenote.Lists.Linked

/-! # Where the records are

The records of an index file and the blocks of the data file belong together, and each
record is on one hash chain, on the free list, or in the hands of the operation that
took it off one list and has not put it on another. These facts hold at every moment;
each single write and each move of a record keeps them.
-/

namespace Somenote.Db

/-- The offset of the pointer that starts a hash chain. -/
def slot (j : Fin nhashDef) : ℕ := j.val * ptrSz + hashOff

theorem slot_injective : Function.Injective slot := by
  intro i j h
  simp only [slot, ptrSz, hashOff] at h
  exact Fin.ext (by omega)

theorem slot_ne_free (j : Fin nhashDef) : slot j ≠ freeOff := by
  simp only [slot, ptrSz, hashOff, freeOff]
  omega

namespace Image

def RecAt (I : Image) (o : ℕ) (r : Rec) : Prop := I.cellAt o = some (.record r)

def IsRec (I : Image) (o : ℕ) : Prop := ∃ r, I.RecAt o r

/-- 138 pointers, a newline, and index records. -/
def Shape (I : Image) : Prop :=
  ∃ n, I.cells.map Cell.kind =
    List.replicate (nhashDef + 1) .ptr ++ .nl :: List.replicate n .record

/-- Each record has a block of its own, and each other block is in `X`. -/
structure Stock (I : Image) (X : Set ℕ) : Prop where
  blk : ∀ {o r}, I.RecAt o r → ∃ d, I.blkAt r.datoff = some d ∧ r.datlen = d.1.length + 1
  inj : ∀ {o o' r r'}, I.RecAt o r → I.RecAt o' r' → r.datoff = r'.datoff → o = o'
  cover : ∀ {a d}, I.blkAt a = some d → a ∈ X ∨ ∃ o r, I.RecAt o r ∧ r.datoff = a
  extra : ∀ {a}, a ∈ X → (∃ d, I.blkAt a = some d) ∧ ∀ {o r}, I.RecAt o r → r.datoff ≠ a

variable {I I' : Image} {o o' a : ℕ} {r r' : Rec} {d d' : CStr} {v w : Ptr} {X : Set ℕ}

theorem RecAt.unique (h : I.RecAt o r) (h' : I.RecAt o r') : r = r' := by
  simpa using h.symm.trans h'

theorem RecAt.next (h : I.RecAt o r) : I.next o = r.ptr := next_rec h

theorem RecAt.hasPtr (h : I.RecAt o r) : I.HasPtr o r.ptr := hasPtr_rec h

section Shape

theorem cellAt_of_widths {l : List Cell} {i : ℕ} {c : Cell} (hi : l[i]? = some c)
    (hl : ∀ k < i, ∀ c, l[k]? = some c → c.bytes.length = ptrSz) :
    Cells.cellAt Cell.bytes l (i * ptrSz) = some c := by
  induction i generalizing l with
  | zero =>
    cases l with
    | nil => simp at hi
    | cons b l => simpa [Cells.cellAt] using hi
  | succ i ih =>
    cases l with
    | nil => simp at hi
    | cons b l =>
      have hb : b.bytes.length = ptrSz := hl 0 (by omega) b rfl
      rw [Cells.cellAt, hb, if_neg (by simp only [ptrSz]; omega),
        if_neg (by simp only [ptrSz]; omega),
        show (i + 1) * ptrSz - ptrSz = i * ptrSz by simp only [ptrSz]; omega]
      exact ih (by simpa using hi) fun k hk c hc => hl (k + 1) (by omega) c (by simpa using hc)

theorem Shape.kind_lt (h : I.Shape) {i : ℕ} (hi : i < nhashDef + 1) :
    ∃ v, I.cells[i]? = some (.ptr v) := by
  obtain ⟨n, hn⟩ := h
  have hk : (I.cells.map Cell.kind)[i]? = some .ptr := by
    rw [hn, List.getElem?_append_left (by simpa using hi), List.getElem?_replicate, if_pos hi]
  rw [List.getElem?_map, Option.map_eq_some_iff] at hk
  obtain ⟨c, hc, hp⟩ := hk
  cases c with
  | ptr v => exact ⟨v, hc⟩
  | nl => simp [Cell.kind] at hp
  | record r => simp [Cell.kind] at hp

theorem Shape.ptr (h : I.Shape) {i : ℕ} (hi : i < nhashDef + 1) :
    ∃ v, I.cellAt (i * ptrSz) = some (.ptr v) := by
  obtain ⟨v, hv⟩ := h.kind_lt hi
  refine ⟨v, cellAt_of_widths hv fun k hk c hc => ?_⟩
  obtain ⟨w, hw⟩ := h.kind_lt (hk.trans hi)
  obtain rfl : Cell.ptr w = c := by simpa using hw.symm.trans hc
  exact length_ptrField w

theorem Shape.slot (h : I.Shape) (j : Fin nhashDef) : ∃ v, I.cellAt (slot j) = some (.ptr v) := by
  have hj := j.isLt
  have he : Db.slot j = (j.val + 1) * ptrSz := (Nat.succ_mul _ _).symm
  rw [he]
  exact h.ptr (by omega)

theorem Shape.free (h : I.Shape) : ∃ v, I.cellAt freeOff = some (.ptr v) := by
  simpa using h.ptr (i := 0) (by decide)

theorem Shape.slot_hasPtr (h : I.Shape) (j : Fin nhashDef) : ∃ v, I.HasPtr (Db.slot j) v := by
  obtain ⟨v, hv⟩ := h.slot j
  exact ⟨v, _, hv, rfl⟩

theorem Shape.free_hasPtr (h : I.Shape) : ∃ v, I.HasPtr freeOff v := by
  obtain ⟨v, hv⟩ := h.free
  exact ⟨v, _, hv, rfl⟩

theorem Shape.slot_ne (h : I.Shape) (j : Fin nhashDef) (ho : I.RecAt o r) : Db.slot j ≠ o := by
  rintro rfl
  obtain ⟨v, hv⟩ := h.slot j
  simpa using hv.symm.trans ho

theorem Shape.free_ne (h : I.Shape) (ho : I.RecAt o r) : freeOff ≠ o := by
  rintro rfl
  obtain ⟨v, hv⟩ := h.free
  simpa using hv.symm.trans ho

theorem Shape.putCell (h : I.Shape) {c c' : Cell} (hc : I.cellAt o = some c)
    (hk : c'.kind = c.kind) : (I.putCell o c').Shape := by
  obtain ⟨n, hn⟩ := h
  exact ⟨n, (Cells.put_map hc hk).trans hn⟩

theorem Shape.setPtr (h : I.Shape) (hv : I.HasPtr o v) (w : Ptr) : (I.setPtr o w).Shape := by
  obtain ⟨c, hc, -⟩ := hv
  rw [setPtr_eq hc]
  exact h.putCell hc (c.kind_withPtr w)

theorem Shape.addRec (h : I.Shape) (r : Rec) : (I.addRec r).Shape := by
  obtain ⟨n, hn⟩ := h
  refine ⟨n + 1, ?_⟩
  simp only [Image.addRec, List.map_append, hn, List.append_assoc, List.cons_append,
    List.replicate_succ' (n := n)]
  rfl

end Shape

section Updates

theorem recAt_setPtr (hv : I.HasPtr o v) (w : Ptr) (o' : ℕ) (r' : Rec) :
    (I.setPtr o w).RecAt o' r' ↔
      if o' = o then ∃ r, I.RecAt o r ∧ r' = r.withPtr w else I.RecAt o' r' := by
  obtain ⟨c, hc, hv⟩ := hv
  simp only [RecAt, cellAt_setPtr hc]
  split_ifs with ho
  · cases c with
    | ptr u => simp [hc, Cell.withPtr]
    | nl => simp [hc, Cell.withPtr]
    | record r => simp [hc, Cell.withPtr, eq_comm]
  · rfl

theorem RecAt.setPtr (h : I.RecAt o' r) (hv : I.HasPtr o v) (w : Ptr) :
    (I.setPtr o w).RecAt o' (if o' = o then r.withPtr w else r) := by
  rw [recAt_setPtr hv]
  split_ifs with ho
  · exact ⟨r, ho ▸ h, rfl⟩
  · exact h

theorem RecAt.of_setPtr (hv : I.HasPtr o v) {w : Ptr} (h : (I.setPtr o w).RecAt o' r') :
    ∃ r, I.RecAt o' r ∧ r.key = r'.key ∧ r.datoff = r'.datoff ∧ r.datlen = r'.datlen := by
  rw [recAt_setPtr hv] at h
  split_ifs at h with ho
  · obtain ⟨r, hr, rfl⟩ := h
    exact ⟨r, ho ▸ hr, rfl, rfl, rfl⟩
  · exact ⟨r', h, rfl, rfl, rfl⟩

theorem recAt_putCell (h : I.RecAt o r) (hl : r'.text.length = r.text.length) (o' : ℕ) (q : Rec) :
    (I.putCell o (.record r')).RecAt o' q ↔ if o' = o then q = r' else I.RecAt o' q := by
  have hb : (Cell.record r').bytes.length = (Cell.record r).bytes.length := by
    simp only [Cell.bytes, Rec.length_bytes, hl]
  simp only [RecAt, cellAt_putCell h hb]
  split_ifs <;> simp [eq_comm]

theorem recAt_putCell_self (h : I.RecAt o r) (hl : r'.text.length = r.text.length) :
    (I.putCell o (.record r')).RecAt o r' := by
  rw [recAt_putCell h hl, if_pos rfl]

theorem recAt_addRec (o : ℕ) (q : Rec) :
    (I.addRec r).RecAt o q ↔ if o = I.idxBytes.length then q = r else I.RecAt o q := by
  simp only [RecAt, cellAt_addRec]
  split_ifs <;> simp [eq_comm]

theorem recAt_addRec_end (I : Image) (r : Rec) : (I.addRec r).RecAt I.idxBytes.length r := by
  rw [recAt_addRec, if_pos rfl]

@[simp] theorem recAt_putBlk {q : Rec} : (I.putBlk a d).RecAt o q ↔ I.RecAt o q := Iff.rfl

@[simp] theorem recAt_addBlk {q : Rec} : (I.addBlk d).RecAt o q ↔ I.RecAt o q := Iff.rfl

end Updates

namespace Stock

theorem congr (h : I.Stock X)
    (hr : ∀ {o r}, I.RecAt o r → ∃ r', I'.RecAt o r' ∧ r'.datoff = r.datoff)
    (hr' : ∀ {o r'}, I'.RecAt o r' →
      ∃ r, I.RecAt o r ∧ r.datoff = r'.datoff ∧ r.datlen = r'.datlen)
    (hb : ∀ {a d}, I.blkAt a = some d → ∃ d', I'.blkAt a = some d' ∧ d'.1.length = d.1.length)
    (hb' : ∀ {a d'}, I'.blkAt a = some d' → ∃ d, I.blkAt a = some d) : I'.Stock X where
  blk ho := by
    obtain ⟨r, hor, hoff, hlen⟩ := hr' ho
    obtain ⟨d, hd, hl⟩ := h.blk hor
    obtain ⟨d', hd', hl'⟩ := hb hd
    exact ⟨d', hoff ▸ hd', by omega⟩
  inj ho ho' he := by
    obtain ⟨r, hor, hoff, -⟩ := hr' ho
    obtain ⟨r₁, hor₁, hoff₁, -⟩ := hr' ho'
    exact h.inj hor hor₁ (by omega)
  cover hd := by
    obtain ⟨d, hd⟩ := hb' hd
    rcases h.cover hd with hX | ⟨o, r, ho, ha⟩
    · exact Or.inl hX
    · obtain ⟨r', ho', he⟩ := hr ho
      exact Or.inr ⟨o, r', ho', he.trans ha⟩
  extra ha := by
    obtain ⟨⟨d, hd⟩, hno⟩ := h.extra ha
    obtain ⟨d', hd', -⟩ := hb hd
    refine ⟨⟨d', hd'⟩, fun ho => ?_⟩
    obtain ⟨r, hor, hoff, -⟩ := hr' ho
    exact hoff ▸ hno hor

theorem setPtr (h : I.Stock X) (hv : I.HasPtr o v) (w : Ptr) : (I.setPtr o w).Stock X := by
  refine h.congr (fun {o' r} ho => ?_) (fun ho => ?_) (fun hd => ⟨_, by simpa using hd, rfl⟩)
    (fun hd => ⟨_, by simpa using hd⟩)
  · exact ⟨_, ho.setPtr hv w, by split_ifs <;> rfl⟩
  · obtain ⟨r, hr, -, hoff, hlen⟩ := ho.of_setPtr hv
    exact ⟨r, hr, hoff, hlen⟩

theorem putCell (h : I.Stock X) (ho : I.RecAt o r) (hl : r'.text.length = r.text.length)
    (hoff : r'.datoff = r.datoff) (hlen : r'.datlen = r.datlen) :
    (I.putCell o (.record r')).Stock X := by
  refine h.congr (fun {o₁ r₁} h₁ => ?_) (fun {o₁ r₁} h₁ => ?_) (fun hd => ⟨_, hd, rfl⟩)
    (fun hd => ⟨_, hd⟩)
  · by_cases he : o₁ = o
    · subst he
      obtain rfl := ho.unique h₁
      exact ⟨r', by simp [recAt_putCell ho hl], hoff⟩
    · exact ⟨r₁, by simpa [recAt_putCell ho hl, he] using h₁, rfl⟩
  · rw [recAt_putCell ho hl] at h₁
    split_ifs at h₁ with he
    · subst he h₁
      exact ⟨r, ho, hoff.symm, hlen.symm⟩
    · exact ⟨r₁, h₁, rfl, rfl⟩

theorem putBlk (h : I.Stock X) (hd : I.blkAt a = some d) (hl : d'.1.length = d.1.length) :
    (I.putBlk a d').Stock X := by
  refine h.congr (fun ho => ⟨_, ho, rfl⟩) (fun ho => ⟨_, ho, rfl, rfl⟩) (fun {a₁ d₁} h₁ => ?_)
    (fun {a₁ d₁} h₁ => ?_)
  · rw [blkAt_putBlk hd hl]
    split_ifs with he
    · subst he
      obtain rfl : d = d₁ := by simpa using hd.symm.trans h₁
      exact ⟨d', rfl, hl⟩
    · exact ⟨d₁, h₁, rfl⟩
  · rw [blkAt_putBlk hd hl] at h₁
    split_ifs at h₁ with he
    · exact ⟨d, he ▸ hd⟩
    · exact ⟨d₁, h₁⟩

theorem addBlk (h : I.Stock X) (d : CStr) : (I.addBlk d).Stock (insert I.datBytes.length X) where
  blk ho := by
    obtain ⟨d₁, hd, hl⟩ := h.blk ho
    have := blkAt_lt hd
    exact ⟨d₁, by rw [blkAt_addBlk, if_neg (by omega)]; exact hd, hl⟩
  inj ho ho' he := h.inj ho ho' he
  cover {a d₁} hd := by
    rw [blkAt_addBlk] at hd
    split_ifs at hd with he
    · exact Or.inl (Or.inl he)
    · rcases h.cover hd with hX | hr
      · exact Or.inl (Or.inr hX)
      · exact Or.inr hr
  extra {a} ha := by
    rcases ha with rfl | ha
    · refine ⟨⟨d, by simp [blkAt_addBlk]⟩, fun ho he => ?_⟩
      obtain ⟨d₁, hd, -⟩ := h.blk ho
      have := blkAt_lt hd
      omega
    · obtain ⟨⟨d₁, hd⟩, hno⟩ := h.extra ha
      have := blkAt_lt hd
      exact ⟨⟨d₁, by rw [blkAt_addBlk, if_neg (by omega)]; exact hd⟩, hno⟩

theorem addRec (h : I.Stock X) (ha : r.datoff ∈ X) (hd : I.blkAt r.datoff = some d)
    (hl : r.datlen = d.1.length + 1) : (I.addRec r).Stock (X \ {r.datoff}) where
  blk {o q} ho := by
    rw [recAt_addRec] at ho
    split_ifs at ho with he
    · subst ho
      exact ⟨d, hd, hl⟩
    · exact h.blk ho
  inj {o o' q q'} ho ho' he := by
    rw [recAt_addRec] at ho ho'
    split_ifs at ho ho' with h₁ h₂ h₂
    · omega
    · subst ho
      exact absurd he.symm ((h.extra ha).2 ho')
    · subst ho'
      exact absurd he ((h.extra ha).2 ho)
    · exact h.inj ho ho' he
  cover {a d₁} h₁ := by
    rcases h.cover h₁ with hX | ⟨o, q, ho, he⟩
    · by_cases hc : a = r.datoff
      · exact Or.inr ⟨I.idxBytes.length, r, by simp [recAt_addRec], hc.symm⟩
      · exact Or.inl ⟨hX, hc⟩
    · have hne : o ≠ I.idxBytes.length := cellAt_ne_end ho
      exact Or.inr ⟨o, q, by rw [recAt_addRec, if_neg hne]; exact ho, he⟩
  extra {a} hX := by
    obtain ⟨hb, hno⟩ := h.extra hX.1
    refine ⟨hb, fun {o q} ho => ?_⟩
    rw [recAt_addRec] at ho
    split_ifs at ho with he
    · subst ho
      exact Ne.symm hX.2
    · exact hno ho

end Stock

end Image

end Somenote.Db
