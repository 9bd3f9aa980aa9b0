import Somenote.Db.Source

/-! # Index and data files as cells

An index file in use is a sequence of cells: 138 pointers, a newline, and the index
records. A data file is a sequence of newline-terminated blocks. The system calls of the
module read and write whole cells, or the pointer at the front of a record.
-/

namespace Somenote.Db

open Decimal

/-- A C string without its terminator. -/
abbrev CStr := { s : List Byte // 0 ∉ s }

/-- A string of `n` spaces. -/
def blank (n : ℕ) : CStr :=
  ⟨List.replicate n SPACE, fun h => absurd (List.eq_of_mem_replicate h) (by decide)⟩

/-- The key of a deleted record; the empty key looks deleted as well. -/
def IsBlank (key : CStr) : Prop := ∀ c ∈ key.1, c = SPACE

instance (key : CStr) : Decidable (IsBlank key) :=
  List.decidableBAll (· = SPACE) key.1

theorem isBlank_iff {key : CStr} : IsBlank key ↔ key.1.all (· == SPACE) = true := by
  simp [IsBlank]

theorem isBlank_blank (n : ℕ) : IsBlank (blank n) := fun _ hc => List.eq_of_mem_replicate hc

@[simp] theorem length_blank (n : ℕ) : (blank n).1.length = n := List.length_replicate

/-- A chain pointer that fits its field. -/
abbrev Ptr := Fin (ptrMax + 1)

/-- An index record that `_db_writeidx` accepts. -/
structure Rec where
  ptr : Ptr
  key : CStr
  datoff : ℕ
  datlen : ℕ
  len_ge : idxlenMin ≤ (idxText key datoff datlen).length
  len_le : (idxText key datoff datlen).length ≤ idxlenMax
  datlen_pos : 0 < datlen
  datlen_le : datlen ≤ datlenMax

namespace Rec

def text (r : Rec) : List Byte := idxText r.key r.datoff r.datlen

/-- The two fixed fields in front of the text of the record. -/
def head (r : Rec) : List Byte := field ptrSz r.ptr ++ field idxlenSz r.text.length

def bytes (r : Rec) : List Byte := r.head ++ r.text

/-- The record with another pointer. -/
def withPtr (r : Rec) (v : Ptr) : Rec := { r with ptr := v }

/-- The record with another pointer and another key of the same length. -/
def withKey (r : Rec) (v : Ptr) (key : CStr) (hl : key.1.length = r.key.1.length) : Rec where
  ptr := v
  key := key
  datoff := r.datoff
  datlen := r.datlen
  len_ge := by have := r.len_ge; simp only [idxText, List.length_append, hl] at this ⊢; exact this
  len_le := by have := r.len_le; simp only [idxText, List.length_append, hl] at this ⊢; exact this
  datlen_pos := r.datlen_pos
  datlen_le := r.datlen_le

end Rec

theorem length_ptrField (v : Ptr) : (field ptrSz v).length = ptrSz :=
  length_field (by decide) (v.isLt.trans (by decide))

theorem length_lenField {n : ℕ} (h : n ≤ idxlenMax) : (field idxlenSz n).length = idxlenSz :=
  length_field (by decide) (h.trans_lt (by decide))

namespace Rec

variable (r : Rec)

theorem text_ge : idxlenMin ≤ r.text.length := r.len_ge

theorem text_le : r.text.length ≤ idxlenMax := r.len_le

theorem length_head : r.head.length = ptrSz + idxlenSz := by
  rw [head, List.length_append, length_ptrField, length_lenField r.text_le]

theorem length_bytes : r.bytes.length = ptrSz + idxlenSz + r.text.length := by
  rw [bytes, List.length_append, length_head]

theorem take_head : r.head.take ptrSz = field ptrSz r.ptr := by
  rw [head, List.take_left' (length_ptrField _)]

theorem drop_head : r.head.drop ptrSz = field idxlenSz r.text.length := by
  rw [head, List.drop_left' (length_ptrField _)]

@[simp] theorem text_withPtr (v : Ptr) : (r.withPtr v).text = r.text := rfl

theorem length_text_withKey (v : Ptr) {key : CStr} (hl : key.1.length = r.key.1.length) :
    (r.withKey v key hl).text.length = r.text.length := by
  simp [text, idxText, withKey, hl]

end Rec

inductive Cell
  | ptr (v : Ptr)
  | nl
  | record (r : Rec)

inductive Kind | ptr | nl | record
  deriving DecidableEq

namespace Cell

def bytes : Cell → List Byte
  | ptr v => field ptrSz v
  | nl => [NEWLINE]
  | record r => r.bytes

def kind : Cell → Kind
  | ptr _ => .ptr
  | nl => .nl
  | record _ => .record

/-- The pointer that a cell starts with. -/
def ptr? : Cell → Option Ptr
  | ptr v => some v
  | nl => none
  | record r => some r.ptr

/-- The cell after its pointer is overwritten. -/
def withPtr : Cell → Ptr → Cell
  | ptr _, v => ptr v
  | nl, _ => nl
  | record r, v => record (r.withPtr v)

/-- What follows the pointer of a cell. -/
def tail : Cell → List Byte
  | record r => field idxlenSz r.text.length ++ r.text
  | _ => []

theorem length_pos (c : Cell) : 0 < c.bytes.length := by
  cases c with
  | ptr v => simp only [bytes, length_ptrField]; decide
  | nl => simp [bytes]
  | record r => simp only [bytes, r.length_bytes, ptrSz]; omega

theorem bytes_of_ptr {c : Cell} {v : Ptr} (h : c.ptr? = some v) :
    c.bytes = field ptrSz v ++ c.tail := by
  cases c with
  | ptr w =>
    obtain rfl : w = v := by simpa [ptr?] using h
    simp [bytes, tail]
  | nl => simp [ptr?] at h
  | record r =>
    obtain rfl : r.ptr = v := by simpa [ptr?] using h
    simp [bytes, Rec.bytes, Rec.head, tail]

@[simp] theorem ptr?_withPtr {c : Cell} {v : Ptr} (h : c.ptr? = some v) (w : Ptr) :
    (c.withPtr w).ptr? = some w := by
  cases c with
  | ptr _ => rfl
  | nl => simp [ptr?] at h
  | record r => rfl

@[simp] theorem tail_withPtr (c : Cell) (w : Ptr) : (c.withPtr w).tail = c.tail := by
  cases c <;> rfl

@[simp] theorem kind_withPtr (c : Cell) (w : Ptr) : (c.withPtr w).kind = c.kind := by
  cases c <;> rfl

theorem length_withPtr (c : Cell) (w : Ptr) : (c.withPtr w).bytes.length = c.bytes.length := by
  cases c with
  | ptr v => simp only [withPtr, bytes, length_ptrField]
  | nl => rfl
  | record r => simp only [withPtr, bytes, Rec.length_bytes, Rec.text_withPtr]

end Cell

/-- A data block: the data and the newline behind it. -/
def blkBytes (d : CStr) : List Byte := d.1 ++ [NEWLINE]

theorem length_blkBytes (d : CStr) : (blkBytes d).length = d.1.length + 1 := by simp [blkBytes]

theorem blkBytes_pos (d : CStr) : 0 < (blkBytes d).length := by simp [blkBytes]

/-- An index file and a data file. -/
structure Image where
  cells : List Cell
  blks : List CStr

namespace Image

def idxBytes (I : Image) : List Byte := Cells.bytes Cell.bytes I.cells

def datBytes (I : Image) : List Byte := Cells.bytes blkBytes I.blks

def files (I : Image) : Files := ⟨some I.idxBytes, some I.datBytes⟩

/-- The index cell at an offset. -/
def cellAt (I : Image) (o : ℕ) : Option Cell := Cells.cellAt Cell.bytes I.cells o

/-- The data block at an offset. -/
def blkAt (I : Image) (a : ℕ) : Option CStr := Cells.cellAt blkBytes I.blks a

def putCell (I : Image) (o : ℕ) (c : Cell) : Image :=
  { I with cells := Cells.put Cell.bytes I.cells o c }

def putBlk (I : Image) (a : ℕ) (d : CStr) : Image :=
  { I with blks := Cells.put blkBytes I.blks a d }

def addRec (I : Image) (r : Rec) : Image := { I with cells := I.cells ++ [.record r] }

def addBlk (I : Image) (d : CStr) : Image := { I with blks := I.blks ++ [d] }

/-- A pointer is stored at the offset `o`. -/
def HasPtr (I : Image) (o : ℕ) (v : Ptr) : Prop := ∃ c, I.cellAt o = some c ∧ c.ptr? = some v

/-- The pointer stored at an offset, zero where there is none. -/
def next (I : Image) (o : ℕ) : ℕ := ((I.cellAt o).bind Cell.ptr?).elim 0 fun v => v.val

/-- The image after a pointer is overwritten. -/
def setPtr (I : Image) (o : ℕ) (v : Ptr) : Image :=
  match I.cellAt o with
  | some c => I.putCell o (c.withPtr v)
  | none => I

variable {I : Image} {o : ℕ} {c : Cell} {r : Rec} {v : Ptr}

theorem HasPtr.next_eq (h : I.HasPtr o v) : I.next o = v := by
  obtain ⟨c, hc, hv⟩ := h
  simp [next, hc, hv]

theorem hasPtr_rec (h : I.cellAt o = some (.record r)) : I.HasPtr o r.ptr := ⟨_, h, rfl⟩

theorem next_rec (h : I.cellAt o = some (.record r)) : I.next o = r.ptr := (hasPtr_rec h).next_eq

theorem next_congr {J : Image} (h : J.cellAt o = I.cellAt o) : J.next o = I.next o := by
  simp [next, h]

@[simp] theorem bytes_idx (I : Image) : I.files.bytes .idx = I.idxBytes := rfl

@[simp] theorem bytes_dat (I : Image) : I.files.bytes .dat = I.datBytes := rfl

end Image

end Somenote.Db
