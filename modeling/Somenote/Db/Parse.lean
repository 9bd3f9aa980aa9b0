import Somenote.Db.Image

/-! # Reading back an index record

`_db_readidx` takes the text of a record apart at the separators. It recovers key, data
offset and data length from what `_db_writeidx` wrote when the key has no separator, and
finds too many separators otherwise.
-/

namespace Somenote.Db

open Decimal

variable {s t key : List Byte} {c : Byte}

theorem not_mem_dec_zero (n : ℕ) : (0 : Byte) ∉ dec n := not_mem_dec (by decide)

theorem not_mem_dec_sep (n : ℕ) : SEP ∉ dec n := not_mem_dec (by decide)

theorem strchr_none (h : c ∉ s) : strchr s c = none := by simp [strchr, h]

theorem strchr_append (h : c ∉ s) : strchr (s ++ c :: t) c = some (s, t) := by
  have hp : ∀ x ∈ s, (decide (x ≠ c)) = true := by
    intro x hx
    simpa using fun he : x = c => h (he ▸ hx)
  rw [strchr, if_pos (by simp), List.takeWhile_append_of_pos hp, List.dropWhile_append_of_pos hp]
  simp

theorem strchr_suffix (s t : List Byte) (c : Byte) :
    ∃ x y, strchr (s ++ c :: t) c = some (x, y) ∧ t <:+ y := by
  by_cases h : c ∈ s
  · obtain ⟨x, y, rfl, hx⟩ := List.eq_append_cons_of_mem h
    refine ⟨x, y ++ c :: t, ?_, (List.suffix_cons c t).trans (List.suffix_append y _)⟩
    rw [List.append_assoc, List.cons_append, strchr_append hx]
  · exact ⟨s, t, strchr_append h, List.suffix_rfl⟩

theorem cstr_eq (h : 0 ∉ s) : cstr s = s := by
  rw [cstr, List.takeWhile_eq_self_iff]
  intro x hx
  simpa using fun he : x = 0 => h (he ▸ hx)

namespace Rec

variable (r : Rec)

theorem text_getLast : r.text.getLast? = some NEWLINE := List.getLast?_concat

theorem text_dropLast : r.text.dropLast = r.key.1 ++ SEP :: (dec r.datoff ++ SEP :: dec r.datlen) := by
  rw [text, idxText, List.dropLast_concat]
  simp

theorem zero_not_mem : 0 ∉ r.text.dropLast := by
  rw [text_dropLast]
  simp only [List.mem_append, List.mem_cons, not_or]
  exact ⟨r.key.2, by decide, not_mem_dec_zero _, by decide, not_mem_dec_zero _⟩

end Rec

/-- The fields of the handle after `_db_readidx` has read the record. -/
def DB.load (db : DB) (o : ℕ) (r : Rec) : DB :=
  { db with idxoff := o, ptrval := r.ptr, idxlen := r.text.length, idxbuf := r.key,
            datoff := r.datoff, datlen := r.datlen }

theorem dbParseidx_text (db : DB) (r : Rec) (hs : SEP ∉ r.key.1) :
    dbParseidx db r.text =
      .ret { db with idxbuf := r.key, datoff := r.datoff, datlen := r.datlen } := by
  have hpos := r.datlen_pos
  have hle : (r.datlen : ℤ) ≤ datlenMax := by exact_mod_cast r.datlen_le
  have hno : ¬ ((r.datlen : ℤ) ≤ 0 ∨ (datlenMax : ℤ) < r.datlen) := by omega
  rw [dbParseidx, r.text_getLast, cstr_eq r.zero_not_mem, r.text_dropLast]
  rw [strchr_append hs]
  simp only [strchr_append (not_mem_dec_sep _), strchr_none (not_mem_dec_sep _), atol_dec,
    dumpIf, ne_eq, not_true_eq_false, if_false, Prog.ret_bind, Prog.pure_eq, if_neg hno,
    Int.toNat_natCast, Int.not_lt.mpr (Int.natCast_nonneg _)]

/-- A key with a separator makes its record unreadable. -/
theorem dbParseidx_sep (db : DB) (r : Rec) (hs : SEP ∈ r.key.1) :
    dbParseidx db r.text = .dump .readidxSep3 := by
  obtain ⟨k, t, hk, hnot⟩ := List.eq_append_cons_of_mem hs
  rw [dbParseidx, r.text_getLast, cstr_eq r.zero_not_mem, r.text_dropLast, hk, List.append_assoc,
    List.cons_append, strchr_append hnot]
  obtain ⟨x, y, hxy, ⟨z, hz⟩⟩ := strchr_suffix t (dec r.datoff ++ SEP :: dec r.datlen) SEP
  obtain ⟨x', y', hy, -⟩ := strchr_suffix (z ++ dec r.datoff) (dec r.datlen) SEP
  have hy' : strchr y SEP = some (x', y') := by rw [← hz, ← List.append_assoc, hy]
  simp [dumpIf, hxy, hy']

end Somenote.Db
