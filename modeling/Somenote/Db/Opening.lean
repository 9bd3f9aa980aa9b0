import Somenote.Db.Reachable
import Somenote.Db.WellFormed

/-! # Handles that can be used

`db_open` writes the header of the index file only with both `O_CREAT` and `O_TRUNC`. With one of
them it may return a handle of an index file without a header.
-/

namespace Somenote.Db

open Decimal

/-- A header: 138 pointer fields and a newline. -/
def Header (s : List Byte) : Prop :=
  ∃ ptrs : List Ptr, ptrs.length = nhashDef + 1 ∧
    (ptrs.flatMap fun v : Ptr => field ptrSz v) ++ [NEWLINE] <+: s

/-- The flags create a database that is absent with a header, and empty one that exists only to
write a new header. -/
def OFlag.Fits (oflag : OFlag) (f : Files) : Prop :=
  (f = .absent → oflag.creat = true → oflag.trunc = true) ∧
    (f ≠ .absent → oflag.trunc = true → oflag.creat = true)

variable {I : Image} {L : Lists} {X Y : Set ℕ} {M : Map} {p : Fds} {f : Files} {oflag : OFlag}
  {fuel : ℕ} {b : DB} {t : Fds × Files}

theorem Image.Shape.header (h : I.Shape) : Header I.idxBytes := by
  obtain ⟨ptrs, recs, hc, hl⟩ := h.cells
  refine ⟨ptrs, hl, Cells.bytes Cell.bytes (recs.map .record), ?_⟩
  rw [Image.idxBytes, hc, Cells.bytes_append, Cells.bytes_cons, ← List.append_assoc]
  congr 2
  rw [Cells.bytes, List.flatMap_map]
  rfl

theorem not_header_nil : ¬ Header [] := by
  rintro ⟨ptrs, -, h⟩
  have hnil := List.prefix_nil.mp h
  simp at hnil

theorem exec_open_fail {fd : Fd} (h : (f.get fd).isNone = true ∧ oflag.creat = false ∨
    (f.get fd).isSome = true ∧ oflag.creat = true ∧ oflag.excl = true) :
    exec (.openFd fd oflag) (p, f) = (none, p, f) := by
  rcases h with ⟨h, hc⟩ | ⟨h, hc, hx⟩ <;> simp [exec, *]

theorem run_open_fail (h : ∀ fd, exec (.openFd fd oflag) (p, f) = (none, p, f)) :
    (dbOpen oflag).run exec (p, f) = (.ok none, p, f) := by
  rw [dbOpen]
  simp only [Prog.call_bind, Prog.ret_bind, Prog.run_call]
  rw [h .idx]
  dsimp only
  rw [h .dat]
  rfl

theorem files_ne_absent : I.files ≠ .absent := by
  intro h
  cases congrArg Files.idx h

/-- A handle is of a new database or of the one that has been there. -/
theorem run_open (hw : oflag.acc.writable = true) (hf : f = .absent ∨ ∃ I, f = Image.files I)
    (hfits : oflag.Fits f) (hrun : (dbOpen oflag).run exec (p, f) = (.ok (some b), t)) :
    t.1.acc = oflag.acc ∧ (t.2 = Image.fresh.files ∨ f ≠ .absent ∧ t.2 = f) := by
  have hnew : oflag.creat = true → oflag.trunc = true → (oflag.excl = false ∨ f = .absent) →
      t.1.acc = oflag.acc ∧ (t.2 = Image.fresh.files ∨ f ≠ .absent ∧ t.2 = f) := by
    intro hc ht hx
    rw [run_open_new hw hc ht hx] at hrun
    cases hrun
    exact ⟨rfl, Or.inl rfl⟩
  have hfail : ¬ ∀ fd, exec (.openFd fd oflag) (p, f) = (none, p, f) := by
    intro h
    rw [run_open_fail h] at hrun
    cases hrun
  rcases hf with rfl | ⟨I, rfl⟩
  · cases hc : oflag.creat with
    | false =>
      refine absurd (fun fd => exec_open_fail (Or.inl ⟨?_, hc⟩)) hfail
      cases fd <;> rfl
    | true => exact hnew hc (hfits.1 rfl hc) (Or.inr rfl)
  · cases hx : oflag.creat && oflag.excl with
    | true =>
      rw [Bool.and_eq_true] at hx
      refine absurd (fun fd => exec_open_fail (Or.inr ⟨?_, hx⟩)) hfail
      cases fd <;> rfl
    | false =>
      cases ht : oflag.trunc with
      | true =>
        have hc := hfits.2 files_ne_absent ht
        rw [hc, Bool.true_and] at hx
        exact hnew hc ht (Or.inl hx)
      | false =>
        rw [run_reopen ⟨ht, hx⟩] at hrun
        cases hrun
        exact ⟨rfl, Or.inr ⟨files_ne_absent, rfl⟩⟩

/-- A handle for reading and writing can be used: the index file has a header, and each key can be
fetched. -/
theorem open_usable (oflag : OFlag) (p : Fds) (f : Files) (b : DB) (t : Fds × Files)
    (hacc : oflag.acc = .rdwr) (hf : f = .absent ∨ Valid (fun k => SEP ∉ k.1) f)
    (hfits : oflag.Fits f) (hrun : (dbOpen oflag).run exec (p, f) = (.ok (some b), t)) :
    Header (t.2.bytes .idx) ∧ ∀ (k : CStr) (fuel : ℕ), ptrMax < fuel →
      ∃ x, ((dbFetch fuel b k.1).run exec t).1 = .ok x := by
  have himage : f = .absent ∨ ∃ I, f = Image.files I :=
    hf.imp_right fun ⟨I, _, _, _, _, hI, _⟩ => ⟨I, hI⟩
  obtain ⟨hopened, hfiles⟩ := run_open (by rw [hacc]; rfl) himage hfits hrun
  have hr : t.1.acc.readable = true := by rw [hopened, hacc]; rfl
  have hinv : ∃ I L X Y M, t.2 = Image.files I ∧ Inv I L X Y M ∧ M.Clean := by
    rcases hfiles with hnew | ⟨hne, hkept⟩
    · exact ⟨_, _, _, _, _, hnew, inv_fresh, fun k hk => absurd rfl hk⟩
    · obtain ⟨I, L, X, Y, M, hI, h, hrec⟩ := hf.resolve_left hne
      exact ⟨I, L, X, Y, M, hkept.trans hI, h, fun k hk =>
        (h.keys (P := fun k => SEP ∉ k.1) hrec k hk).elim not_sep_of_isBlank id⟩
  obtain ⟨I, L, X, Y, M, hI, h, hclean⟩ := hinv
  constructor
  · rw [hI, Image.bytes_idx]
    exact h.shape.header
  · intro k fuel hfuel
    obtain ⟨out, p', hfetch, -, hout⟩ := fetch_spec (p := t.1) (b := b) h hfuel hr k
    rw [← hI] at hfetch
    rw [hfetch]
    rcases hout with ⟨b', hok⟩ | ⟨-, hsep⟩
    · exact ⟨_, hok⟩
    · exact absurd hclean hsep

/-- A database that is created. -/
theorem open_usable_create : Header (Image.fresh.files.bytes .idx) ∧
    ∀ (k : CStr) (fuel : ℕ), ptrMax < fuel →
      ∃ x, ((dbFetch fuel { dbAlloc with idxoff := idxStart } k.1).run exec
        (Fds.opened .rdwr, Image.fresh.files)).1 = .ok x :=
  open_usable .create ⟨.rdwr, 0, 0⟩ .absent _ _ rfl (Or.inl rfl)
    ⟨fun _ _ => rfl, fun h => absurd rfl h⟩ run_create

/-- With `O_CREAT` alone, the index file of a new database has no header. -/
theorem open_without_header : ¬ ∀ (oflag : OFlag) (p : Fds) (f : Files) (b : DB) (t : Fds × Files),
    oflag.acc = .rdwr → f = .absent ∨ Valid (fun k => SEP ∉ k.1) f →
    (dbOpen oflag).run exec (p, f) = (.ok (some b), t) → Header (t.2.bytes .idx) := by
  intro hall
  exact not_header_nil (hall ⟨.rdwr, true, false, false⟩ ⟨.rdwr, 0, 0⟩ .absent _ _ rfl
    (Or.inl rfl) rfl)

end Somenote.Db
