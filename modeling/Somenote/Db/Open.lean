import Somenote.Db.Map

/-! # Opening a database

`db_open` with `O_TRUNC` leaves an empty database and without it leaves the files as they
are. A handle that may not read, or not write, makes the operations end in an error exit.
-/

namespace Somenote.Db

open Decimal

/-- The image of a new database. -/
def Image.fresh : Image := ⟨List.replicate (nhashDef + 1) (.ptr 0) ++ [.nl], []⟩

def Lists.empty : Lists := ⟨fun _ => [], []⟩

theorem idxBytes_fresh : Image.fresh.idxBytes = initImage := by
  simp [Image.fresh, Image.idxBytes, initImage, Cells.bytes, Cell.bytes, List.flatMap_replicate]

theorem length_initImage : initImage.length = idxStart := by
  rw [← idxBytes_fresh]
  simp only [Image.fresh, Image.idxBytes, Cells.bytes_append, List.length_append]
  decide +kernel

section Fresh

theorem shape_fresh : Image.fresh.Shape := ⟨0, by simp [Image.fresh, Cell.kind]⟩

theorem not_recAt_fresh {o : ℕ} {r : Rec} : ¬ Image.fresh.RecAt o r := by
  intro h
  have := Cells.mem_of_cellAt h
  simp [Image.fresh] at this

theorem next_fresh (o : ℕ) : Image.fresh.next o = 0 := by
  unfold Image.next
  cases hc : Image.fresh.cellAt o with
  | none => rfl
  | some c =>
    have := Cells.mem_of_cellAt hc
    simp only [Image.fresh, List.mem_append, List.mem_replicate, List.mem_singleton] at this
    rcases this with ⟨-, rfl⟩ | rfl
    · rfl
    · rfl

theorem inv_fresh : Inv Image.fresh Lists.empty ∅ ∅ fun _ => none where
  shape := shape_fresh
  stock := {
    blk := fun h => absurd h not_recAt_fresh
    inj := fun h => absurd h not_recAt_fresh
    cover := fun h => by simp [Image.blkAt, Image.fresh, Cells.cellAt] at h
    extra := fun h => absurd h (Set.notMem_empty _) }
  filed := {
    isRec_iff := fun o => by simp [Image.IsRec, not_recAt_fresh, Lists.empty]
    chain_inj := fun h => absurd h List.not_mem_nil
    chain_free := fun h => absurd h List.not_mem_nil
    chain_out := fun h => absurd h List.not_mem_nil
    free_out := fun h => absurd h List.not_mem_nil
    chain_nodup := fun _ => List.nodup_nil
    free_nodup := List.nodup_nil
    hash := fun h => absurd h List.not_mem_nil
    key_inj := fun h => absurd h List.not_mem_nil
    free_blank := fun h => absurd h List.not_mem_nil }
  linked i := by
    have hn : (Lists.empty.nodes i) = [] := by cases i <;> rfl
    rw [hn]
    exact next_fresh _
  maps k d := by simp [Maps, Lists.empty]

end Fresh

variable {p : Fds} {f : Files} {s : Fds × Files} {oflag : OFlag} {fuel : ℕ} {b : DB}

/-- The descriptors behind `db_open` and its call of `db_rewind`. -/
def Fds.opened (acc : Access) : Fds := ⟨acc, idxStart, 0⟩

theorem run_rewind :
    (dbRewind b).run exec (p, f) =
      (.ok { b with idxoff := idxStart }, p.setPos .idx idxStart, f) := by
  rw [dbRewind]
  exact Prog.run_bind_ok (run_orDump (exec_seek .idx idxStart)) _

/-- The flags of a call of `db_open` that starts a new database. -/
def OFlag.create : OFlag := ⟨.rdwr, true, true, false⟩

/-- No file of the database exists. -/
def Files.absent : Files := ⟨none, none⟩

theorem exec_open (fd : Fd) (h : (f.get fd).isSome = true ∨ oflag.creat = true)
    (hx : (oflag.creat && oflag.excl) = false ∨ f.get fd = none) :
    exec (.openFd fd oflag) (p, f) = (some (), { p with acc := oflag.acc }.setPos fd 0,
      f.set fd (if oflag.trunc then [] else f.bytes fd)) := by
  have h₁ : ((f.get fd).isNone && !oflag.creat) = false := by
    rcases h with h | h
    · simp [Option.isSome_iff_ne_none.mp h]
    · simp [h]
  have h₂ : ((f.get fd).isSome && oflag.creat && oflag.excl) = false := by
    rw [Bool.and_assoc]
    rcases hx with hx | hx
    · rw [hx, Bool.and_false]
    · rw [hx, Option.isSome_none, Bool.false_and]
  simp [exec, h₁, h₂]

theorem run_initIndex (hw : p.acc.writable = true) (hf : f.bytes .idx = []) (hp : p.idxpos = 0) :
    initIndex.run exec (p, f) = (.ok (), p.setPos .idx initImage.length, f.set .idx initImage) := by
  have hsize : exec (.fstat .idx) (p, f) = (some 0, p, f) := by simp [exec, hf]
  have hwrite : exec (.write .idx initImage) (p, f) =
      (some initImage.length, p.setPos .idx initImage.length, f.set .idx initImage) := by
    have hpos : p.pos .idx = 0 := hp
    simp [exec, hw, hf, hpos, overwrite]
  rw [initIndex, Prog.run_bind_ok (run_lock (t := .wr) hw), Prog.run_bind_ok (run_orDump hsize),
    if_pos rfl, Prog.bind_assoc, Prog.run_bind_ok (run_orDump hwrite), dumpIf_neg (by simp),
    Prog.ret_bind, run_unlock]

theorem run_open_new (hw : oflag.acc.writable = true) (hc : oflag.creat = true)
    (ht : oflag.trunc = true) (hx : oflag.excl = false ∨ f = .absent) :
    (dbOpen oflag).run exec (p, f) = (.ok (some { dbAlloc with idxoff := idxStart }),
      Fds.opened oflag.acc, Image.fresh.files) := by
  have hidx : (oflag.creat && oflag.excl) = false ∨ f.get .idx = none :=
    hx.imp (fun h => by rw [h, Bool.and_false]) fun h => by rw [h]; rfl
  have hdat : (oflag.creat && oflag.excl) = false ∨ (f.set .idx []).get .dat = none :=
    hx.imp (fun h => by rw [h, Bool.and_false]) fun h => by rw [h]; rfl
  rw [dbOpen]
  simp only [Prog.call_bind, Prog.ret_bind, Prog.run_call]
  rw [exec_open .idx (Or.inr hc) hidx, if_pos ht]
  dsimp only
  rw [exec_open .dat (Or.inr hc) hdat, if_pos ht]
  dsimp only
  rw [if_neg (by simp), if_pos ⟨hc, ht⟩, Prog.run_bind_ok (run_initIndex hw rfl rfl),
    Prog.run_bind_ok run_rewind]
  simp [Fds.opened, Image.files, idxBytes_fresh, Files.set, Fds.setPos]
  rfl

theorem run_create :
    (dbOpen .create).run exec s = (.ok (some { dbAlloc with idxoff := idxStart }),
      Fds.opened .rdwr, Image.fresh.files) := run_open_new rfl rfl rfl (Or.inl rfl)

/-- Flags that open an existing database and keep its contents. -/
def OFlag.Keeps (oflag : OFlag) : Prop := oflag.trunc = false ∧ (oflag.creat && oflag.excl) = false

theorem run_reopen (h : oflag.Keeps) {I : Image} :
    (dbOpen oflag).run exec (p, I.files) = (.ok (some { dbAlloc with idxoff := idxStart }),
      Fds.opened oflag.acc, I.files) := by
  have hset : ∀ fd, I.files.set fd (I.files.bytes fd) = I.files := by
    intro fd
    cases fd <;> rfl
  rw [dbOpen]
  simp only [Prog.call_bind, Prog.ret_bind, Prog.run_call]
  have hopen : ∀ fd q, exec (.openFd fd oflag) (q, I.files) =
      (some (), { q with acc := oflag.acc }.setPos fd 0, I.files) := by
    intro fd q
    rw [exec_open fd (by cases fd <;> exact Or.inl rfl) (Or.inl h.2), if_neg (by simp [h.1]), hset]
  rw [hopen .idx]
  dsimp only
  rw [hopen .dat]
  dsimp only
  rw [if_neg (by simp), if_neg (by simp [h.1]), Prog.pure_eq, Prog.ret_bind,
    Prog.run_bind_ok run_rewind]
  rfl

theorem run_close : dbClose.run exec s = (.ok (), s) := rfl

/-- The error exits of a search without the access to lock or to read. -/
def Err.IsAccess : Err → Prop
  | findWritewLock | findReadwLock | readptrRead => True
  | _ => False

section Denied

theorem run_find_denied (fuel : ℕ) (b : DB) (p : Fds) (f : Files) (k : List Byte) (wl : Bool)
    (h : p.acc.allows (lockFor wl) = false ∨ p.acc.readable = false) :
    ∃ e p', (dbFindAndLock fuel b k wl).run exec (p, f) = (.dump e, p', f) ∧ e.IsAccess := by
  rw [dbFindAndLock]
  dsimp only
  cases ha : p.acc.allows (lockFor wl) with
  | false =>
    exact ⟨_, _, Prog.run_bind_dump (run_lock_denied ha) _, by cases wl <;> trivial⟩
  | true =>
    have hr : p.acc.readable = false := by simpa [ha] using h
    exact ⟨_, _, (Prog.run_bind_ok (run_lock ha) _).trans
      (Prog.run_bind_dump (run_readptr_denied hr) _), trivial⟩

theorem fetch_denied (fuel : ℕ) (b : DB) (f : Files) (k : List Byte) (hr : p.acc.readable = false) :
    ∃ e p', (dbFetch fuel b k).run exec (p, f) = (.dump e, p', f) ∧ e.IsAccess := by
  obtain ⟨e, p', hrun, he⟩ := run_find_denied fuel b p f k false (Or.inr hr)
  exact ⟨e, p', by rw [dbFetch, Prog.run_bind_dump hrun], he⟩

variable (fuel : ℕ) (b : DB) (f : Files) (hrw : p.acc.writable = false ∨ p.acc.readable = false)
include hrw

theorem delete_denied (k : List Byte) :
    ∃ e p', (dbDelete fuel b k).run exec (p, f) = (.dump e, p', f) ∧ e.IsAccess := by
  obtain ⟨e, p', hrun, he⟩ := run_find_denied fuel b p f k true hrw
  exact ⟨e, p', by rw [dbDelete, Prog.run_bind_dump hrun], he⟩

theorem store_denied (M : Map) (k d : CStr) (flag : ℤ) :
    ∃ out p', (dbStore fuel b k.1 d.1 flag).run exec (p, f) = (out, p', f) ∧
      (out = .ok (-1, b) ∧ M.store k d flag = (-1, M) ∧ p'.acc = p.acc ∨
        ∃ e, out = .dump e ∧ (e.IsAccess ∨ e = .storeDatlen ∧ ¬ DatlenOk d)) := by
  by_cases hflag : flag ≠ Flag.dbInsert ∧ flag ≠ Flag.dbReplace ∧ flag ≠ Flag.dbStore
  · refine ⟨_, p, ?_, Or.inl ⟨rfl, if_pos hflag, rfl⟩⟩
    rw [dbStore, if_pos hflag]
    rfl
  · by_cases hd : DatlenOk d
    · obtain ⟨e, p', hrun, he⟩ := run_find_denied fuel b p f k.1 true hrw
      rw [dbStore_find fuel b hflag hd, Prog.run_bind_dump hrun]
      exact ⟨_, p', rfl, Or.inr ⟨e, rfl, Or.inl he⟩⟩
    · rw [dbStore_dump fuel b hflag hd]
      exact ⟨_, p, rfl, Or.inr ⟨_, rfl, Or.inr ⟨rfl, hd⟩⟩⟩

omit hrw in
/-- A store that returns zero has had access to the files. -/
theorem store_granted {k d : CStr} {flag : ℤ} {b' : DB} {t : Fds × Files}
    (hrun : (dbStore fuel b k.1 d.1 flag).run exec (p, f) = (.ok (0, b'), t)) :
    p.acc.readable = true ∧ p.acc.writable = true := by
  by_contra hno
  have hrw : p.acc.writable = false ∨ p.acc.readable = false := by grind
  obtain ⟨out, q, hden, hout⟩ := store_denied fuel b f hrw (fun _ => none) k d flag
  rw [hden] at hrun
  obtain ⟨rfl, -⟩ | ⟨e, rfl, -⟩ := hout <;> cases hrun

end Denied

end Somenote.Db
