import Somenote.Db.Open

/-! # Sessions of one process

A process creates a database and makes calls on its handle, and may close the database
and open it again. The calls return what a map would, and the files stay well formed.
-/

namespace Somenote.Db

open Decimal

inductive Op
  | fetch (key : CStr)
  | store (key data : CStr) (flag : ℤ)
  | delete (key : CStr)
  | reopen (oflag : OFlag)

inductive Res
  | data (ptr : Option (List Byte))
  | rc (n : ℤ)
  | handle (opened : Bool)
  deriving DecidableEq

/-- The call on an open handle; a close that no open follows leaves the old handle. -/
def Op.call (fuel : ℕ) (db : DB) : Op → DbProg (Res × DB)
  | fetch key => do
    let (ptr, db) ← dbFetch fuel db key.1
    pure (.data ptr, db)
  | store key data flag => do
    let (rc, db) ← dbStore fuel db key.1 data.1 flag
    pure (.rc rc, db)
  | delete key => do
    let (rc, db) ← dbDelete fuel db key.1
    pure (.rc rc, db)
  | reopen oflag => do
    dbClose
    let h ← dbOpen oflag
    pure (.handle h.isSome, h.getD db)

/-- The calls in order, and their results. -/
def session (fuel : ℕ) : DB → List Op → DbProg (List Res × DB)
  | db, [] => pure ([], db)
  | db, op :: ops => do
    let (res, db) ← op.call fuel db
    let (rs, db) ← session fuel db ops
    pure (res :: rs, db)

/-- A new database, and calls on its handle. -/
def newSession (fuel : ℕ) (ops : List Op) : DbProg (List Res × DB) := do
  let h ← dbOpen .create
  session fuel (h.getD dbAlloc) ops

/-- A key without separator, or flags that keep the contents of the database. -/
def Op.Plain : Op → Prop
  | fetch key | store key _ _ | delete key => SEP ∉ key.1
  | reopen oflag => oflag.Keeps

/-- The keys that the call stores satisfy `P`. -/
def Op.Stores (P : CStr → Prop) : Op → Prop
  | store key _ _ => P key
  | _ => True

theorem Op.Plain.stores {op : Op} (h : op.Plain) : op.Stores fun k => SEP ∉ k.1 := by
  cases op with
  | store key data flag => exact h
  | _ => trivial

/-- The access mode of the handle behind the call. -/
def Op.acc (acc : Access) : Op → Access
  | reopen oflag => oflag.acc
  | _ => acc

namespace Map

/-- The result of a call on a map, and the map behind it. -/
def call (M : Map) : Op → Res × Map
  | .fetch key => (.data (M.fetch key), M)
  | .store key data flag => (.rc (M.store key data flag).1, (M.store key data flag).2)
  | .delete key => (.rc (M.delete key).1, (M.delete key).2)
  | .reopen _ => (.handle true, M)

def results (M : Map) : List Op → List Res
  | [] => []
  | op :: ops => (M.call op).1 :: (M.call op).2.results ops

def after (M : Map) (ops : List Op) : Map := ops.foldl (fun M op => (M.call op).2) M

def empty : Map := fun _ => none

theorem Keys.call {M : Map} {P : CStr → Prop} (h : M.Keys P) {op : Op} (hop : op.Stores P) :
    (M.call op).2.Keys P := by
  cases op with
  | fetch key => exact h
  | store key data flag => exact h.store hop data flag
  | delete key => exact h.delete key
  | reopen oflag => exact h

theorem Keys.after {M : Map} {P : CStr → Prop} {ops : List Op} (h : M.Keys P)
    (hops : ∀ op ∈ ops, op.Stores P) : (M.after ops).Keys P := by
  induction ops generalizing M with
  | nil => exact h
  | cons op ops ih =>
    exact ih (h.call (hops op (by simp))) fun op ho => hops op (List.mem_cons_of_mem _ ho)

end Map

variable {I : Image} {L : Lists} {X Y : Set ℕ} {M : Map} {p : Fds} {fuel : ℕ} {b : DB} {op : Op}
  {ops : List Op}

/-- A call on an open handle ends the process, or does what it does on the map. -/
theorem call_spec (h : Inv I L X Y M) (hf : ptrMax < fuel) (hop : op.Plain) :
    ∃ out p' I', (op.call fuel b).run exec (p, I.files) = (out, p', I'.files) ∧
      ((∃ e, out = .dump e) ∨
        ∃ b' L', out = .ok ((M.call op).1, b') ∧ Inv I' L' X Y (M.call op).2 ∧
          p'.acc = op.acc p.acc) := by
  cases op with
  | fetch k =>
    cases hr : p.acc.readable with
    | false =>
      obtain ⟨e, p', hrun, -⟩ := fetch_denied fuel b I.files k.1 hr
      exact ⟨_, p', I, Prog.run_bind_dump hrun _, Or.inl ⟨e, rfl⟩⟩
    | true =>
      obtain ⟨out, p', hrun, hacc, ⟨b', rfl⟩ | ⟨rfl, -⟩⟩ := fetch_spec (b := b) h hf hr k
      · exact ⟨_, p', I, Prog.run_bind_ok hrun _, Or.inr ⟨b', L, rfl, h, hacc⟩⟩
      · exact ⟨_, p', I, Prog.run_bind_dump hrun _, Or.inl ⟨_, rfl⟩⟩
  | delete k =>
    by_cases hrw : p.acc.writable = false ∨ p.acc.readable = false
    · obtain ⟨e, p', hrun, -⟩ := delete_denied fuel b I.files hrw k.1
      exact ⟨_, p', I, Prog.run_bind_dump hrun _, Or.inl ⟨e, rfl⟩⟩
    · obtain ⟨hw, hr⟩ : p.acc.writable = true ∧ p.acc.readable = true := by simpa using hrw
      obtain ⟨out, p', I', hrun, hacc, ⟨b', L', rfl, hinv, -⟩ | ⟨rfl, -⟩⟩ :=
        delete_spec (b := b) h hf hr hw k
      · exact ⟨_, p', I', Prog.run_bind_ok hrun _, Or.inr ⟨b', L', rfl, hinv, hacc⟩⟩
      · exact ⟨_, p', I', Prog.run_bind_dump hrun _, Or.inl ⟨_, rfl⟩⟩
  | store k d flag =>
    by_cases hrw : p.acc.writable = false ∨ p.acc.readable = false
    · obtain ⟨out, p', hrun, ⟨rfl, hspec, hacc⟩ | ⟨e, rfl, -⟩⟩ :=
        store_denied fuel b I.files hrw M k d flag
      · refine ⟨_, p', I, Prog.run_bind_ok hrun _, Or.inr ⟨b, L, ?_, ?_, hacc⟩⟩
        · rw [Map.call, hspec]
        · rw [Map.call, hspec]
          exact h
      · exact ⟨_, p', I, Prog.run_bind_dump hrun _, Or.inl ⟨e, rfl⟩⟩
    · obtain ⟨hw, hr⟩ : p.acc.writable = true ∧ p.acc.readable = true := by simpa using hrw
      obtain ⟨out, p', I', hrun, hacc, hend⟩ := store_spec (b := b) h hf hr hw k d flag
      cases out with
      | ok x =>
        cases hend with
        | @done b' _ L' rc M' hspec hinv _ =>
          refine ⟨_, p', I', Prog.run_bind_ok hrun _, Or.inr ⟨b', L', ?_, ?_, hacc⟩⟩
          · rw [Map.call, hspec]
          · rw [Map.call, hspec]
            exact hinv
      | dump e => exact ⟨_, p', I', Prog.run_bind_dump hrun _, Or.inl ⟨e, rfl⟩⟩
      | spin => cases hend
  | reopen oflag =>
    exact ⟨_, _, I, (Prog.run_bind_ok run_close _).trans (Prog.run_bind_ok (run_reopen hop) _),
      Or.inr ⟨_, L, rfl, h, rfl⟩⟩

/-- A session ends the process, or returns what the calls return on the map. -/
theorem session_spec (h : Inv I L X Y M) (hf : ptrMax < fuel) (hops : ∀ op ∈ ops, op.Plain) :
    ∃ out p' I', (session fuel b ops).run exec (p, I.files) = (out, p', I'.files) ∧
      ((∃ e, out = .dump e) ∨
        ∃ b' L', out = .ok (M.results ops, b') ∧ Inv I' L' X Y (M.after ops) ∧
          p'.acc = ops.foldl Op.acc p.acc) := by
  induction ops generalizing I L M p b with
  | nil => exact ⟨_, p, I, rfl, Or.inr ⟨b, L, rfl, h, rfl⟩⟩
  | cons op ops ih =>
    obtain ⟨out, p₁, I₁, hrun, ⟨e, rfl⟩ | ⟨b₁, L₁, rfl, h₁, hacc₁⟩⟩ :=
      call_spec (b := b) (p := p) h hf (hops op (by simp))
    · exact ⟨_, p₁, I₁, Prog.run_bind_dump hrun _, Or.inl ⟨e, rfl⟩⟩
    · obtain ⟨out, p', I', hrest, hend⟩ := ih (b := b₁) (p := p₁) h₁
        fun op h => hops op (List.mem_cons_of_mem _ h)
      have hrun' := Prog.run_bind_ok hrun fun x => do
        let (rs, b) ← session fuel x.2 ops
        pure (x.1 :: rs, b)
      rcases hend with ⟨e, rfl⟩ | ⟨b', L', rfl, h', hacc⟩
      · exact ⟨_, p', I', hrun'.trans (Prog.run_bind_dump hrest _), Or.inl ⟨e, rfl⟩⟩
      · exact ⟨_, p', I', hrun'.trans (Prog.run_bind_ok hrest _),
          Or.inr ⟨b', L', rfl, h', by rw [hacc, hacc₁]; rfl⟩⟩

theorem newSession_spec (s : Fds × Files) (hf : ptrMax < fuel) (hops : ∀ op ∈ ops, op.Plain) :
    ∃ out p' I', (newSession fuel ops).run exec s = (out, p', I'.files) ∧
      ((∃ e, out = .dump e) ∨
        ∃ b' L', out = .ok (Map.empty.results ops, b') ∧ Inv I' L' ∅ ∅ (Map.empty.after ops) ∧
          p'.acc = ops.foldl Op.acc .rdwr) := by
  obtain ⟨out, p', I', hrun, hend⟩ := session_spec (b := { dbAlloc with idxoff := idxStart })
    (p := Fds.opened .rdwr) inv_fresh hf hops
  exact ⟨out, p', I', (Prog.run_bind_ok run_create _).trans hrun, hend⟩

theorem newSession_ok {s t : Fds × Files} {res : List Res × DB} (hf : ptrMax < fuel)
    (hops : ∀ op ∈ ops, op.Plain) (hrun : (newSession fuel ops).run exec s = (.ok res, t)) :
    ∃ I L, t.2 = I.files ∧ Inv I L ∅ ∅ (Map.empty.after ops) ∧
      t.1.acc = ops.foldl Op.acc .rdwr := by
  obtain ⟨out, p', I, hrun', hend⟩ := newSession_spec s hf hops
  rw [hrun, Prod.mk.injEq] at hrun'
  obtain ⟨rfl, rfl⟩ := hrun'
  rcases hend with ⟨e, he⟩ | ⟨b, L, -, hinv, hacc⟩
  · cases he
  · exact ⟨I, L, rfl, hinv, hacc⟩

/-- A session on a new database whose calls do not abort returns what a map returns. -/
theorem results_eq_map (fuel : ℕ) (hf : ptrMax < fuel) (s : Fds × Files) (ops : List Op)
    (hops : ∀ op ∈ ops, op.Plain)
    (hok : ∀ e t, (newSession fuel ops).run exec s ≠ (.dump e, t)) :
    ∃ b t, (newSession fuel ops).run exec s = (.ok (Map.empty.results ops, b), t) := by
  obtain ⟨out, p', I', hrun, ⟨e, rfl⟩ | ⟨b, L, rfl, -⟩⟩ := newSession_spec s hf hops
  · exact absurd hrun (hok e _)
  · exact ⟨b, _, hrun⟩

section Sample

/-- A process without files. -/
def noFiles : Fds × Files := (⟨.rdwr, 0, 0⟩, ⟨none, none⟩)

def keyA : CStr := ⟨[97], by decide⟩
def keyB : CStr := ⟨[98], by decide⟩
def keyC : CStr := ⟨[99], by decide⟩
def dataX : CStr := ⟨[120], by decide⟩
def dataY : CStr := ⟨[121], by decide⟩

/-- Two stores and a fetch. -/
def sampleOps : List Op :=
  [.store keyA dataX Flag.dbInsert, .store keyB dataX Flag.dbStore, .fetch keyA]

set_option maxRecDepth 100000 in
theorem run_sample : ∃ b t, (newSession 100000 sampleOps).run exec noFiles =
    (.ok ([.rc 0, .rc 0, .data (some [120])], b), t) := by
  have h : ((newSession 100000 sampleOps).run exec noFiles).1.map Prod.fst =
      .ok [.rc 0, .rc 0, .data (some [120])] := by decide +kernel
  obtain ⟨⟨rs, b⟩, t, hrun, rfl⟩ := Prog.run_of_map h
  exact ⟨b, t, hrun⟩

theorem sampleOps_plain : ∀ op ∈ sampleOps, op.Plain := by
  intro op hop
  simp only [sampleOps, List.mem_cons, List.not_mem_nil, or_false] at hop
  rcases hop with rfl | rfl | rfl
  · exact show SEP ∉ keyA.1 by decide
  · exact show SEP ∉ keyB.1 by decide
  · exact show SEP ∉ keyA.1 by decide

theorem results_sample : ∃ b t, (newSession 100000 sampleOps).run exec noFiles =
    (.ok (Map.empty.results sampleOps, b), t) := by
  refine results_eq_map 100000 (by decide) noFiles sampleOps sampleOps_plain fun e t he => ?_
  obtain ⟨b, u, hrun⟩ := run_sample
  rw [hrun] at he
  cases he

end Sample

end Somenote.Db
