import Somenote.Db.Image
import Somenote.Program.Machine

/-! # Processes that share a database

Each process has any number of handles, opened by itself, and makes one call on one of
them at a time. The processes share the two files and the locks on their bytes.
-/

namespace Somenote.Db

/-- The calls of the module; `n` numbers the handles of a process. -/
inductive Req
  | openDb (n : ℕ) (oflag : OFlag)
  | close (n : ℕ)
  | fetch (n : ℕ) (key : CStr)
  | store (n : ℕ) (key data : CStr) (flag : ℤ)
  | delete (n : ℕ) (key : CStr)
  | rewind (n : ℕ)
  | nextrec (n : ℕ)
  deriving DecidableEq

inductive Ans
  | handle (opened : Bool)
  | data (ptr : Option (List Byte))
  | rc (n : ℤ)
  | pair (ptr : Option (List Byte × List Byte))
  | done
  deriving DecidableEq

/-- The handles of a process, each with the positions in its files. -/
abbrev Handles := ℕ → Option (DB × Fds)

namespace Req

/-- The handle that a call is made on, or that it opens. -/
def num : Req → ℕ
  | openDb n _ | close n | fetch n _ | store n _ _ _ | delete n _ | rewind n | nextrec n => n

/-- A handle is opened before it is used, and closed before it is opened again. -/
def Can : Req → Handles → Prop
  | openDb n _, h => h n = none
  | r, h => h r.num ≠ none

/-- The call on an open handle, with what becomes of the handle. -/
def body (fuel : ℕ) (db : DB) : Req → DbProg (Ans × Option DB)
  | openDb _ oflag => do
    let h ← dbOpen oflag
    pure (.handle h.isSome, h)
  | close _ => do
    dbClose
    pure (.done, none)
  | fetch _ key => do
    let (ptr, db) ← dbFetch fuel db key.1
    pure (.data ptr, some db)
  | store _ key data flag => do
    let (rc, db) ← dbStore fuel db key.1 data.1 flag
    pure (.rc rc, some db)
  | delete _ key => do
    let (rc, db) ← dbDelete fuel db key.1
    pure (.rc rc, some db)
  | rewind _ => do
    let db ← dbRewind db
    pure (.done, some db)
  | nextrec _ => do
    let (ptr, db) ← dbNextrec fuel db
    pure (.pair ptr, some db)

end Req

/-- The processes that use a database. -/
def users (fuel : ℕ) : Client Req Ans Handles Call Reply Err (Ans × Option DB) Fds where
  Can := Req.Can
  start r h :=
    let b := (h r.num).getD (dbAlloc, ⟨.rdonly, 0, 0⟩)
    (b.2, r.body fuel b.1)
  finish r h p a := (a.1, Function.update h r.num (a.2.map (·, p)))

variable {Pid : Type} [DecidableEq Pid]

/-- What a call does to the locks of its process. Closing a descriptor gives up all locks that
the process holds on the file. -/
def Call.locks (pid : Pid) (p : Fds) (T : LockTable Pid Fd) : Call → LockTable Pid Fd
  | setlkw fd t off len => if p.acc.allows t then T.assign pid fd off len (some t) else T
  | unlck fd off len => T.assign pid fd off len none
  | close fd => T.assign pid fd 0 0 none
  | _ => T

/-- A lock that the descriptor does not allow is refused at once; others are waited for. -/
def Call.Ready (pid : Pid) (p : Fds) (T : LockTable Pid Fd) : Call → Prop
  | setlkw fd t off len => p.acc.allows t = true → T.Grantable pid fd t off len
  | _ => True

/-- The system: the calls of one process, with the locks of all. A process that dies gives up
its locks. -/
def kernel : Kernel Pid Call Reply Fds (Files × LockTable Pid Fd) where
  Ready pid c p s := c.Ready pid p s.2
  exec pid c p s := ((exec c (p, s.1)).1, (exec c (p, s.1)).2.1, (exec c (p, s.1)).2.2,
    c.locks pid p s.2)
  exit pid s := (s.1, s.2.release pid)

/-- A state of the processes, the files and the locks. -/
abbrev Machine (Pid : Type) :=
  Conf Pid Req Handles Call Reply Err (Ans × Option DB) Fds (Files × LockTable Pid Fd)

/-- No process has a handle yet, and none holds a lock. -/
def Machine.initial (f : Files) : Machine Pid := ⟨fun _ => .idle fun _ => none, f, fun _ _ _ => none⟩

variable {p : Pid} {l : Fds} {T : LockTable Pid Fd} {fuel : ℕ} {s : Machine Pid} {r : Req}
  {h : Handles}

theorem Call.locks_other {q : Pid} (hq : q ≠ p) (c : Call) : c.locks p l T q = T q := by
  cases c with
  | setlkw fd t off len =>
    simp only [Call.locks]
    split
    · exact LockTable.assign_other hq _
    · rfl
  | unlck fd off len => exact LockTable.assign_other hq _
  | close fd => exact LockTable.assign_other hq _
  | _ => rfl

end Somenote.Db
