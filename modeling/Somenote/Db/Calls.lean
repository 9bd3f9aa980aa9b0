import Somenote.Bytes.Cells
import Somenote.Bytes.Decimal
import Somenote.Locks.ByteRange
import Somenote.Program.Basic

/-! # The system under the database

The two files of a database, the descriptors of one handle, and the system calls the
database issues. A reply `none` is the value `-1`; calls do not fail for other reasons
than their arguments, the access mode of the descriptor or a missing file, and no
write is short. Waiting for a lock is not seen here: alone, a process is always granted
its locks.
-/

namespace Somenote.Db

inductive Fd | idx | dat
  deriving DecidableEq, Repr

inductive Whence | set | cur | fin
  deriving DecidableEq, Repr

inductive Access | rdonly | wronly | rdwr
  deriving DecidableEq, Repr

def Access.readable : Access → Bool
  | wronly => false
  | _ => true

def Access.writable : Access → Bool
  | rdonly => false
  | _ => true

/-- The access a descriptor needs for a lock of this type. -/
def Access.allows (acc : Access) : LockType → Bool
  | .rd => acc.readable
  | .wr => acc.writable

/-- The access mode and the flags `O_CREAT`, `O_TRUNC` and `O_EXCL` of `open`. -/
structure OFlag where
  acc : Access
  creat : Bool
  trunc : Bool
  excl : Bool
  deriving DecidableEq, Repr

/-- `pathname.idx` and `pathname.dat`, where they exist. -/
structure Files where
  idx : Option (List Byte)
  dat : Option (List Byte)
  deriving DecidableEq, Repr

namespace Files

def get (f : Files) : Fd → Option (List Byte)
  | .idx => f.idx
  | .dat => f.dat

def bytes (f : Files) (fd : Fd) : List Byte := (f.get fd).getD []

def set (f : Files) : Fd → List Byte → Files
  | .idx, b => { f with idx := some b }
  | .dat, b => { f with dat := some b }

end Files

/-- The open file descriptions behind `idxfd` and `datfd`. -/
structure Fds where
  acc : Access
  idxpos : ℕ
  datpos : ℕ
  deriving DecidableEq, Repr

namespace Fds

def pos (p : Fds) : Fd → ℕ
  | .idx => p.idxpos
  | .dat => p.datpos

def setPos (p : Fds) : Fd → ℕ → Fds
  | .idx, n => { p with idxpos := n }
  | .dat, n => { p with datpos := n }

@[simp] theorem setPos_acc (p : Fds) (fd : Fd) (n : ℕ) : (p.setPos fd n).acc = p.acc := by
  cases fd <;> rfl

@[simp] theorem pos_setPos (p : Fds) (fd : Fd) (n : ℕ) : (p.setPos fd n).pos fd = n := by
  cases fd <;> rfl

end Fds

inductive Call
  | openFd (fd : Fd) (oflag : OFlag)
  | close (fd : Fd)
  | setlkw (fd : Fd) (type : LockType) (off len : ℕ)
  | unlck (fd : Fd) (off len : ℕ)
  | fstat (fd : Fd)
  | lseek (fd : Fd) (off : ℤ) (whence : Whence)
  | read (fd : Fd) (n : ℕ)
  | write (fd : Fd) (bs : List Byte)
  deriving DecidableEq

/-- What a call returns when it does not return `-1`. -/
@[reducible] def Call.Val : Call → Type
  | fstat _ | lseek .. | write .. => ℕ
  | read .. => List Byte
  | _ => Unit

@[reducible] def Reply (c : Call) : Type := Option c.Val

/-- The offset that `lseek` counts from. -/
def seekBase (fd : Fd) (p : Fds) (f : Files) : Whence → ℕ
  | .set => 0
  | .cur => p.pos fd
  | .fin => (f.bytes fd).length

def exec : (c : Call) → Fds × Files → Reply c × Fds × Files
  | .openFd fd oflag, (p, f) =>
    if (f.get fd).isNone && !oflag.creat || (f.get fd).isSome && oflag.creat && oflag.excl then
      (none, p, f)
    else
      (some (), { p with acc := oflag.acc }.setPos fd 0,
        f.set fd (if oflag.trunc then [] else f.bytes fd))
  | .close _, s => (some (), s)
  | .setlkw _ type _ _, (p, f) => (if p.acc.allows type then some () else none, p, f)
  | .unlck .., s => (some (), s)
  | .fstat fd, (p, f) => (some (f.bytes fd).length, p, f)
  | .lseek fd off whence, (p, f) =>
    let target := (seekBase fd p f whence : ℤ) + off
    if target < 0 then (none, p, f) else (some target.toNat, p.setPos fd target.toNat, f)
  | .read fd n, (p, f) =>
    if p.acc.readable then
      let bs := ((f.bytes fd).drop (p.pos fd)).take n
      (some bs, p.setPos fd (p.pos fd + bs.length), f)
    else (none, p, f)
  | .write fd bs, (p, f) =>
    if p.acc.writable then
      (some bs.length, p.setPos fd (p.pos fd + bs.length),
        f.set fd (overwrite 0 (f.bytes fd) (p.pos fd) bs))
    else (none, p, f)

end Somenote.Db
