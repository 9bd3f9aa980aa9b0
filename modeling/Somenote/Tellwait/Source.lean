import Mathlib.Data.Int.Notation
import Mathlib.Data.Nat.Notation
import Somenote.Program.Machine

/-! # Telling and waiting over pipes

The functions of `tellwait.c`, with which a parent and its child wait for each other. Both
processes have both ends of both pipes open, so that a read waits while its pipe is empty and
a write while it is full; neither of them fails.
-/

namespace Somenote.Tellwait

inductive Party | parent | child
  deriving DecidableEq, Repr

namespace Pipes

/-- The two pipes that `TELL_WAIT` opens. -/
inductive Pipe | pfd1 | pfd2
  deriving DecidableEq, Repr

inductive Call
  | write (fd : Pipe) (buf : List Char)
  | read (fd : Pipe)
  deriving DecidableEq, Repr

/-- A write returns the number of characters, and a read the character, if it is one. -/
@[reducible] def Reply : Call → Type
  | .write .. => ℤ
  | .read _ => Option Char

/-- The calls of `err_sys` and `err_quit`. -/
inductive Err
  | write | waitParentRead | waitParentData | waitChildRead | waitChildData
  deriving DecidableEq, Repr

abbrev TellProg := Prog Call Reply Err

/-- Write one character into a pipe. -/
def tell (fd : Pipe) (c : Char) : TellProg Unit := do
  let n ← (.call (.write fd [c]) .ret : TellProg ℤ)
  if n ≠ 1 then .dump .write else pure ()

/-- Read one character from a pipe, and compare it. -/
def await (fd : Pipe) (c : Char) (r e : Err) : TellProg Unit := do
  match ← (.call (.read fd) .ret : TellProg (Option Char)) with
  | none => .dump r
  | some c' => if c' ≠ c then .dump e else pure ()

def tellParent : TellProg Unit := tell .pfd2 'c'

def waitParent : TellProg Unit := await .pfd1 'p' .waitParentRead .waitParentData

def tellChild : TellProg Unit := tell .pfd1 'p'

def waitChild : TellProg Unit := await .pfd2 'c' .waitChildRead .waitChildData

inductive Op | tellParent | waitParent | tellChild | waitChild
  deriving DecidableEq, Repr

def Op.body : Op → TellProg Unit
  | tellParent => Pipes.tellParent
  | waitParent => Pipes.waitParent
  | tellChild => Pipes.tellChild
  | waitChild => Pipes.waitChild

/-- The child tells and awaits its parent, and the parent its child. -/
def Op.caller : Op → Party
  | tellParent | waitParent => .child
  | tellChild | waitChild => .parent

/-- What is in the pipes, each character with the process that wrote it, and who has read from
whom. -/
structure Buffers where
  queue : Pipe → List (Party × Char)
  taken : List (Party × Party)

/-- Pipes that hold up to `size` characters. -/
def kernel (size : ℕ) : Kernel Party Call Reply Unit Buffers where
  Ready
    | _, .write fd buf, _, k => (k.queue fd).length + buf.length ≤ size
    | _, .read fd, _, k => k.queue fd ≠ []
  exec
    | p, .write fd buf, _, k => (buf.length, (),
      { k with queue := Function.update k.queue fd (k.queue fd ++ buf.map (p, ·)) })
    | p, .read fd, _, k =>
      match k.queue fd with
      | [] => (none, (), k)
      | (q, c) :: rest => (some c, (),
        { queue := Function.update k.queue fd rest, taken := k.taken ++ [(p, q)] })
  exit _ k := k

/-- The two processes, each with any sequence of calls. -/
def talkers : Client Op Unit Unit Call Reply Err Unit Unit where
  Can _ _ := True
  start r _ := ((), r.body)
  finish _ _ _ _ := ((), ())

abbrev Machine := Conf Party Op Unit Call Reply Err Unit Unit Buffers

/-- The state behind the fork. -/
def Machine.initial : Machine := ⟨fun _ => .idle (), ⟨fun _ => [], []⟩⟩

end Pipes

end Somenote.Tellwait
