import Mathlib.Data.Int.Notation
import Mathlib.Data.Nat.Notation
import Mathlib.Logic.Function.Basic

/-! # Streams to a child

The functions of `popen_close.c`. The system's replies are data of a call. A process has a table
of its descriptors, and the pipes are numbered as they are made.
-/

namespace Somenote.Popen

inductive Side | read | write
  deriving DecidableEq, Repr

/-- What a descriptor refers to: an end of a pipe that `popen` made, or anything else. -/
inductive Desc
  | pipe (id : ℕ) (side : Side)
  | other
  deriving DecidableEq, Repr

/-- The descriptors of a process. -/
abbrev Fds := ℕ → Option Desc

def close (fds : Fds) (i : ℕ) : Fds := Function.update fds i none

def dup2 (fds : Fds) (i j : ℕ) : Fds := Function.update fds j (fds i)

def STDIN_FILENO : ℕ := 0

def STDOUT_FILENO : ℕ := 1

def EINVAL : ℕ := 22

def EMFILE : ℕ := 24

/-- A stream that `popen` returned, with the number of its pipe. -/
structure File where
  fileno : ℕ
  pipe : ℕ
  deriving DecidableEq, Repr

/-- The process that calls `popen`: its descriptors, the variables of the file, with `none` for
`NULL`, the streams that are not closed yet, the children that are not waited for yet, and how
many pipes were made. -/
structure Parent where
  fds : Fds
  childpid : Option (ℕ → ℕ)
  maxfd : ℕ
  errno : ℕ
  streams : List File
  children : List ℕ
  pipes : ℕ

/-- The entry of `childpid` for a descriptor, zero without a table. -/
def Parent.entry (s : Parent) (i : ℕ) : ℕ :=
  match s.childpid with
  | none => 0
  | some t => t i

/-- What the calls of `popen` return; `none` and `false` are failures, which set `errno`. -/
structure Replies where
  openMax : ℕ
  calloc : Bool
  pipe : Option (ℕ × ℕ)
  fork : Option ℕ
  fdopen : Bool
  errno : ℕ

/-- The child where it reaches `execl`. -/
structure Child where
  fds : Fds
  argv : List String

/-- What a call of `popen` leads to: the value, the process behind it, and the child. -/
structure Outcome where
  fp : Option File
  parent : Parent
  child : Option Child

def BadType (type : List Char) : Prop :=
  (type.head? ≠ some 'r' ∧ type.head? ≠ some 'w') ∨ type.tail ≠ []

instance (type : List Char) : Decidable (BadType type) := inferInstanceAs (Decidable (_ ∨ _))

/-- The allocation of the table. -/
def allocate (e : Replies) (s : Parent) : Parent :=
  match s.childpid with
  | some _ => s
  | none =>
    if e.calloc then { s with maxfd := e.openMax, childpid := some fun _ => 0 }
    else { s with maxfd := e.openMax, errno := e.errno }

/-- The process with the two ends of a new pipe. -/
def Parent.opened (s : Parent) (pfd : ℕ × ℕ) : Parent :=
  { s with
    fds := Function.update (Function.update s.fds pfd.1 (some (.pipe s.pipes .read))) pfd.2
      (some (.pipe s.pipes .write))
    pipes := s.pipes + 1 }

/-- The child with its end of the pipe as standard output or standard input. -/
def redirect (type : List Char) (pfd : ℕ × ℕ) (fds : Fds) : Fds :=
  if type.head? = some 'r' then
    let fds := close fds pfd.1
    if pfd.2 ≠ STDOUT_FILENO then close (dup2 fds pfd.2 STDOUT_FILENO) pfd.2 else fds
  else
    let fds := close fds pfd.2
    if pfd.1 ≠ STDIN_FILENO then close (dup2 fds pfd.1 STDIN_FILENO) pfd.1 else fds

/-- The loop that closes the descriptors of the table. -/
def closeAll (childpid : ℕ → ℕ) : ℕ → Fds → Fds
  | 0, fds => fds
  | i + 1, fds =>
    let fds := closeAll childpid i fds
    if childpid i > 0 then close fds i else fds

/-- The child of a process with the new pipe. -/
def childOf (cmdstring : String) (type : List Char) (pfd : ℕ × ℕ) (s : Parent) : Child where
  fds := closeAll s.entry s.maxfd (redirect type pfd s.fds)
  argv := ["sh", "-c", cmdstring]

/-- The end that the process keeps, and the one that it closes. -/
def ends (type : List Char) (pfd : ℕ × ℕ) : ℕ × ℕ :=
  if type.head? = some 'r' then (pfd.1, pfd.2) else (pfd.2, pfd.1)

/-- `popen` behind the call of `pipe`, with the new pipe `id`. -/
def connect (cmdstring : String) (type : List Char) (e : Replies) (pfd : ℕ × ℕ) (id : ℕ)
    (s : Parent) : Outcome :=
  if pfd.1 ≥ s.maxfd ∨ pfd.2 ≥ s.maxfd then
    ⟨none, { s with fds := close (close s.fds pfd.1) pfd.2, errno := EMFILE }, none⟩
  else
    match e.fork with
    | none => ⟨none, { s with errno := e.errno }, none⟩
    | some pid =>
      let child := childOf cmdstring type pfd s
      let s := { s with
        children := pid :: s.children
        fds := close s.fds (ends type pfd).2 }
      if e.fdopen then
        let fp : File := ⟨(ends type pfd).1, id⟩
        ⟨some fp, { s with
          childpid := s.childpid.map fun t => Function.update t fp.fileno pid
          streams := fp :: s.streams }, some child⟩
      else ⟨none, { s with errno := e.errno }, some child⟩

def popen (cmdstring : String) (type : List Char) (e : Replies) (s : Parent) : Outcome :=
  if BadType type then ⟨none, { s with errno := EINVAL }, none⟩
  else
    let s := allocate e s
    if s.childpid.isNone then ⟨none, s, none⟩
    else
      match e.pipe with
      | none => ⟨none, { s with errno := e.errno }, none⟩
      | some pfd => connect cmdstring type e pfd s.pipes (s.opened pfd)

/-- What the calls of `pclose` return. The loop over `waitpid` ends with a status, or with an error
other than `EINTR`. -/
structure CloseReplies where
  fclose : Bool
  waitpid : Option ℤ
  errno : ℕ

/-- `pclose` of a stream of the process. `fclose` gives its descriptor up also when it fails. -/
def pclose (fp : File) (e : CloseReplies) (s : Parent) : ℤ × Parent :=
  match s.childpid with
  | none => (-1, { s with errno := EINVAL })
  | some t =>
    let fd := fp.fileno
    if fd ≥ s.maxfd then (-1, { s with errno := EINVAL })
    else
      let pid := t fd
      if pid = 0 then (-1, { s with errno := EINVAL })
      else
        let s := { s with
          childpid := some (Function.update t fd 0)
          fds := close s.fds fd
          streams := s.streams.erase fp }
        if e.fclose then
          match e.waitpid with
          | none => (-1, { s with errno := e.errno })
          | some stat => (stat, { s with children := s.children.erase pid })
        else (-1, { s with errno := e.errno })

/-- The replies fit the process: a new pipe has two descriptors that are not in use, and the
number of a child is positive. -/
structure Replies.Fits (e : Replies) (s : Parent) : Prop where
  pipe : ∀ pfd, e.pipe = some pfd → s.fds pfd.1 = none ∧ s.fds pfd.2 = none ∧ pfd.1 ≠ pfd.2
  fork : ∀ pid, e.fork = some pid → 0 < pid

/-- The states of a process that calls `popen` and `pclose`, opens and closes any descriptors, and
duplicates descriptors if `dups` holds. -/
inductive Reachable (dups : Prop) : Parent → Prop
  | start (fds : Fds) (errno : ℕ) (h : ∀ i, fds i = none ∨ fds i = some .other) :
      Reachable dups ⟨fds, none, 0, errno, [], [], 0⟩
  | popen {s : Parent} (cmdstring : String) (type : List Char) (e : Replies) (he : e.Fits s)
      (h : Reachable dups s) : Reachable dups (popen cmdstring type e s).parent
  | pclose {s : Parent} (fp : File) (e : CloseReplies) (hfp : fp ∈ s.streams)
      (h : Reachable dups s) : Reachable dups (pclose fp e s).2
  | opened {s : Parent} (i : ℕ) (hi : s.fds i = none) (h : Reachable dups s) :
      Reachable dups { s with fds := Function.update s.fds i (some .other) }
  | close {s : Parent} (i : ℕ) (h : Reachable dups s) :
      Reachable dups { s with fds := close s.fds i }
  | dup {s : Parent} (i j : ℕ) (hd : dups) (h : Reachable dups s) :
      Reachable dups { s with fds := dup2 s.fds i j }

end Somenote.Popen
