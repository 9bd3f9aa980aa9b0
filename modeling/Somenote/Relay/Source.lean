import Mathlib.Logic.Function.Basic
import Somenote.Bytes.Cells
import Somenote.Bytes.Decimal
import Somenote.Program.Protocol

/-! # The nonblocking client

The loop of `str_cli`, which copies standard input to a socket and the socket to standard
output. One round is five segments: the call of `select` and the four branches behind it.
The descriptors do not block, and the messages on standard error are left out.
-/

namespace Somenote.Relay

abbrev maxline : ℕ := 4096

inductive Fd | stdin | stdout | sock
  deriving DecidableEq, Repr

/-- A set of descriptors, `fd_set`. -/
abbrev FdSet := Fd → Bool

inductive Errno | ewouldblock | other
  deriving DecidableEq, Repr

inductive Call
  | select (rset wset : FdSet)
  | read (fd : Fd) (n : ℕ)
  | write (fd : Fd) (bs : List Byte)
  | shutdown (fd : Fd)

@[reducible] def Reply : Call → Type
  | .select .. => FdSet × FdSet
  | .read .. => Except Errno (List Byte)
  | .write .. => Except Errno ℕ
  | .shutdown _ => Unit

/-- The calls of `err_sys` and `err_quit`. -/
inductive Err
  | stdin | socket | toStdout | toSocket | terminated
  deriving DecidableEq, Repr

abbrev RelayProg := Prog Call Reply Err

/-- The variables of `str_cli`, with the buffers `to` and `fr`; a pointer is an offset in them. -/
structure Vars where
  tobuf : List Byte
  frbuf : List Byte
  toiptr : ℕ
  tooptr : ℕ
  friptr : ℕ
  froptr : ℕ
  stdineof : Bool
  rset : FdSet
  wset : FdSet

/-- The bytes of a buffer between two pointers. -/
def slice (buf : List Byte) (optr iptr : ℕ) : List Byte := (buf.take iptr).drop optr

/-- The segments of a round, in order. -/
inductive Pc | top | readStdin | readSocket | writeStdout | writeSocket
  deriving DecidableEq, Repr

def select (v : Vars) : RelayProg Vars := do
  let rset : FdSet
    | .stdin => v.stdineof = false ∧ v.toiptr ≤ maxline
    | .sock => v.friptr < maxline
    | .stdout => false
  let wset : FdSet
    | .sock => v.tooptr ≠ v.toiptr
    | .stdout => v.froptr ≠ v.friptr
    | .stdin => false
  let (rset, wset) ← .call (.select rset wset) .ret
  pure { v with rset, wset }

def readStdin (v : Vars) : RelayProg Vars :=
  if v.rset .stdin then do
    match ← (.call (.read .stdin (maxline - v.toiptr)) .ret : RelayProg _) with
    | .error e => if e ≠ .ewouldblock then .dump .stdin else pure v
    | .ok [] => do
      let v := { v with stdineof := true }
      if v.tooptr = v.toiptr then .call (.shutdown .sock) fun _ => pure v
      else pure v
    | .ok bs => pure { v with tobuf := overwrite 0 v.tobuf v.toiptr bs, toiptr := v.toiptr + bs.length,
                              wset := Function.update v.wset .sock true }
  else pure v

/-- The branch that reads from the socket; at the end of its input the function returns. -/
def readSocket (v : Vars) : RelayProg (Option Vars) :=
  if v.rset .sock then do
    match ← (.call (.read .sock (maxline - v.friptr)) .ret : RelayProg _) with
    | .error e => if e ≠ .ewouldblock then .dump .socket else pure (some v)
    | .ok [] => if v.stdineof then pure none else .dump .terminated
    | .ok bs =>
      pure (some { v with frbuf := overwrite 0 v.frbuf v.friptr bs, friptr := v.friptr + bs.length,
                          wset := Function.update v.wset .stdout true })
  else pure (some v)

def writeStdout (v : Vars) : RelayProg Vars :=
  if v.wset .stdout ∧ 0 < v.friptr - v.froptr then do
    match ← (.call (.write .stdout (slice v.frbuf v.froptr v.friptr)) .ret : RelayProg _) with
    | .error e => if e ≠ .ewouldblock then .dump .toStdout else pure v
    | .ok nwritten =>
      let v := { v with froptr := v.froptr + nwritten }
      pure (if v.froptr = v.friptr then { v with froptr := 0, friptr := 0 } else v)
  else pure v

/-- The branch that writes to the socket. The test of `stdineof` stands behind the one above it,
whatever the indentation says. -/
def writeSocket (v : Vars) : RelayProg Vars :=
  if v.wset .sock ∧ 0 < v.toiptr - v.tooptr then do
    match ← (.call (.write .sock (slice v.tobuf v.tooptr v.toiptr)) .ret : RelayProg _) with
    | .error e => if e ≠ .ewouldblock then .dump .toSocket else pure v
    | .ok nwritten =>
      let v := { v with tooptr := v.tooptr + nwritten }
      let v := if v.tooptr = v.toiptr then { v with tooptr := 0, toiptr := 0 } else v
      if v.stdineof then .call (.shutdown .sock) fun _ => pure v
      else pure v
  else pure v

/-- One segment, and the next one, if `str_cli` does not return. -/
def segment : Pc × Vars → RelayProg (Option (Pc × Vars))
  | (.top, v) => do
    let v ← select v
    pure (some (.readStdin, v))
  | (.readStdin, v) => do
    let v ← readStdin v
    pure (some (.readSocket, v))
  | (.readSocket, v) => do
    let v ← readSocket v
    pure (v.map (.writeStdout, ·))
  | (.writeStdout, v) => do
    let v ← writeStdout v
    pure (some (.writeSocket, v))
  | (.writeSocket, v) => do
    let v ← writeSocket v
    pure (some (.top, v))

/-- The contents of a buffer of `MAXLINE` bytes. -/
abbrev Buffer := { buf : List Byte // buf.length = maxline }

/-- The variables at the start of the loop, over any contents of the buffers. -/
def Vars.init (tobuf frbuf : Buffer) : Vars :=
  { tobuf := tobuf.1, frbuf := frbuf.1, toiptr := 0, tooptr := 0, friptr := 0, froptr := 0, stdineof := false,
    rset := fun _ => false, wset := fun _ => false }

/-! The system calls of a run, and what they say about the streams. -/

/-- A call and its reply. -/
abbrev Event := (c : Call) × Reply c

/-- What a call reads from a descriptor. -/
def Event.got (fd : Fd) : Event → List Byte
  | ⟨.read fd' _, .ok bs⟩ => if fd' = fd then bs else []
  | _ => []

/-- What a call writes to a descriptor. -/
def Event.put (fd : Fd) : Event → List Byte
  | ⟨.write fd' bs, .ok n⟩ => if fd' = fd then bs.take n else []
  | _ => []

def readFrom (fd : Fd) (h : List Event) : List Byte := h.flatMap (Event.got fd)

def writtenTo (fd : Fd) (h : List Event) : List Byte := h.flatMap (Event.put fd)

/-- The replies of the system. Standard input holds `input`; a read that returns nothing has
been asked for nothing or is at its end. The server sends what it likes. A write takes any
part of its bytes, and fails when the write side has been shut down. -/
def Env (input : List Byte) (h : List Event) : (c : Call) → Reply c → Prop
  | .select rset wset, (rset', wset') =>
    (∀ fd, rset' fd = true → rset fd = true) ∧ ∀ fd, wset' fd = true → wset fd = true
  | .read fd n, .ok bs => bs.length ≤ n ∧ (fd = .stdin →
      ∃ rest, input = readFrom .stdin h ++ bs ++ rest ∧ (bs = [] → n = 0 ∨ rest = []))
  | .write fd bs, .ok n => n ≤ bs.length ∧ (fd = .sock → ⟨.shutdown .sock, ()⟩ ∉ h)
  | _, _ => True

/-- Runs of `str_cli` with the calls it has made. -/
def runs (input : List Byte) : Protocol Call Reply (List Event) where
  Ok _ _ := True
  Next h c r h' := Env input h c r ∧ h' = h ++ [⟨c, r⟩]

/-- The states of the loop of `str_cli`, at each segment. -/
abbrev Reachable (input : List Byte) (tobuf frbuf : Buffer) : Pc × Vars → List Event → Prop :=
  Rounds (runs input) segment (.top, .init tobuf frbuf) []

section Replies

/-! Some replies of the system, with which runs are put together. -/

variable {input bs : List Byte} {h : List Event} {fd : Fd} {n : ℕ}

def blank : Buffer := ⟨List.replicate maxline 0, List.length_replicate ..⟩

theorem next_select {r w : FdSet} :
    (runs input).Next h (.select r w) (r, w) (h ++ [⟨.select r w, (r, w)⟩]) :=
  ⟨⟨fun _ => id, fun _ => id⟩, rfl⟩

theorem next_stdin (bs rest : List Byte) (hin : input = readFrom .stdin h ++ bs ++ rest) (hle : bs.length ≤ n)
    (hend : bs = [] → n = 0 ∨ rest = []) :
    (runs input).Next h (.read .stdin n) (.ok bs) (h ++ [⟨.read .stdin n, .ok bs⟩]) :=
  ⟨⟨hle, fun _ => ⟨rest, hin, hend⟩⟩, rfl⟩

theorem next_sock (bs : List Byte) (hle : bs.length ≤ n) :
    (runs input).Next h (.read .sock n) (.ok bs) (h ++ [⟨.read .sock n, .ok bs⟩]) :=
  ⟨⟨hle, fun he => by cases he⟩, rfl⟩

theorem next_write (hle : n ≤ bs.length) (hopen : ⟨.shutdown .sock, ()⟩ ∉ h) :
    (runs input).Next h (.write fd bs) (.ok n) (h ++ [⟨.write fd bs, .ok n⟩]) :=
  ⟨⟨hle, fun _ => hopen⟩, rfl⟩

theorem next_shutdown : (runs input).Next h (.shutdown fd) () (h ++ [⟨.shutdown fd, ()⟩]) :=
  ⟨trivial, rfl⟩

theorem next_wait_read : (runs input).Next h (.read fd n) (.error .ewouldblock)
    (h ++ [⟨.read fd n, .error .ewouldblock⟩]) :=
  ⟨trivial, rfl⟩

theorem next_wait_write : (runs input).Next h (.write fd bs) (.error .ewouldblock)
    (h ++ [⟨.write fd bs, .error .ewouldblock⟩]) :=
  ⟨trivial, rfl⟩

end Replies

end Somenote.Relay
