import Mathlib.Data.Finset.Basic
import Mathlib.Logic.Function.Basic
import Somenote.Program.Protocol

/-! # The fetcher

The main loop of the client that fetches files over nonblocking connections. A segment is the
test of the loop, one turn of the loop that starts connections, or one turn of the loop over
the files. What is printed, the home page and the calls that only look up and configure are
left out.
-/

namespace Somenote.Web

abbrev maxFiles : ℕ := 20

@[simp] abbrev fConnecting : ℕ := 1

@[simp] abbrev fReading : ℕ := 2

@[simp] abbrev fDone : ℕ := 4

/-- `struct file`. -/
structure File where
  f_name : String
  f_host : String
  f_fd : ℕ
  f_flags : ℕ

inductive Errno | einprogress | other
  deriving DecidableEq, Repr

/-- The request for a file. -/
def getCmd (f_name : String) : String := "GET " ++ f_name ++ " HTTP/1.0\r\n\r\n"

/-- The message of the error exit that the counters rule out. -/
def nothingFound (nlefttoconn : ℤ) : String :=
  "nlefttoconn = " ++ toString nlefttoconn ++ " but nothing found "

inductive Call
  | errQuit (text : String)
  | socket
  | connect (fd : ℕ) (f_host : String)
  | writen (fd : ℕ) (line : String)
  | select (n : ℤ) (rset wset : Finset ℕ)
  | getsockopt (fd : ℕ)
  | read (fd : ℕ)
  | close (fd : ℕ)

/-- `err_quit` does not return. A socket may be refused, and so may its connection; a read
returns the number of bytes, or a negative number. -/
@[reducible] def Reply : Call → Type
  | .errQuit _ => Empty
  | .socket => Option ℕ
  | .connect .. => Except Errno Unit
  | .select .. => Finset ℕ × Finset ℕ
  | .getsockopt _ => Bool
  | .read _ => ℤ
  | _ => Unit

/-- The calls of `err_sys`. -/
inductive Err
  | socket | connect
  deriving DecidableEq, Repr

abbrev WebProg := Prog Call Reply Err

/-- The variables of `main` and the globals of the header. -/
structure Vars where
  file : ℕ → File
  nfiles : ℕ
  nconn : ℤ
  nlefttoconn : ℤ
  nlefttoread : ℤ
  maxfd : ℤ
  rset : Finset ℕ
  wset : Finset ℕ
  rs : Finset ℕ
  ws : Finset ℕ

inductive Pc
  | head
  | connect
  | check (i : ℕ)
  deriving DecidableEq, Repr

def Vars.setFile (v : Vars) (i : ℕ) (f : File) : Vars := { v with file := Function.update v.file i f }

/-- The file at an argument of the program; the table is blank behind the last one. -/
def argFile (host : String) (names : List String) (i : ℕ) : File :=
  match names[i]? with
  | some f_name => { f_name, f_host := host, f_fd := 0, f_flags := 0 }
  | none => { f_name := "", f_host := "", f_fd := 0, f_flags := 0 }

/-- The variables in front of the main loop, for the names behind the first three arguments. -/
def Vars.init (host : String) (names : List String) : Vars :=
  let nfiles := min names.length maxFiles
  { file := argFile host names
    nfiles
    nconn := 0
    nlefttoconn := nfiles
    nlefttoread := nfiles
    maxfd := -1
    rset := ∅
    wset := ∅
    rs := ∅
    ws := ∅ }

def writeGetCmd (i : ℕ) (v : Vars) : WebProg Vars := do
  let f := v.file i
  let _ ← (.call (.writen f.f_fd (getCmd f.f_name)) .ret : WebProg _)
  let v := v.setFile i { f with f_flags := fReading }
  pure { v with rset := insert f.f_fd v.rset, maxfd := if f.f_fd > v.maxfd then f.f_fd else v.maxfd }

def startConnect (i : ℕ) (v : Vars) : WebProg Vars := do
  match ← (.call .socket .ret : WebProg _) with
  | none => .dump .socket
  | some fd =>
    let f := { v.file i with f_fd := fd }
    match ← (.call (.connect fd f.f_host) .ret : WebProg _) with
    | .error e =>
      if e ≠ .einprogress then .dump .connect
      else
        let v := v.setFile i { f with f_flags := fConnecting }
        pure { v with rset := insert fd v.rset, wset := insert fd v.wset,
                      maxfd := if fd > v.maxfd then fd else v.maxfd }
    | .ok _ => writeGetCmd i (v.setFile i f)

/-- A turn of the loop over the files. -/
def checkFile (i : ℕ) (v : Vars) : WebProg Vars :=
  let flags := (v.file i).f_flags
  if flags = 0 ∨ flags &&& fDone ≠ 0 then pure v
  else
    let fd := (v.file i).f_fd
    if flags &&& fConnecting ≠ 0 ∧ (fd ∈ v.rs ∨ fd ∈ v.ws) then do
      -- an error of the connection is only reported
      let _ ← (.call (.getsockopt fd) .ret : WebProg _)
      writeGetCmd i { v with wset := v.wset.erase fd }
    else if flags &&& fReading ≠ 0 ∧ fd ∈ v.rs then do
      let n ← (.call (.read fd) .ret : WebProg ℤ)
      if n = 0 then do
        let _ ← (.call (.close fd) .ret : WebProg _)
        let v := v.setFile i { v.file i with f_flags := fDone }
        pure { v with rset := v.rset.erase fd, nconn := v.nconn - 1, nlefttoread := v.nlefttoread - 1 }
      else pure v
    else pure v

/-- One segment, and the next one, if the main loop does not end. -/
def segment (maxnconn : ℤ) : Pc × Vars → WebProg (Option (Pc × Vars))
  | (.head, v) => if v.nlefttoread > 0 then pure (some (.connect, v)) else pure none
  | (.connect, v) =>
    if v.nconn < maxnconn ∧ v.nlefttoconn > 0 then
      match (List.range v.nfiles).find? fun i => (v.file i).f_flags = 0 with
      | none => .call (.errQuit (nothingFound v.nlefttoconn)) fun r => r.elim
      | some i => do
        let v ← startConnect i v
        pure (some (.connect, { v with nconn := v.nconn + 1, nlefttoconn := v.nlefttoconn - 1 }))
    else do
      let (rs, ws) ← .call (.select (v.maxfd + 1) v.rset v.wset) .ret
      pure (some (.check 0, { v with rs, ws }))
  | (.check i, v) =>
    if i < v.nfiles then do
      let v ← checkFile i v
      pure (some (.check (i + 1), v))
    else pure (some (.head, v))

/-- The replies of the system, and what they do to the open sockets. A new socket has a
descriptor that is not in use, and `select` finds any parts of its sets ready. -/
def Env (socks : Finset ℕ) : (c : Call) → Reply c → Finset ℕ → Prop
  | .socket, some fd, socks' => fd ∉ socks ∧ socks' = insert fd socks
  | .select _ rset wset, (rs, ws), socks' => rs ⊆ rset ∧ ws ⊆ wset ∧ socks' = socks
  | .close fd, _, socks' => socks' = socks.erase fd
  | _, _, socks' => socks' = socks

/-- The runs of the fetcher. -/
def runs : Protocol Call Reply (Finset ℕ) where
  Ok _ _ := True
  Next := Env

/-- The states of the main loop, at each segment. -/
abbrev Reachable (maxnconn : ℤ) (host : String) (names : List String) : Pc × Vars → Finset ℕ → Prop :=
  Rounds runs (segment maxnconn) (.head, .init host names) ∅

end Somenote.Web
