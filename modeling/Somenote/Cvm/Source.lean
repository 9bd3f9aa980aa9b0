import Somenote.Bytes.Lines
import Somenote.Bytes.Scan
import Somenote.Bytes.Search
import Somenote.Text.Source

/-! # The manager of virtual machines

The functions of `cvm.c` that switch the machines of a host on and off and keep their view mode.
`getresult`, `monitor` and `exec`, which reach the shell, a machine and a server, are calls here,
and a variable without a value is one too. Loops have an amount of fuel, and spin without it.
-/

namespace Somenote.Cvm

open Scan Text

def resultlen : ℕ := 64 * 1024

def namelen : ℕ := 1024

/-- The commands that are built in `cmd`. -/
inductive Command
  /-- `ps -ef | grep "qemu-kvm -name VM%d " | grep -v grep | wc -l` -/
  | count (id : ℤ)
  /-- `ps -ef | grep "qemu-kvm -name VM%d " | grep -v grep` -/
  | find (id : ℤ)
  /-- `ls vmdir | grep VM` -/
  | list
  | rmVM (id : ℤ)
  | rmBACK (id : ℤ)
  /-- `sed -i '/VM%d:/d' vnctoken` -/
  | sed (id : ℤ)
  | kill (pid : ℤ)
  | ls (dir : String)
  /-- `ssh root@%s ls %s` -/
  | sshLs (ip : List Byte) (dir : String)
  | qemu (id cpu : ℤ) (cpuType : List Byte) (mem : ℤ) (mac : List Byte)
  deriving DecidableEq, Repr

/-- The files whose names are built in `file`. -/
inductive Path
  | vm (id : ℤ)
  | back (id : ℤ)
  deriving DecidableEq, Repr

/-- What is read for a machine that is switched on. -/
structure Params where
  cpu : ℤ
  cpuType : List Byte
  mem : ℤ
  mac : List Byte
  deriving DecidableEq, Repr

inductive Call
  | getresult (cmd : Command) (olog : Bool)
  | monitor (id : ℤ) (cmd : String) (olog : Bool)
  | exec (cmd : Command)
  | system (cmd : Command)
  | xmlog (cmd : Command)
  | fileExist (file : Path)
  | usleep
  | fopen (mode : String)
  | fprintf (s : List Byte)
  | fgets (n : ℕ)
  | feof
  | fclose
  | scanf
  | scanfParams
  | printf (s : List Byte)
  | fflush
  | junk

/-- The text in `result`; whether a machine or the server took a command; what `fgets` reads and
`scanf` finds; the value of a variable that has none. The stream is always that of `vnctoken`. -/
@[reducible] def Reply : Call → Type
  | .getresult .. => List Byte
  | .monitor .. | .exec _ | .fileExist _ | .feof => Bool
  | .fgets _ => Option (List Byte)
  | .scanf => Option ℤ
  | .scanfParams => Params
  | .junk => ℤ
  | _ => Unit

/-- What the language leaves undefined: a pointer outside of any object is followed, something is
written past its array, a number does not fit into an `int`, a function returns no value. -/
inductive Fault
  | segv
  | overflow
  | range
  | noValue
  deriving DecidableEq, Repr

abbrev CvmProg := Prog Call Reply Fault

/-- The string has room in an array, with its NUL. -/
def Fits (s : List Byte) (size : ℕ) : Prop := s.length < size

instance (s : List Byte) (size : ℕ) : Decidable (Fits s size) := inferInstanceAs (Decidable (_ < _))

/-- A host on which every call succeeds and reads nothing. -/
def idle (_ : ℕ) : (c : Call) → Reply c
  | .getresult .. => []
  | .monitor .. => true
  | .exec _ => true
  | .fileExist _ => false
  | .feof => true
  | .fgets _ => none
  | .scanf => none
  | .scanfParams => ⟨0, [], 0, []⟩
  | .junk => 0
  | .system _ | .xmlog _ | .usleep | .fopen _ | .fprintf _ | .fclose | .printf _ | .fflush => ()

section Calls

def getresult (cmd : Command) (olog : Bool) : CvmProg (List Byte) :=
  .call (.getresult cmd olog) .ret

def monitor (id : ℤ) (cmd : String) : CvmProg Bool := .call (.monitor id cmd true) .ret

def exec (cmd : Command) : CvmProg Bool := .call (.exec cmd) .ret

def system (cmd : Command) : CvmProg Unit := .call (.system cmd) .ret

def xmlog (cmd : Command) : CvmProg Unit := .call (.xmlog cmd) .ret

def fileExist (file : Path) : CvmProg Bool := .call (.fileExist file) .ret

def usleep : CvmProg Unit := .call .usleep .ret

def fopen (mode : String) : CvmProg Unit := .call (.fopen mode) .ret

def fprintf (s : List Byte) : CvmProg Unit := .call (.fprintf s) .ret

def fgets (n : ℕ) : CvmProg (Option (List Byte)) := .call (.fgets n) .ret

def feof : CvmProg Bool := .call .feof .ret

def fclose : CvmProg Unit := .call .fclose .ret

def scanf : CvmProg (Option ℤ) := .call .scanf .ret

def scanfParams : CvmProg Params := .call .scanfParams .ret

def printf (s : List Byte) : CvmProg Unit := .call (.printf s) .ret

def fflush : CvmProg Unit := .call .fflush .ret

def junk : CvmProg ℤ := .call .junk .ret

end Calls

section ViewMode

/-- The string that `viewMode` looks for. -/
def token (id : ℤ) : List Byte := encode "VM" ++ decInt id ++ encode ":"

/-- The line that `addVMview` writes. -/
def tokenLine (id : ℤ) : List Byte :=
  encode "VM" ++ decInt id ++ encode ": localhost:" ++ decInt (6000 + id)

/-- The loop of `viewMode`, with the string in its buffer. -/
def viewLoop (tmp : List Byte) : ℕ → List Byte → CvmProg Bool
  | 0, _ => .spin
  | fuel + 1, buf => do
    if !(← feof) then do
      let r ← fgets 1024
      let buf := r.elim buf cstr
      if (Search.search tmp buf).isSome then do
        fclose
        pure true
      else viewLoop tmp fuel buf
    else do
      fclose
      pure false

/-- The buffer is not initialised; `buf` is the string that its memory holds. -/
def viewMode (fuel : ℕ) (buf : List Byte) (id : ℤ) : CvmProg Bool := do
  fopen "r"
  viewLoop (token id) fuel buf

/-- The loops that read an identifier and leave at -1. When `scanf` finds none, the variable stays
as it is. -/
def idLoop (body : ℤ → CvmProg Unit) : ℕ → ℤ → CvmProg Unit
  | 0, _ => .spin
  | fuel + 1, id => do
    let r ← scanf
    let id := r.getD id
    if id = -1 then pure ()
    else do
      body id
      idLoop body fuel id

/-- The body of the loop of `addVMview`. -/
def addView (id : ℤ) : CvmProg Unit := do
  fprintf (tokenLine id ++ [10])
  let _ ← monitor id "change vnc password cac028"
  pure ()

def addVMview (fuel : ℕ) : CvmProg Unit := do
  fopen "a"
  let id ← junk
  idLoop addView fuel id
  fclose
  printf (encode "ok\n")

/-- The body of the loop of `delVMview`. -/
def delView (id : ℤ) : CvmProg Unit := do
  system (.sed id)
  let _ ← monitor id "change vnc password \"\""
  pure ()

def delVMview (fuel : ℕ) : CvmProg Unit := do
  let id ← junk
  idLoop delView fuel id
  printf (encode "ok\n")

def vmdel (id : ℤ) : CvmProg Bool := do
  xmlog (.rmVM id)
  system (.rmVM id)
  xmlog (.rmBACK id)
  system (.rmBACK id)
  xmlog (.sed id)
  system (.sed id)
  let exist ← fileExist (.back id)
  pure (!exist)

end ViewMode

section Power

def vmison (id : ℤ) : CvmProg Bool := do
  let result ← getresult (.count id) false
  let rs ← junk
  pure (decide ((scanInt result).getD rs = 1))

def vmstatus (id : ℤ) : CvmProg ℤ := do
  if ← vmison id then pure 0 else pure 1

/-- The parameters `type` and `br` are not used. -/
def vmon (fuel : ℕ) (buf : List Byte) (id : ℤ) (p : Params) : CvmProg Bool := do
  if ← vmison id then pure true
  else do
    xmlog (.qemu id p.cpu p.cpuType p.mem p.mac)
    let _ ← exec (.qemu id p.cpu p.cpuType p.mem p.mac)
    usleep
    if ← vmison id then do
      let _ ← monitor id "loadvm init"
      let _ ← monitor id "c"
      if ← viewMode fuel buf id then do
        let _ ← monitor id "change vnc password cac028"
        pure true
      else pure true
    else pure false

def vmoff (id : ℤ) : CvmProg Bool := do
  if !(← vmison id) then pure true else monitor id "system_powerdown"

/-- What `"%*s%d"` reads. -/
def scanSecond (s : List Byte) : Option ℤ := (word s).bind fun w => scanInt w.2

def vmhalt (id : ℤ) : CvmProg Bool := do
  if !(← vmison id) then pure true
  else do
    let result ← getresult (.find id) true
    if result = [] then pure true
    else do
      let rs ← junk
      let rs := (scanSecond result).getD rs
      xmlog (.kill rs)
      system (.kill rs)
      usleep
      if !(← vmison id) then pure true else pure false

def vmreset (id : ℤ) : CvmProg Bool := monitor id "system_reset"

def vmstop (id : ℤ) : CvmProg Bool := monitor id "stop"

def vmcontinue (id : ℤ) : CvmProg Bool := monitor id "c"

/-- The loops of the `ppower` commands. -/
def ppowerLoop (body : ℤ → CvmProg (List Byte)) (fuel : ℕ) : CvmProg Unit := do
  let id ← junk
  idLoop (fun id => do
    let text ← body id
    printf text
    fflush) fuel id

def okError (m : CvmProg Bool) : CvmProg (List Byte) := do
  if ← m then pure (encode "ok\n") else pure (encode "error\n")

def ppowerStatus : ℕ → CvmProg Unit :=
  ppowerLoop fun id => do
    let ret ← vmstatus id
    if ret = 0 then pure (encode "on\n")
    else if ret = 1 then pure (encode "off\n")
    else if ret = 2 then pure (encode "stop\n")
    else pure (encode "unknown\n")

def ppowerOn (buf : List Byte) (fuel : ℕ) : CvmProg Unit :=
  ppowerLoop (fun id => do
    let p ← scanfParams
    okError (vmon fuel buf id p)) fuel

def ppowerOff : ℕ → CvmProg Unit := ppowerLoop fun id => okError (vmoff id)

def ppowerHalt : ℕ → CvmProg Unit := ppowerLoop fun id => okError (vmhalt id)

def ppowerReset : ℕ → CvmProg Unit := ppowerLoop fun id => okError (vmreset id)

def ppowerStop : ℕ → CvmProg Unit := ppowerLoop fun id => okError (vmstop id)

def ppowerContinue : ℕ → CvmProg Unit := ppowerLoop fun id => okError (vmcontinue id)

/-- The text behind the first newline; without one `strchr` gives `NULL`. -/
def nextLine (p : List Byte) : Option (List Byte) :=
  if 10 ∈ p then some (p.dropWhile (· ≠ 10)).tail else none

/-- The loop of `online`, on what is left of the listing. -/
def onlineLoop : ℕ → ℤ → List Byte → CvmProg Unit
  | 0, _, _ => .spin
  | fuel + 1, id, p =>
    if p ≠ [] then do
      let id ← (if p.take 2 = encode "VM" then do
        let id := (scanInt (p.drop 2)).getD id
        let on ← vmison id
        printf (decInt id ++ [10])
        printf (decInt (if on then 1 else 0) ++ [10])
        pure id
      else pure id)
      match nextLine p with
      | none => .dump .segv
      | some p => onlineLoop fuel id p
    else pure ()

def online (fuel : ℕ) : CvmProg Unit := do
  let result2 ← getresult .list false
  if result2 = [] then printf (encode "-1\n")
  else do
    let id ← junk
    onlineLoop fuel id result2
    printf (encode "-1\n")

end Power

section Lists

/-- What `sscanf` leaves in `name`. Without a word it stays as it is. -/
def scanName (name p : List Byte) : CvmProg (List Byte) :=
  match word p with
  | none => pure name
  | some (w, _) => if Fits w namelen then pure w else .dump .overflow

/-- The loop over a listing, on what is left of it. -/
def listLoop : ℕ → List Byte → List Byte → CvmProg Unit
  | 0, _, _ => .spin
  | fuel + 1, name, p =>
    if p ≠ [] then do
      let name ← scanName name p
      printf (name ++ [10])
      match nextLine p with
      | none => .dump .segv
      | some p => listLoop fuel name p
    else pure ()

/-- The body of the functions that print a listing, with the string that `name` holds. -/
def printList (cmd : Command) (name : List Byte) (fuel : ℕ) : CvmProg Unit := do
  let result ← getresult cmd true
  if result = [] then printf (encode "-1\n")
  else do
    listLoop fuel name result
    printf (encode "-1\n")

def cdList : List Byte → ℕ → CvmProg Unit := printList (.ls "/var/cos/cvm/iso")

def osList : List Byte → ℕ → CvmProg Unit := printList (.ls "/var/cos/cvm/sys")

/-- The address is read from the input. -/
def sysList (ip : List Byte) : List Byte → ℕ → CvmProg Unit :=
  printList (.sshLs ip "/var/cos/cvm/data/sys")

def isoList (ip : List Byte) : List Byte → ℕ → CvmProg Unit :=
  printList (.sshLs ip "/var/cos/cvm/data/iso")

def diskList : List Byte → ℕ → CvmProg Unit := printList (.ls "/var/cos/cvm/disk")

end Lists

end Somenote.Cvm
