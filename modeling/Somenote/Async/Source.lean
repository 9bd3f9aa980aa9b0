import Mathlib.Data.Int.Notation
import Mathlib.Logic.Function.Basic
import Somenote.Bytes.Cells

/-! # The asynchronous copy

The main loop of `asyncio.c`, which copies a file through a number of buffers. Each buffer in
turn has its read and its write outstanding, and these complete at any time. Both calls succeed:
a read gives what the file has at its offset, up to the number of bytes asked for, and a write
writes all of its bytes.
-/

namespace Somenote.Async

def BSZ : ℕ := 4096

def NBUF : ℕ := 8

def EINPROGRESS : ℤ := 115

/-- A letter, in the C locale. -/
def isalpha (c : UInt8) : Bool := (65 ≤ c && c ≤ 90) || (97 ≤ c && c ≤ 122)

/-- The letters turned by 13 places. The bounds are `'n'`, `'a'` and `'N'`. -/
def translate (c : UInt8) : UInt8 :=
  if isalpha c then
    if 110 ≤ c then c - 13
    else if 97 ≤ c then c + 13
    else if 78 ≤ c then c - 13
    else c + 13
  else c

inductive Rwop | unused | readPending | writePending
  deriving DecidableEq, Repr

/-- The input and the output file. -/
inductive Fildes | ifd | ofd
  deriving DecidableEq, Repr

/-- What the system knows of an operation. -/
inductive Status
  | inProgress
  | failed (err : ℤ)
  | done (n : ℤ)
  deriving DecidableEq, Repr

structure Aiocb where
  aio_fildes : Fildes
  aio_offset : ℕ
  aio_nbytes : ℕ
  status : Status

def aioError (a : Aiocb) : ℤ :=
  match a.status with
  | .inProgress => EINPROGRESS
  | .failed err => err
  | .done _ => 0

def aioReturn (a : Aiocb) : ℤ :=
  match a.status with
  | .done n => n
  | _ => -1

/-- `struct buf`. -/
structure Buf where
  op : Rwop
  last : Bool
  aiocb : Aiocb
  data : List UInt8

/-- Where the program is: in front of the turn `i` of the inner loop, or behind the loop with
`i = NBUF`, in `aio_suspend`, behind the outer loop, or at an error exit. -/
inductive Pc
  | turn (i : ℕ)
  | suspend
  | exited
  | failed (text : String)
  deriving DecidableEq, Repr

/-- The variables of `main`, the output file, and the writes that the system has done. -/
structure State where
  pc : Pc
  bufs : ℕ → Buf
  aiolist : ℕ → Bool
  numop : ℤ
  off : ℕ
  out : List UInt8
  log : List (ℕ × List UInt8)

/-- The state behind the initialisation of the buffers. -/
def State.initial : State where
  pc := .turn 0
  bufs _ := ⟨.unused, false, ⟨.ifd, 0, 0, .done 0⟩, List.replicate BSZ 0⟩
  aiolist _ := false
  numop := 0
  off := 0
  out := []
  log := []

namespace State

def exit (s : State) (text : String) : State := { s with pc := .failed text }

def setBuf (s : State) (i : ℕ) (b : Buf) : State :=
  { s with bufs := Function.update s.bufs i b }

/-- `case UNUSED`. -/
def unused (size i : ℕ) (s : State) : State :=
  let b := s.bufs i
  if s.off < size then
    { s.setBuf i { b with
        op := .readPending
        last := if size ≤ s.off + BSZ then true else b.last
        aiocb := ⟨.ifd, s.off, BSZ, .inProgress⟩ } with
      off := s.off + BSZ
      aiolist := Function.update s.aiolist i true
      numop := s.numop + 1 }
  else s

/-- The message of a count that is not the one asked for. -/
def shortRead (n : ℤ) : String := "short read (" ++ toString n ++ "/" ++ toString BSZ ++ ")"

/-- `case READ_PENDING`. -/
def readPending (i : ℕ) (s : State) : State :=
  let b := s.bufs i
  if aioError b.aiocb = EINPROGRESS then s
  else if aioError b.aiocb ≠ 0 then s.exit "aio_read failed "
  else
    let n := aioReturn b.aiocb
    if n < 0 then s.exit "aio_read failed "
    else if n ≠ BSZ ∧ b.last = false then s.exit (shortRead n)
    else
      s.setBuf i { b with
        op := .writePending
        aiocb := { b.aiocb with
          aio_fildes := .ofd, aio_nbytes := n.toNat, status := .inProgress }
        data := (b.data.take n.toNat).map translate ++ b.data.drop n.toNat }

/-- `case WRITE_PENDING`. -/
def writePending (i : ℕ) (s : State) : State :=
  let b := s.bufs i
  if aioError b.aiocb = EINPROGRESS then s
  else if aioError b.aiocb ≠ 0 then
    s.exit (if aioError b.aiocb = -1 then "aio_error failed " else "aio_read failed ")
  else
    let n := aioReturn b.aiocb
    if n < 0 then s.exit "aio_return failed "
    else if n ≠ b.aiocb.aio_nbytes then s.exit (shortRead n)
    else
      { s.setBuf i { b with op := .unused } with
        aiolist := Function.update s.aiolist i false
        numop := s.numop - 1 }

/-- One turn of the inner loop. -/
def turn (size i : ℕ) (s : State) : State :=
  match (s.bufs i).op with
  | .unused => s.unused size i
  | .readPending => s.readPending i
  | .writePending => s.writePending i

/-- The rest of the outer loop. -/
def after (size : ℕ) (s : State) : State :=
  if s.numop = 0 then
    if size ≤ s.off then { s with pc := .exited } else { s with pc := .turn 0 }
  else { s with pc := .suspend }

/-- The outstanding operation of a buffer completes. -/
def complete (input : List UInt8) (i : ℕ) (s : State) : State :=
  let b := s.bufs i
  let a := b.aiocb
  match a.aio_fildes with
  | .ifd =>
    let block := (input.drop a.aio_offset).take a.aio_nbytes
    s.setBuf i { b with
      aiocb := { a with status := .done block.length }
      data := block ++ b.data.drop block.length }
  | .ofd =>
    let block := b.data.take a.aio_nbytes
    { s.setBuf i { b with aiocb := { a with status := .done a.aio_nbytes } } with
      out := overwrite 0 s.out a.aio_offset block
      log := s.log ++ [(a.aio_offset, block)] }

/-- Some operation on the list is over, for which `aio_suspend` waits. -/
def Ready (s : State) : Prop :=
  ∃ i < NBUF, s.aiolist i = true ∧ (s.bufs i).aiocb.status ≠ .inProgress

instance (s : State) : Decidable s.Ready := inferInstanceAs (Decidable (∃ i < NBUF, _))

end State

/-- The program goes on, or the operation of a buffer completes. -/
inductive Act
  | main
  | complete (i : ℕ)
  deriving DecidableEq, Repr

def step (input : List UInt8) (s : State) : Act → Option State
  | .main =>
    match s.pc with
    | .turn i =>
      if i < NBUF then some (State.turn input.length i { s with pc := .turn (i + 1) })
      else some (s.after input.length)
    | .suspend => if s.Ready then some { s with pc := .turn 0 } else none
    | .exited | .failed _ => none
  | .complete i =>
    if i < NBUF ∧ (s.bufs i).aiocb.status = .inProgress then some (s.complete input i) else none

inductive Reach (input : List UInt8) : State → Prop
  | initial : Reach input State.initial
  | step {s t a} (h : Reach input s) (hs : step input s a = some t) : Reach input t

/-- The blocks of the translated input, with their offsets. -/
def blocks (input : List UInt8) : List (ℕ × List UInt8) :=
  (List.range ((input.length + BSZ - 1) / BSZ)).map fun k =>
    (k * BSZ, ((input.drop (k * BSZ)).take BSZ).map translate)

end Somenote.Async
