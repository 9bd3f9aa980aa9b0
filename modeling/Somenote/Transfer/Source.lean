import Mathlib.Algebra.Ring.Int.Defs
import Somenote.Bytes.Words
import Somenote.Program.Basic

/-! # Transfers in parts

The functions `readn` and `writen` of `rdwr_n.c`. The descriptor of `readn` is `rd`, a name that
the function does not declare; here it is a parameter. The loop has an amount of fuel, and spins
without it.
-/

namespace Somenote.Transfer

/-- A part of an object of the program. An object is not larger than `PTRDIFF_MAX`. -/
structure Area where
  bytes : List Byte
  ptr : ℕ
  n : ℕ
  inside : ptr + n ≤ bytes.length
  size : bytes.length < 2 ^ 63

/-- Both calls return a `ssize_t`. -/
inductive Call
  | read (fd : ℤ) (ptr nleft : ℕ)
  | write (fd : ℤ) (ptr nleft : ℕ)

abbrev TransferProg := Prog Call (fun _ => ℤ) Empty

/-- The conversion to `ssize_t`. -/
def toSsize (a : ℕ) : ℤ := if a < 2 ^ 63 then a else a - 2 ^ 64

/-- The loop of both functions, over the call that they make. -/
def transferLoop (io : ℕ → ℕ → Call) (n : ℕ) : ℕ → ℕ → ℕ → TransferProg ℤ
  | 0, _, _ => .spin
  | fuel + 1, ptr, nleft =>
    if nleft > 0 then
      .call (io ptr nleft) fun r =>
        if r < 0 then
          if nleft = n then pure (-1) else pure (toSsize (sizeSub n nleft))
        else if r = 0 then pure (toSsize (sizeSub n nleft))
        else transferLoop io n fuel (ptr + r.toNat) (sizeSub nleft r.toNat)
    else pure (toSsize (sizeSub n nleft))

def readn (rd : ℤ) (fuel ptr n : ℕ) : TransferProg ℤ := transferLoop (.read rd) n fuel ptr n

def writen (fd : ℤ) (fuel ptr n : ℕ) : TransferProg ℤ := transferLoop (.write fd) n fuel ptr n

/-- What the calls return, by their number, for each amount that they are asked for. A `read` gives
the bytes, a `write` how many it has taken, and `none` is an error. -/
structure Results where
  read : ℕ → (nleft : ℕ) → Option {l : List Byte // l.length ≤ nleft}
  write : ℕ → (nleft : ℕ) → Option {c : ℕ // c ≤ nleft}

/-- The object, what was written so far, and the number of calls. -/
structure Process where
  bytes : List Byte
  out : List Byte
  calls : ℕ
  deriving DecidableEq, Repr

/-- The object with other bytes in a place. -/
def place (bytes : List Byte) (ptr : ℕ) (l : List Byte) : List Byte :=
  bytes.take ptr ++ l ++ bytes.drop (ptr + l.length)

def sem (e : Results) : Call → Process → ℤ × Process
  | .read _ ptr nleft, s =>
    match e.read s.calls nleft with
    | none => (-1, { s with calls := s.calls + 1 })
    | some l => (l.1.length, { s with bytes := place s.bytes ptr l.1, calls := s.calls + 1 })
  | .write _ ptr nleft, s =>
    match e.write s.calls nleft with
    | none => (-1, { s with calls := s.calls + 1 })
    | some c => (c.1, { s with out := s.out ++ (s.bytes.drop ptr).take c.1, calls := s.calls + 1 })

end Somenote.Transfer
