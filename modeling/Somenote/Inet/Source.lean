import Mathlib.Data.List.Basic
import Somenote.Text.Source

/-! # The addresses of the network as text

The functions of `inet_ntop.c` and `inet_pton.c`. An address of four or sixteen bytes becomes a
text, and a text that `inet_pton` accepts becomes an address again.
-/

namespace Somenote.Inet

open Decimal Text

inductive Errno
  | EAFNOSUPPORT
  | ENOSPC
  deriving DecidableEq, Repr

inductive Family
  | AF_INET
  | AF_INET6
  | other
  deriving DecidableEq, Repr

def INADDRSZ : ℕ := 4

def IN6ADDRSZ : ℕ := 16

/-- The text of `%x`. -/
def hex (n : ℕ) : List Byte := (Nat.toDigits 16 n).map Char.toUInt8

/-- The text that is copied to `dst`, with a NUL behind it. -/
def inetNtop4 (src : ℕ → Byte) (size : ℕ) : Except Errno (List Byte) :=
  let tmp := dec (src 0).toNat ++ encode "." ++ dec (src 1).toNat ++ encode "." ++
    dec (src 2).toNat ++ encode "." ++ dec (src 3).toNat
  if tmp.length > size then .error .ENOSPC else .ok tmp

/-- Words in a row that are zero. A `base` of `-1` is `none`. -/
structure Run where
  base : ℕ
  len : ℕ
  deriving DecidableEq, Repr

def words (src : ℕ → Byte) (i : ℕ) : ℕ := (src (2 * i)).toNat <<< 8 ||| (src (2 * i + 1)).toNat

/-- The longer of two runs, and `best` when they are as long. -/
def longer (best : Option Run) (cur : Run) : Option Run :=
  match best with
  | none => some cur
  | some b => if cur.len > b.len then some cur else some b

/-- The loop over the words, with `best` and `cur`. -/
def scanStep (src : ℕ → Byte) (r : Option Run × Option Run) (i : ℕ) : Option Run × Option Run :=
  if words src i = 0 then
    match r.2 with
    | none => (r.1, some ⟨i, 1⟩)
    | some cur => (r.1, some ⟨cur.base, cur.len + 1⟩)
  else
    match r.2 with
    | none => (r.1, none)
    | some cur => (longer r.1 cur, none)

/-- The run that `::` stands for. -/
def bestRun (src : ℕ → Byte) : Option Run :=
  let r := (List.range 8).foldl (scanStep src) (none, none)
  let best := match r.2 with
    | none => r.1
    | some cur => longer r.1 cur
  best.filter fun b => ¬ b.len < 2

/-- `sizeof tmp` -/
def TMPSZ : ℕ := (encode "ffff:ffff:ffff:ffff:ffff:ffff:255.255.255.255").length + 1

def inside (best : Option Run) (i : ℕ) : Bool :=
  best.any fun b => b.base ≤ i && i < b.base + b.len

def starts (best : Option Run) (i : ℕ) : Bool := best.any fun b => b.base = i

/-- The address is an encapsulated one of four bytes. -/
def encapsulated (src : ℕ → Byte) (best : Option Run) : Bool :=
  best.any fun b => b.base = 0 && (b.len = 6 || b.len = 5 && words src 5 = 0xffff)

/-- The loop that writes the words to `tmp`, from the word `i` on. -/
def formatLoop (src : ℕ → Byte) (best : Option Run) : ℕ → ℕ → List Byte → Except Errno (List Byte)
  | 0, _, tmp => .ok tmp
  | left + 1, i, tmp =>
    if inside best i then
      formatLoop src best left (i + 1) (if starts best i then tmp ++ encode ":" else tmp)
    else
      let tmp := if i ≠ 0 then tmp ++ encode ":" else tmp
      if i = 6 ∧ encapsulated src best then
        (inetNtop4 (fun k => src (12 + k)) (TMPSZ - tmp.length)).map fun quad => tmp ++ quad
      else formatLoop src best left (i + 1) (tmp ++ hex (words src i))

/-- A run at the end of the address. -/
def trailing (best : Option Run) : Bool := best.any fun b => b.base + b.len = 8

def inetNtop6 (src : ℕ → Byte) (size : ℕ) : Except Errno (List Byte) :=
  let best := bestRun src
  match formatLoop src best 8 0 [] with
  | .error e => .error e
  | .ok tmp =>
    let tmp := if trailing best then tmp ++ encode ":" else tmp
    if tmp.length + 1 > size then .error .ENOSPC else .ok tmp

def inetNtop (af : Family) (src : ℕ → Byte) (size : ℕ) : Except Errno (List Byte) :=
  match af with
  | .AF_INET => inetNtop4 src size
  | .AF_INET6 => inetNtop6 src size
  | .other => .error .EAFNOSUPPORT

def digits : List Byte := encode "0123456789"

def xdigits_l : List Byte := encode "0123456789abcdef"

def xdigits_u : List Byte := encode "0123456789ABCDEF"

/-- `strchr`, as an index -/
def strchr (s : List Byte) (c : Byte) : Option ℕ := s.idxOf? c

/-- What `inet_pton4` has read: `done` are the bytes in front of `tp`, and `byte` is at `tp`. -/
structure Quad where
  saw_digit : Bool
  octets : ℕ
  done : List Byte
  byte : Byte

def pton4Loop : List Byte → Quad → Option Quad
  | [], q => some q
  | ch :: src, q =>
    match strchr digits ch with
    | some d =>
      let new := q.byte.toNat * 10 + d
      if new > 255 then none
      else if q.saw_digit then pton4Loop src { q with byte := UInt8.ofNat new }
      else if q.octets + 1 > 4 then none
      else pton4Loop src
        { q with byte := UInt8.ofNat new, octets := q.octets + 1, saw_digit := true }
    | none =>
      if ch = 46 ∧ q.saw_digit then
        if q.octets = 4 then none
        else pton4Loop src { q with done := q.done ++ [q.byte], byte := 0, saw_digit := false }
      else none

/-- The bytes that are copied to `dst`. -/
def inetPton4 (src : List Byte) : Option (List Byte) :=
  (pton4Loop src ⟨false, 0, [], 0⟩).bind fun q =>
    if q.octets < 4 then none else some (q.done ++ [q.byte])

def xdigit (ch : Byte) : Option ℕ := (strchr xdigits_l ch).or (strchr xdigits_u ch)

/-- What `inet_pton6` has read. The pointers into `tmp` are indices. -/
structure Pton6 where
  tmp : List Byte
  tp : ℕ
  colonp : Option ℕ
  curtok : List Byte
  saw_xdigit : Bool
  val : ℕ

/-- The two bytes of `val` go to `tmp`. -/
def Pton6.store (s : Pton6) : Option Pton6 :=
  if s.tp + 2 > IN6ADDRSZ then none
  else
    let tmp := (s.tmp.set s.tp (UInt8.ofNat (s.val >>> 8))).set (s.tp + 1) (UInt8.ofNat s.val)
    some { s with tmp := tmp, tp := s.tp + 2 }

def pton6Loop : List Byte → Pton6 → Option Pton6
  | [], s => some s
  | ch :: src, s =>
    match xdigit ch with
    | some d =>
      let val := s.val <<< 4 ||| d
      if val > 0xffff then none else pton6Loop src { s with val := val, saw_xdigit := true }
    | none =>
      if ch = 58 then
        if s.saw_xdigit then
          s.store.bind fun s =>
            pton6Loop src { s with curtok := src, saw_xdigit := false, val := 0 }
        else if s.colonp.isSome then none
        else pton6Loop src { s with curtok := src, colonp := some s.tp }
      else if ch = 46 ∧ s.tp + INADDRSZ ≤ IN6ADDRSZ then
        -- the NUL was seen by `inet_pton4`
        (inetPton4 s.curtok).map fun quad =>
          { s with
            tmp := s.tmp.take s.tp ++ quad ++ s.tmp.drop (s.tp + INADDRSZ)
            tp := s.tp + INADDRSZ
            saw_xdigit := false }
      else none

def shiftStep (colonp n : ℕ) (tmp : List Byte) (i : ℕ) : List Byte :=
  (tmp.set (IN6ADDRSZ - i) (tmp.getD (colonp + n - i) 0)).set (colonp + n - i) 0

/-- The bytes behind `::` are shifted to the end, and `tp` too. -/
def Pton6.shift (s : Pton6) : Pton6 :=
  match s.colonp with
  | none => s
  | some colonp =>
    let n := s.tp - colonp
    { s with tmp := (List.range' 1 n).foldl (shiftStep colonp n) s.tmp, tp := IN6ADDRSZ }

/-- A single colon at the front is refused, and one of two is skipped. -/
def leading : List Byte → Option (List Byte)
  | 58 :: 58 :: src => some (58 :: src)
  | 58 :: _ => none
  | src => some src

def inetPton6 (src : List Byte) : Option (List Byte) := do
  let src ← leading src
  let s ← pton6Loop src ⟨List.replicate IN6ADDRSZ 0, 0, none, src, false, 0⟩
  let s ← if s.saw_xdigit then s.store else some s
  let s := s.shift
  if s.tp ≠ IN6ADDRSZ then none else some s.tmp

/-- The value is `-1` for an error, and 0 for `none`. -/
def inetPton (af : Family) (src : List Byte) : Except Errno (Option (List Byte)) :=
  match af with
  | .AF_INET => .ok (inetPton4 src)
  | .AF_INET6 => .ok (inetPton6 src)
  | .other => .error .EAFNOSUPPORT

example : inetPton6 (encode "::ffff:1.2.3.4") =
    some [0, 0, 0, 0, 0, 0, 0, 0, 0, 0, 255, 255, 1, 2, 3, 4] := by decide

end Somenote.Inet
