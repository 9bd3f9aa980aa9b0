import Mathlib.Data.Int.Notation
import Mathlib.Data.Nat.Notation
import Mathlib.Tactic.Common
import Somenote.Bytes.Scan
import Somenote.Bytes.Words

/-! # Reading a line and turning it around

The program `1-19-reverse.c`. An access to the array outside of its bounds and a counter that is no
`int` are undefined in C, and have no value here. In `getline` the index of the next store, `j`, is
never set: it holds whatever was in its place, an argument here.
-/

namespace Somenote.Text.Reverse

open Scan

def MAXLINE : ℕ := 1000

abbrev newline : Byte := 10

/-- `char line[MAXLINE]` -/
structure Line where
  chars : List Byte
  size : chars.length = MAXLINE

namespace Line

/-- `line[i]` -/
def get (line : Line) (i : ℤ) : Option Byte := if 0 ≤ i then line.chars[i.toNat]? else none

/-- `line[i] = c` -/
def put (line : Line) (i : ℤ) (c : Byte) : Option Line :=
  if 0 ≤ i ∧ i < MAXLINE then some ⟨line.chars.set i.toNat c, by simp [line.size]⟩ else none

end Line

/-- `i++` -/
def incr (i : ℤ) : Option ℤ := if i < INT_MAX then some (i + 1) else none

/-- A turn of the loop of `getline` keeps a character while there is room. -/
def keep (lim i j : ℤ) (c : Byte) (line : Line) : Option (ℤ × Line) :=
  if i < lim - 2 then do
    let line ← line.put j c
    some (j + 1, line)
  else some (j, line)

/-- The loop of `getline`, with the character that ends it; `none` is `EOF`. -/
def getlineLoop (lim : ℤ) : List Byte → ℤ → ℤ → Line →
    Option (Option Byte × List Byte × ℤ × ℤ × Line)
  | [], i, j, line => some (none, [], i, j, line)
  | c :: text, i, j, line =>
    if c = newline then some (some c, text, i, j, line)
    else do
      let (j, line) ← keep lim i j c line
      let i ← incr i
      getlineLoop lim text i j line

/-- `getline`; it takes its line from the text. -/
def getline (lim j : ℤ) (text : List Byte) (line : Line) : Option (ℤ × List Byte × Line) := do
  let (c, text, i, j, line) ← getlineLoop lim text 0 j line
  let (i, j, line) ← (
    if c = some newline then do
      let line ← line.put j newline
      let i ← incr i
      some (i, j + 1, line)
    else some (i, j, line) : Option (ℤ × ℤ × Line))
  let line ← line.put j 0
  some (i, text, line)

/-- `while(s[i] != '\0') ++i;` -/
def lengthLoop : ℕ → ℤ → Line → Option ℤ
  | 0, _, _ => none
  | n + 1, i, s => do
    let c ← s.get i
    if c ≠ 0 then lengthLoop n (i + 1) s else some i

/-- The loop of `reverse`. -/
def swapLoop : ℕ → ℤ → ℤ → Line → Option Line
  | 0, _, _, _ => none
  | n + 1, i, j, s =>
    if j < i then do
      let temp ← s.get j
      let c ← s.get i
      let s ← s.put j c
      let s ← s.put i temp
      swapLoop n (i - 1) (j + 1) s
    else some s

def reverse (fuel : ℕ) (s : Line) : Option Line := do
  let i ← lengthLoop fuel 0 s
  let i := i - 1
  let c ← s.get i
  let i := if c = newline then i - 1 else i
  swapLoop fuel i 0 s

/-- The loop of `main`, with what it prints of each line: a number and a string. In its call of
number `k`, `getline` finds `junk k` in the place of its index. -/
def mainLoop (junk : ℕ → ℤ) : ℕ → ℕ → List Byte → Line → Option (List (ℤ × List Byte))
  | 0, _, _, _ => none
  | n + 1, k, text, line => do
    let (i, text, line) ← getline MAXLINE (junk k) text line
    if 0 < i then
      let line ← reverse n line
      let out ← mainLoop junk n (k + 1) text line
      some ((i, cstr line.chars) :: out)
    else some []

def main (junk : ℕ → ℤ) (fuel : ℕ) (text : List Byte) (line : Line) :
    Option (List (ℤ × List Byte)) :=
  mainLoop junk fuel 0 text line

end Somenote.Text.Reverse
