import Mathlib.Data.Int.Notation
import Somenote.Bytes.Words
import Somenote.Program.Basic
import Somenote.Text.Lexing

/-! # The scanners of C texts

The programs `1-23-rcomment.c`, which takes the comments out of a text, and `1-24-checkgrammer.c`,
which looks for brackets without a partner. Both read the standard input by `getchar`. Each loop
and each recursion has an amount of fuel, and spins without it.
-/

namespace Somenote.Text

/-- The value of `getchar`; `none` is `EOF`. -/
abbrev Chr := Option Byte

inductive Call
  | getchar
  | putchar (c : Chr)
  | printf (format : String)

abbrev Reply : Call → Type
  | .getchar => Chr
  | _ => Unit

structure Stdio where
  stdin : List Byte
  stdout : List Byte
  deriving DecidableEq, Repr

/-- The text of a message. -/
def encode (s : String) : List Byte := s.toList.map Char.toUInt8

/-- `putchar` of `EOF` writes the byte 255. -/
def written (c : Chr) : Byte := c.getD 255

def sem : (c : Call) → Stdio → Reply c × Stdio
  | .getchar, m =>
    match m.stdin with
    | [] => (none, m)
    | c :: s => (some c, { m with stdin := s })
  | .putchar c, m => ((), { m with stdout := m.stdout ++ [written c] })
  | .printf format, m => ((), { m with stdout := m.stdout ++ encode format })

/-- A program of the standard streams. -/
abbrev Scanner := Prog Call Reply Empty

def getchar : Scanner Chr := .call .getchar .ret

def putchar (c : Chr) : Scanner Unit := .call (.putchar c) .ret

def printf (format : String) : Scanner Unit := .call (.printf format) .ret

/-- The loop of `in_comment`. -/
def commentLoop : ℕ → Chr → Chr → Scanner Unit
  | 0, _, _ => .spin
  | n + 1, c, d =>
    if c ≠ some star ∨ d ≠ some slash then do
      let e ← getchar
      commentLoop n d e
    else pure ()

/-- Both programs have this function. -/
def inComment (n : ℕ) : Scanner Unit := do
  let c ← getchar
  let d ← getchar
  commentLoop n c d

/-- The body of `echo_quote` and of `in_quote`, which only differ in what becomes of a character,
the closing quote behind the loop included. -/
def quoteLoop (echo : Chr → Scanner Unit) : ℕ → Chr → Scanner Unit
  | 0, _ => .spin
  | n + 1, c => do
    let d ← getchar
    if d ≠ c then do
      echo d
      if d = some backslash then do
        let e ← getchar
        echo e
        quoteLoop echo n c
      else quoteLoop echo n c
    else echo d

namespace Rcomment

def echoQuote (n : ℕ) (c : Chr) : Scanner Unit := do
  putchar c
  quoteLoop putchar n c

def rcomment : ℕ → Chr → Scanner Unit
  | 0, _ => .spin
  | n + 1, c =>
    if c = some slash then do
      let d ← getchar
      if d = some star then inComment n
      else if d = some slash then do
        putchar c
        rcomment n d
      else do
        putchar c
        putchar d
    else if c = some quote ∨ c = some doubleQuote then echoQuote n c
    else putchar c

def main : ℕ → Scanner Unit
  | 0 => .spin
  | n + 1 => do
    let c ← getchar
    if c ≠ none then do
      rcomment n c
      main n
    else pure ()

end Rcomment

namespace Checkgrammer

/-- The global counters. -/
structure Counts where
  brace : ℤ
  brack : ℤ
  paren : ℤ
  deriving DecidableEq, Repr


def search (c : Chr) (n : Counts) : Counts :=
  if c = some 123 then { n with brace := toInt (n.brace + 1) }
  else if c = some 125 then { n with brace := toInt (n.brace - 1) }
  else if c = some 91 then { n with brack := toInt (n.brack + 1) }
  else if c = some 93 then { n with brack := toInt (n.brack - 1) }
  else if c = some 40 then { n with paren := toInt (n.paren + 1) }
  else if c = some 41 then { n with paren := toInt (n.paren - 1) }
  else n

def inQuote (n : ℕ) (c : Chr) : Scanner Unit := quoteLoop (fun _ => pure ()) n c

/-- The chain of conditions at the start of a turn of the loop. -/
def scan (k : ℕ) (c : Chr) (n : Counts) : Scanner Counts :=
  if c = some slash then do
    let c ← getchar
    if c = some star then do
      inComment k
      pure n
    else pure (search c n)
  else if c = some slash ∨ c = some doubleQuote then do
    inQuote k c
    pure n
  else pure (search c n)

/-- The check for closing brackets without a partner, behind each turn. -/
def checkRight (n : Counts) : Scanner Counts :=
  if n.brace < 0 then do
    printf "unbalanced braces 1 \n"
    pure { n with brace := 0 }
  else if n.brack < 0 then do
    printf "unbalanced bracks 1 \n"
    pure { n with brack := 0 }
  else if n.paren < 0 then do
    printf "unbalanced paren 1 \n"
    pure { n with paren := 0 }
  else pure n

/-- The check for opening brackets without a partner, behind the loop. -/
def checkLeft (n : Counts) : Scanner Unit := do
  if n.brace > 0 then printf "unbalanced braces \n" else pure ()
  if n.brack > 0 then printf "unbalanced bracks \n" else pure ()
  if n.paren > 0 then printf "unbalanced paren \n" else pure ()

def loop : ℕ → Counts → Scanner Unit
  | 0, _ => .spin
  | k + 1, n => do
    let c ← getchar
    if c ≠ none then do
      let n ← scan k c n
      let n ← checkRight n
      loop k n
    else checkLeft n

def main (k : ℕ) : Scanner Unit := loop k ⟨0, 0, 0⟩

end Checkgrammer

end Somenote.Text
