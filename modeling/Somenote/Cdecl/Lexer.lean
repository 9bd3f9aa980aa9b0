import Mathlib.Algebra.Group.Nat.Defs
import Mathlib.Algebra.Ring.Int.Defs
import Somenote.Bytes.Words
import Somenote.Program.Fuel

/-! # The tokens of the declaration readers

What the two readers of C declarations share: their stack, the token at hand, `gettoken`, the
loop that pushes the tokens in front of the first identifier, and the loops over what follows a
name. A reader that writes behind the end of an array has no next state.
-/

namespace Somenote.Cdecl

abbrev maxTokens : ℕ := 100

abbrev maxTokenLen : ℕ := 64

/-! The members of `enum type_tag`. The type of any other token is its character. -/

abbrev Tag.identifier : ℕ := 0

abbrev Tag.qualifier : ℕ := 1

abbrev Tag.type : ℕ := 2

/-- `struct token`. -/
structure Token where
  type : ℕ
  string : List Char
  deriving DecidableEq, Repr

/-- The globals of a reader, with the input that is left and the output. -/
structure Reader where
  stack : List Token
  this : Token
  stdin : List Char
  stdout : List Char
  deriving DecidableEq, Repr

namespace Reader

/-- The state in which a reader starts. -/
def init (stdin : List Char) : Reader := { stack := [], this := ⟨0, []⟩, stdin, stdout := [] }

def print (m : Reader) (s : List Char) : Reader := { m with stdout := m.stdout ++ s }

def push (m : Reader) : Option Reader :=
  if m.stack.length < maxTokens then some { m with stack := m.this :: m.stack } else none

end Reader

/-- What a reader takes for a qualifier, with the text it puts in its place, and the text of a
token that is no word. -/
structure Lexicon where
  qualifiers : List (List Char × List Char)
  punct : Char → List Char

def typeWords : List (List Char) :=
  ["void", "char", "signed", "unsigned", "short", "int", "long", "float", "double", "struct",
    "union", "enum"].map String.toList

/-- The character that stands for the end of the input. -/
def eof : Char := Char.ofNat 255

/-- The input behind a word, when the character that has ended it is put back. The byte 255 is the
end of the input as a `char`, and `ungetc` does not put it back. -/
def ungetc (s : List Char) : List Char := if s.head? = some eof then s.tail else s

variable (l : Lexicon)

def classifyString (s : List Char) : Token :=
  match l.qualifiers.lookup s with
  | some text => ⟨Tag.qualifier, text⟩
  | none => if s ∈ typeWords then ⟨Tag.type, s⟩ else ⟨Tag.identifier, s⟩

def gettoken (m : Reader) : Option Reader :=
  match m.stdin.dropWhile (· = ' ') with
  | [] => some { m with this := ⟨eof.toNat, [eof]⟩, stdin := [] }
  | c :: cs =>
    if c.isAlphanum then
      let word := c :: cs.takeWhile Char.isAlphanum
      if word.length < maxTokenLen then
        some { m with
          this := classifyString l word
          stdin := ungetc (cs.dropWhile Char.isAlphanum) }
      else none
    else some { m with this := ⟨c.toNat, l.punct c⟩, stdin := cs }

/-- `initial`, and `read_to_first_identifer`. -/
def readToFirstIdentifier (fuel : ℕ) (m : Reader) : Option Reader := do
  let m ← gettoken l m
  let m ← loop (fun m => m.this.type ≠ Tag.identifier) (fun m => m.push >>= gettoken l) fuel m
  gettoken l (m.print (m.this.string ++ " is ".toList))

/-- The number that a text starts with. -/
def decimal (s : List Char) : ℕ :=
  (s.takeWhile Char.isDigit).foldl (fun n c => 10 * n + (c.toNat - '0'.toNat)) 0

/-- `atoi` of a text that starts with a digit: what `strtol` reads, as an `int`. -/
def atoi (s : List Char) : ℤ := toInt (min (decimal s) (2 ^ 63 - 1))

/-- The last index of an array with the bound `s`, as it is printed. -/
def lastIndex (s : List Char) : List Char := (toString (toInt (atoi s - 1))).toList

theorem lastIndex_eq {s : List Char} (h : decimal s < 2 ^ 31) :
    lastIndex s = (toString ((decimal s : ℤ) - 1)).toList := by
  have hatoi : atoi s = decimal s := by
    rw [atoi, Int.min_eq_left (by omega), toInt_eq (by omega) (by omega)]
  rw [lastIndex, hatoi, toInt_eq (by omega) (by omega)]

def Token.isDigit (t : Token) : Bool := t.string.head?.any Char.isDigit

/-- What a reader prints: for an array, its last index, a function, a pointer and a keyword. -/
structure Format where
  array : List Char
  upTo : List Char → List Char
  of : List Char
  function : List Char
  pointer : List Char
  keyword : List Char → List Char

variable (f : Format)

/-- A turn of the loop in `get_array` and `deal_with_arrays`. -/
def arraySuffix (m : Reader) : Option Reader := do
  let m ← gettoken l (m.print f.array)
  let m ← if m.this.isDigit then gettoken l (m.print (f.upTo (lastIndex m.this.string))) else some m
  let m ← gettoken l m
  some (m.print f.of)

def arraySuffixes (fuel : ℕ) (m : Reader) : Option Reader :=
  loop (fun m => m.this.type = '['.toNat) (arraySuffix l f) fuel m

/-- What `get_params` and `deal_with_function_args` do at a parenthesis. -/
def functionArgs (fuel : ℕ) (m : Reader) : Option Reader := do
  let m ← loop (fun m => m.this.type ≠ ')'.toNat) (gettoken l) fuel m
  let m ← gettoken l m
  some (m.print f.function)

end Somenote.Cdecl
