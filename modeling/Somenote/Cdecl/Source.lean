import Somenote.Cdecl.Lexer

/-! # The two declaration readers

The state machine of `cdecl2.c`, and the recursive reader of `char3_analytype.c`. Both have
`maxTokens` places for the tokens in front of the identifier.
-/

namespace Somenote.Cdecl

namespace Machine

def lexicon : Lexicon where
  qualifiers := [("const".toList, " read-only".toList), ("static".toList, " private ".toList),
    ("volatile".toList, "volatile".toList)]
  punct c := [c]

def format : Format where
  array := "array ".toList
  upTo s := "0..".toList ++ s ++ " ".toList
  of := "of ".toList
  function := "function returning  ".toList
  pointer := "pointer to ".toList
  keyword s := s ++ " ".toList

/-- The states; `nextstate` is `none` when it is `NULL`. -/
inductive State
  | initial | getArray | getParams | getLparen | getPtrPart | getType
  deriving DecidableEq, Repr

def getArray (fuel : ℕ) (m : Reader) : Option (Option State × Reader) := do
  let nextstate := if m.this.type = '['.toNat then State.getLparen else .getParams
  let m ← arraySuffixes lexicon format fuel m
  some (some nextstate, m)

def getParams (fuel : ℕ) (m : Reader) : Option (Option State × Reader) :=
  if m.this.type = '('.toNat then do
    let m ← functionArgs lexicon format fuel m
    some (some .getLparen, m)
  else some (some .getLparen, m)

def getLparen (m : Reader) : Option (Option State × Reader) :=
  match m.stack with
  | [] => some (some .getPtrPart, m)
  | t :: stack =>
    if t.type = '('.toNat then do
      let m ← gettoken lexicon { m with stack }
      some (some .getArray, m)
    else some (some .getPtrPart, m)

/-- With an empty stack, the source reads in front of its array. -/
def getPtrPart (m : Reader) : Option (Option State × Reader) :=
  match m.stack with
  | [] => none
  | t :: stack =>
    if t.type = '*'.toNat then
      some (some .getLparen, { m.print format.pointer with stack })
    else if t.type = Tag.qualifier then
      some (some .getLparen, { m.print (format.keyword t.string) with stack })
    else some (some .getType, m)

def getType (m : Reader) : Option (Option State × Reader) :=
  some (none, { m with
    stack := []
    stdout := m.stdout ++ m.stack.flatMap (fun t => format.keyword t.string) ++ "\n".toList })

/-- A call of `nextstate`. -/
def hop (fuel : ℕ) : Option State × Reader → Option (Option State × Reader)
  | (some .initial, m) => do
    let m ← readToFirstIdentifier lexicon fuel m
    some (some .getArray, m)
  | (some .getArray, m) => getArray fuel m
  | (some .getParams, m) => getParams fuel m
  | (some .getLparen, m) => getLparen m
  | (some .getPtrPart, m) => getPtrPart m
  | (some .getType, m) => getType m
  | (none, _) => none

def main (stdin : List Char) (fuel : ℕ) : Option Reader := do
  let x ← loop (fun x => x.1.isSome) (hop fuel) fuel (some .initial, .init stdin)
  some x.2

end Machine

namespace Descent

def lexicon : Lexicon where
  qualifiers := [("const".toList, " read-only".toList), ("volatile".toList, "volatile".toList)]
  punct c := if c = '*' then "pointer to".toList else [c]

def format : Format where
  array := "array".toList
  upTo s := "0..".toList ++ s
  of := "of".toList
  function := "function returning ".toList
  pointer := "pointer to".toList
  keyword s := s

def dealWithArrays (fuel : ℕ) (m : Reader) : Option Reader := arraySuffixes lexicon format fuel m

def dealWithFunctionArgs (fuel : ℕ) (m : Reader) : Option Reader := functionArgs lexicon format fuel m

/-- The `switch` in `deal_with_declarator`. -/
def dealWithSuffix (fuel : ℕ) (m : Reader) : Option Reader :=
  if m.this.type = '['.toNat then dealWithArrays fuel m
  else if m.this.type = '('.toNat then dealWithFunctionArgs fuel m
  else some m

/-- The pointers on the stack, and what is printed of them. With an empty stack, the source
reads in front of its array. -/
def popPointers : List Token → List Char → Option (List Token × List Char)
  | [], _ => none
  | t :: stack, stdout =>
    if t.type = '*'.toNat then popPointers stack (stdout ++ t.string) else some (t :: stack, stdout)

def dealWithPointers (m : Reader) : Option Reader := do
  let (stack, stdout) ← popPointers m.stack m.stdout
  some { m with stack, stdout }

/-- A turn of the loop in `deal_with_declarator`, with the recursive call. -/
def drain (declarator : Reader → Option Reader) (m : Reader) : Option Reader :=
  match m.stack with
  | [] => some m
  | t :: stack =>
    if t.type = '('.toNat then gettoken lexicon { m with stack } >>= declarator
    else some { m.print (format.keyword t.string) with stack }

def dealWithDeclarator : ℕ → Reader → Option Reader
  | 0, _ => none
  | fuel + 1, m => do
    let m ← dealWithSuffix fuel m
    let m ← dealWithPointers m
    loop (fun m => m.stack ≠ []) (drain (dealWithDeclarator fuel)) fuel m

def main (stdin : List Char) (fuel : ℕ) : Option Reader := do
  let m ← readToFirstIdentifier lexicon fuel (.init stdin)
  let m ← dealWithDeclarator fuel m
  some (m.print "\n".toList)

end Descent

end Somenote.Cdecl
