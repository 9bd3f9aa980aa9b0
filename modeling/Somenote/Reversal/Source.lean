import Mathlib.Data.Int.Notation
import Mathlib.Data.List.Basic

/-! # Two reversals of a linked list

The program `reverselist.c`. Its lists have a header node, whose value is never set. A pointer is
null or the address of a node; a function that follows the null pointer does not return, and neither
does a loop that runs out of fuel.
-/

namespace Somenote.Reversal

variable {P : Type}

/-- `struct list`. -/
structure ListNode (P : Type) where
  val : ℤ
  next : Option P
  deriving DecidableEq, Repr

/-- The memory of the nodes. -/
abbrev Heap (P : Type) := P → ListNode P

namespace Heap

/-- `p->next` -/
def getNext (m : Heap P) (p : Option P) : Option (Option P) := p.map fun a => (m a).next

/-- `p->val` -/
def getVal (m : Heap P) (p : Option P) : Option ℤ := p.map fun a => (m a).val

variable [DecidableEq P]

def link (m : Heap P) (a : P) (next : Option P) : Heap P := fun b =>
  if b = a then { m a with next } else m b

def fill (m : Heap P) (a : P) (val : ℤ) : Heap P := fun b =>
  if b = a then { m a with val } else m b

/-- `p->next = q` -/
def setNext (m : Heap P) (p q : Option P) : Option (Heap P) := p.map fun a => m.link a q

end Heap

/-- The loop of `main` that prints the values from `p` on. -/
def printLoop : ℕ → Option P → Heap P → Option (List ℤ)
  | 0, _, _ => none
  | n + 1, p, m =>
    if p ≠ none then do
      let val ← m.getVal p
      let p ← m.getNext p
      let vals ← printLoop n p m
      some (val :: vals)
    else some []

/-- What `main` prints of a list: the node it is given is passed over. -/
def printed (fuel : ℕ) (l : Option P) (m : Heap P) : Option (List ℤ) := do
  let p ← m.getNext l
  printLoop fuel p m

section Functions

variable [DecidableEq P]

/-- The loop of `reavsrsel`. -/
def reavsrselLoop (l : Option P) : ℕ → Option P → Option P → Heap P → Option (Heap P)
  | 0, _, _, _ => none
  | n + 1, ln, p, m => do
    let next ← m.getNext p
    if next ≠ none then
      let temp := next
      let m ← m.setNext l temp
      let m ← m.setNext p (← m.getNext temp)
      let m ← m.setNext temp ln
      reavsrselLoop l n temp p m
    else some m

/-- Put each node behind the header, in turn. -/
def reavsrsel (fuel : ℕ) (l : Option P) (m : Heap P) : Option (Option P × Heap P) := do
  let p ← m.getNext l
  let m ← reavsrselLoop l fuel p p m
  some (l, m)

/-- The loop of `reavsrsel_2`. -/
def reavsrsel2Loop : ℕ → Option P → Option P → Option P → Heap P →
    Option (Option P × Option P × Heap P)
  | 0, _, _, _, _ => none
  | n + 1, temp, ln, p, m =>
    if p ≠ none then do
      let m ← m.setNext ln temp
      let temp := ln
      let ln := p
      let p ← m.getNext p
      reavsrsel2Loop n temp ln p m
    else some (temp, ln, m)

/-- Turn the links around, that of the header included. -/
def reavsrsel2 (fuel : ℕ) (l : Option P) (m : Heap P) : Option (Option P × Heap P) := do
  let p ← m.getNext l
  let (temp, ln, m) ← reavsrsel2Loop fuel none l p m
  let m ← m.setNext ln temp
  some (ln, m)

/-- The header and the last node behind `k` turns of the loop of `initlist`; the node of turn `i`
is at `malloc i`. -/
def initLoop (malloc : ℕ → P) (m : Heap P) : ℕ → P × Heap P
  | 0 => (malloc 0, m)
  | k + 1 =>
    let (p, m) := initLoop malloc m k
    let temp := malloc (k + 1)
    (temp, (m.fill temp (k + 1)).link p (some temp))

def initlist (malloc : ℕ → P) (m : Heap P) : Option P × Heap P :=
  let (p, m) := initLoop malloc m 9
  (some (malloc 0), m.link p none)

def main (malloc : ℕ → P) (fuel : ℕ) (m : Heap P) : Option (List ℤ) := do
  let (l, m) := initlist malloc m
  let (l, m) ← reavsrsel2 fuel l m
  printed fuel l m

end Functions

end Somenote.Reversal
