import Mathlib.Data.Int.Notation
import Mathlib.Logic.Function.Basic

/-! # Fibonacci numbers with a table

The function of `fib.c`, which keeps what it has computed in a static array. An index outside of
the array and a sum that is no `long` are undefined in C: such a call has no value here.
-/

namespace Somenote.Fib

/-- `static long array[100]` -/
abbrev Cells := Fin 100 → ℤ

/-- A static array starts with zeros. -/
def zeros : Cells := fun _ => 0

/-- The cell `array[n]`. -/
def cell (n : ℤ) : Option (Fin 100) :=
  if h : 0 ≤ n ∧ n < 100 then some ⟨n.toNat, by omega⟩ else none

def LONG_MIN : ℤ := -9223372036854775808

def LONG_MAX : ℤ := 9223372036854775807

/-- The sum of two `long`s of 64 bits. -/
def add (a b : ℤ) : Option ℤ :=
  if LONG_MIN ≤ a + b ∧ a + b ≤ LONG_MAX then some (a + b) else none

/-- The two operands of a sum. C leaves open which one is evaluated first. -/
def operands (left : Bool) (f g : Cells → Option (ℤ × Cells)) (array : Cells) :
    Option (ℤ × ℤ × Cells) :=
  if left then do
    let (a, array) ← f array
    let (b, array) ← g array
    some (a, b, array)
  else do
    let (b, array) ← g array
    let (a, array) ← f array
    some (a, b, array)

def fib (left : Bool) (n : ℤ) (array : Cells) : Option (ℤ × Cells) :=
  if n ≤ 1 then some (1, array)
  else do
    let i ← cell n
    if array i ≠ 0 then some (array i, array)
    else do
      let (a, b, array) ← operands left (fib left (n - 1)) (fib left (n - 2)) array
      let sum ← add a b
      let array := Function.update array i sum
      some (array i, array)
termination_by n.toNat

/-- The calls of `main`, one for each number that it reads. -/
def fibs (left : Bool) : List ℤ → Cells → Option (List ℤ × Cells)
  | [], array => some ([], array)
  | n :: ns, array => do
    let (v, array) ← fib left n array
    let (vs, array) ← fibs left ns array
    some (v :: vs, array)

end Somenote.Fib
