import Mathlib.Data.Int.Notation
import Mathlib.Data.Nat.Notation
import Somenote.Bytes.Decimal

/-! # Blanks and tabs

The program `1-20-detab.c` and the layout of a text, in which each tab stands for the blanks up to
the next tab stop. The test for a blank assigns to the variable it is to compare.
-/

namespace Somenote.Text

abbrev TABINC : ℕ := 8

abbrev blank : Byte := 32

abbrev tab : Byte := 9

abbrev newline : Byte := 10

namespace Detab

/-- The variables of `main`, less the character at hand, and the output. -/
structure Vars where
  nb : ℤ
  pos : ℤ
  nt : ℤ
  stdout : List Byte
  deriving DecidableEq, Repr

def Vars.putchar (v : Vars) (c : Byte) : Vars := { v with stdout := v.stdout ++ [c] }

/-- `for(; nt > 0; --nt) putchar('\t');` -/
def putTabs (v : Vars) : Vars :=
  { v with nt := min v.nt 0, stdout := v.stdout ++ List.replicate v.nt.toNat tab }

/-- `for(; nb > 0; --nb) putchar(' ');` -/
def putBlanks (v : Vars) : Vars :=
  { v with nb := min v.nb 0, stdout := v.stdout ++ List.replicate v.nb.toNat blank }

/-- The body of the loop. The condition `c = ' '` is an assignment. -/
def body (_c : Byte) (v : Vars) : Vars :=
  let c := blank
  if c ≠ 0 then
    if v.pos.tmod TABINC ≠ 0 then { v with nb := v.nb + 1 }
    else { v with nb := 0, nt := v.nt + 1 }
  else
    let v := putTabs v
    let v := if c = tab then { v with nb := 0 } else putBlanks v
    let v := v.putchar c
    if c = newline then { v with pos := 0 }
    else if c = tab then
      { v with pos := v.pos + (TABINC - (v.pos - 1).tmod TABINC) - 1 }
    else v

/-- The loop over the input, which adds one to `pos` behind each turn. -/
def loop : List Byte → Vars → Vars
  | [], v => v
  | c :: input, v =>
    let v := body c v
    loop input { v with pos := v.pos + 1 }

/-- The output of the program. -/
def main (input : List Byte) : List Byte := (loop input ⟨0, 1, 0, []⟩).stdout

end Detab

/-- The text with its tabs expanded, from the column `col` on. -/
def expand : ℕ → List Byte → List Byte
  | _, [] => []
  | col, c :: s =>
    if c = tab then
      List.replicate (TABINC - col % TABINC) blank ++ expand (col + (TABINC - col % TABINC)) s
    else if c = newline then newline :: expand 0 s
    else c :: expand (col + 1) s

namespace Detab

variable {c : Byte} {input : List Byte} {v : Vars}

theorem stdout_body : (body c v).stdout = v.stdout := by
  rw [body, if_pos (by decide)]
  split <;> rfl

/-- Every character is taken for a blank, so none is put out. -/
theorem stdout_loop : (loop input v).stdout = v.stdout := by
  induction input generalizing v with
  | nil => rfl
  | cons c input ih => exact ih.trans stdout_body

theorem main_eq_nil (input : List Byte) : main input = [] := stdout_loop

theorem expand_eq_nil {col : ℕ} : expand col input = [] ↔ input = [] := by
  cases input with
  | nil => exact iff_of_true rfl rfl
  | cons c s =>
    refine iff_of_false ?_ (List.cons_ne_nil c s)
    rw [expand]
    split_ifs
    · have hcol := Nat.mod_lt col (show 0 < TABINC by decide)
      intro h
      have hlen := congrArg List.length (List.append_eq_nil_iff.mp h).1
      rw [List.length_replicate, List.length_nil] at hlen
      omega
    · exact not_false
    · exact not_false

/-- The program keeps the layout of the empty text only. -/
theorem layout_iff (input : List Byte) : expand 0 (main input) = expand 0 input ↔ input = [] := by
  rw [main_eq_nil]
  exact eq_comm.trans expand_eq_nil

/-- The text of one letter. -/
theorem layout_lost : ¬ ∀ input, expand 0 (main input) = expand 0 input := by
  intro hall
  exact absurd (hall [97]) (by decide)

end Detab

end Somenote.Text
