import Mathlib.Algebra.Ring.Int.Defs
import Somenote.Bytes.Decimal
import Somenote.Program.Basic

/-! # The writer without blocking

The program `nonBlockio.c`, which reads from the standard input once and writes what it has read.
The turn of its loop ends with a call of `exit`, so a write that does not take everything is not
followed by another one.
-/

namespace Somenote.NonBlock

def STDIN_FILENO : ℕ := 0

def STDOUT_FILENO : ℕ := 1

def O_NONBLOCK : BitVec 32 := 0o4000

def bufSize : ℕ := 500000

inductive Call
  | read (fd n : ℕ)
  | write (fd ptr n : ℕ)
  | getfl (fd : ℕ)
  | setfl (fd : ℕ) (val : BitVec 32)
  | fprintf (format : String) (args : List ℤ)

/-- How many bytes were read; how many were written, or the value of `errno`; the flags of a
descriptor. An error is `none`. -/
@[reducible] def Reply : Call → Type
  | .read .. => Option ℕ
  | .write .. => Except ℕ ℕ
  | .getfl _ => Option (BitVec 32)
  | .setfl .. => Bool
  | .fprintf .. => Unit

/-- The calls that end the process. -/
inductive Exit
  | exit (status : ℕ)
  | errSys (message : String)
  deriving DecidableEq, Repr

abbrev NonBlockProg := Prog Call Reply Exit

def getfl (fd : ℕ) : NonBlockProg (BitVec 32) :=
  .call (.getfl fd) fun
    | some val => pure val
    | none => .dump (.errSys "fcntl F_GETFL error")

def setfl (fd : ℕ) (val : BitVec 32) : NonBlockProg Unit :=
  .call (.setfl fd val) fun
    | true => pure ()
    | false => .dump (.errSys "fcntl F_SETFL error")

def setFl (fd : ℕ) (flags : BitVec 32) : NonBlockProg Unit := do
  let val ← getfl fd
  setfl fd (val ||| flags)

def clrFl (fd : ℕ) (flags : BitVec 32) : NonBlockProg Unit := do
  let val ← getfl fd
  setfl fd (val &&& ~~~flags)

def fprintf (format : String) (args : List ℤ) : NonBlockProg Unit :=
  .call (.fprintf format args) fun _ => pure ()

/-- The value of a call that returns a number of bytes. -/
def value (r : Option ℕ) : ℤ := r.elim (-1) fun n => n

/-- The loop of `main`. Behind its last line it goes back to the condition, as the source has it. -/
def mainLoop : ℕ → ℕ → ℤ → NonBlockProg ℕ
  | 0, _, _ => .spin
  | fuel + 1, ptr, ntowrite =>
    if ntowrite > 0 then do
      let r ← (.call (.write STDOUT_FILENO ptr ntowrite.toNat) .ret : NonBlockProg _)
      let (nwrite, errno) : ℤ × ℕ := match r with
        | .ok n => (n, 0)
        | .error e => (-1, e)
      fprintf "nwrite= %d,errno=%d\n" [nwrite, errno]
      let (ptr, ntowrite) :=
        if nwrite > 0 then (ptr + nwrite.toNat, ntowrite - nwrite) else (ptr, ntowrite)
      clrFl STDOUT_FILENO O_NONBLOCK
      let _ ← (.dump (.exit 0) : NonBlockProg Unit)
      mainLoop fuel ptr ntowrite
    else pure 0

def main (fuel : ℕ) : NonBlockProg ℕ := do
  let r ← (.call (.read STDIN_FILENO bufSize) .ret : NonBlockProg _)
  let ntowrite := value r
  fprintf "read %d bytes \n" [ntowrite]
  setFl STDOUT_FILENO O_NONBLOCK
  mainLoop fuel 0 ntowrite

/-- What the calls return: the bytes of the standard input, how many of `n` bytes each write takes,
and whether the flags can be read and set. -/
structure Replies where
  read : Option {l : List Byte // l.length ≤ bufSize}
  write : ℕ → (n : ℕ) → Except ℕ {c : ℕ // c ≤ n}
  getfl : ℕ → Option (BitVec 32)
  setfl : ℕ → Bool

/-- The buffer, the output, and the number of the calls. -/
structure Process where
  buf : List Byte
  stdout : List Byte
  writes : ℕ
  getfls : ℕ
  setfls : ℕ
  deriving DecidableEq, Repr

def Process.init : Process := ⟨[], [], 0, 0, 0⟩

namespace Replies

variable (e : Replies)

/-- The bytes that are read. -/
def data : List Byte := e.read.elim [] Subtype.val

/-- How many of `n` bytes the write `i` takes. -/
def taken (i n : ℕ) : ℕ :=
  match e.write i n with
  | .ok c => c.1
  | .error _ => 0

/-- What is left of the data when it was offered `i` times, each time with what was left. -/
def left : ℕ → ℕ
  | 0 => e.data.length
  | i + 1 => left i - e.taken i (left i)

/-- The writes take all the data, when it is offered often enough. -/
def Accepts : Prop := ∃ i, e.left i = 0

/-- The flags can be set in front of the loop. -/
def SetsFl : Prop := (e.getfl 0).isSome ∧ e.setfl 0

instance : Decidable e.SetsFl := inferInstanceAs (Decidable (_ ∧ _))

end Replies

variable (e : Replies)

def sem : (c : Call) → Process → Reply c × Process
  | .read .., s =>
    match e.read with
    | none => (none, s)
    | some l => (some l.1.length, { s with buf := l.1 })
  | .write _ ptr n, s =>
    match e.write s.writes n with
    | .error errno => (.error errno, { s with writes := s.writes + 1 })
    | .ok c => (.ok c.1,
      { s with writes := s.writes + 1, stdout := s.stdout ++ (s.buf.drop ptr).take c.1 })
  | .getfl _, s => (e.getfl s.getfls, { s with getfls := s.getfls + 1 })
  | .setfl .., s => (e.setfl s.setfls, { s with setfls := s.setfls + 1 })
  | .fprintf .., s => ((), s)

variable {e}

theorem taken_le (i n : ℕ) : e.taken i n ≤ n := by
  rw [Replies.taken]
  split
  · next c _ => exact c.2
  · exact Nat.zero_le n

theorem run_flags (fd : ℕ) (f : BitVec 32 → BitVec 32) (s : Process) :
    ((getfl fd >>= fun val => setfl fd (f val)).run (sem e) s).1 ≠ .spin ∧
      ((getfl fd >>= fun val => setfl fd (f val)).run (sem e) s).2.stdout = s.stdout := by
  cases hget : e.getfl s.getfls with
  | none => simp [getfl, sem, hget]
  | some val => cases hset : e.setfl s.setfls <;> simp [getfl, setfl, sem, hget, hset]

theorem run_exit (s : Process) :
    ((clrFl STDOUT_FILENO O_NONBLOCK >>= fun _ => .dump (.exit 0) :
        NonBlockProg ℕ).run (sem e) s).1 ≠ .spin ∧
      ((clrFl STDOUT_FILENO O_NONBLOCK >>= fun _ => .dump (.exit 0) :
        NonBlockProg ℕ).run (sem e) s).2.stdout = s.stdout := by
  obtain ⟨hends, hout⟩ := run_flags (e := e) STDOUT_FILENO (· &&& ~~~O_NONBLOCK) s
  rw [Prog.run_bind]
  rcases hrun : (clrFl STDOUT_FILENO O_NONBLOCK).run (sem e) s with ⟨a | d | _, t⟩ <;>
    rw [clrFl] at hrun <;> rw [hrun] at hends hout
  · exact ⟨by simp, hout⟩
  · exact ⟨by simp, hout⟩
  · exact absurd rfl hends

theorem run_turn (fuel ptr : ℕ) {n : ℕ} (hn : 0 < n) (s : Process) :
    ((mainLoop (fuel + 1) ptr n).run (sem e) s).1 ≠ .spin ∧
      ((mainLoop (fuel + 1) ptr n).run (sem e) s).2.stdout =
        s.stdout ++ (s.buf.drop ptr).take (e.taken s.writes n) := by
  rw [mainLoop, if_pos (by omega)]
  cases hw : e.write s.writes n with
  | ok c =>
    have hexit := run_exit (e := e) { s with
      writes := s.writes + 1, stdout := s.stdout ++ (s.buf.drop ptr).take c.1 }
    simpa [fprintf, sem, hw, Replies.taken] using hexit
  | error errno =>
    have hexit := run_exit (e := e) { s with writes := s.writes + 1 }
    simpa [fprintf, sem, hw, Replies.taken] using hexit

theorem run_setFl (l : List Byte) :
    (∃ val, (setFl STDOUT_FILENO O_NONBLOCK).run (sem e) { Process.init with buf := l } =
        (.ok val, { Process.init with buf := l, getfls := 1, setfls := 1 }) ∧ e.SetsFl) ∨
      ∃ m s, (setFl STDOUT_FILENO O_NONBLOCK).run (sem e) { Process.init with buf := l } =
        (.dump m, s) ∧ s.stdout = [] ∧ ¬ e.SetsFl := by
  cases hget : e.getfl 0 with
  | none =>
    refine Or.inr ⟨.errSys "fcntl F_GETFL error", { Process.init with buf := l, getfls := 1 }, ?_⟩
    simp [setFl, getfl, sem, hget, Replies.SetsFl, Process.init]
  | some val =>
    cases hset : e.setfl 0 with
    | false =>
      refine Or.inr ⟨.errSys "fcntl F_SETFL error",
        { Process.init with buf := l, getfls := 1, setfls := 1 }, ?_⟩
      simp [setFl, getfl, setfl, sem, hget, hset, Replies.SetsFl, Process.init]
    | true =>
      left
      simp [setFl, getfl, setfl, sem, hget, hset, Replies.SetsFl, Process.init]

/-- The program ends, and its output is what the first write takes. -/
theorem run_main (fuel : ℕ) :
    ((main (fuel + 1)).run (sem e) .init).1 ≠ .spin ∧
      ((main (fuel + 1)).run (sem e) .init).2.stdout =
        if e.SetsFl then e.data.take (e.taken 0 e.data.length) else [] := by
  have hread : (main (fuel + 1)).run (sem e) .init =
      ((setFl STDOUT_FILENO O_NONBLOCK >>= fun _ =>
        mainLoop (fuel + 1) 0 (value (e.read.map fun l => l.1.length))).run (sem e)
          { Process.init with buf := e.data }) := by
    cases hr : e.read <;> simp [main, fprintf, sem, hr, Replies.data, value, Process.init]
  rw [hread]
  rcases run_setFl (e := e) e.data with ⟨val, hset, hfl⟩ | ⟨m, s, hset, hout, hfl⟩
  · rw [Prog.run_bind_ok hset, if_pos hfl]
    cases hdata : e.data with
    | nil =>
      have hzero : value (e.read.map fun l => l.1.length) ≤ 0 := by
        cases hr : e.read <;> simp_all [value, Replies.data]
      rw [mainLoop, if_neg (by omega)]
      simp [Process.init]
    | cons b l =>
      have hlen : value (e.read.map fun l => l.1.length) = (b :: l).length := by
        cases hr : e.read <;> simp_all [value, Replies.data]
      rw [hlen]
      obtain ⟨hends, hout⟩ := run_turn (e := e) fuel 0 (n := (b :: l).length) (by simp)
        { Process.init with buf := b :: l, getfls := 1, setfls := 1 }
      exact ⟨hends, by simpa [Process.init] using hout⟩
  · rw [Prog.run_bind_dump hset, if_neg hfl]
    exact ⟨by simp, hout⟩

/-- All bytes that were read are written when the program exits, in order and once, if and only if
there are none, or the flags can be set and the first write takes them all. -/
theorem written_iff (fuel : ℕ) :
    ((main (fuel + 1)).run (sem e) .init).1 ≠ .spin ∧
      (((main (fuel + 1)).run (sem e) .init).2.stdout = e.data ↔
        e.data = [] ∨ e.SetsFl ∧ e.taken 0 e.data.length = e.data.length) := by
  obtain ⟨hends, hout⟩ := run_main (e := e) fuel
  refine ⟨hends, ?_⟩
  rw [hout]
  have hle := taken_le (e := e) 0 e.data.length
  by_cases hfl : e.SetsFl
  · rw [if_pos hfl]
    constructor
    · intro h
      have hlen := congrArg List.length h
      rw [List.length_take] at hlen
      exact Or.inr ⟨hfl, by omega⟩
    · rintro (h | ⟨-, h⟩)
      · simp [h]
      · rw [h, List.take_length]
  · rw [if_neg hfl]
    constructor
    · exact fun h => Or.inl h.symm
    · rintro (h | ⟨h, -⟩)
      · exact h.symm
      · exact absurd h hfl

/-- Two bytes are read. The first write would have blocked, and the second one would take both. -/
def refused : Replies where
  read := some ⟨[104, 105], by decide⟩
  write i n := if i = 0 then .error 11 else .ok ⟨n, le_rfl⟩
  getfl _ := some 1
  setfl _ := true

theorem refused_unwritten : refused.Accepts ∧ refused.SetsFl ∧
    ((main 3).run (sem refused) .init).1 = .dump (.exit 0) ∧
    ((main 3).run (sem refused) .init).2.stdout ≠ refused.data :=
  ⟨⟨2, rfl⟩, by decide, by decide, by decide⟩

end Somenote.NonBlock
