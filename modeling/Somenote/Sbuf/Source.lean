import Mathlib.Data.Fintype.Defs
import Mathlib.Data.Int.Notation
import Mathlib.Logic.Function.Basic
import Somenote.Bytes.Words
import Somenote.Program.Protocol
import Somenote.Program.Schedule

/-! # A bounded buffer with semaphores

The functions of `sbuf.c`, for any number of threads. Every access to a field that the threads
change is a call of its own, so that they may interleave between any two of them. A signal does
not interrupt a wait.
-/

namespace Somenote.Sbuf

/-- The largest value of a semaphore. -/
def SEM_VALUE_MAX : ℕ := 2147483647

inductive Sem | mutex | slots | items
  deriving DecidableEq, Repr

/-- `sem_wait` and `sem_post`, and the accesses to `rear`, `front` and `buf`. -/
inductive Call
  | wait (s : Sem)
  | post (s : Sem)
  | getRear
  | setRear (v : ℤ)
  | getFront
  | setFront (v : ℤ)
  | store (i v : ℤ)
  | load (i : ℤ)
  deriving DecidableEq, Repr

@[reducible] def Reply : Call → Type
  | .getRear | .getFront | .load _ => ℤ
  | _ => Unit

abbrev SbufProg := Prog Call Reply Empty

/-- The buffer. It is `bad` when something has happened that C does not define, or when
`sem_post` has failed. -/
structure SbufT where
  buf : ℤ → ℤ
  front : ℤ
  rear : ℤ
  sem : Sem → ℕ
  bad : Bool

/-- The empty buffer with `n` slots, over any contents of its memory. -/
def sbufInit (n : ℕ) (buf : ℤ → ℤ) : SbufT where
  buf := buf
  front := 0
  rear := 0
  sem
    | .mutex => 1
    | .slots => n
    | .items => 0
  bad := false

def P (s : Sem) : SbufProg Unit := .call (.wait s) .ret

def V (s : Sem) : SbufProg Unit := .call (.post s) .ret

/-- `++sp->rear` -/
def nextRear : SbufProg ℤ := do
  let rear ← (.call .getRear .ret : SbufProg ℤ)
  .call (.setRear (rear + 1)) fun _ => pure (rear + 1)

/-- `++sp->front` -/
def nextFront : SbufProg ℤ := do
  let front ← (.call .getFront .ret : SbufProg ℤ)
  .call (.setFront (front + 1)) fun _ => pure (front + 1)

def sbufInsert (n : ℕ) (item : ℤ) : SbufProg Unit := do
  P .slots
  P .mutex
  let rear ← nextRear
  .call (.store (rear.tmod n) item) .ret
  V .mutex
  V .items

def sbufRemove (n : ℕ) : SbufProg ℤ := do
  P .items
  P .mutex
  let front ← nextFront
  let item ← (.call (.load (front.tmod n)) .ret : SbufProg ℤ)
  V .mutex
  V .slots
  pure item

/-- What a call does to the buffer. -/
def SbufT.exec (n : ℕ) (b : SbufT) : (c : Call) → Reply c × SbufT
  | .wait s => ((), { b with sem := Function.update b.sem s (b.sem s - 1) })
  | .post s =>
    if b.sem s < SEM_VALUE_MAX then
      ((), { b with sem := Function.update b.sem s (b.sem s + 1) })
    else ((), { b with bad := true })
  | .getRear => (b.rear, b)
  | .setRear v => ((), { b with rear := v, bad := b.bad || INT_MAX < v })
  | .getFront => (b.front, b)
  | .setFront v => ((), { b with front := v, bad := b.bad || INT_MAX < v })
  | .store i v => ((), { b with
      buf := Function.update b.buf i v, bad := b.bad || !(0 ≤ i ∧ i < n) })
  | .load i => (b.buf i, { b with bad := b.bad || !(0 ≤ i ∧ i < n) })

/-- Where a thread is, with the index that it has read. -/
inductive Phase
  | outside
  | hasSlot | inserting | readRear (rear : ℤ) | movedRear (rear : ℤ) | stored | telling
  | hasItem | removing | readFront (front : ℤ) | movedFront (front : ℤ) | loaded | freeing
  deriving DecidableEq, Repr

/-- The way of a thread through the two functions. -/
def Phase.next : Phase → (c : Call) → Reply c → Phase
  | _, .wait .slots, _ => .hasSlot
  | _, .wait .items, _ => .hasItem
  | hasSlot, .wait .mutex, _ => .inserting
  | _, .wait .mutex, _ => .removing
  | _, .getRear, rear => .readRear rear
  | _, .setRear rear, _ => .movedRear rear
  | _, .store .., _ => .stored
  | _, .getFront, front => .readFront front
  | _, .setFront front, _ => .movedFront front
  | _, .load _, _ => .loaded
  | stored, .post .mutex, _ => .telling
  | _, .post .mutex, _ => .freeing
  | _, .post _, _ => .outside

/-- The buffer with its history, which no function reads: where the threads are, how many items
have been loaded, and those that have been stored and not loaded. -/
structure State (Pid : Type) where
  sbuf : SbufT
  phase : Pid → Phase
  gets : ℕ
  queue : List ℤ

variable {Pid : Type} [DecidableEq Pid]

def State.exec (n : ℕ) (p : Pid) (c : Call) (k : State Pid) : Reply c × State Pid :=
  let (r, b) := k.sbuf.exec n c
  (r, {
    sbuf := b
    phase := Function.update k.phase p ((k.phase p).next c r)
    gets := match c with
      | .load _ => k.gets + 1
      | _ => k.gets
    queue := match c with
      | .store _ v => k.queue ++ [v]
      | .load _ => k.queue.tail
      | _ => k.queue })

/-- A thread waits while the semaphore is 0. -/
def kernel (n : ℕ) : Kernel Pid Call Reply Unit (State Pid) where
  Ready
    | _, .wait s, _, k => 0 < k.sbuf.sem s
    | _, _, _, _ => True
  exec p c _ k := ((k.exec n p c).1, (), (k.exec n p c).2)
  exit p k := { k with phase := Function.update k.phase p .outside }

instance (n : ℕ) : ∀ (p : Pid) c l k, Decidable ((kernel n).Ready p c l k)
  | _, .wait s, _, k => inferInstanceAs (Decidable (0 < k.sbuf.sem s))
  | _, .post _, _, _ | _, .getRear, _, _ | _, .setRear _, _, _ | _, .getFront, _, _ => .isTrue trivial
  | _, .setFront _, _, _ | _, .store .., _, _ | _, .load _, _, _ => .isTrue trivial

inductive Op
  | insert (item : ℤ)
  | remove
  deriving DecidableEq, Repr

def Op.body (n : ℕ) : Op → SbufProg (Option ℤ)
  | insert item => do
    sbufInsert n item
    pure none
  | remove => do
    let item ← sbufRemove n
    pure (some item)

/-- The threads, each with any sequence of calls. -/
def threads (n : ℕ) : Client Op (Option ℤ) Unit Call Reply Empty (Option ℤ) Unit where
  Can _ _ := True
  start op _ := ((), op.body n)
  finish _ _ _ a := (a, ())

instance (n : ℕ) : ∀ op h, Decidable ((threads n).Can op h) := fun _ _ => .isTrue trivial

abbrev Machine (Pid : Type) := Conf Pid Op Unit Call Reply Empty (Option ℤ) Unit (State Pid)

/-- The state behind `sbuf_init`. -/
def Machine.initial (n : ℕ) (buf : ℤ → ℤ) : Machine Pid :=
  ⟨fun _ => .idle (), ⟨sbufInit n buf, fun _ => .outside, 0, []⟩⟩

end Somenote.Sbuf
