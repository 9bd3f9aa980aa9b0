import Mathlib.Algebra.Ring.Int.Defs
import Mathlib.Data.Int.Notation
import Mathlib.Data.Nat.Notation
import Mathlib.Logic.Function.Basic
import Somenote.Bytes.Words

/-! # Objects with reference counts

The functions of `mutex2.c`, which any number of threads call on the objects that they have
references to. A thread moves from one statement to the next, and the other threads may move
between any two of them. A call of `foo_alloc` that fails leaves everything as it was. To count a
reference more than an `int` holds has no meaning.
-/

namespace Somenote.Refs

/-- The address of an object. -/
abbrev Addr := ℕ

def NHASH : ℕ := 29

/-- The hash of an `int`, as an `unsigned long` of 64 bits. -/
def HASH (id : ℤ) : ℕ := (id % 2 ^ 64).toNat % NHASH

structure Foo (Pid : Type) where
  f_count : ℤ
  /-- The thread that has locked the object. -/
  f_lock : Option Pid
  f_id : ℤ
  f_next : Option Addr

/-- The statement in front of which a thread is. -/
inductive Pc
  | outside
  -- `foo_alloc`
  | allocLockHash (fp : Addr) (idx : ℕ)
  | allocNext (fp : Addr) (idx : ℕ)
  | allocHead (fp : Addr) (idx : ℕ)
  | allocLock (fp : Addr)
  | allocUnlockHash (fp : Addr)
  | allocUnlock (fp : Addr)
  -- `foo_hold`, with the argument of the `foo_find` that calls it
  | holdLock (fp : Addr) (find : Option ℤ)
  | holdCount (fp : Addr) (find : Option ℤ)
  | holdUnlock (fp : Addr) (find : Option ℤ)
  -- `foo_find`
  | findLock (id : ℤ)
  | findHead (id : ℤ)
  | findTest (id : ℤ) (fp : Option Addr)
  | findUnlock (id : ℤ) (fp : Option Addr)
  -- `foo_rele`
  | releLock (fp : Addr)
  | releTest (fp : Addr)
  | releLetGo (fp : Addr)
  | releLockHash (fp : Addr)
  | releLockAgain (fp : Addr)
  | releRecheck (fp : Addr)
  | releHead (fp : Addr)
  | releFirst (fp : Addr) (idx : ℕ)
  | releNext (fp : Addr) (tfp : Option Addr)
  | releUnlink (fp tfp : Addr)
  | freeUnlockHash (fp : Addr)
  | freeUnlock (fp : Addr)
  | freeDestroy (fp : Addr)
  | free (fp : Addr)
  -- the decrement of the count, with `hashlock` or without
  | decrCount (fp : Addr) (hash : Bool)
  | decrUnlock (fp : Addr) (hash : Bool)
  | decrUnlockHash
  deriving Repr

/-- The objects that are allocated, the table with its lock, the threads, and how many references
each of them has to an object. -/
structure State (Pid : Type) where
  heap : Addr → Option (Foo Pid)
  fh : ℕ → Option Addr
  hashlock : Option Pid
  pc : Pid → Pc
  refs : Pid → Addr → ℕ

/-- What a statement comes to. A thread may have to wait, and an access to an object that is not
allocated has no meaning, nor has it to unlock or to destroy a mutex that another thread has. -/
inductive Outcome (σ : Type)
  | next (s : σ)
  | wait
  | fault

variable {Pid : Type} [DecidableEq Pid]

namespace State

variable (s : State Pid) (p : Pid)

def goto (pc : Pc) : State Pid := { s with pc := Function.update s.pc p pc }

def set (fp : Addr) (o : Option (Foo Pid)) : State Pid :=
  { s with heap := Function.update s.heap fp o }

def setRefs (fp : Addr) (n : ℕ) : State Pid :=
  { s with refs := Function.update s.refs p (Function.update (s.refs p) fp n) }

/-- An access to an object. -/
def deref (fp : Addr) (f : Foo Pid → Outcome (State Pid)) : Outcome (State Pid) :=
  match s.heap fp with
  | some o => f o
  | none => .fault

def lockHash (pc : Pc) : Outcome (State Pid) :=
  if s.hashlock = none then .next ({ s with hashlock := some p }.goto p pc) else .wait

def unlockHash (pc : Pc) : Outcome (State Pid) :=
  if s.hashlock = some p then .next ({ s with hashlock := none }.goto p pc) else .fault

def lock (fp : Addr) (pc : Pc) : Outcome (State Pid) :=
  s.deref fp fun o =>
    if o.f_lock = none then .next ((s.set fp (some { o with f_lock := some p })).goto p pc)
    else .wait

def unlock (fp : Addr) (pc : Pc) : Outcome (State Pid) :=
  s.deref fp fun o =>
    if o.f_lock = some p then .next ((s.set fp (some { o with f_lock := none })).goto p pc)
    else .fault

/-- The statement of a thread. -/
def step : Outcome (State Pid) :=
  match s.pc p with
  | .outside => .wait
  | .allocLockHash fp idx => s.lockHash p (.allocNext fp idx)
  | .allocNext fp idx => s.deref fp fun o =>
    .next ((s.set fp (some { o with f_next := s.fh idx })).goto p (.allocHead fp idx))
  | .allocHead fp idx =>
    .next ({ s with fh := Function.update s.fh idx (some fp) }.goto p (.allocLock fp))
  | .allocLock fp => s.lock p fp (.allocUnlockHash fp)
  | .allocUnlockHash fp => s.unlockHash p (.allocUnlock fp)
  | .allocUnlock fp => s.unlock p fp .outside
  | .holdLock fp find => s.lock p fp (.holdCount fp find)
  | .holdCount fp find => s.deref fp fun o =>
    if o.f_count < INT_MAX then
      .next (((s.set fp (some { o with f_count := o.f_count + 1 })).setRefs p fp
        (s.refs p fp + 1)).goto p (.holdUnlock fp find))
    else .fault
  | .holdUnlock fp none => s.unlock p fp .outside
  | .holdUnlock fp (some id) => s.unlock p fp (.findUnlock id (some fp))
  | .findLock id => s.lockHash p (.findHead id)
  | .findHead id => .next (s.goto p (.findTest id (s.fh (HASH id))))
  | .findTest id none => .next (s.goto p (.findUnlock id none))
  | .findTest id (some fp) => s.deref fp fun o =>
    if o.f_id = id then .next (s.goto p (.holdLock fp (some id)))
    else .next (s.goto p (.findTest id o.f_next))
  | .findUnlock _ _ => s.unlockHash p .outside
  | .releLock fp => s.lock p fp (.releTest fp)
  | .releTest fp => s.deref fp fun o =>
    if o.f_count = 1 then .next (s.goto p (.releLetGo fp))
    else .next (s.goto p (.decrCount fp false))
  | .releLetGo fp => s.unlock p fp (.releLockHash fp)
  | .releLockHash fp => s.lockHash p (.releLockAgain fp)
  | .releLockAgain fp => s.lock p fp (.releRecheck fp)
  | .releRecheck fp => s.deref fp fun o =>
    if o.f_count ≠ 1 then .next (s.goto p (.decrCount fp true))
    else .next (s.goto p (.releHead fp))
  | .releHead fp => s.deref fp fun o =>
    let idx := HASH o.f_id
    let tfp := s.fh idx
    if tfp = some fp then .next (s.goto p (.releFirst fp idx))
    else .next (s.goto p (.releNext fp tfp))
  | .releFirst fp idx => s.deref fp fun o =>
    .next ({ s with fh := Function.update s.fh idx o.f_next }.goto p (.freeUnlockHash fp))
  | .releNext _ none => .fault
  | .releNext fp (some tfp) => s.deref tfp fun o =>
    if o.f_next ≠ some fp then .next (s.goto p (.releNext fp o.f_next))
    else .next (s.goto p (.releUnlink fp tfp))
  | .releUnlink fp tfp => s.deref fp fun o => s.deref tfp fun o' =>
    .next ((s.set tfp (some { o' with f_next := o.f_next })).goto p (.freeUnlockHash fp))
  | .freeUnlockHash fp => s.unlockHash p (.freeUnlock fp)
  | .freeUnlock fp => s.unlock p fp (.freeDestroy fp)
  | .freeDestroy fp => s.deref fp fun o =>
    if o.f_lock = none then .next (s.goto p (.free fp)) else .fault
  | .free fp => s.deref fp fun _ =>
    .next (((s.set fp none).setRefs p fp (s.refs p fp - 1)).goto p .outside)
  | .decrCount fp hash => s.deref fp fun o =>
    .next (((s.set fp (some { o with f_count := o.f_count - 1 })).setRefs p fp
      (s.refs p fp - 1)).goto p (.decrUnlock fp hash))
  | .decrUnlock fp hash => s.unlock p fp (if hash then .decrUnlockHash else .outside)
  | .decrUnlockHash => s.unlockHash p .outside

/-- The thread is in front of `fp->f_count++` for an object with `INT_MAX` references. -/
def Overflows : Prop :=
  ∃ fp find o, s.pc p = .holdCount fp find ∧ s.heap fp = some o ∧ o.f_count = INT_MAX

end State

/-- What may happen: a thread goes on, or it calls a function, `foo_hold` and `foo_rele` with an
object to which it has a reference. Between its calls it may give a reference to another thread. -/
inductive Step (s : State Pid) : State Pid → Prop
  | go {p t} (h : s.step p = .next t) : Step s t
  | alloc {p id fp next} (hp : s.pc p = .outside) (hfp : s.heap fp = none) :
    Step s (((s.set fp (some ⟨1, none, id, next⟩)).setRefs p fp 1).goto p
      (.allocLockHash fp (HASH id)))
  | find {p} (id : ℤ) (hp : s.pc p = .outside) : Step s (s.goto p (.findLock id))
  | hold {p fp} (hp : s.pc p = .outside) (hr : 0 < s.refs p fp) :
    Step s (s.goto p (.holdLock fp none))
  | rele {p fp} (hp : s.pc p = .outside) (hr : 0 < s.refs p fp) :
    Step s (s.goto p (.releLock fp))
  | give {p q fp} (hp : s.pc p = .outside) (hq : q ≠ p) (hr : 0 < s.refs p fp) :
    Step s ((s.setRefs p fp (s.refs p fp - 1)).setRefs q fp (s.refs q fp + 1))

/-- The state at the start of the program. -/
def State.initial : State Pid :=
  ⟨fun _ => none, fun _ => none, none, fun _ => .outside, fun _ _ => 0⟩

/-- The states of every run. -/
inductive Reach : State Pid → Prop
  | initial : Reach .initial
  | step {s t} (h : Reach s) (hs : Step s t) : Reach t

end Somenote.Refs
