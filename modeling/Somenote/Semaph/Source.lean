import Mathlib.Algebra.GroupWithZero.Nat
import Mathlib.Algebra.Order.Group.Int
import Mathlib.Data.Fin.Basic
import Mathlib.Data.Int.Notation
import Mathlib.Data.Nat.Notation
import Mathlib.Logic.Function.Basic
import Somenote.Bytes.Words
import Somenote.Program.Tally

/-! # Semaphores that are removed by the last process

The functions of `semaph.c` over the semaphore sets of System V, for any number of processes that
use one key. A system call is one step, and a process may exit in front of any of them.
-/

namespace Somenote.Semaph

/-- An operation on a member of a set, which the system undoes at the exit of the process. -/
structure Sembuf where
  sem_num : Fin 3
  sem_op : ℤ
  undo : Bool

/-- The values of a set, and what is added to them when a process exits. -/
structure SemSet (Pid : Type) where
  val : Fin 3 → ℤ
  adj : Pid → Fin 3 → ℤ

def BIGCOUNT : ℤ := 10000

/-- The largest value of a semaphore. -/
def SEMVMX : ℤ := 32767

/-- The largest adjustment. -/
def SEMAEM : ℤ := 32767

def opLock : List Sembuf := [⟨2, 0, false⟩, ⟨2, 1, true⟩]

def opEndcreate : List Sembuf := [⟨1, -1, true⟩, ⟨2, -1, true⟩]

def opOpen : List Sembuf := [⟨1, -1, true⟩]

def opClose : List Sembuf := [⟨2, 0, false⟩, ⟨2, 1, true⟩, ⟨1, 1, true⟩]

def opUnlock : List Sembuf := [⟨2, -1, true⟩]

/-- The member `sem_op` is a `short`. -/
def opOp (value : ℤ) : List Sembuf := [⟨0, toShort value, true⟩]

/-- The adjustments behind an operation. -/
def Sembuf.adjust (b : Sembuf) (a : Fin 3 → ℤ) : Fin 3 → ℤ :=
  if b.undo then Function.update a b.sem_num (a b.sem_num - b.sem_op) else a

/-- What comes of operations: the values and the adjustments behind them, or one of them has to wait
or is refused with `ERANGE`. -/
inductive Verdict
  | done (val adj : Fin 3 → ℤ)
  | wait
  | range

/-- The operations are done together, or not at all. -/
def tryOps : List Sembuf → (Fin 3 → ℤ) → (Fin 3 → ℤ) → Verdict
  | [], v, a => .done v a
  | b :: bs, v, a =>
    let x := v b.sem_num + b.sem_op
    let y := a b.sem_num - b.sem_op
    if b.sem_op = 0 ∧ v b.sem_num ≠ 0 ∨ x < 0 then .wait
    else if SEMVMX < x ∨ b.undo ∧ (y < -SEMAEM - 1 ∨ SEMAEM < y) then .range
    else tryOps bs (Function.update v b.sem_num x) (b.adjust a)

variable {Pid : Type} [DecidableEq Pid]

namespace SemSet

def done (S : SemSet Pid) (p : Pid) (v a : Fin 3 → ℤ) : SemSet Pid :=
  ⟨v, Function.update S.adj p a⟩

/-- `SETVAL`, which clears the adjustments. -/
def setval (S : SemSet Pid) (i : Fin 3) (x : ℤ) : SemSet Pid :=
  ⟨Function.update S.val i x, fun q => Function.update (S.adj q) i 0⟩

/-- The process `p` exits. No value leaves its range. -/
def exit (S : SemSet Pid) (p : Pid) : SemSet Pid :=
  ⟨fun i => min SEMVMX (max 0 (S.val i + S.adj p i)), Function.update S.adj p fun _ => 0⟩

end SemSet

/-- Where a process is: between two calls, or in front of a system call of one. -/
inductive Pc
  | idle
  | gone
  | createGet (initval : ℤ)
  | createLock (initval : ℤ) (id : ℕ)
  /-- The process sleeps in the call. -/
  | createAsleep (initval : ℤ) (id : ℕ)
  | createVal (initval : ℤ) (id : ℕ)
  | createSet0 (initval : ℤ) (id : ℕ)
  | createSet1 (id : ℕ)
  | createEnd (id : ℕ)
  | openGet
  | openOp (id : ℕ)
  | closeOp (id : ℕ)
  | closeVal (id : ℕ)
  | closeRm (id : ℕ)
  | closeUnlock (id : ℕ)
  | opOp (id : ℕ) (value : ℤ)
  deriving DecidableEq, Repr

/-- The set of the key, the sets, the next id, the processes, and how often each has opened a set
and not closed it. -/
structure State (Pid : Type) where
  key : Option ℕ
  sets : ℕ → Option (SemSet Pid)
  fresh : ℕ
  pc : Pid → Pc
  opens : Pid → ℕ → ℕ

/-- What a system call comes to: the process may have to wait, or end with an error. -/
inductive Outcome (σ : Type)
  | next (s : σ)
  | wait
  | fail

namespace State

variable (s : State Pid) (p : Pid)

def goto (pc : Pc) : State Pid := { s with pc := Function.update s.pc p pc }

def set (id : ℕ) (S : SemSet Pid) : State Pid :=
  { s with sets := Function.update s.sets id (some S) }

def setOpens (id n : ℕ) : State Pid :=
  { s with opens := Function.update s.opens p (Function.update (s.opens p) id n) }

/-- A set of the key, with zeros; `IPC_CREAT` -/
def semget : State Pid × ℕ :=
  match s.key with
  | some id => (s, id)
  | none =>
    ({ s.set s.fresh ⟨fun _ => 0, fun _ _ => 0⟩ with key := some s.fresh, fresh := s.fresh + 1 },
      s.fresh)

/-- `semop`, and the state behind it. -/
def semop (id : ℕ) (ops : List Sembuf) (k : State Pid → State Pid) : Outcome (State Pid) :=
  match s.sets id with
  | none => .fail
  | some S =>
    match tryOps ops S.val (S.adj p) with
    | .done v a => .next (k (s.set id (S.done p v a)))
    | .wait => .wait
    | .range => .fail

/-- `semctl` on a set that must exist. -/
def semctl (id : ℕ) (k : SemSet Pid → Outcome (State Pid)) : Outcome (State Pid) :=
  match s.sets id with
  | none => .fail
  | some S => k S

def remove (id : ℕ) : State Pid :=
  { s with
    sets := Function.update s.sets id none
    key := if s.key = some id then none else s.key }

/-- The next system call of a process. -/
def step : Outcome (State Pid) :=
  match s.pc p with
  | .idle | .gone => .wait
  | .createGet initval => .next (s.semget.1.goto p (.createLock initval s.semget.2))
  | .createLock initval id =>
    match s.sets id with
    | none => .next (s.goto p (.createGet initval))
    | some S =>
      match tryOps opLock S.val (S.adj p) with
      | .done v a => .next ((s.set id (S.done p v a)).goto p (.createVal initval id))
      | .wait => .next (s.goto p (.createAsleep initval id))
      | .range => .fail
  -- when the set is removed now, the error is not `EINVAL`
  | .createAsleep initval id => s.semop p id opLock fun t => t.goto p (.createVal initval id)
  | .createVal initval id => s.semctl id fun S =>
    if S.val 1 = 0 then .next (s.goto p (.createSet0 initval id))
    else .next (s.goto p (.createEnd id))
  | .createSet0 initval id => s.semctl id fun S =>
    if initval < 0 ∨ SEMVMX < initval then .fail
    else .next ((s.set id (S.setval 0 initval)).goto p (.createSet1 id))
  | .createSet1 id => s.semctl id fun S =>
    .next ((s.set id (S.setval 1 BIGCOUNT)).goto p (.createEnd id))
  | .createEnd id => s.semop p id opEndcreate fun t =>
    (t.setOpens p id (s.opens p id + 1)).goto p .idle
  | .openGet =>
    match s.key with
    | none => .next (s.goto p .idle)
    | some id => .next (s.goto p (.openOp id))
  | .openOp id => s.semop p id opOpen fun t => (t.setOpens p id (s.opens p id + 1)).goto p .idle
  | .closeOp id => s.semop p id opClose fun t =>
    (t.setOpens p id (s.opens p id - 1)).goto p (.closeVal id)
  | .closeVal id => s.semctl id fun S =>
    if S.val 1 > BIGCOUNT then .fail
    else if S.val 1 = BIGCOUNT then .next (s.goto p (.closeRm id))
    else .next (s.goto p (.closeUnlock id))
  | .closeRm id => s.semctl id fun _ => .next ((s.remove id).goto p .idle)
  | .closeUnlock id => s.semop p id opUnlock fun t => t.goto p .idle
  | .opOp id value =>
    if toShort value = 0 then .fail else s.semop p id (Semaph.opOp value) fun t => t.goto p .idle

/-- The process exits, and the system undoes what it has done to the sets. -/
def exit : State Pid :=
  { s with
    sets := fun id => (s.sets id).map fun S => S.exit p
    pc := Function.update s.pc p .gone
    opens := Function.update s.opens p fun _ => 0 }

end State

/-- A process calls a function, goes on with a system call that the system may refuse when it is a
`semget`, or exits. -/
inductive Act (Pid : Type)
  | create (p : Pid) (initval : ℤ)
  | open (p : Pid)
  | close (p : Pid) (id : ℕ)
  | op (p : Pid) (id : ℕ) (value : ℤ)
  | go (p : Pid)
  | refuse (p : Pid)
  | exit (p : Pid)

/-- A process closes and uses what it has opened. -/
def State.act (s : State Pid) : Act Pid → Option (State Pid)
  | .create p initval => if s.pc p = .idle then some (s.goto p (.createGet initval)) else none
  | .open p => if s.pc p = .idle then some (s.goto p .openGet) else none
  | .close p id =>
    if s.pc p = .idle ∧ 0 < s.opens p id then some (s.goto p (.closeOp id)) else none
  | .op p id value =>
    if s.pc p = .idle ∧ 0 < s.opens p id then some (s.goto p (.opOp id value)) else none
  | .go p =>
    match s.step p with
    | .next t => some t
    | .wait => none
    | .fail => some (s.exit p)
  -- both functions return -1
  | .refuse p =>
    match s.pc p with
    | .createGet _ | .openGet => some (s.goto p .idle)
    | _ => none
  | .exit p => if s.pc p = .gone then none else some (s.exit p)

/-- How many times a set is open. -/
def users [Fintype Pid] (opens : Pid → ℕ → ℕ) (id : ℕ) : ℕ := tally (fun n : ℕ → ℕ => n id) opens

/-- The counter of a set that is initialised. -/
def Counted (S : SemSet Pid) (users : ℕ) : Prop := S.val 1 = BIGCOUNT - users

/-- The set is as it was made. -/
def Unset (S : SemSet Pid) (users : ℕ) : Prop := S.val 1 = 0 ∧ users = 0

/-- The counter does not come down to 0. -/
def State.Few [Fintype Pid] (s : State Pid) : Act Pid → Prop
  | .go p =>
    match s.pc p with
    | .createEnd id | .openOp id => (users s.opens id + 1 : ℤ) < BIGCOUNT
    | _ => True
  | _ => True

/-- No process opens the set between the last test in `sem_close` and its removal. -/
def State.Calm (s : State Pid) : Act Pid → Prop
  | .go p =>
    match s.pc p with
    | .openOp id => ∀ q, s.pc q ≠ .closeRm id
    | _ => True
  | _ => True

/-- The runs without a process that opens a set while another one removes it. -/
def State.Fine [Fintype Pid] (s : State Pid) (a : Act Pid) : Prop := s.Few a ∧ s.Calm a

instance [Fintype Pid] (s : State Pid) (a : Act Pid) : Decidable (s.Few a) := by
  unfold State.Few
  split
  · split <;> infer_instance
  · infer_instance

instance [Fintype Pid] (s : State Pid) (a : Act Pid) : Decidable (s.Calm a) := by
  unfold State.Calm
  split
  · split <;> infer_instance
  · infer_instance

instance [Fintype Pid] (s : State Pid) (a : Act Pid) : Decidable (s.Fine a) :=
  inferInstanceAs (Decidable (s.Few a ∧ s.Calm a))

def State.initial : State Pid := ⟨none, fun _ => none, 0, fun _ => .idle, fun _ _ => 0⟩

/-- The acts one after the other, when all of them are as `C` says. -/
def State.run (C : State Pid → Act Pid → Prop) [∀ s a, Decidable (C s a)] :
    State Pid → List (Act Pid) → Option (State Pid)
  | s, [] => some s
  | s, a :: as => if C s a then (s.act a).bind fun t => run C t as else none

/-- The states of the runs whose steps all are as `C` says. -/
inductive Reach (C : State Pid → Act Pid → Prop) : State Pid → Prop
  | initial : Reach C .initial
  | step {s a t} (h : Reach C s) (hs : s.act a = some t) (hc : C s a) : Reach C t

theorem Reach.run {C : State Pid → Act Pid → Prop} [∀ s a, Decidable (C s a)] {s t : State Pid}
    {as : List (Act Pid)} (h : Reach C s) (ht : s.run C as = some t) : Reach C t := by
  induction as generalizing s with
  | nil =>
    obtain rfl := Option.some.inj ht
    exact h
  | cons a as ih =>
    rw [State.run, Option.ite_none_right_eq_some] at ht
    obtain ⟨hc, ht⟩ := ht
    obtain ⟨u, hu, ht⟩ := Option.bind_eq_some_iff.mp ht
    exact ih (h.step hu hc) ht

end Somenote.Semaph
