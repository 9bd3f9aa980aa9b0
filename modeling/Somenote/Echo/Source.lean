import Mathlib.Data.Finset.Card
import Somenote.Program.Protocol
import Somenote.Tables.Slots

/-! # The pool of clients

The echo server over `select`, which keeps its clients in a pool. A segment is the call of
`select`, the branch of the listening descriptor, or one turn of the loop in
`check_clients`. The count of the bytes, which is only printed, is left out, and a buffer of
`clientrio` is the descriptor that it reads.
-/

namespace Somenote.Echo

inductive Call
  | select (n : ℕ) (readSet : Finset ℕ)
  | command
  | accept (listenfd : ℕ)
  | readline (rio : ℤ)
  | writen (fd : ℤ) (n : ℕ)
  | close (fd : ℤ)

/-- The descriptors that are ready, the new connection, the number of bytes in a line and
whether all bytes were written; `none` is an error. -/
@[reducible] def Reply : Call → Type
  | .select .. => Option (Finset ℕ)
  | .accept _ => ℕ
  | .readline _ => Option ℕ
  | .writen .. => Bool
  | _ => Unit

/-- The error exits of `add_client` and of the `Rio` functions. -/
inductive Err
  | addClient | readline | writen
  deriving DecidableEq, Repr

abbrev EchoProg := Prog Call Reply Err

structure Pool where
  maxfd : ℕ
  readSet : Finset ℕ
  readySet : Finset ℕ
  nready : ℤ
  maxi : ℤ
  clientfd : ℕ → ℤ
  clientrio : ℕ → ℤ

abbrev stdinFileno : ℕ := 0

inductive Pc
  | top
  | listen
  | check (i : ℕ)
  deriving DecidableEq, Repr

variable (fdSetsize listenfd : ℕ)

/-- The pool, over any contents of its memory. -/
def initPool (p : Pool) : Pool :=
  { p with
    maxi := -1
    clientfd := fun i => if i < fdSetsize then -1 else p.clientfd i
    maxfd := listenfd
    readSet := insert stdinFileno (insert listenfd ∅) }

def addClient (connfd : ℕ) (p : Pool) : EchoProg Pool :=
  let p := { p with nready := p.nready - 1 }
  match firstFree 0 fdSetsize p.clientfd with
  | some i => pure { p with
      clientfd := Function.update p.clientfd i (connfd : ℤ)
      clientrio := Function.update p.clientrio i (connfd : ℤ)
      readSet := insert connfd p.readSet
      maxfd := if connfd > p.maxfd then connfd else p.maxfd
      maxi := if i > p.maxi then i else p.maxi }
  | none => .dump .addClient

/-- A turn of the loop in `check_clients`. The source calls `Rio_readinitb` for the read, with
the arguments of `Rio_readlineb`. -/
def checkClient (i : ℕ) (p : Pool) : EchoProg Pool :=
  let connfd := p.clientfd i
  let rio := p.clientrio i
  if connfd > 0 ∧ connfd.toNat ∈ p.readySet then do
    let p := { p with nready := p.nready - 1 }
    match ← (.call (.readline rio) .ret : EchoProg _) with
    | none => .dump .readline
    | some n =>
      if n ≠ 0 then do
        let done ← (.call (.writen connfd n) .ret : EchoProg _)
        if done then pure p else .dump .writen
      else do
        let _ ← (.call (.close connfd) .ret : EchoProg _)
        pure { p with readSet := p.readSet.erase connfd.toNat, clientfd := Function.update p.clientfd i (-1) }
  else pure p

/-- When `select` fails, it leaves its set as it is. -/
def select (p : Pool) : EchoProg Pool := do
  let r ← (.call (.select (p.maxfd + 1) p.readSet) .ret : EchoProg _)
  let p := match r with
    | some ready => { p with readySet := ready, nready := ready.card }
    | none => { p with readySet := p.readSet, nready := -1 }
  if stdinFileno ∈ p.readySet then .call .command fun _ => pure p else pure p

def listen (p : Pool) : EchoProg Pool :=
  if listenfd ∈ p.readySet then do
    let connfd ← .call (.accept listenfd) .ret
    addClient fdSetsize connfd p
  else pure p

/-- One segment of the loop in `main`, and the next one. -/
def segment : Pc × Pool → EchoProg (Option (Pc × Pool))
  | (.top, p) => do
    let p ← select p
    pure (some (.listen, p))
  | (.listen, p) => do
    let p ← listen fdSetsize listenfd p
    pure (some (.check 0, p))
  | (.check i, p) =>
    if i ≤ p.maxi ∧ p.nready > 0 then do
      let p ← checkClient i p
      pure (some (.check (i + 1), p))
    else pure (some (.top, p))

/-- The open connections, and those that the last `select` has found ready and that have not
been read since. -/
structure World where
  conns : Finset ℕ
  due : Finset ℕ

/-- The replies of the system, and what they do to the connections. `select` finds any part of
its set ready, and a new connection has a descriptor that is not in use. -/
def Env (g : World) : (c : Call) → Reply c → World → Prop
  | .select _ readSet, some ready, g' => ready ⊆ readSet ∧ g' = { g with due := ready ∩ g.conns }
  | .select .., none, g' => g' = { g with due := ∅ }
  | .accept _, connfd, g' => connfd ∉ insert stdinFileno (insert listenfd g.conns) ∧
    g' = { g with conns := insert connfd g.conns }
  | .readline rio, _, g' => g' = { g with due := g.due.erase rio.toNat }
  | .close fd, _, g' => g' = { g with conns := g.conns.erase fd.toNat }
  | _, _, g' => g' = g

/-- The runs of the server. -/
def runs : Protocol Call Reply World where
  Ok _ _ := True
  Next := Env listenfd

/-- The states of the loop, at each segment, when the memory of the pool holds `p₀`. -/
abbrev Reachable (p₀ : Pool) : Pc × Pool → World → Prop :=
  Rounds (runs listenfd) (segment fdSetsize listenfd) (.top, initPool fdSetsize listenfd p₀) ⟨∅, ∅⟩

end Somenote.Echo
