import Mathlib.Data.Finset.Card
import Somenote.Program.Protocol
import Somenote.Tables.Slots

/-! # The poll server

The echo server over `poll`, with its clients in a table. A segment is the call of `poll` with
the branch of the listening descriptor, or one turn of the loop over the clients.
-/

namespace Somenote.Poll

/-- The conditions of a descriptor: `POLLRDNORM`, `POLLERR` and the others. -/
inductive Flag | rdnorm | err | other
  deriving DecidableEq, Repr

/-- `struct pollfd`. -/
structure Pollfd where
  fd : ℤ
  events : Finset Flag
  revents : Finset Flag

inductive Errno | econnreset | other
  deriving DecidableEq, Repr

inductive Call
  | poll (client : ℕ → Pollfd) (n : ℕ)
  | accept (listenfd : ℕ)
  | read (fd : ℤ)
  | writen (fd : ℤ) (n : ℕ)
  | close (fd : ℤ)

/-- The conditions that `poll` finds, with the number of descriptors, the new connection and the
number of bytes read; a wrapper that finds an error says `false`. -/
@[reducible] def Reply : Call → Type
  | .poll .. => (ℕ → Finset Flag) × ℕ
  | .accept _ => ℕ
  | .read _ => Except Errno ℕ
  | _ => Bool

/-- The calls of `err_sys` and `err_quit`. -/
inductive Err
  | tooMany | read | writen | close
  deriving DecidableEq, Repr

abbrev PollProg := Prog Call Reply Err

/-- The table, its mark and the countdown of `main`. -/
structure Vars where
  client : ℕ → Pollfd
  maxi : ℕ
  nready : ℤ

inductive Pc
  | top
  | client (i : ℕ)
  deriving DecidableEq, Repr

def writen (fd : ℤ) (n : ℕ) : PollProg Unit := do
  if ← (.call (.writen fd n) .ret : PollProg _) then pure () else .dump .writen

def close (fd : ℤ) : PollProg Unit := do
  if ← (.call (.close fd) .ret : PollProg _) then pure () else .dump .close

/-- An assignment to the descriptor of a slot. -/
def setFd (client : ℕ → Pollfd) (i : ℕ) (fd : ℤ) : ℕ → Pollfd :=
  Function.update client i { client i with fd }

variable (openMax listenfd : ℕ)

/-- The table in front of the loop, over any contents of its memory. The loop that marks the
free slots starts at the first one. -/
def Vars.init (client : ℕ → Pollfd) : Vars :=
  let client := Function.update client 0 { client 0 with fd := listenfd, events := {.rdnorm} }
  { client := fun i => if i < openMax then { client i with fd := -1 } else client i
    maxi := 0
    nready := 0 }

/-- The new connection, behind a call of `poll`. -/
def acceptClient (v : Vars) : PollProg Vars := do
  let connfd ← (.call (.accept listenfd) .ret : PollProg ℕ)
  match firstFree 1 openMax fun i => (v.client i).fd with
  | some i => pure { v with
      client := Function.update v.client i { v.client i with fd := connfd, events := {.rdnorm} }
      maxi := if i > v.maxi then i else v.maxi
      nready := v.nready - 1 }
  | none => .dump .tooMany

def poll (v : Vars) : PollProg Vars := do
  let (revents, nready) ← .call (.poll v.client (v.maxi + 1)) .ret
  pure { v with
    client := fun i => if i < v.maxi + 1 then { v.client i with revents := revents i } else v.client i
    nready }

/-- The branch of a client that has something to read. -/
def serve (i : ℕ) (v : Vars) : PollProg Vars := do
  let sockfd := (v.client i).fd
  match ← (.call (.read sockfd) .ret : PollProg _) with
  | .error e =>
    if e = .econnreset then do
      close sockfd
      pure { v with client := setFd v.client i (-1) }
    else .dump .read
  | .ok n =>
    if n = 0 then do
      close sockfd
      pure { v with client := setFd v.client i (-1) }
    else do
      writen sockfd n
      pure v

/-- One segment of the loop, and the next one. -/
def segment : Pc × Vars → PollProg (Option (Pc × Vars))
  | (.top, v) => do
    let v ← poll v
    if .rdnorm ∈ (v.client 0).revents then do
      let v ← acceptClient openMax listenfd v
      pure (some (if v.nready ≤ 0 then .top else .client 1, v))
    else pure (some (.client 1, v))
  | (.client i, v) =>
    if i ≤ v.maxi then
      if (v.client i).fd < 0 then pure (some (.client (i + 1), v))
      else if .rdnorm ∈ (v.client i).revents ∨ .err ∈ (v.client i).revents then do
        let v ← serve i v
        let v := { v with nready := v.nready - 1 }
        pure (some (if v.nready ≤ 0 then .top else .client (i + 1), v))
      else pure (some (.client (i + 1), v))
    else pure (some (.top, v))

/-- The replies of the system, and what they do to the open connections. `poll` waits for a
condition of a descriptor that is not negative, and a new connection has a descriptor that is
not in use. -/
def Env (conns : Finset ℕ) : (c : Call) → Reply c → Finset ℕ → Prop
  | .poll client n, (revents, nready), conns' =>
    (∀ i < n, revents i ⊆ insert .err (insert .other (client i).events)) ∧
      (∀ i < n, (client i).fd < 0 → revents i = ∅) ∧
      nready = ((Finset.range n).filter fun i => revents i ≠ ∅).card ∧ 0 < nready ∧ conns' = conns
  | .accept _, connfd, conns' =>
    connfd ∉ insert listenfd conns ∧ conns' = insert connfd conns
  | .close fd, _, conns' => conns' = conns.erase fd.toNat
  | _, _, conns' => conns' = conns

/-- The runs of the server. -/
def runs : Protocol Call Reply (Finset ℕ) where
  Ok _ _ := True
  Next := Env listenfd

/-- The states of the loop, at each segment, from any table. -/
abbrev Behind (v₀ : Vars) (conns₀ : Finset ℕ) : Pc × Vars → Finset ℕ → Prop :=
  Rounds (runs listenfd) (segment openMax listenfd) (.top, v₀) conns₀

/-- The states of the loop of the server. -/
abbrev Reachable (client : ℕ → Pollfd) : Pc × Vars → Finset ℕ → Prop :=
  Behind openMax listenfd (Vars.init openMax listenfd client) ∅

end Somenote.Poll
