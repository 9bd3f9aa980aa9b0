import Somenote.Echo.Source

/-! # The clients of the pool

Every open client has one slot, and is watched, in every state of the loop; and a client that
is ready in a round is served in it. `nready` never runs out before the clients that are due.
-/

namespace Somenote.Echo

variable {fdSetsize listenfd i b c : ℕ} {p : Pool} {g : World}

/-- The clients that are due are the ready ones in the slots from `i` on, and `nready` counts
them and `b` more descriptors; or `select` has failed. -/
def Due (fdSetsize i b : ℕ) (p : Pool) (g : World) : Prop :=
  g.due = ∅ ∧ p.nready ≤ 0 ∨ g.due.card + b ≤ p.nready ∧
    ∀ c, c ∈ g.due ↔ c ∈ p.readySet ∧ ∃ j, i ≤ j ∧ j < fdSetsize ∧ p.clientfd j = c

/-- What is left to do in the round. -/
def Pending (fdSetsize listenfd : ℕ) (pc : Pc) (p : Pool) (g : World) : Prop :=
  match pc with
  | .top => g.due = ∅
  | .listen => Due fdSetsize 0 (if listenfd ∈ p.readySet then 1 else 0) p g ∧
      p.readySet ⊆ p.readSet
  | .check i => Due fdSetsize i 0 p g

variable {p₀ : Pool} {x : Pc × Pool}

theorem next_select {n : ℕ} {readSet : Finset ℕ} (ready : Finset ℕ) (h : ready ⊆ readSet) :
    (runs listenfd).Next g (.select n readSet) (some ready) { g with due := ready ∩ g.conns } :=
  ⟨h, rfl⟩

theorem next_writen (fd : ℤ) (n : ℕ) : (runs listenfd).Next g (.writen fd n) true g := rfl

theorem next_close (fd : ℤ) :
    (runs listenfd).Next g (.close fd) () { g with conns := g.conns.erase fd.toNat } := rfl

end Somenote.Echo
