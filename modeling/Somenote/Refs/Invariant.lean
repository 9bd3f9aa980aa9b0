import Mathlib.Algebra.Order.Group.Int
import Mathlib.Algebra.BigOperators.Fin
import Mathlib.Tactic.Linarith
import Somenote.Lists.Linked
import Somenote.Program.Tally
import Somenote.Refs.Source

/-! # The counts and the table

What holds in every state: the two kinds of mutexes say where their threads are, the count of an
object is the number of references to it, and the lists of the table hold all objects that are not
just being put in or freed.
-/

namespace Somenote.Refs

namespace Pc

/-- The thread has `hashlock`. -/
def hash : Pc → Bool
  | allocNext .. | allocHead .. | allocLock _ | allocUnlockHash _ => true
  | holdLock _ (some _) | holdCount _ (some _) | holdUnlock _ (some _) => true
  | findHead _ | findTest .. | findUnlock .. => true
  | releLockAgain _ | releRecheck _ | releHead _ | releFirst .. | releNext .. => true
  | releUnlink .. | freeUnlockHash _ | decrUnlockHash => true
  | decrCount _ hash | decrUnlock _ hash => hash
  | _ => false

/-- The object that the thread has locked. -/
def locked : Pc → Option Addr
  | allocUnlockHash fp | allocUnlock fp | holdCount fp _ | holdUnlock fp _ => some fp
  | releTest fp | releLetGo fp | releRecheck fp | releHead fp | releFirst fp _ => some fp
  | releNext fp _ | releUnlink fp _ | freeUnlockHash fp | freeUnlock fp => some fp
  | decrCount fp _ | decrUnlock fp _ => some fp
  | _ => none

/-- The object to which the thread has a reference in its call. -/
def owned : Pc → Option Addr
  | allocLockHash fp _ | allocNext fp _ | allocHead fp _ | allocLock fp => some fp
  | allocUnlockHash fp | allocUnlock fp => some fp
  | holdLock fp none | holdCount fp none | holdUnlock fp _ | findUnlock _ (some fp) => some fp
  | releLock fp | releTest fp | releLetGo fp | releLockHash fp | releLockAgain fp => some fp
  | releRecheck fp | releHead fp | releFirst fp _ | releNext fp _ | releUnlink fp _ => some fp
  | freeUnlockHash fp | freeUnlock fp | freeDestroy fp | free fp | decrCount fp _ => some fp
  | _ => none

/-- The object whose only reference is that of the thread. -/
def sole : Pc → Option Addr
  | allocLockHash fp _ | allocNext fp _ | allocHead fp _ => some fp
  | releHead fp | releFirst fp _ | releNext fp _ | releUnlink fp _ => some fp
  | freeUnlockHash fp | freeUnlock fp | freeDestroy fp | free fp => some fp
  | _ => none

/-- The object that is not in the table. -/
def out : Pc → Option Addr
  | allocLockHash fp _ | allocNext fp _ | allocHead fp _ => some fp
  | freeUnlockHash fp | freeUnlock fp | freeDestroy fp | free fp => some fp
  | _ => none

theorem sole_of_out {pc : Pc} {a : Addr} (h : pc.out = some a) : pc.sole = some a := by
  cases pc <;> simp_all [out, sole]

theorem owned_of_sole {pc : Pc} {a : Addr} (h : pc.sole = some a) : pc.owned = some a := by
  cases pc <;> simp_all [owned, sole]

theorem locked_of_sole {pc : Pc} {a : Addr} (h : pc.sole = some a) (ho : pc.out = none) :
    pc.locked = some a := by
  cases pc <;> simp_all [locked, sole, out]

end Pc

/-- The places of pointers: the heads of the table, and the objects. -/
inductive Ref
  | null
  | bucket (i : ℕ)
  | foo (a : Addr)

def Ref.ofPtr : Option Addr → Ref
  | none => null
  | some a => foo a

namespace State

variable {Pid : Type} (s : State Pid) (a : Addr)

def count : ℤ := ((s.heap a).map Foo.f_count).getD 0

def id : ℤ := ((s.heap a).map Foo.f_id).getD 0

def owner : Option Pid := (s.heap a).bind Foo.f_lock

def next : Ref → Ref
  | .null => .null
  | .bucket i => .ofPtr (s.fh i)
  | .foo a => .ofPtr ((s.heap a).bind Foo.f_next)

end State

variable {Pid : Type} {s t : State Pid} {p q : Pid} {pc pc' : Pc} {a : Addr}
  {chain chain' : ℕ → List Addr}

/-- What a thread knows in front of a statement. -/
def Pc.Knows (s : State Pid) (chain : ℕ → List Addr) : Pc → Prop
  | allocLockHash fp idx | allocNext fp idx => HASH (s.id fp) = idx
  | allocHead fp idx => HASH (s.id fp) = idx ∧ s.next (.foo fp) = s.next (.bucket idx)
  | holdLock fp (some id) | holdCount fp (some id) => fp ∈ chain (HASH id) ∧ s.id fp = id
  | holdUnlock fp (some id) | findUnlock id (some fp) => s.id fp = id
  | findTest id fp => ∃ l l', chain (HASH id) = l ++ l' ∧ fp = l'.head? ∧ ∀ a ∈ l, s.id a ≠ id
  | findUnlock id none => ∀ a ∈ chain (HASH id), s.id a ≠ id
  | releFirst fp idx => idx = HASH (s.id fp) ∧ ∃ l, chain idx = fp :: l
  | releNext fp tfp => ∃ b l l' l'', tfp = some b ∧
    chain (HASH (s.id fp)) = l ++ b :: (l' ++ fp :: l'')
  | releUnlink fp tfp => ∃ l l', chain (HASH (s.id fp)) = l ++ tfp :: fp :: l'
  | decrCount fp _ => 1 < s.count fp
  | _ => True

/-- The lists of the table hold the objects that are not out of it. -/
structure Table (s : State Pid) (chain : ℕ → List Addr) : Prop where
  linked : ∀ i, Linked .null s.next (.bucket i) ((chain i).map .foo)
  mem : ∀ i a, a ∈ chain i ↔ (s.heap a ≠ none ∧ HASH (s.id a) = i) ∧ ∀ p, (s.pc p).out ≠ some a

/-- An `int` that counts references. -/
def IsCount (n : ℤ) : Prop := 0 < n ∧ n ≤ INT_MAX

/-- What holds in every state. -/
structure Inv [Fintype Pid] (s : State Pid) (chain : ℕ → List Addr) : Prop where
  count : ∀ a, s.count a = tally (fun r : Addr → ℕ => r a) s.refs
  counts : ∀ a, s.heap a ≠ none → IsCount (s.count a)
  hash : ∀ p, s.hashlock = some p ↔ (s.pc p).hash = true
  lock : ∀ p a, s.owner a = some p ↔ (s.pc p).locked = some a
  owned : ∀ p a, (s.pc p).owned = some a → 0 < s.refs p a
  sole : ∀ p a, (s.pc p).sole = some a → s.count a = 1
  alone : ∀ p q a, (s.pc p).sole = some a → (s.pc q).locked = some a → q = p
  table : Table s chain
  knows : ∀ p, (s.pc p).Knows s chain

/-- What another thread knows does not change. -/
theorem Pc.Knows.frame (h : pc.Knows s chain)
    (hid : ∀ a, (∃ i, a ∈ chain i) ∨ pc.owned = some a → t.id a = s.id a)
    (hcount : ∀ fp hash, pc = .decrCount fp hash → t.count fp = s.count fp)
    (hhash : pc.hash = true → chain' = chain ∧ (∀ i, t.next (.bucket i) = s.next (.bucket i)) ∧
      ∀ a, pc.owned = some a → t.next (.foo a) = s.next (.foo a)) : pc.Knows t chain' := by
  cases pc with
  | allocLockHash fp idx => exact (congrArg HASH (hid fp (Or.inr rfl))).trans h
  | allocNext fp idx => exact (congrArg HASH (hid fp (Or.inr rfl))).trans h
  | allocHead fp idx =>
    obtain ⟨-, hbucket, hfoo⟩ := hhash rfl
    simp only [Knows]
    rw [hid fp (Or.inr rfl), hbucket, hfoo fp rfl]
    exact h
  | holdLock fp find =>
    cases find with
    | none => trivial
    | some id =>
      obtain ⟨rfl, -⟩ := hhash rfl
      exact ⟨h.1, (hid fp (Or.inl ⟨_, h.1⟩)).trans h.2⟩
  | holdCount fp find =>
    cases find with
    | none => trivial
    | some id =>
      obtain ⟨rfl, -⟩ := hhash rfl
      exact ⟨h.1, (hid fp (Or.inl ⟨_, h.1⟩)).trans h.2⟩
  | holdUnlock fp find =>
    cases find with
    | none => trivial
    | some id => exact (hid fp (Or.inr rfl)).trans h
  | findTest id fp =>
    obtain ⟨rfl, -⟩ := hhash rfl
    obtain ⟨l, l', hl, hfp, hne⟩ := h
    refine ⟨l, l', hl, hfp, fun a ha => ?_⟩
    rw [hid a (Or.inl ⟨_, by rw [hl]; exact List.mem_append_left _ ha⟩)]
    exact hne a ha
  | findUnlock id fp =>
    cases fp with
    | none =>
      obtain ⟨rfl, -⟩ := hhash rfl
      intro a ha
      rw [hid a (Or.inl ⟨_, ha⟩)]
      exact h a ha
    | some fp => exact (hid fp (Or.inr rfl)).trans h
  | releFirst fp idx =>
    obtain ⟨rfl, -⟩ := hhash rfl
    simp only [Knows]
    rw [hid fp (Or.inr rfl)]
    exact h
  | releNext fp tfp =>
    obtain ⟨rfl, -⟩ := hhash rfl
    simp only [Knows]
    rw [hid fp (Or.inr rfl)]
    exact h
  | releUnlink fp tfp =>
    obtain ⟨rfl, -⟩ := hhash rfl
    simp only [Knows]
    rw [hid fp (Or.inr rfl)]
    exact h
  | decrCount fp hash =>
    simp only [Knows]
    rw [hcount fp hash rfl]
    exact h
  | _ => trivial

end Somenote.Refs
