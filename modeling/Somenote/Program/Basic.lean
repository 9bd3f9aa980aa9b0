import Mathlib.Tactic.TypeStar

/-! # Programs that issue calls

A program issues calls to the system that runs it and goes on with their replies.
It may end with a value, end the process with an error, or loop for ever. Running
it against a deterministic system gives its outcome and every state it passes.
-/

namespace Somenote

/-- A program over the calls `C` whose error exits carry an `ε`. -/
inductive Prog (C : Type) (Reply : C → Type) (ε α : Type) where
  | ret (a : α)
  | dump (e : ε)
  | spin
  | call (c : C) (k : Reply c → Prog C Reply ε α)

/-- How a program ended. -/
inductive Out (ε α : Type) where
  | ok (a : α)
  | dump (e : ε)
  | spin
  deriving DecidableEq, Repr

def Out.map {ε α β : Type} (f : α → β) : Out ε α → Out ε β
  | ok a => ok (f a)
  | dump e => dump e
  | spin => spin

theorem Out.map_map {ε α β γ : Type} (f : α → β) (g : β → γ) (x : Out ε α) :
    (x.map f).map g = x.map fun a => g (f a) := by
  cases x <;> rfl

namespace Prog

variable {C : Type} {Reply : C → Type} {ε α β γ : Type}

def bind : Prog C Reply ε α → (α → Prog C Reply ε β) → Prog C Reply ε β
  | ret a, f => f a
  | dump e, _ => dump e
  | spin, _ => spin
  | call c k, f => call c fun r => bind (k r) f

instance : Monad (Prog C Reply ε) where
  pure := ret
  bind := bind

@[simp] theorem pure_eq (a : α) : (pure a : Prog C Reply ε α) = ret a := rfl

@[simp] theorem ret_bind (a : α) (f : α → Prog C Reply ε β) : (ret a >>= f) = f a := rfl

@[simp] theorem dump_bind (e : ε) (f : α → Prog C Reply ε β) :
    (dump e >>= f : Prog C Reply ε β) = dump e := rfl

@[simp] theorem spin_bind (f : α → Prog C Reply ε β) :
    (spin >>= f : Prog C Reply ε β) = spin := rfl

@[simp] theorem call_bind (c : C) (k : Reply c → Prog C Reply ε α)
    (f : α → Prog C Reply ε β) : (call c k >>= f) = call c fun r => k r >>= f := rfl

theorem bind_assoc (m : Prog C Reply ε α) (f : α → Prog C Reply ε β)
    (g : β → Prog C Reply ε γ) : m >>= f >>= g = m >>= fun a => f a >>= g := by
  induction m with
  | ret a => rfl
  | dump e => rfl
  | spin => rfl
  | call c k ih => simp [ih]

section Run

variable {σ : Type} (sem : (c : C) → σ → Reply c × σ)

/-- The outcome of a program and the state it ends in. -/
def run : Prog C Reply ε α → σ → Out ε α × σ
  | ret a, s => (.ok a, s)
  | dump e, s => (.dump e, s)
  | spin, s => (.spin, s)
  | call c k, s => run (k (sem c s).1) (sem c s).2

@[simp] theorem run_ret (a : α) (s : σ) : (ret a : Prog C Reply ε α).run sem s = (.ok a, s) := rfl

@[simp] theorem run_dump (e : ε) (s : σ) :
    (dump e : Prog C Reply ε α).run sem s = (.dump e, s) := rfl

@[simp] theorem run_spin (s : σ) : (spin : Prog C Reply ε α).run sem s = (.spin, s) := rfl

@[simp] theorem run_call (c : C) (k : Reply c → Prog C Reply ε α) (s : σ) :
    (call c k).run sem s = (k (sem c s).1).run sem (sem c s).2 := rfl

variable {sem}

theorem run_bind (m : Prog C Reply ε α) (f : α → Prog C Reply ε β) (s : σ) :
    (m >>= f).run sem s = match m.run sem s with
      | (.ok a, t) => (f a).run sem t
      | (.dump e, t) => (.dump e, t)
      | (.spin, t) => (.spin, t) := by
  induction m generalizing s with
  | ret a => rfl
  | dump e => rfl
  | spin => rfl
  | call c k ih => simpa using ih _ _

theorem run_bind_ok {m : Prog C Reply ε α} {s t : σ} {a : α} (h : m.run sem s = (.ok a, t))
    (f : α → Prog C Reply ε β) : (m >>= f).run sem s = (f a).run sem t := by
  rw [run_bind, h]

theorem run_bind_dump {m : Prog C Reply ε α} {s t : σ} {e : ε} (h : m.run sem s = (.dump e, t))
    (f : α → Prog C Reply ε β) : (m >>= f).run sem s = (.dump e, t) := by
  rw [run_bind, h]

theorem run_map (m : Prog C Reply ε α) (f : α → β) (s : σ) :
    (m >>= fun a => pure (f a)).run sem s = ((m.run sem s).1.map f, (m.run sem s).2) := by
  rw [run_bind]
  rcases m.run sem s with ⟨a | e | _, t⟩ <;> rfl

theorem run_of_map {m : Prog C Reply ε α} {f : α → β} {s : σ} {b : β}
    (h : (m.run sem s).1.map f = .ok b) : ∃ a t, m.run sem s = (.ok a, t) ∧ f a = b := by
  rcases hrun : m.run sem s with ⟨a | e | _, t⟩ <;> rw [hrun] at h
  · exact ⟨a, t, rfl, by simpa [Out.map] using h⟩
  · cases h
  · cases h

variable (sem) in
/-- The program passes through the state `t` when it runs from `s`. -/
def Visits : Prog C Reply ε α → σ → σ → Prop
  | call c k, s, t => t = s ∨ Visits (k (sem c s).1) (sem c s).2 t
  | _, s, t => t = s

theorem visits_start (m : Prog C Reply ε α) (s : σ) : m.Visits sem s s := by
  cases m <;> simp [Visits]

theorem visits_bind {m : Prog C Reply ε α} {f : α → Prog C Reply ε β} {s t : σ} :
    (m >>= f).Visits sem s t ↔
      m.Visits sem s t ∨ ∃ a u, m.run sem s = (.ok a, u) ∧ (f a).Visits sem u t := by
  induction m generalizing s with
  | ret a =>
    simp only [ret_bind, Visits, run_ret, Prod.mk.injEq, Out.ok.injEq]
    constructor
    · exact fun h => Or.inr ⟨_, _, ⟨rfl, rfl⟩, h⟩
    · rintro (rfl | ⟨_, _, ⟨rfl, rfl⟩, h⟩)
      · exact visits_start _ _
      · exact h
  | dump e => simp [Visits]
  | spin => simp [Visits]
  | call c k ih => simp [Visits, ih, or_assoc]

theorem visits_end (m : Prog C Reply ε α) (s : σ) : m.Visits sem s (m.run sem s).2 := by
  induction m generalizing s with
  | ret a => rfl
  | dump e => rfl
  | spin => rfl
  | call c k ih => exact Or.inr (ih _ _)

theorem visits_of_run {m : Prog C Reply ε α} {s t : σ} {out : Out ε α}
    (h : m.run sem s = (out, t)) : m.Visits sem s t := by
  have hend : m.Visits sem s (m.run sem s).2 := visits_end m s
  rwa [h] at hend

variable (sem) in
/-- The state behind the first `n` calls of a program. -/
def after : Nat → Prog C Reply ε α → σ → σ
  | n + 1, call c k, s => after n (k (sem c s).1) (sem c s).2
  | _, _, s => s

theorem visits_after (n : Nat) (m : Prog C Reply ε α) (s : σ) :
    m.Visits sem s (after sem n m s) := by
  induction n generalizing m s with
  | zero => cases m <;> exact visits_start _ _
  | succ n ih =>
    cases m with
    | call c k => exact Or.inr (ih _ _)
    | _ => exact visits_start _ _

end Run

section Settles

/-- The program never loops for ever. -/
def Settles : Prog C Reply ε α → Prop
  | ret _ => True
  | dump _ => True
  | spin => False
  | call _ k => ∀ r, Settles (k r)

theorem settles_ret (a : α) : (ret a : Prog C Reply ε α).Settles := trivial

theorem settles_dump (e : ε) : (dump e : Prog C Reply ε α).Settles := trivial

theorem Settles.bind {m : Prog C Reply ε α} {f : α → Prog C Reply ε β} (h : m.Settles)
    (hf : ∀ a, (f a).Settles) : (m >>= f).Settles := by
  induction m with
  | ret a => exact hf a
  | dump e => trivial
  | spin => cases h
  | call c k ih => exact fun r => ih r (h r)

theorem Settles.run_ne {σ : Type} {sem : (c : C) → σ → Reply c × σ} {m : Prog C Reply ε α}
    (h : m.Settles) (s : σ) : (m.run sem s).1 ≠ .spin := by
  induction m generalizing s with
  | ret a => simp
  | dump e => simp
  | spin => cases h
  | call c k ih => exact ih _ (h _) _

end Settles

end Prog

end Somenote
