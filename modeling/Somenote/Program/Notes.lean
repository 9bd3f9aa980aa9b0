import Somenote.Program.Basic

/-! # Programs that take notes

Between its calls a program may take notes, which the system does not see. Without its notes it is
a program as any other one; a run of that program gives the notes that were taken.
-/

namespace Somenote

/-- The calls of a program, and the notes it takes. -/
inductive Noting (C N : Type) where
  | sys (c : C)
  | note (n : N)

@[reducible] def Noting.Reply {C N : Type} (R : C → Type) : Noting C N → Type
  | sys c => R c
  | note _ => Unit

namespace Prog

variable {C N : Type} {R : C → Type} {ε α β : Type}

abbrev note (n : N) : Prog (Noting C N) (Noting.Reply R) ε Unit := call (.note n) ret

/-- A program that takes no notes. -/
def lift : Prog C R ε α → Prog (Noting C N) (Noting.Reply R) ε α
  | ret a => ret a
  | dump e => dump e
  | spin => spin
  | call c k => call (.sys c) fun r => lift (k r)

/-- The program without its notes. -/
def erase : Prog (Noting C N) (Noting.Reply R) ε α → Prog C R ε α
  | ret a => ret a
  | dump e => dump e
  | spin => spin
  | call (.sys c) k => call c fun r => erase (k r)
  | call (.note _) k => erase (k ())

theorem erase_lift (m : Prog C R ε α) :
    (m.lift : Prog (Noting C N) (Noting.Reply R) ε α).erase = m := by
  induction m with
  | call c k ih => exact congrArg (call c) (funext ih)
  | _ => rfl

theorem erase_bind (m : Prog (Noting C N) (Noting.Reply R) ε α)
    (f : α → Prog (Noting C N) (Noting.Reply R) ε β) :
    (m >>= f).erase = m.erase >>= fun a => (f a).erase := by
  induction m with
  | call c k ih =>
    cases c with
    | sys c => exact congrArg (call c) (funext ih)
    | note n => exact ih ()
  | _ => rfl

theorem erase_ite (p : Prop) [Decidable p] (m m' : Prog (Noting C N) (Noting.Reply R) ε α) :
    (if p then m else m').erase = if p then m.erase else m'.erase := by
  split <;> rfl

variable {σ : Type} (sem : (c : C) → σ → R c × σ)

/-- The notes that a run of the program takes. -/
def notes : Prog (Noting C N) (Noting.Reply R) ε α → σ → List N
  | call (.sys c) k, s => notes (k (sem c s).1) (sem c s).2
  | call (.note n) k, s => n :: notes (k ()) s
  | _, _ => []

variable {sem} {m : Prog C R ε α} {f : α → Prog (Noting C N) (Noting.Reply R) ε β} {s t : σ} {a : α}

theorem notes_lift (m : Prog C R ε α) (s : σ) :
    (m.lift : Prog (Noting C N) (Noting.Reply R) ε α).notes sem s = [] := by
  induction m generalizing s with
  | call c k ih => exact ih _ _
  | _ => rfl

theorem notes_bind (m : Prog (Noting C N) (Noting.Reply R) ε α) (s : σ) :
    (m >>= f).notes sem s = m.notes sem s ++ match m.erase.run sem s with
      | (.ok a, t) => (f a).notes sem t
      | _ => [] := by
  induction m generalizing s with
  | call c k ih =>
    cases c with
    | sys c => exact ih _ _
    | note n => exact congrArg (n :: ·) (ih () s)
  | _ => rfl

theorem notes_bind_ok {m : Prog (Noting C N) (Noting.Reply R) ε α}
    (h : m.erase.run sem s = (.ok a, t)) :
    (m >>= f).notes sem s = m.notes sem s ++ (f a).notes sem t := by
  rw [notes_bind, h]

theorem notes_lift_ok (h : m.run sem s = (.ok a, t)) :
    (m.lift >>= f).notes sem s = (f a).notes sem t := by
  rw [notes_bind, erase_lift, h, notes_lift]
  rfl

theorem notes_lift_dump {e : ε} (h : m.run sem s = (.dump e, t)) :
    (m.lift >>= f).notes sem s = [] := by
  rw [notes_bind, erase_lift, h, notes_lift]
  rfl

theorem notes_bind_quiet {m : Prog (Noting C N) (Noting.Reply R) ε α}
    (hf : ∀ a t, (f a).notes sem t = []) (s : σ) : (m >>= f).notes sem s = m.notes sem s := by
  rw [notes_bind]
  split
  · rw [hf, List.append_nil]
  · rw [List.append_nil]

end Prog

end Somenote
