import Somenote.Program.Machine

/-! # Schedules

A schedule says which process moves next. When each of its moves is possible, it gives a run.
-/

namespace Somenote

/-- A process starts an operation, or goes on with the one it is in. -/
inductive Choice (Pid Op : Type)
  | start (p : Pid) (op : Op)
  | go (p : Pid)

variable {Pid Op Res H C : Type} {Reply : C → Type} {ε α L K : Type}

/-- The starts and the returns of a run, without the calls in between. -/
def outline (tr : List (Event Pid Op Res C)) : List (Event Pid Op Res C) :=
  tr.filter fun
    | .sys .. => false
    | _ => true

theorem mem_outline {tr : List (Event Pid Op Res C)} {e : Event Pid Op Res C} :
    e ∈ outline tr ↔ e ∈ tr ∧ ∀ p c, e ≠ .sys p c := by
  cases e <;> simp [outline]

variable [DecidableEq Pid]

namespace Conf

/-- The next call of the process `p` is `c`. -/
def At (s : Conf Pid Op H C Reply ε α L K) (p : Pid) (c : C) : Prop :=
  ∃ op h l k, s.tasks p = .busy op h l (.call c k)

instance [DecidableEq C] (s : Conf Pid Op H C Reply ε α L K) (p : Pid) (c : C) :
    Decidable (s.At p c) :=
  match h : s.tasks p with
  | .busy _ _ _ (.call d _) =>
    if hd : d = c then .isTrue (by subst hd; exact ⟨_, _, _, _, h⟩)
    else .isFalse (by rintro ⟨_, _, _, _, he⟩; rw [h] at he; cases he; exact hd rfl)
  | .busy _ _ _ (.ret _) | .busy _ _ _ (.dump _) | .busy _ _ _ .spin | .idle _ | .gone =>
    .isFalse (by rintro ⟨_, _, _, _, he⟩; rw [h] at he; cases he)

section

variable (sys : Kernel Pid C Reply L K) (cli : Client Op Res H C Reply ε α L)
  [∀ op h, Decidable (cli.Can op h)] [∀ p c l k, Decidable (sys.Ready p c l k)]

def move (s : Conf Pid Op H C Reply ε α L K) :
    Choice Pid Op → Option (Event Pid Op Res C × Conf Pid Op H C Reply ε α L K)
  | .start p op =>
    match s.tasks p with
    | .idle h =>
      if cli.Can op h then
        some (.inv p op, s.put p (.busy op h (cli.start op h).1 (cli.start op h).2) s.shared)
      else none
    | _ => none
  | .go p =>
    match s.tasks p with
    | .busy op h l (.call c k) =>
      if sys.Ready p c l s.shared then
        some (.sys p c, s.put p (.busy op h (sys.exec p c l s.shared).2.1
          (k (sys.exec p c l s.shared).1)) (sys.exec p c l s.shared).2.2)
      else none
    | .busy op h l (.ret a) =>
      some (.ret p op (cli.finish op h l a).1, s.put p (.idle (cli.finish op h l a).2) s.shared)
    | .busy _ _ _ (.dump _) => some (.die p, s.put p .gone (sys.exit p s.shared))
    | _ => none

def play : List (Choice Pid Op) → Conf Pid Op H C Reply ε α L K →
    Option (List (Event Pid Op Res C) × Conf Pid Op H C Reply ε α L K)
  | [], s => some ([], s)
  | c :: cs, s => do
    let (e, t) ← s.move sys cli c
    let (tr, u) ← play cs t
    some (e :: tr, u)

end

variable {sys : Kernel Pid C Reply L K} {cli : Client Op Res H C Reply ε α L}
  [∀ op h, Decidable (cli.Can op h)] [∀ p c l k, Decidable (sys.Ready p c l k)]
  {s t : Conf Pid Op H C Reply ε α L K} {e : Event Pid Op Res C} {tr : List (Event Pid Op Res C)}
  {c : Choice Pid Op}

theorem step_of_move (h : s.move sys cli c = some (e, t)) : Step sys cli s e t := by
  cases c with
  | start p op =>
    simp only [move] at h
    split at h
    · split at h
      · cases h
        exact .inv ‹_› ‹_›
      · cases h
    · cases h
  | go p =>
    simp only [move] at h
    split at h
    · split at h
      · cases h
        exact .sys ‹_› ‹_›
      · cases h
    · cases h
      exact .ret ‹_›
    · cases h
      exact .die ‹_›
    · cases h

theorem run_of_play (cs : List (Choice Pid Op)) (h : play sys cli cs s = some (tr, t)) : Run sys cli s tr t := by
  induction cs generalizing s tr with
  | nil =>
    cases h
    exact .nil
  | cons c cs ih =>
    rw [play, Option.bind_eq_bind, Option.bind_eq_some_iff] at h
    obtain ⟨⟨e, u⟩, hmove, h⟩ := h
    rw [Option.bind_eq_bind, Option.bind_eq_some_iff] at h
    obtain ⟨⟨tr', v⟩, hplay, h⟩ := h
    cases h
    exact (step_of_move hmove).run.trans (ih hplay)

end Conf

end Somenote
