import Mathlib.Logic.Function.Basic
import Somenote.Program.Basic

/-! # Processes that share a system

Any number of processes call one system, one call at a time, in any order. A process runs
one operation after the other, each of them a program; a call that is not ready waits, and
a process whose program ends in an error exit dies.
-/

namespace Somenote

/-- A system with states `K` that all processes share, and states `L` of one operation. -/
structure Kernel (Pid C : Type) (Reply : C → Type) (L K : Type) where
  Ready : Pid → C → L → K → Prop
  exec : Pid → (c : C) → L → K → Reply c × L × K
  exit : Pid → K → K

/-- The operations of a process that keeps an `H` between them. -/
structure Client (Op Res H C : Type) (Reply : C → Type) (ε α L : Type) where
  Can : Op → H → Prop
  start : Op → H → L × Prog C Reply ε α
  finish : Op → H → L → α → Res × H

inductive Task (Op H C : Type) (Reply : C → Type) (ε α L : Type)
  | idle (h : H)
  | busy (op : Op) (h : H) (l : L) (m : Prog C Reply ε α)
  | gone

structure Conf (Pid Op H C : Type) (Reply : C → Type) (ε α L K : Type) where
  tasks : Pid → Task Op H C Reply ε α L
  shared : K

/-- What a step shows: an operation starts, calls the system or returns, or a process dies. -/
inductive Event (Pid Op Res C : Type)
  | inv (p : Pid) (op : Op)
  | sys (p : Pid) (c : C)
  | ret (p : Pid) (op : Op) (res : Res)
  | die (p : Pid)
  deriving DecidableEq

variable {Pid Op Res H C : Type} {Reply : C → Type} {ε α L K : Type} [DecidableEq Pid]

/-- The process `p` goes on with the task `t`, and the system with `k`. -/
def Conf.put (s : Conf Pid Op H C Reply ε α L K) (p : Pid) (t : Task Op H C Reply ε α L)
    (k : K) : Conf Pid Op H C Reply ε α L K :=
  ⟨Function.update s.tasks p t, k⟩

section

variable (sys : Kernel Pid C Reply L K) (cli : Client Op Res H C Reply ε α L)

inductive Step : Conf Pid Op H C Reply ε α L K → Event Pid Op Res C →
    Conf Pid Op H C Reply ε α L K → Prop
  | inv {s p r h} (ht : s.tasks p = .idle h) (hc : cli.Can r h) :
    Step s (.inv p r) (s.put p (.busy r h (cli.start r h).1 (cli.start r h).2) s.shared)
  | sys {s p r h l c k} (ht : s.tasks p = .busy r h l (.call c k))
      (hr : sys.Ready p c l s.shared) :
    Step s (.sys p c) (s.put p (.busy r h (sys.exec p c l s.shared).2.1
      (k (sys.exec p c l s.shared).1)) (sys.exec p c l s.shared).2.2)
  | ret {s p r h l a} (ht : s.tasks p = .busy r h l (.ret a)) :
    Step s (.ret p r (cli.finish r h l a).1) (s.put p (.idle (cli.finish r h l a).2) s.shared)
  | die {s p r h l e} (ht : s.tasks p = .busy r h l (.dump e)) :
    Step s (.die p) (s.put p .gone (sys.exit p s.shared))

/-- A run and what its steps show, in order. -/
inductive Run (s : Conf Pid Op H C Reply ε α L K) :
    List (Event Pid Op Res C) → Conf Pid Op H C Reply ε α L K → Prop
  | nil : Run s [] s
  | snoc {tr t e u} (hr : Run s tr t) (hs : Step sys cli t e u) : Run s (tr ++ [e]) u

end

/-- The rest of a program that ends without further calls. -/
def Out.prog : Out ε α → Prog C Reply ε α
  | ok a => .ret a
  | dump e => .dump e
  | spin => .spin

/-- The calls that a program issues. -/
def Prog.calls {σ : Type} (sem : (c : C) → σ → Reply c × σ) : Prog C Reply ε α → σ → List C
  | call c k, s => c :: calls sem (k (sem c s).1) (sem c s).2
  | _, _ => []

namespace Conf

variable {s : Conf Pid Op H C Reply ε α L K} {p q : Pid} {t : Task Op H C Reply ε α L} {k : K}

@[simp] theorem put_shared : (s.put p t k).shared = k := rfl

@[simp] theorem put_self : (s.put p t k).tasks p = t := Function.update_self ..

theorem put_put {t' : Task Op H C Reply ε α L} {k' : K} : (s.put p t k).put p t' k' = s.put p t' k' := by
  simp [put]

theorem put_ne (h : q ≠ p) : (s.put p t k).tasks q = s.tasks q := Function.update_of_ne h ..

end Conf

section

variable {sys : Kernel Pid C Reply L K} {cli : Client Op Res H C Reply ε α L}
  {s t u : Conf Pid Op H C Reply ε α L K} {tr tr' : List (Event Pid Op Res C)}
  {e : Event Pid Op Res C}

theorem Run.trans (h : Run sys cli s tr t) (h' : Run sys cli t tr' u) :
    Run sys cli s (tr ++ tr') u := by
  induction h' with
  | nil => rwa [List.append_nil]
  | snoc hr hs ih =>
    rw [← List.append_assoc]
    exact .snoc ih hs

theorem Run.cut {all : List (Event Pid Op Res C)} (h : Run sys cli s all u)
    (hall : all = tr ++ tr') : ∃ t, Run sys cli s tr t ∧ Run sys cli t tr' u := by
  induction h generalizing tr' with
  | nil =>
    obtain ⟨rfl, rfl⟩ := List.append_eq_nil_iff.mp hall.symm
    exact ⟨s, .nil, .nil⟩
  | @snoc all v e u hr hs ih =>
    rcases List.eq_nil_or_concat tr' with rfl | ⟨tr₂, e', rfl⟩
    · rw [List.append_nil] at hall
      subst hall
      exact ⟨u, .snoc hr hs, .nil⟩
    · rw [List.concat_eq_append, ← List.append_assoc] at hall
      obtain ⟨hfront, he⟩ := List.append_inj' hall rfl
      obtain rfl : e = e' := List.singleton_inj.mp he
      obtain ⟨t, h₁, h₂⟩ := ih hfront
      rw [List.concat_eq_append]
      exact ⟨t, h₁, .snoc h₂ hs⟩

theorem Step.run (h : Step sys cli s e t) : Run sys cli s [e] t := .snoc .nil h

end

end Somenote
