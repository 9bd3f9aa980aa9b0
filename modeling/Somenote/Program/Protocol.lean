import Mathlib.Order.Basic
import Somenote.Program.Machine

/-! # Protocols

A protocol follows the calls of one program with a ghost state: it says which calls are
allowed in a ghost state, and which replies the system may give there and where they lead.
A program that obeys it does so in every run, in the rounds of a loop, and next to any
other processes.
-/

namespace Somenote

/-- The calls that are allowed in a ghost state, and the ghost states behind the replies. -/
structure Protocol (C : Type) (Reply : C → Type) (G : Type) where
  Ok : G → C → Prop
  Next : G → (c : C) → Reply c → G → Prop

variable {Pid Op Res H C : Type} {Reply : C → Type} {ε α β L K G : Type} {P : Protocol C Reply G}

namespace Prog

/-- From the ghost state `g`, all calls are allowed, and values are returned with `Q`. -/
def Obeys (P : Protocol C Reply G) : Prog C Reply ε α → G → (α → G → Prop) → Prop
  | ret a, g, Q => Q a g
  | call c k, g, Q => P.Ok g c ∧ ∀ r g', P.Next g c r g' → Obeys P (k r) g' Q
  | _, _, _ => True

variable {m : Prog C Reply ε α} {f : α → Prog C Reply ε β} {g : G} {Q Q' : α → G → Prop}
  {S : β → G → Prop}

theorem obeys_ret {a : α} (h : Q a g) : (ret a : Prog C Reply ε α).Obeys P g Q := h

theorem obeys_dump {e : ε} : (dump e : Prog C Reply ε α).Obeys P g Q := trivial

theorem Obeys.mono (h : m.Obeys P g Q) (hQ : ∀ a g, Q a g → Q' a g) : m.Obeys P g Q' := by
  induction m generalizing g with
  | ret a => exact hQ a g h
  | dump e => trivial
  | spin => trivial
  | call c k ih => exact ⟨h.1, fun r g' hg => ih r (h.2 r g' hg)⟩

theorem Obeys.bind (h : m.Obeys P g fun a g' => (f a).Obeys P g' S) : (m >>= f).Obeys P g S := by
  induction m generalizing g with
  | ret a => exact h
  | dump e => trivial
  | spin => trivial
  | call c k ih => exact ⟨h.1, fun r g' hg => ih r (h.2 r g' hg)⟩

theorem obeys_call {c : C} {f : Reply c → Prog C Reply ε β} (hok : P.Ok g c)
    (h : ∀ r g', P.Next g c r g' → (f r).Obeys P g' S) : ((call c ret) >>= f).Obeys P g S :=
  ⟨hok, h⟩

theorem obeys_ite {c : Prop} [Decidable c] {m' : Prog C Reply ε α} (h : c → m.Obeys P g Q)
    (h' : ¬ c → m'.Obeys P g Q) : (if c then m else m').Obeys P g Q := by
  split
  · exact h ‹c›
  · exact h' ‹¬c›

/-- A run of a program, from one of its calls to a later one. -/
inductive Reaches (P : Protocol C Reply G) : Prog C Reply ε α → G → Prog C Reply ε α → G → Prop
  | refl (m : Prog C Reply ε α) (g : G) : Reaches P m g m g
  | call {c k r} {g g' g'' : G} {m : Prog C Reply ε α} (hg : P.Next g c r g') (h : Reaches P (k r) g' m g'') :
    Reaches P (call c k) g m g''

theorem Obeys.reaches {m' : Prog C Reply ε α} {g' : G} (h : m.Obeys P g Q)
    (hr : Reaches P m g m' g') : m'.Obeys P g' Q := by
  induction hr with
  | refl => exact h
  | call hg _ ih => exact ih (h.2 _ _ hg)

variable {P' : Protocol C Reply G}

theorem Obeys.weaken (h : m.Obeys P g Q) (hok : ∀ g c, P.Ok g c → P'.Ok g c)
    (hnext : ∀ g c r g', P'.Next g c r g' → P.Next g c r g') : m.Obeys P' g Q := by
  induction m generalizing g with
  | ret a => exact h
  | dump e => trivial
  | spin => trivial
  | call c k ih => exact ⟨hok g c h.1, fun r g' hg => ih r (h.2 r g' (hnext g c r g' hg))⟩

theorem Reaches.mono {m' : Prog C Reply ε α} {g' : G} (hr : Reaches P m g m' g')
    (hnext : ∀ g c r g', P.Next g c r g' → P'.Next g c r g') : Reaches P' m g m' g' := by
  induction hr with
  | refl => exact .refl _ _
  | call hg _ ih => exact .call (hnext _ _ _ _ hg) ih

end Prog

section Rounds

variable {V : Type} {body : V → Prog C Reply ε (Option V)} {v₀ v : V} {g₁ g : G}

/-- The variables of a loop at the head of its body. The body returns them for the next round,
or leaves the loop with `none`. -/
inductive Rounds (P : Protocol C Reply G) (body : V → Prog C Reply ε (Option V)) (v₀ : V)
    (g₁ : G) : V → G → Prop
  | start : Rounds P body v₀ g₁ v₀ g₁
  | next {v : V} {g : G} {v' g'} (h : Rounds P body v₀ g₁ v g) (hr : Prog.Reaches P (body v) g (.ret (some v')) g') :
    Rounds P body v₀ g₁ v' g'

/-- An invariant of the rounds of a loop. -/
theorem Rounds.inv {I : V → G → Prop} (hr : Rounds P body v₀ g₁ v g) (h₀ : I v₀ g₁)
    (hbody : ∀ v g, I v g → (body v).Obeys P g fun o g' => ∀ v', o = some v' → I v' g') :
    I v g := by
  induction hr with
  | start => exact h₀
  | next _ hm ih => exact (hbody _ _ ih).reaches hm _ rfl

end Rounds

/-- What the ghost state of a task says about the system. -/
def Task.Follows (P : Protocol C Reply G) (R : G → K → Prop) (g₀ : G) :
    Task Op H C Reply ε α L → K → Prop
  | idle _, k => R g₀ k
  | busy _ _ _ m, k => ∃ g, R g k ∧ m.Obeys P g fun _ g => g = g₀
  | gone, k => R g₀ k

variable [DecidableEq Pid] {sys : Kernel Pid C Reply L K} {cli : Client Op Res H C Reply ε α L}
  {s t : Conf Pid Op H C Reply ε α L K} {tr : List (Event Pid Op Res C)} {R : Pid → G → K → Prop}
  {g₀ : G}

/-- The tasks of all processes follow the protocol. -/
def Conf.Follow (P : Protocol C Reply G) (R : Pid → G → K → Prop) (g₀ : G)
    (s : Conf Pid Op H C Reply ε α L K) : Prop :=
  ∀ p, (s.tasks p).Follows P (R p) g₀ s.shared

section

variable (hstart : ∀ r h, (cli.start r h).2.Obeys P g₀ fun _ g => g = g₀)
  (hcall : ∀ p c l k g, R p g k → P.Ok g c → sys.Ready p c l k →
    ∃ g', P.Next g c (sys.exec p c l k).1 g' ∧ R p g' (sys.exec p c l k).2.2)
  (hother : ∀ p q c l k g, q ≠ p → R q g k → R q g (sys.exec p c l k).2.2)
  (hexit : ∀ p k, R p g₀ (sys.exit p k)) (hexit' : ∀ p q k g, q ≠ p → R q g k → R q g (sys.exit p k))
include hstart hcall hother hexit hexit'

theorem Step.follow {e : Event Pid Op Res C} (hs : Step sys cli s e t) (h : s.Follow P R g₀) :
    t.Follow P R g₀ := by
  -- the process that moves, and the others
  have hput : ∀ {p u k}, u.Follows P (R p) g₀ k → (∀ q g, q ≠ p → R q g s.shared → R q g k) →
      (s.put p u k).Follow P R g₀ := by
    intro p u k hu hk q
    by_cases hq : q = p
    · subst hq
      rwa [Conf.put_self]
    · rw [Conf.put_ne hq, Conf.put_shared]
      have hqs := h q
      cases htq : s.tasks q with
      | idle d =>
        rw [htq] at hqs
        exact hk q _ hq hqs
      | busy r d l m =>
        rw [htq] at hqs
        obtain ⟨g, hg, hm⟩ := hqs
        exact ⟨g, hk q _ hq hg, hm⟩
      | gone =>
        rw [htq] at hqs
        exact hk q _ hq hqs
  cases hs with
  | @inv p r d ht hc =>
    have hp := h p
    rw [ht] at hp
    exact hput ⟨g₀, hp, hstart r d⟩ fun _ _ _ => id
  | @sys p r d l c k ht hr =>
    have hp := h p
    rw [ht] at hp
    obtain ⟨g, hg, hok, hm⟩ := hp
    obtain ⟨g', hg', hR⟩ := hcall p c l _ g hg hok hr
    exact hput ⟨g', hR, hm _ g' hg'⟩ fun q g' hq => hother p q c l _ g' hq
  | @ret p r d l a ht =>
    have hp := h p
    rw [ht] at hp
    obtain ⟨g, hg, rfl⟩ := hp
    exact hput hg fun _ _ _ => id
  | @die p r d l e ht => exact hput (hexit p _) fun q g hq => hexit' p q _ g hq

theorem Run.follow (hr : Run sys cli s tr t) (h : s.Follow P R g₀) : t.Follow P R g₀ := by
  induction hr with
  | nil => exact h
  | snoc _ hs ih => exact hs.follow hstart hcall hother hexit hexit' ih

end

end Somenote
