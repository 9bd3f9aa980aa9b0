import Mathlib.Data.Nat.Notation
import Somenote.Program.Basic

/-! # Cutting a program short

Some calls are loud: they may change what is left when a program ends between two calls.
A program with no loud call leaves what it found, and a program with one leaves what it
found or what it leaves in the end.
-/

namespace Somenote

namespace Prog

variable {C : Type} {Reply : C → Type} {ε α β σ τ : Type} {loud : C → Prop} {m n : ℕ}

/-- At most `n` loud calls, whatever the replies are. -/
def AtMost (loud : C → Prop) : ℕ → Prog C Reply ε α → Prop
  | n, call c k =>
    ¬ loud c ∧ (∀ r, AtMost loud n (k r)) ∨ ∃ m, n = m + 1 ∧ ∀ r, AtMost loud m (k r)
  | _, _ => True

@[simp] theorem atMost_ret (a : α) : (ret a : Prog C Reply ε α).AtMost loud n := trivial

@[simp] theorem atMost_dump (e : ε) : (dump e : Prog C Reply ε α).AtMost loud n := trivial

@[simp] theorem atMost_spin : (spin : Prog C Reply ε α).AtMost loud n := trivial

theorem atMost_quiet {c : C} {k : Reply c → Prog C Reply ε α} (hc : ¬ loud c)
    (h : ∀ r, (k r).AtMost loud n) : (call c k).AtMost loud n :=
  Or.inl ⟨hc, h⟩

theorem atMost_succ {c : C} {k : Reply c → Prog C Reply ε α}
    (h : ∀ r, (k r).AtMost loud n) : (call c k).AtMost loud (n + 1) :=
  Or.inr ⟨n, rfl, h⟩

theorem AtMost.mono {p : Prog C Reply ε α} (h : p.AtMost loud m) (hmn : m ≤ n) :
    p.AtMost loud n := by
  induction p generalizing m n with
  | ret a => trivial
  | dump e => trivial
  | spin => trivial
  | call c k ih =>
    rcases h with ⟨hc, h⟩ | ⟨l, rfl, h⟩
    · exact atMost_quiet hc fun r => ih r (h r) hmn
    · obtain ⟨n', rfl⟩ := Nat.exists_eq_succ_of_ne_zero (Nat.ne_zero_of_lt hmn)
      exact atMost_succ fun r => ih r (h r) (Nat.le_of_succ_le_succ hmn)

theorem AtMost.bind {p : Prog C Reply ε α} {f : α → Prog C Reply ε β} (h : p.AtMost loud m)
    (hf : ∀ a, (f a).AtMost loud n) : (p >>= f).AtMost loud (m + n) := by
  induction p generalizing m with
  | ret a => exact (hf a).mono (Nat.le_add_left n m)
  | dump e => trivial
  | spin => trivial
  | call c k ih =>
    rcases h with ⟨hc, h⟩ | ⟨l, rfl, h⟩
    · exact atMost_quiet hc fun r => ih r (h r)
    · rw [Nat.succ_add]
      exact atMost_succ fun r => ih r (h r)

theorem atMost_bind {p : Prog C Reply ε α} {f : α → Prog C Reply ε β} (h : p.AtMost loud 0)
    (hf : ∀ a, (f a).AtMost loud n) : (p >>= f).AtMost loud n :=
  (h.bind hf).mono (Nat.le_of_eq (Nat.zero_add n))

theorem atMost_bind_one {p : Prog C Reply ε α} {f : α → Prog C Reply ε β} (h : p.AtMost loud 1)
    (hf : ∀ a, (f a).AtMost loud 0) : (p >>= f).AtMost loud 1 :=
  h.bind hf

theorem atMost_ite {c : Prop} [Decidable c] {p q : Prog C Reply ε α} (hp : p.AtMost loud n)
    (hq : q.AtMost loud n) : (if c then p else q).AtMost loud n := by
  split
  · exact hp
  · exact hq

section Visits

variable {sem : (c : C) → σ → Reply c × σ} {view : σ → τ}
  (hview : ∀ c s, ¬ loud c → view (sem c s).2 = view s)
include hview

theorem AtMost.visits_zero {p : Prog C Reply ε α} (h : p.AtMost loud 0) {s t : σ}
    (ht : p.Visits sem s t) : view t = view s := by
  induction p generalizing s with
  | ret a => exact congrArg view ht
  | dump e => exact congrArg view ht
  | spin => exact congrArg view ht
  | call c k ih =>
    rcases h with ⟨hc, h⟩ | ⟨l, hl, -⟩
    · rcases ht with rfl | ht
      · rfl
      · exact (ih _ (h _) ht).trans (hview c s hc)
    · cases hl

theorem AtMost.run_zero {p : Prog C Reply ε α} (h : p.AtMost loud 0) (s : σ) :
    view (p.run sem s).2 = view s :=
  h.visits_zero hview (visits_end p s)

theorem AtMost.visits_one {p : Prog C Reply ε α} (h : p.AtMost loud 1) {s t : σ}
    (ht : p.Visits sem s t) : view t = view s ∨ view t = view (p.run sem s).2 := by
  induction p generalizing s with
  | ret a => exact Or.inl (congrArg view ht)
  | dump e => exact Or.inl (congrArg view ht)
  | spin => exact Or.inl (congrArg view ht)
  | call c k ih =>
    rcases ht with rfl | ht
    · exact Or.inl rfl
    · rcases h with ⟨hc, h⟩ | ⟨l, hl, h⟩
      · rw [← hview c s hc]
        exact ih _ (h _) ht
      · obtain rfl : l = 0 := Nat.succ.inj hl.symm
        right
        rw [(h _).visits_zero hview ht, run_call, (h _).run_zero hview]

end Visits

section Always

variable (sem : (c : C) → σ → Reply c × σ) (P : σ → Prop)

/-- Every state that the program passes through satisfies `P`. -/
def Always (p : Prog C Reply ε α) (s : σ) : Prop := ∀ t, p.Visits sem s t → P t

variable {sem P}

theorem always_ret {a : α} {s : σ} (hs : P s) :
    (ret a : Prog C Reply ε α).Always sem P s := by
  rintro t rfl
  exact hs

theorem always_dump {e : ε} {s : σ} (hs : P s) :
    (dump e : Prog C Reply ε α).Always sem P s := by
  rintro t rfl
  exact hs

theorem Always.mono {P' : σ → Prop} {p : Prog C Reply ε α} {s : σ} (h : p.Always sem P s)
    (hP : ∀ t, P t → P' t) : p.Always sem P' s := fun t ht => hP t (h t ht)

theorem Always.bind_ok {p : Prog C Reply ε α} {f : α → Prog C Reply ε β} {s t : σ} {a : α}
    (h : p.Always sem P s) (hrun : p.run sem s = (.ok a, t)) (hf : (f a).Always sem P t) :
    (p >>= f).Always sem P s := by
  intro u hu
  rcases visits_bind.mp hu with hu | ⟨b, v, hrun', hu⟩
  · exact h u hu
  · rw [hrun] at hrun'
    cases hrun'
    exact hf u hu

theorem Always.bind_dump {p : Prog C Reply ε α} {f : α → Prog C Reply ε β} {s t : σ} {e : ε}
    (h : p.Always sem P s) (hrun : p.run sem s = (.dump e, t)) : (p >>= f).Always sem P s := by
  intro u hu
  rcases visits_bind.mp hu with hu | ⟨b, v, hrun', -⟩
  · exact h u hu
  · rw [hrun] at hrun'
    cases hrun'

variable {view : σ → τ} {Q : τ → Prop} (hview : ∀ c s, ¬ loud c → view (sem c s).2 = view s)
include hview

theorem AtMost.always_zero {p : Prog C Reply ε α} (h : p.AtMost loud 0) {s : σ}
    (hs : Q (view s)) : p.Always sem (fun t => Q (view t)) s := by
  intro t ht
  exact (congrArg Q (h.visits_zero hview ht)).mpr hs

theorem AtMost.always_one {p : Prog C Reply ε α} (h : p.AtMost loud 1) {s t : σ}
    {out : Out ε α} (hs : Q (view s)) (hrun : p.run sem s = (out, t)) (ht : Q (view t)) :
    p.Always sem (fun t => Q (view t)) s := by
  intro u hu
  rcases h.visits_one hview hu with he | he
  · exact (congrArg Q he).mpr hs
  · rw [hrun] at he
    exact (congrArg Q he).mpr ht

theorem AtMost.then_zero {p : Prog C Reply ε α} {f : α → Prog C Reply ε β} (h : p.AtMost loud 0)
    {s t : σ} {a : α} (hs : Q (view s)) (hrun : p.run sem s = (.ok a, t))
    (hf : (f a).Always sem (fun t => Q (view t)) t) :
    (p >>= f).Always sem (fun t => Q (view t)) s :=
  (h.always_zero hview hs).bind_ok hrun hf

theorem AtMost.then_one {p : Prog C Reply ε α} {f : α → Prog C Reply ε β} (h : p.AtMost loud 1)
    {s t : σ} {a : α} (hs : Q (view s)) (hrun : p.run sem s = (.ok a, t)) (ht : Q (view t))
    (hf : (f a).Always sem (fun t => Q (view t)) t) :
    (p >>= f).Always sem (fun t => Q (view t)) s :=
  (h.always_one hview hs hrun ht).bind_ok hrun hf

end Always

end Prog

end Somenote
