import Mathlib.Algebra.Ring.Int.Defs
import Mathlib.Tactic.Linarith
import Somenote.Semaph.Source

/-! # The counter of the processes

The second member of a set counts the processes that have it open, those that exit included, and
the third one is a lock. A set that a process has open is there, and stays as it was initialised.
-/

namespace Somenote.Semaph

/-- The counter and the lock are far from the limits of the system. -/
theorem limits : BIGCOUNT + 3 ≤ SEMVMX ∧ BIGCOUNT + 3 ≤ SEMAEM ∧ 1 ≤ BIGCOUNT := by decide

namespace Pc

/-- The set whose lock the process has. -/
def held : Pc → Option ℕ
  | createVal _ i | createSet0 _ i | createSet1 i | createEnd i => some i
  | closeVal i | closeRm i | closeUnlock i => some i
  | _ => none

/-- The set that the process uses and has open. -/
def uses : Pc → Option ℕ
  | closeOp i | opOp i _ => some i
  | _ => none

def lock (id : ℕ) (pc : Pc) : ℕ := if pc.held = some id then 1 else 0

theorem lock_eq_one {pc : Pc} {id : ℕ} (h : pc.held = some id) : pc.lock id = 1 := if_pos h

theorem lock_eq_zero {pc : Pc} {id : ℕ} (h : pc.held ≠ some id) : pc.lock id = 0 := if_neg h

end Pc

variable {Pid : Type} {S S' : SemSet Pid} {id id' n m : ℕ}

/-- What a process with the lock knows in front of a system call. -/
def Pc.Knows (S : SemSet Pid) (users : ℕ) : Pc → Prop
  | createSet0 .. | createSet1 _ => Unset S users
  | createEnd _ | closeVal _ => Counted S users
  | closeRm _ => Counted S users ∧ users = 0
  | _ => True

theorem Pc.Knows.mono {pc : Pc} (h : pc.Knows S n) (hc : Counted S n → Counted S' m)
    (hu : Unset S n → Unset S' m) (hz : n = 0 → m = 0) : pc.Knows S' m := by
  cases pc with
  | createSet0 | createSet1 => exact hu h
  | createEnd | closeVal => exact hc h
  | closeRm => exact ⟨hc h.1, hz h.2⟩
  | _ => trivial

variable [Fintype Pid]

/-- What holds of one set. -/
structure Kept (S : SemSet Pid) (id : ℕ) (pc : Pid → Pc) (opens : Pid → ℕ → ℕ) : Prop where
  lock : S.val 2 = tally (Pc.lock id) pc
  one : tally (Pc.lock id) pc ≤ 1
  undoLock : ∀ p, S.adj p 2 = -((pc p).lock id : ℤ)
  undoCount : ∀ p, S.adj p 1 = opens p id
  count : Counted S (users opens id) ∨ Unset S (users opens id)
  knows : ∀ p, (pc p).held = some id → (pc p).Knows S (users opens id)

/-- What holds in every state. -/
structure Inv (s : State Pid) : Prop where
  kept : ∀ id S, s.sets id = some S → Kept S id s.pc s.opens
  opened : ∀ p id, 0 < s.opens p id → s.sets id ≠ none
  held : ∀ p id, (s.pc p).held = some id → s.sets id ≠ none
  uses : ∀ p id, (s.pc p).uses = some id → 0 < s.opens p id
  fresh : ∀ id, s.fresh ≤ id → s.sets id = none
  key : ∀ id, s.key = some id → s.sets id ≠ none
  few : ∀ id, (users s.opens id : ℤ) < BIGCOUNT

variable {pc pc₂ : Pid → Pc} {opens opens₂ : Pid → ℕ → ℕ} {p q : Pid} {pc' : Pc} {s t : State Pid}
  {v : Fin 3 → ℤ}

theorem users_congr (h : ∀ q, opens₂ q id = opens q id) : users opens₂ id = users opens id :=
  Finset.sum_congr rfl fun q _ => h q

theorem opens_le_users (opens : Pid → ℕ → ℕ) (p : Pid) (id : ℕ) : opens p id ≤ users opens id :=
  le_tally (fun n : ℕ → ℕ => n id) opens p

namespace Kept

theorem congr (h : Kept S id pc opens) (hpc : ∀ q, (pc₂ q).held = some id → pc₂ q = pc q)
    (hpc' : ∀ q, (pc q).held = some id → pc₂ q = pc q) (hopens : ∀ q, opens₂ q id = opens q id) :
    Kept S id pc₂ opens₂ := by
  have hlock : ∀ q, (pc₂ q).lock id = (pc q).lock id := by
    intro q
    by_cases hq : (pc q).held = some id
    · rw [hpc' q hq]
    · rw [Pc.lock_eq_zero hq, Pc.lock_eq_zero]
      intro hq'
      exact hq (hpc q hq' ▸ hq')
  have htally : tally (Pc.lock id) pc₂ = tally (Pc.lock id) pc :=
    Finset.sum_congr rfl fun q _ => hlock q
  have husers := users_congr hopens
  exact {
    lock := by rw [htally, h.lock]
    one := by rw [htally]; exact h.one
    undoLock := fun q => by rw [hlock, h.undoLock]
    undoCount := fun q => by rw [hopens, h.undoCount]
    count := by rw [husers]; exact h.count
    knows := fun q hq => by
      rw [husers, hpc q hq]
      exact h.knows q (hpc q hq ▸ hq) }

theorem not_held (h : Kept S id pc opens) (hfree : S.val 2 = 0) (q : Pid) :
    (pc q).held ≠ some id := by
  intro hq
  have hle := le_tally (Pc.lock id) pc q
  have hlock := h.lock
  rw [Pc.lock_eq_one hq] at hle
  omega

theorem held_unique (h : Kept S id pc opens) (hp : (pc p).held = some id) (hq : q ≠ p) :
    (pc q).held ≠ some id := by
  classical
  intro hqh
  have hle := add_le_tally (w := Pc.lock id) (f := pc) hq
  have hone := h.one
  rw [Pc.lock_eq_one hp, Pc.lock_eq_one hqh] at hle
  omega

theorem counted (h : Kept S id pc opens) (hp : 0 < opens p id) : Counted S (users opens id) := by
  have hle := opens_le_users opens p id
  exact h.count.resolve_right fun hu => by
    have hzero := hu.2
    omega

variable [DecidableEq Pid]

theorem update (h : Kept S id pc opens)
    (hlock : S'.val 2 + (pc p).lock id = S.val 2 + pc'.lock id)
    (hone : (pc p).held = some id ∨ pc'.held ≠ some id ∨ S.val 2 = 0)
    (hadj₁ : S'.adj p 1 = n) (hadj₂ : S'.adj p 2 = -(pc'.lock id : ℤ))
    (hothers : ∀ q, q ≠ p → S'.adj q 1 = S.adj q 1 ∧ S'.adj q 2 = S.adj q 2)
    (hcount : ∀ u, u + opens p id = users opens id + n → (Counted S' u ∨ Unset S' u) ∧
      (pc'.held = some id → pc'.Knows S' u) ∧
      ∀ q, q ≠ p → (pc q).held = some id → (pc q).Knows S (users opens id) → (pc q).Knows S' u) :
    Kept S' id (Function.update pc p pc')
      (Function.update opens p (Function.update (opens p) id n)) := by
  have hlocks := tally_update (Pc.lock id) pc p pc'
  have hold := h.lock
  have hle := h.one
  have hp := le_tally (Pc.lock id) pc p
  have husers : users (Function.update opens p (Function.update (opens p) id n)) id + opens p id =
      users opens id + n := by
    have ht := tally_update (fun n : ℕ → ℕ => n id) opens p (Function.update (opens p) id n)
    rw [Function.update_self] at ht
    exact ht
  obtain ⟨hcnt, hknows, hknows'⟩ := hcount _ husers
  exact {
    lock := by omega
    one := by
      rcases hone with hone | hone | hone
      · rw [Pc.lock_eq_one hone] at hlocks hp
        have hnew : pc'.lock id ≤ 1 := by
          rw [Pc.lock]
          split <;> omega
        omega
      · rw [Pc.lock_eq_zero hone] at hlocks
        omega
      · have hnew : pc'.lock id ≤ 1 := by
          rw [Pc.lock]
          split <;> omega
        omega
    undoLock := fun q => by
      by_cases hq : q = p
      · subst hq
        rw [Function.update_self, hadj₂]
      · rw [Function.update_of_ne hq, (hothers q hq).2, h.undoLock]
    undoCount := fun q => by
      by_cases hq : q = p
      · subst hq
        rw [Function.update_self, Function.update_self, hadj₁]
      · rw [Function.update_of_ne hq, (hothers q hq).1, h.undoCount]
    count := hcnt
    knows := fun q hq => by
      by_cases hqp : q = p
      · subst hqp
        rw [Function.update_self] at hq ⊢
        exact hknows hq
      · rw [Function.update_of_ne hqp] at hq ⊢
        exact hknows' q hqp hq (h.knows q hq) }

end Kept

namespace Inv

theorem quiet [DecidableEq Pid] (h : Inv s) (hp : (s.pc p).held = none) (hp' : pc'.held = none)
    (huses : ∀ id, pc'.uses = some id → 0 < s.opens p id) : Inv (s.goto p pc') := by
  have hsame : ∀ q id, (Function.update s.pc p pc' q).held = some id →
      Function.update s.pc p pc' q = s.pc q := by
    intro q id hq
    by_cases hqp : q = p
    · subst hqp
      rw [Function.update_self, hp'] at hq
      cases hq
    · rw [Function.update_of_ne hqp]
  exact {
    kept := fun id S hS => by
      refine (h.kept id S hS).congr (fun q hq => hsame q id hq) (fun q hq => ?_) fun _ => rfl
      by_cases hqp : q = p
      · subst hqp
        rw [hp] at hq
        cases hq
      · exact Function.update_of_ne hqp ..
    opened := h.opened
    held := fun q id hq => h.held q id (hsame q id hq ▸ hq)
    uses := fun q id hq => by
      have hq' : (Function.update s.pc p pc' q).uses = some id := hq
      by_cases hqp : q = p
      · subst hqp
        rw [Function.update_self] at hq'
        exact huses id hq'
      · rw [Function.update_of_ne hqp] at hq'
        exact h.uses q id hq'
    fresh := h.fresh
    key := h.key
    few := h.few }

/-- A process changes one set, and whether it has its lock and how often it has opened it. -/
theorem move [DecidableEq Pid] (h : Inv s) (hS : s.sets id = some S)
    (hk : Kept S' id (Function.update s.pc p pc')
      (Function.update s.opens p (Function.update (s.opens p) id n)))
    (hp : ∀ i, (s.pc p).held = some i → i = id) (hp' : ∀ i, pc'.held = some i → i = id)
    (huses : pc'.uses = none)
    (hfew : ∀ i, (users (Function.update s.opens p (Function.update (s.opens p) id n)) i : ℤ) <
      BIGCOUNT) :
    Inv (((s.set id S').setOpens p id n).goto p pc') where
  kept i T hT := by
    have hT' : Function.update s.sets id (some S') i = some T := hT
    by_cases hi : i = id
    · subst hi
      rw [Function.update_self] at hT'
      obtain rfl := Option.some.inj hT'
      exact hk
    · rw [Function.update_of_ne hi] at hT'
      refine (h.kept i T hT').congr (fun q hq => ?_) (fun q hq => ?_) fun q => ?_
      · by_cases hqp : q = p
        · subst hqp
          have hq' : (Function.update s.pc q pc' q).held = some i := hq
          rw [Function.update_self] at hq'
          exact absurd (hp' i hq') hi
        · exact Function.update_of_ne hqp ..
      · by_cases hqp : q = p
        · subst hqp
          exact absurd (hp i hq) hi
        · exact Function.update_of_ne hqp ..
      · change Function.update s.opens p (Function.update (s.opens p) id n) q i = s.opens q i
        by_cases hqp : q = p
        · subst hqp
          rw [Function.update_self, Function.update_of_ne hi]
        · rw [Function.update_of_ne hqp]
  opened q i hq := by
    have hq' : 0 < Function.update s.opens p (Function.update (s.opens p) id n) q i := hq
    change Function.update s.sets id (some S') i ≠ none
    by_cases hi : i = id
    · subst hi
      rw [Function.update_self]
      exact nofun
    · rw [Function.update_of_ne hi]
      apply h.opened q
      by_cases hqp : q = p
      · subst hqp
        rwa [Function.update_self, Function.update_of_ne hi] at hq'
      · rwa [Function.update_of_ne hqp] at hq'
  held q i hq := by
    have hq' : (Function.update s.pc p pc' q).held = some i := hq
    change Function.update s.sets id (some S') i ≠ none
    by_cases hi : i = id
    · subst hi
      rw [Function.update_self]
      exact nofun
    · rw [Function.update_of_ne hi]
      by_cases hqp : q = p
      · subst hqp
        rw [Function.update_self] at hq'
        exact absurd (hp' i hq') hi
      · rw [Function.update_of_ne hqp] at hq'
        exact h.held q i hq'
  uses q i hq := by
    have hq' : (Function.update s.pc p pc' q).uses = some i := hq
    change 0 < Function.update s.opens p (Function.update (s.opens p) id n) q i
    by_cases hqp : q = p
    · subst hqp
      rw [Function.update_self, huses] at hq'
      cases hq'
    · rw [Function.update_of_ne hqp] at hq' ⊢
      exact h.uses q i hq'
  fresh i hi := by
    change Function.update s.sets id (some S') i = none
    rw [Function.update_of_ne]
    · exact h.fresh i hi
    · rintro rfl
      have hnone := h.fresh i hi
      rw [hS] at hnone
      cases hnone
  key i hi := by
    change Function.update s.sets id (some S') i ≠ none
    by_cases hid : i = id
    · subst hid
      rw [Function.update_self]
      exact nofun
    · rw [Function.update_of_ne hid]
      exact h.key i hi
  few := hfew

end Inv

end Somenote.Semaph
