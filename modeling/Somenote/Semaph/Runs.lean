import Mathlib.Algebra.BigOperators.Ring.Finset
import Somenote.Semaph.Steps

/-! # Runs of processes with a semaphore

In every run a set that a process has open is there and counted, unless another process opens it
between the last test in `sem_close` and its removal.
-/

namespace Somenote.Semaph

variable {Pid : Type} [Fintype Pid] [DecidableEq Pid] {s t : State Pid} {S : SemSet Pid}
  {p q : Pid} {pc' : Pc} {id n : ℕ} {initval : ℤ} {a : Act Pid}

namespace Inv

theorem create (h : Inv s) (hp : s.pc p = .createGet initval) :
    Inv ({ s.set s.fresh ⟨fun _ => 0, fun _ _ => 0⟩ with
      key := some s.fresh, fresh := s.fresh + 1 }.goto p (.createLock initval s.fresh)) := by
  have hnew : s.sets s.fresh = none := h.fresh _ le_rfl
  have hopens : ∀ q, s.opens q s.fresh = 0 := by
    intro q
    by_contra hq
    exact h.opened q _ (Nat.pos_of_ne_zero hq) hnew
  have hheld : ∀ q, (s.pc q).held ≠ some s.fresh := fun q hq => h.held q _ hq hnew
  have hzero : users s.opens s.fresh = 0 := tally_eq_zero hopens
  have hlocks : tally (Pc.lock s.fresh) s.pc = 0 :=
    tally_eq_zero fun q => Pc.lock_eq_zero (hheld q)
  have hkept : Kept ⟨fun _ => 0, fun _ _ => 0⟩ s.fresh s.pc s.opens := {
    lock := by rw [hlocks]; rfl
    one := by rw [hlocks]; exact zero_le_one
    undoLock := fun q => by rw [Pc.lock_eq_zero (hheld q)]; rfl
    undoCount := fun q => by rw [hopens]; rfl
    count := Or.inr ⟨rfl, hzero⟩
    knows := fun q hq => absurd hq (hheld q) }
  have hmade : Inv { s.set s.fresh ⟨fun _ => 0, fun _ _ => 0⟩ with
      key := some s.fresh, fresh := s.fresh + 1 } := {
    kept := fun i T hT => by
      have hT' : Function.update s.sets s.fresh (some ⟨fun _ => 0, fun _ _ => 0⟩) i = some T := hT
      by_cases hi : i = s.fresh
      · subst hi
        rw [Function.update_self] at hT'
        obtain rfl := Option.some.inj hT'
        exact hkept
      · rw [Function.update_of_ne hi] at hT'
        exact h.kept i T hT'
    opened := fun q i hq => by
      have hi : i ≠ s.fresh := by
        rintro rfl
        exact hq.ne' (hopens q)
      exact (Function.update_of_ne hi ..).trans_ne (h.opened q i hq)
    held := fun q i hq => by
      have hi : i ≠ s.fresh := by
        rintro rfl
        exact hheld q hq
      exact (Function.update_of_ne hi ..).trans_ne (h.held q i hq)
    uses := h.uses
    fresh := fun i hi => by
      have hi' : s.fresh + 1 ≤ i := hi
      exact (Function.update_of_ne (by omega) ..).trans (h.fresh i (by omega))
    key := fun i hi => by
      obtain rfl : s.fresh = i := Option.some.inj hi
      exact (Function.update_self ..).trans_ne nofun
    few := h.few }
  exact hmade.quiet (by change (s.pc p).held = none; rw [hp]; rfl) rfl nofun

theorem remove (h : Inv s) (hp : s.pc p = .closeRm id) : Inv ((s.remove id).goto p .idle) := by
  have hheld : (s.pc p).held = some id := by rw [hp]; rfl
  obtain ⟨S, hS⟩ := Option.ne_none_iff_exists'.mp (h.held p id hheld)
  have hk := h.kept id S hS
  have hknows := hk.knows p hheld
  rw [hp] at hknows
  have hopens : ∀ q, s.opens q id = 0 := by
    intro q
    have hle := opens_le_users s.opens q id
    have hzero := hknows.2
    omega
  have hsets : ∀ i, i ≠ id → ((s.remove id).goto p .idle).sets i = s.sets i :=
    fun i hi => Function.update_of_ne hi ..
  exact {
    kept := fun i T hT => by
      have hi : i ≠ id := by
        rintro rfl
        rw [show ((s.remove i).goto p .idle).sets i = none from Function.update_self ..] at hT
        cases hT
      rw [hsets i hi] at hT
      refine (h.kept i T hT).congr (fun q hq => ?_) (fun q hq => ?_) fun _ => rfl
      · by_cases hqp : q = p
        · subst hqp
          have hq' : (Function.update s.pc q .idle q).held = some i := hq
          rw [Function.update_self] at hq'
          cases hq'
        · exact Function.update_of_ne hqp ..
      · by_cases hqp : q = p
        · subst hqp
          exact absurd (Option.some.inj (hq.symm.trans hheld)) hi
        · exact Function.update_of_ne hqp ..
    opened := fun q i hq => by
      have hi : i ≠ id := by
        rintro rfl
        exact hq.ne' (hopens q)
      rw [hsets i hi]
      exact h.opened q i hq
    held := fun q i hq => by
      have hq' : (Function.update s.pc p .idle q).held = some i := hq
      by_cases hqp : q = p
      · subst hqp
        rw [Function.update_self] at hq'
        cases hq'
      · rw [Function.update_of_ne hqp] at hq'
        have hi : i ≠ id := by
          rintro rfl
          exact h.alone hS hheld hqp hq'
        rw [hsets i hi]
        exact h.held q i hq'
    uses := fun q i hq => by
      have hq' : (Function.update s.pc p .idle q).uses = some i := hq
      by_cases hqp : q = p
      · subst hqp
        rw [Function.update_self] at hq'
        cases hq'
      · rw [Function.update_of_ne hqp] at hq'
        exact h.uses q i hq'
    fresh := fun i hi => by
      by_cases hid : i = id
      · subst hid
        exact Function.update_self ..
      · rw [hsets i hid]
        exact h.fresh i hi
    key := fun i hi => by
      have hi' : (if s.key = some id then none else s.key) = some i := hi
      split at hi'
      · cases hi'
      · rename_i hne
        have hid : i ≠ id := by
          rintro rfl
          exact hne hi'
        rw [hsets i hid]
        exact h.key i hi'
    few := h.few }

theorem exit (h : Inv s) (p : Pid) : Inv (s.exit p) := by
  have hsum : ∀ id, users (Function.update s.opens p fun _ => 0) id + s.opens p id =
      users s.opens id := fun id => tally_update (fun n : ℕ → ℕ => n id) s.opens p fun _ => 0
  have hlive : ∀ i, (s.exit p).sets i ≠ none ↔ s.sets i ≠ none := by
    intro i
    simp [State.exit]
  have hopens : ∀ q i, (s.exit p).opens q i ≤ s.opens q i := by
    intro q i
    change Function.update s.opens p (fun _ => 0) q i ≤ s.opens q i
    by_cases hqp : q = p
    · subst hqp
      rw [Function.update_self]
      exact Nat.zero_le _
    · rw [Function.update_of_ne hqp]
  have hpc : ∀ q, q ≠ p → (s.exit p).pc q = s.pc q := fun q hq => Function.update_of_ne hq ..
  have hself : (s.exit p).pc p = .gone := Function.update_self ..
  exact {
    kept := by
      intro i T hT
      obtain ⟨S, hS, rfl⟩ := Option.map_eq_some_iff.mp hT
      have hk := h.kept i S hS
      have hlock := le_tally (Pc.lock i) s.pc p
      have hval := hk.lock
      have hone := hk.one
      have hbig := limits
      have hadj : (S.exit p).adj p = fun _ => 0 := Function.update_self ..
      have hadj' : ∀ q, q ≠ p → (S.exit p).adj q = S.adj q := fun q hq =>
        Function.update_of_ne hq ..
      have hupdate : Kept (S.exit p) i (Function.update s.pc p .gone)
          (Function.update s.opens p (Function.update (s.opens p) i 0)) := by
        refine hk.update ?_ (Or.inr (Or.inl nofun)) (congrFun hadj 1) (congrFun hadj 2) ?_ ?_
        · change min SEMVMX (max 0 (S.val 2 + S.adj p 2)) + _ = _
          rw [hk.undoLock p, show Pc.gone.lock i = 0 from rfl]
          omega
        · intro q hq
          rw [hadj' q hq]
          exact ⟨rfl, rfl⟩
        · intro u hu
          have hfew := h.few i
          have hval₁ : (S.exit p).val 1 = min SEMVMX (max 0 (S.val 1 + S.adj p 1)) := rfl
          have hundo := hk.undoCount p
          have hc : Counted S (users s.opens i) → Counted (S.exit p) u := by
            intro hc
            rw [Counted] at hc ⊢
            omega
          have hz : Unset S (users s.opens i) → Unset (S.exit p) u := by
            rintro ⟨h1, hzero⟩
            constructor <;> omega
          refine ⟨hk.count.imp hc hz, nofun, fun q _ _ hknows => ?_⟩
          exact hknows.mono hc hz fun hzero => by omega
      refine hupdate.congr (fun _ _ => rfl) (fun _ _ => rfl) fun q => ?_
      change Function.update s.opens p (fun _ => 0) q i = _
      by_cases hqp : q = p
      · subst hqp
        rw [Function.update_self, Function.update_self, Function.update_self]
      · rw [Function.update_of_ne hqp, Function.update_of_ne hqp]
    opened := fun q i hq => (hlive i).mpr (h.opened q i (hq.trans_le (hopens q i)))
    held := by
      intro q i hq
      rw [hlive]
      by_cases hqp : q = p
      · rw [hqp, hself] at hq
        cases hq
      · exact h.held q i (hpc q hqp ▸ hq)
    uses := by
      intro q i hq
      by_cases hqp : q = p
      · rw [hqp, hself] at hq
        cases hq
      · have hold := h.uses q i (hpc q hqp ▸ hq)
        rwa [show (s.exit p).opens q = s.opens q from Function.update_of_ne hqp ..]
    fresh := fun i hi => by
      change (s.sets i).map _ = none
      rw [h.fresh i hi]
      rfl
    key := fun i hi => (hlive i).mpr (h.key i hi)
    few := fun i => by
      have hle := hsum i
      have hfew := h.few i
      change (users (Function.update s.opens p fun _ => 0) i : ℤ) < BIGCOUNT
      omega }

/-- A process goes on with a system call. -/
theorem go (h : Inv s) (hstep : s.step p = .next t) (hfew : s.Few (.go p))
    (hcalm : s.Calm (.go p)) : Inv t := by
  rw [State.Few] at hfew
  rw [State.Calm] at hcalm
  rw [State.step] at hstep
  cases hp : s.pc p with
  | idle => rw [hp] at hstep; cases hstep
  | gone => rw [hp] at hstep; cases hstep
  | createGet initval =>
    rw [hp] at hstep
    cases hstep
    rw [State.semget]
    split
    · exact h.quiet (by rw [hp]; rfl) rfl (by rintro _ ⟨⟩)
    · exact h.create hp
  | createLock initval id =>
    rw [hp] at hstep
    dsimp only at hstep
    split at hstep
    · cases hstep
      exact h.quiet (by rw [hp]; rfl) rfl (by rintro _ ⟨⟩)
    · rename_i S hS
      split at hstep
      · rename_i v a hv
        cases hstep
        exact h.take hS hv (by rw [hp]; rfl)
      · cases hstep
        exact h.quiet (by rw [hp]; rfl) rfl (by rintro _ ⟨⟩)
      · cases hstep
  | createAsleep initval id =>
    rw [hp] at hstep
    obtain ⟨S, v, a, hS, hv, rfl⟩ := State.semop_next hstep
    exact h.take hS hv (by rw [hp]; rfl)
  | createVal initval id =>
    rw [hp] at hstep
    obtain ⟨S, hS, hstep⟩ := State.semctl_next hstep
    split at hstep
    · rename_i hzero
      cases hstep
      refine h.within (by rw [hp]; rfl) rfl rfl fun T hT _ hcount => ?_
      obtain rfl : S = T := Option.some.inj (hS.symm.trans hT)
      refine hcount.resolve_left fun hcounted => ?_
      have hfew := h.few id
      rw [Counted] at hcounted
      omega
    · rename_i hne
      cases hstep
      refine h.within (by rw [hp]; rfl) rfl rfl fun T hT _ hcount => ?_
      obtain rfl : S = T := Option.some.inj (hS.symm.trans hT)
      exact hcount.resolve_right fun hunset => hne hunset.1
  | createSet0 initval id =>
    rw [hp] at hstep
    obtain ⟨S, hS, hstep⟩ := State.semctl_next hstep
    split at hstep
    · cases hstep
    · cases hstep
      exact h.setval0 hS hp
  | createSet1 id =>
    rw [hp] at hstep
    obtain ⟨S, hS, hstep⟩ := State.semctl_next hstep
    cases hstep
    exact h.setval1 hS hp
  | createEnd id =>
    rw [hp] at hstep hfew
    obtain ⟨S, v, a, hS, hv, rfl⟩ := State.semop_next hstep
    exact h.endcreate hS hv hp hfew
  | openGet =>
    rw [hp] at hstep
    dsimp only at hstep
    split at hstep
    · cases hstep
      exact h.quiet (by rw [hp]; rfl) rfl (by rintro _ ⟨⟩)
    · cases hstep
      exact h.quiet (by rw [hp]; rfl) rfl (by rintro _ ⟨⟩)
  | openOp id =>
    rw [hp] at hstep hfew hcalm
    obtain ⟨S, v, a, hS, hv, rfl⟩ := State.semop_next hstep
    exact h.openOp hS hv hp hcalm hfew
  | closeOp id =>
    rw [hp] at hstep
    obtain ⟨S, v, a, hS, hv, rfl⟩ := State.semop_next hstep
    exact h.closeOp hS hv hp
  | closeVal id =>
    rw [hp] at hstep
    obtain ⟨S, hS, hstep⟩ := State.semctl_next hstep
    split at hstep
    · cases hstep
    split at hstep
    · rename_i hall
      cases hstep
      refine h.within (by rw [hp]; rfl) rfl rfl fun T hT hknows _ => ?_
      obtain rfl : S = T := Option.some.inj (hS.symm.trans hT)
      rw [hp] at hknows
      refine ⟨hknows, ?_⟩
      rw [Pc.Knows, Counted] at hknows
      omega
    · cases hstep
      exact h.within (by rw [hp]; rfl) rfl rfl fun _ _ _ _ => trivial
  | closeRm id =>
    rw [hp] at hstep
    obtain ⟨S, hS, hstep⟩ := State.semctl_next hstep
    cases hstep
    exact h.remove hp
  | closeUnlock id =>
    rw [hp] at hstep
    obtain ⟨S, v, a, hS, hv, rfl⟩ := State.semop_next hstep
    exact h.unlock hS hv hp
  | opOp id value =>
    rw [hp] at hstep
    dsimp only at hstep
    split at hstep
    · cases hstep
    · obtain ⟨S, v, a, hS, hv, rfl⟩ := State.semop_next hstep
      exact h.op hS hv hp

theorem act (h : Inv s) (hs : s.act a = some t) (hfew : s.Few a) (hcalm : s.Calm a) : Inv t := by
  cases a with
  | create p initval =>
    simp only [State.act, Option.ite_none_right_eq_some, Option.some.injEq] at hs
    obtain ⟨hp, rfl⟩ := hs
    exact h.quiet (by rw [hp]; rfl) rfl (by rintro _ ⟨⟩)
  | «open» p =>
    simp only [State.act, Option.ite_none_right_eq_some, Option.some.injEq] at hs
    obtain ⟨hp, rfl⟩ := hs
    exact h.quiet (by rw [hp]; rfl) rfl (by rintro _ ⟨⟩)
  | close p id =>
    simp only [State.act, Option.ite_none_right_eq_some, Option.some.injEq] at hs
    obtain ⟨⟨hp, hopen⟩, rfl⟩ := hs
    refine h.quiet (by rw [hp]; rfl) rfl ?_
    rintro i ⟨⟩
    exact hopen
  | op p id value =>
    simp only [State.act, Option.ite_none_right_eq_some, Option.some.injEq] at hs
    obtain ⟨⟨hp, hopen⟩, rfl⟩ := hs
    refine h.quiet (by rw [hp]; rfl) rfl ?_
    rintro i ⟨⟩
    exact hopen
  | go p =>
    rw [State.act] at hs
    split at hs
    · rename_i u hu
      cases hs
      exact h.go hu hfew hcalm
    · cases hs
    · cases hs
      exact h.exit p
  | refuse p =>
    rw [State.act] at hs
    split at hs
    · rename_i hp
      cases hs
      exact h.quiet (by rw [hp]; rfl) rfl (by rintro _ ⟨⟩)
    · rename_i hp
      cases hs
      exact h.quiet (by rw [hp]; rfl) rfl (by rintro _ ⟨⟩)
    · cases hs
  | exit p =>
    simp only [State.act, Option.ite_none_left_eq_some, Option.some.injEq] at hs
    obtain ⟨-, rfl⟩ := hs
    exact h.exit p

omit [DecidableEq Pid] in
theorem initial : Inv (.initial : State Pid) where
  kept id S hS := by cases hS
  opened p id hp := absurd hp (lt_irrefl 0)
  held p id hp := by cases hp
  uses p id hp := by cases hp
  fresh id _ := rfl
  key id hid := by cases hid
  few id := by
    have hzero : users (State.initial : State Pid).opens id = 0 := tally_eq_zero fun _ => rfl
    rw [hzero]
    decide

end Inv

theorem Reach.inv (h : Reach State.Fine s) : Inv s := by
  induction h with
  | initial => exact .initial
  | step _ hs hc ih => exact ih.act hs hc.1 hc.2

/-- A set is there while a process has it open, and its counter says how many times it is open,
however the other processes end. It is initialised and removed while nobody has it open, by one
process at a time. -/
theorem sets_kept (h : Reach State.Fine s) :
    (∀ p id, 0 < s.opens p id → ∃ S, s.sets id = some S ∧
      S.val 1 = BIGCOUNT - ∑ q, (s.opens q id : ℤ)) ∧
    (∀ p id initval, s.pc p = .createSet0 initval id ∨ s.pc p = .createSet1 id ∨
      s.pc p = .closeRm id → ∀ q, s.opens q id = 0) ∧
    ∀ p q id, (s.pc p).held = some id → (s.pc q).held = some id → p = q := by
  have hinv := h.inv
  refine ⟨?_, ?_, ?_⟩
  · intro p id hp
    obtain ⟨S, hS⟩ := Option.ne_none_iff_exists'.mp (hinv.opened p id hp)
    have hcounted := (hinv.kept id S hS).counted hp
    rw [Counted, users, tally] at hcounted
    push_cast at hcounted
    exact ⟨S, hS, hcounted⟩
  · intro p id initval hp q
    have hle := opens_le_users s.opens q id
    have hheld : (s.pc p).held = some id := by rcases hp with hp | hp | hp <;> rw [hp] <;> rfl
    obtain ⟨S, hS⟩ := Option.ne_none_iff_exists'.mp (hinv.held p id hheld)
    have hknows := (hinv.kept id S hS).knows p hheld
    have hzero : users s.opens id = 0 := by
      rcases hp with hp | hp | hp <;> rw [hp] at hknows <;> exact hknows.2
    omega
  · intro p q id hp hq
    obtain ⟨S, hS⟩ := Option.ne_none_iff_exists'.mp (hinv.held p id hp)
    by_contra hpq
    exact hinv.alone hS hp (Ne.symm hpq) hq

/-- Two processes create a set, and the first one exits. -/
def twoCreate : List (Act Bool) :=
  [.create false 3, .go false, .go false, .go false, .create true 5, .go true, .go true, .go false,
    .go false, .go false, .go true, .go true, .go true, .exit false]

theorem sets_kept_create : ∃ s, State.initial.run State.Fine twoCreate = some s ∧
    0 < s.opens true 0 ∧ ∃ S, s.sets 0 = some S ∧ S.val 1 = BIGCOUNT - ∑ q, (s.opens q 0 : ℤ) := by
  have hrun : (State.initial.run State.Fine twoCreate).isSome := by decide +kernel
  have hopen : (State.initial.run State.Fine twoCreate).any (fun s => 0 < s.opens true 0) := by
    decide +kernel
  obtain ⟨s, hs⟩ := Option.isSome_iff_exists.mp hrun
  rw [hs, Option.any_some, decide_eq_true_eq] at hopen
  exact ⟨s, hs, hopen, (sets_kept (Reach.initial.run hs)).1 true 0 hopen⟩

def openWhileRemoved : List (Act Bool) :=
  [.create false 3, .go false, .go false, .go false, .go false, .go false, .go false,
    .open true, .go true, .close false 0, .go false, .go false, .go true, .go false]

/-- A process that opens a set while another one removes it has a set that is not there. -/
theorem opened_removed : ∃ s : State Bool, Reach State.Few s ∧ 0 < s.opens true 0 ∧
    s.sets 0 = none := by
  have hrun : (State.initial.run State.Few openWhileRemoved).any
      (fun s => 0 < s.opens true 0 ∧ (s.sets 0).isNone) := by decide +kernel
  obtain ⟨s, hs, hopen⟩ := (Option.any_eq_true ..).mp hrun
  rw [decide_eq_true_eq] at hopen
  exact ⟨s, Reach.initial.run hs, hopen.1, Option.isNone_iff_eq_none.mp hopen.2⟩

omit [Fintype Pid] in
theorem State.cases_of_semop_fail {ops : List Sembuf} {k : State Pid → State Pid}
    (h : s.semop p id ops k = .fail) :
    s.sets id = none ∨ ∃ S, s.sets id = some S ∧ tryOps ops S.val (S.adj p) = .range := by
  rw [semop] at h
  split at h
  · exact Or.inl ‹_›
  · rename_i S hS
    split at h
    · cases h
    · cases h
    · exact Or.inr ⟨S, hS, ‹_›⟩

omit [DecidableEq Pid] in
theorem Inv.tryOps_ne_range (h : Inv s) (hS : s.sets id = some S) (p : Pid) {ops : List Sembuf}
    (hops : ∀ b ∈ ops, b.sem_num ≠ 0 ∧ |b.sem_op| ≤ 1) (hlen : ops.length ≤ 3) :
    tryOps ops S.val (S.adj p) ≠ .range := by
  have hk := h.kept id S hS
  have hfew := h.few id
  have hle := opens_le_users s.opens p id
  have hone := hk.one
  have hlock := le_tally (Pc.lock id) s.pc p
  have hval₁ : S.val 1 ≤ BIGCOUNT := by
    rcases hk.count with hc | hu
    · rw [Counted] at hc
      omega
    · rw [hu.1]
      decide
  have hval₂ := hk.lock
  have hadj₁ := hk.undoCount p
  have hadj₂ := hk.undoLock p
  have hbig := limits
  apply Semaph.tryOps_ne_range hops
  · rintro ⟨_ | _ | _ | i, hi⟩ hne
    · exact absurd rfl hne
    · change S.val 1 + _ ≤ _
      omega
    · change S.val 2 + _ ≤ _
      omega
    · omega
  · rintro ⟨_ | _ | _ | i, hi⟩ hne
    · exact absurd rfl hne
    · change |S.adj p 1| + _ ≤ _
      have habs := abs_le.mpr (show -BIGCOUNT ≤ S.adj p 1 ∧ S.adj p 1 ≤ BIGCOUNT by omega)
      omega
    · change |S.adj p 2| + _ ≤ _
      have habs := abs_le.mpr (show -BIGCOUNT ≤ S.adj p 2 ∧ S.adj p 2 ≤ BIGCOUNT by omega)
      omega
    · omega

/-- An operation takes a semaphore, or what the system undoes, out of its range. -/
def SemSet.Refuses (S : SemSet Pid) (p : Pid) (i : Fin 3) (x : ℤ) : Prop :=
  0 ≤ S.val i + x ∧ (SEMVMX < S.val i + x ∨ S.adj p i - x < -SEMAEM - 1 ∨ SEMAEM < S.adj p i - x)

omit [Fintype Pid] [DecidableEq Pid] in
theorem SemSet.refuses_of_range {value : ℤ}
    (h : tryOps (opOp value) S.val (S.adj p) = .range) : S.Refuses p 0 (toShort value) := by
  rw [opOp, tryOps] at h
  split at h
  · cases h
  · rename_i hgo
    rw [not_or, not_lt] at hgo
    split at h
    · rename_i hrange
      exact ⟨hgo.2, hrange.imp_right And.right⟩
    · cases h

/-- A process ends with an error only in `sem_op`, with a value that is 0 or that the system
refuses, in `sem_create`, with a value that a semaphore cannot have, and in `sem_create` and
`sem_open` on a set that has been removed since they got its id. -/
theorem fail_cases (h : Reach State.Fine s) (hfail : s.step p = .fail) :
    ∃ id, (∃ initval, s.pc p = .createAsleep initval id ∧ s.sets id = none) ∨
      (∃ initval, s.pc p = .createSet0 initval id ∧ (initval < 0 ∨ SEMVMX < initval)) ∨
      (s.pc p = .openOp id ∧ s.sets id = none) ∨
      ∃ value, s.pc p = .opOp id value ∧ (toShort value = 0 ∨
        ∃ S, s.sets id = some S ∧ S.Refuses p 0 (toShort value)) := by
  have hinv := h.inv
  have hlive : ∀ {id}, (s.pc p).held = some id → ∀ {f : SemSet Pid → Outcome (State Pid)},
      (∀ S, s.sets id = some S → f S ≠ .fail) → s.semctl id f ≠ .fail := by
    intro id hheld f hf
    obtain ⟨S, hS⟩ := Option.ne_none_iff_exists'.mp (hinv.held p id hheld)
    rw [State.semctl, hS]
    exact hf S hS
  -- an operation on the counter and the lock fails only when there is no set
  have hgone : ∀ {id ops k}, (∀ b ∈ ops, b.sem_num ≠ 0 ∧ |b.sem_op| ≤ 1) → ops.length ≤ 3 →
      s.semop p id ops k = .fail → s.sets id = none := by
    intro id ops k hops hlen hsemop
    refine (State.cases_of_semop_fail hsemop).resolve_right ?_
    rintro ⟨S, hS, hrange⟩
    exact hinv.tryOps_ne_range hS p hops hlen hrange
  rw [State.step] at hfail
  cases hp : s.pc p with
  | createAsleep initval id =>
    rw [hp] at hfail
    exact ⟨id, Or.inl ⟨initval, rfl, hgone (by decide) (by decide) hfail⟩⟩
  | openOp id =>
    rw [hp] at hfail
    exact ⟨id, Or.inr (Or.inr (Or.inl ⟨rfl, hgone (by decide) (by decide) hfail⟩))⟩
  | opOp id value =>
    rw [hp] at hfail
    dsimp only at hfail
    refine ⟨id, Or.inr (Or.inr (Or.inr ⟨value, rfl, ?_⟩))⟩
    split at hfail
    · exact Or.inl ‹_›
    · rcases State.cases_of_semop_fail hfail with hnone | ⟨S, hS, hrange⟩
      · exact absurd hnone (hinv.opened p id (hinv.uses p id (by rw [hp]; rfl)))
      · exact Or.inr ⟨S, hS, SemSet.refuses_of_range hrange⟩
  | closeOp id =>
    rw [hp] at hfail
    exact absurd (hgone (by decide) (by decide) hfail)
      (hinv.opened p id (hinv.uses p id (by rw [hp]; rfl)))
  | createEnd id | closeUnlock id =>
    rw [hp] at hfail
    exact absurd (hgone (by decide) (by decide) hfail) (hinv.held p id (by rw [hp]; rfl))
  | createVal initval id =>
    rw [hp] at hfail
    refine absurd hfail (hlive (by rw [hp]; rfl) fun S _ => ?_)
    split <;> simp
  | createSet0 initval id =>
    rw [hp] at hfail
    refine ⟨id, Or.inr (Or.inl ⟨initval, rfl, ?_⟩)⟩
    by_contra hvalue
    refine absurd hfail (hlive (by rw [hp]; rfl) fun S _ => ?_)
    rw [if_neg hvalue]
    intro hnext
    cases hnext
  | createSet1 | closeRm =>
    rw [hp] at hfail
    exact absurd hfail (hlive (by rw [hp]; rfl) fun S _ => by simp)
  | closeVal id =>
    rw [hp] at hfail
    have hheld : (s.pc p).held = some id := by rw [hp]; rfl
    refine absurd hfail (hlive hheld fun S hS => ?_)
    have hknows := (hinv.kept id S hS).knows p hheld
    rw [hp, Pc.Knows, Counted] at hknows
    rw [if_neg (by omega)]
    split <;> simp
  | createLock initval id =>
    rw [hp] at hfail
    dsimp only at hfail
    split at hfail
    · cases hfail
    · rename_i S hS
      split at hfail
      · cases hfail
      · cases hfail
      · exact absurd ‹_› (hinv.tryOps_ne_range hS p (by decide) (by decide))
  | openGet =>
    rw [hp] at hfail
    dsimp only at hfail
    split at hfail <;> cases hfail
  | idle | gone | createGet =>
    rw [hp] at hfail
    cases hfail

def createWhileRemoved : List (Act Bool) :=
  [.create false 3, .go false, .go false, .go false, .go false, .go false, .go false,
    .close false 0, .go false, .go false, .create true 5, .go true, .go true, .go false]

/-- A process waits for the lock of a set that the other one removes. -/
theorem fail_cases_asleep : ∃ s : State Bool, s.pc true = .createAsleep 5 0 ∧ s.sets 0 = none ∧
    ∃ id, (∃ initval, s.pc true = .createAsleep initval id ∧ s.sets id = none) ∨
      (∃ initval, s.pc true = .createSet0 initval id ∧ (initval < 0 ∨ SEMVMX < initval)) ∨
      (s.pc true = .openOp id ∧ s.sets id = none) ∨
      ∃ value, s.pc true = .opOp id value ∧ (toShort value = 0 ∨
        ∃ S, s.sets id = some S ∧ S.Refuses true 0 (toShort value)) := by
  have hrun : (State.initial.run State.Fine createWhileRemoved).any
      (fun s => s.pc true = .createAsleep 5 0 ∧ (s.sets 0).isNone) := by decide +kernel
  obtain ⟨s, hs, hasleep⟩ := (Option.any_eq_true ..).mp hrun
  rw [decide_eq_true_eq, Option.isNone_iff_eq_none] at hasleep
  have hfail : s.step true = .fail := by
    rw [State.step, hasleep.1]
    dsimp only
    rw [State.semop, hasleep.2]
  exact ⟨s, hasleep.1, hasleep.2, fail_cases (Reach.initial.run hs) hfail⟩

end Somenote.Semaph
