import Somenote.Semaph.Counting

/-! # What the system calls do to a set

Each system call of the functions keeps the counter and the lock of its set, and so does the exit of
a process.
-/

namespace Somenote.Semaph

section Operations

variable {v v' a a' : Fin 3 → ℤ} {b : Sembuf} {bs : List Sembuf} {value : ℤ}

theorem tryOps_cons (h : tryOps (b :: bs) v a = .done v' a') :
    (b.sem_op = 0 → v b.sem_num = 0) ∧ 0 ≤ v b.sem_num + b.sem_op ∧
      tryOps bs (Function.update v b.sem_num (v b.sem_num + b.sem_op)) (b.adjust a) =
        .done v' a' := by
  rw [tryOps] at h
  split at h
  · cases h
  · rename_i hgo
    rw [not_or, not_and, not_not, not_lt] at hgo
    split at h
    · cases h
    · exact ⟨hgo.1, hgo.2, h⟩

theorem tryOps_lock (h : tryOps opLock v a = .done v' a') :
    v 2 = 0 ∧ (v' 1 = v 1 ∧ v' 2 = 1) ∧ a' 1 = a 1 ∧ a' 2 = a 2 - 1 := by
  obtain ⟨h2, -, h⟩ := tryOps_cons h
  obtain ⟨-, -, h⟩ := tryOps_cons h
  have hfree : v 2 = 0 := h2 rfl
  cases h
  simp [Sembuf.adjust, hfree]

theorem tryOps_endcreate (h : tryOps opEndcreate v a = .done v' a') :
    1 ≤ v 1 ∧ (v' 1 = v 1 - 1 ∧ v' 2 = v 2 - 1) ∧ a' 1 = a 1 + 1 ∧ a' 2 = a 2 + 1 := by
  obtain ⟨-, h1, h⟩ := tryOps_cons h
  obtain ⟨-, -, h⟩ := tryOps_cons h
  have hpos : 1 ≤ v 1 := by
    dsimp only at h1
    omega
  cases h
  simp [Sembuf.adjust, hpos, Int.sub_eq_add_neg]

theorem tryOps_open (h : tryOps opOpen v a = .done v' a') :
    1 ≤ v 1 ∧ (v' 1 = v 1 - 1 ∧ v' 2 = v 2) ∧ a' 1 = a 1 + 1 ∧ a' 2 = a 2 := by
  obtain ⟨-, h1, h⟩ := tryOps_cons h
  have hpos : 1 ≤ v 1 := by
    dsimp only at h1
    omega
  cases h
  simp [Sembuf.adjust, hpos, Int.sub_eq_add_neg]

theorem tryOps_close (h : tryOps opClose v a = .done v' a') :
    v 2 = 0 ∧ (v' 1 = v 1 + 1 ∧ v' 2 = 1) ∧ a' 1 = a 1 - 1 ∧ a' 2 = a 2 - 1 := by
  obtain ⟨h2, -, h⟩ := tryOps_cons h
  obtain ⟨-, -, h⟩ := tryOps_cons h
  obtain ⟨-, -, h⟩ := tryOps_cons h
  have hfree : v 2 = 0 := h2 rfl
  cases h
  simp [Sembuf.adjust, hfree]

theorem tryOps_unlock (h : tryOps opUnlock v a = .done v' a') :
    (v' 1 = v 1 ∧ v' 2 = v 2 - 1) ∧ a' 1 = a 1 ∧ a' 2 = a 2 + 1 := by
  obtain ⟨-, -, h⟩ := tryOps_cons h
  cases h
  simp [Sembuf.adjust, Int.sub_eq_add_neg]

theorem tryOps_op (h : tryOps (opOp value) v a = .done v' a') :
    (v' 1 = v 1 ∧ v' 2 = v 2) ∧ a' 1 = a 1 ∧ a' 2 = a 2 := by
  obtain ⟨-, -, h⟩ := tryOps_cons h
  cases h
  simp [Sembuf.adjust]

/-- Operations by one on the counter and on the lock stay in the range. -/
theorem tryOps_ne_range {ops : List Sembuf} (hops : ∀ b ∈ ops, b.sem_num ≠ 0 ∧ |b.sem_op| ≤ 1)
    (hv : ∀ i, i ≠ 0 → v i + ops.length ≤ SEMVMX)
    (ha : ∀ i, i ≠ 0 → |a i| + ops.length ≤ SEMAEM) : tryOps ops v a ≠ .range := by
  induction ops generalizing v a with
  | nil => exact nofun
  | cons b bs ih =>
    obtain ⟨hnum, hop⟩ := hops b List.mem_cons_self
    simp only [List.length_cons, Nat.cast_add, Nat.cast_one] at hv ha
    have hvb := hv _ hnum
    have hab := ha _ hnum
    have hlen : (0 : ℤ) ≤ bs.length := Int.natCast_nonneg _
    rw [abs_le] at hop
    have hy := abs_le.mp (show |a b.sem_num| ≤ SEMAEM - bs.length - 1 by omega)
    rw [tryOps]
    split
    · exact nofun
    rw [if_neg (by omega)]
    apply ih fun c hc => hops c (List.mem_cons_of_mem _ hc)
    · intro i hi
      have hvi := hv i hi
      by_cases hib : i = b.sem_num
      · subst hib
        rw [Function.update_self]
        omega
      · rw [Function.update_of_ne hib]
        omega
    · intro i hi
      have hai := ha i hi
      rw [Sembuf.adjust]
      split
      · by_cases hib : i = b.sem_num
        · subst hib
          rw [Function.update_self]
          have hsub := abs_le.mpr (show -(SEMAEM - bs.length) ≤ a b.sem_num - b.sem_op ∧
            a b.sem_num - b.sem_op ≤ SEMAEM - bs.length by omega)
          omega
        · rw [Function.update_of_ne hib]
          omega
      · omega

end Operations

variable {Pid : Type} [Fintype Pid] [DecidableEq Pid] {s t : State Pid} {S S' : SemSet Pid}
  {p q : Pid} {pc' : Pc} {id n : ℕ} {ops : List Sembuf} {k : State Pid → State Pid}
  {v a : Fin 3 → ℤ} {initval : ℤ}

namespace SemSet

omit [Fintype Pid] in
theorem val_done : (S.done p v a).val = v := rfl

omit [Fintype Pid] in
theorem adj_done : (S.done p v a).adj p = a := Function.update_self ..

omit [Fintype Pid] in
theorem adj_done_ne (hq : q ≠ p) : (S.done p v a).adj q = S.adj q := Function.update_of_ne hq ..

section Setval

variable {i j : Fin 3} {x : ℤ}

omit [Fintype Pid] [DecidableEq Pid] in
theorem val_setval : (S.setval i x).val i = x := Function.update_self ..

omit [Fintype Pid] [DecidableEq Pid] in
theorem val_setval_ne (hj : j ≠ i) : (S.setval i x).val j = S.val j := Function.update_of_ne hj ..

omit [Fintype Pid] [DecidableEq Pid] in
theorem adj_setval : (S.setval i x).adj q i = 0 := Function.update_self ..

omit [Fintype Pid] [DecidableEq Pid] in
theorem adj_setval_ne (hj : j ≠ i) : (S.setval i x).adj q j = S.adj q j :=
  Function.update_of_ne hj ..

end Setval

end SemSet

namespace State

omit [Fintype Pid] in
theorem semop_next (h : s.semop p id ops k = .next t) : ∃ S v a, s.sets id = some S ∧
    tryOps ops S.val (S.adj p) = .done v a ∧ t = k (s.set id (S.done p v a)) := by
  rw [semop] at h
  split at h
  · cases h
  · rename_i S hS
    split at h
    · rename_i v a hv
      cases h
      exact ⟨S, v, a, hS, hv, rfl⟩
    · cases h
    · cases h

omit [Fintype Pid] [DecidableEq Pid] in
theorem semctl_next {f : SemSet Pid → Outcome (State Pid)} (h : s.semctl id f = .next t) :
    ∃ S, s.sets id = some S ∧ f S = .next t := by
  rw [semctl] at h
  split at h
  · cases h
  · rename_i S hS
    exact ⟨S, hS, h⟩

omit [Fintype Pid] [DecidableEq Pid] in
theorem set_self (h : s.sets id = some S) : s.set id S = s := by
  rw [set, ← h, Function.update_eq_self]

omit [Fintype Pid] in
theorem setOpens_self (s : State Pid) (p : Pid) (id : ℕ) : s.setOpens p id (s.opens p id) = s := by
  rw [setOpens, Function.update_eq_self, Function.update_eq_self]

end State

namespace Inv

theorem few_update (h : Inv s) (hlt : (users s.opens id + n : ℤ) < BIGCOUNT + s.opens p id) (i : ℕ) :
    (users (Function.update s.opens p (Function.update (s.opens p) id n)) i : ℤ) < BIGCOUNT := by
  have hsum := tally_update (fun n : ℕ → ℕ => n i) s.opens p (Function.update (s.opens p) id n)
  have hfew := h.few i
  by_cases hi : i = id
  · subst hi
    rw [Function.update_self] at hsum
    rw [users] at hlt ⊢
    omega
  · rw [Function.update_of_ne hi] at hsum
    rw [users] at hfew ⊢
    omega

theorem stay (h : Inv s) (hS : s.sets id = some S)
    (hlock : S'.val 2 + (s.pc p).lock id = S.val 2 + pc'.lock id)
    (hone : (s.pc p).held = some id ∨ pc'.held ≠ some id ∨ S.val 2 = 0)
    (hadj₁ : S'.adj p 1 = S.adj p 1) (hadj₂ : S'.adj p 2 = -(pc'.lock id : ℤ))
    (hothers : ∀ q, q ≠ p → S'.adj q 1 = S.adj q 1 ∧ S'.adj q 2 = S.adj q 2)
    (hp : ∀ i, (s.pc p).held = some i → i = id) (hp' : ∀ i, pc'.held = some i → i = id)
    (huses : pc'.uses = none)
    (hcount : Counted S' (users s.opens id) ∨ Unset S' (users s.opens id))
    (hknows : pc'.held = some id → pc'.Knows S' (users s.opens id))
    (hknows' : ∀ q, q ≠ p → (s.pc q).held = some id →
      (s.pc q).Knows S (users s.opens id) → (s.pc q).Knows S' (users s.opens id)) :
    Inv ((s.set id S').goto p pc') := by
  have hk := h.kept id S hS
  have hk' : Kept S' id (Function.update s.pc p pc')
      (Function.update s.opens p (Function.update (s.opens p) id (s.opens p id))) := by
    apply hk.update hlock hone (hadj₁.trans (hk.undoCount p)) hadj₂ hothers
    intro u hu
    obtain rfl : u = users s.opens id := Nat.add_right_cancel hu
    exact ⟨hcount, hknows, hknows'⟩
  have hmove := h.move hS hk' hp hp' huses (by
    rw [Function.update_eq_self, Function.update_eq_self]
    exact h.few)
  rwa [show (s.set id S').setOpens p id (s.opens p id) = s.set id S' from
    State.setOpens_self (s.set id S') p id] at hmove

theorem within (h : Inv s) (hp : (s.pc p).held = some id) (hp' : pc'.held = some id)
    (huses : pc'.uses = none)
    (hknows : ∀ S, s.sets id = some S → (s.pc p).Knows S (users s.opens id) →
      (Counted S (users s.opens id) ∨ Unset S (users s.opens id)) →
      pc'.Knows S (users s.opens id)) : Inv (s.goto p pc') := by
  obtain ⟨S, hS⟩ := Option.ne_none_iff_exists'.mp (h.held p id hp)
  have hk := h.kept id S hS
  have hstay : Inv ((s.set id S).goto p pc') := h.stay hS
    (by rw [Pc.lock_eq_one hp, Pc.lock_eq_one hp']) (Or.inl hp) rfl
    (by rw [hk.undoLock p, Pc.lock_eq_one hp, Pc.lock_eq_one hp']) (fun _ _ => ⟨rfl, rfl⟩)
    (fun i hi => Option.some.inj (hi.symm.trans hp)) (fun i hi => Option.some.inj (hi.symm.trans hp'))
    huses hk.count (fun _ => hknows S hS (hk.knows p hp) hk.count) (fun _ _ _ hq => hq)
  rwa [State.set_self hS] at hstay

theorem take (h : Inv s) (hS : s.sets id = some S) (hv : tryOps opLock S.val (S.adj p) = .done v a)
    (hp : (s.pc p).held = none) :
    Inv ((s.set id (S.done p v a)).goto p (.createVal initval id)) := by
  have hk := h.kept id S hS
  obtain ⟨hfree, ⟨hv1, hv2⟩, hadj⟩ := tryOps_lock hv
  have hnone : (s.pc p).lock id = 0 := Pc.lock_eq_zero (by rw [hp]; exact nofun)
  have hone : (Pc.createVal initval id).lock id = 1 := Pc.lock_eq_one rfl
  have hundo := hk.undoLock p
  apply h.stay hS
  · rw [hnone, hone, SemSet.val_done, hv2, hfree]
    rfl
  · exact Or.inr (Or.inr hfree)
  · rw [SemSet.adj_done]
    exact hadj.1
  · rw [SemSet.adj_done, hadj.2, hundo, hnone, hone]
    rfl
  · intro q hq
    rw [SemSet.adj_done_ne hq]
    exact ⟨rfl, rfl⟩
  · intro i hi
    rw [hp] at hi
    cases hi
  · intro i hi
    exact (Option.some.inj hi).symm
  · rfl
  · rw [Counted, Unset, SemSet.val_done, hv1]
    exact hk.count
  · exact fun _ => trivial
  · intro q _ hq
    exact absurd hq (hk.not_held hfree q)

omit [DecidableEq Pid] in
/-- Nobody else has the lock of a set that a process has. -/
theorem alone (h : Inv s) (hS : s.sets id = some S) (hp : (s.pc p).held = some id) (hq : q ≠ p)
    (hqh : (s.pc q).held = some id) : False :=
  (h.kept id S hS).held_unique hp hq hqh

theorem setval0 (h : Inv s) (hS : s.sets id = some S) (hp : s.pc p = .createSet0 initval id) :
    Inv ((s.set id (S.setval 0 initval)).goto p (.createSet1 id)) := by
  have hheld : (s.pc p).held = some id := by rw [hp]; rfl
  have hk := h.kept id S hS
  have hknows := hk.knows p hheld
  rw [hp] at hknows
  have hval₁ : (S.setval 0 initval).val 1 = S.val 1 := SemSet.val_setval_ne (by decide)
  have hval₂ : (S.setval 0 initval).val 2 = S.val 2 := SemSet.val_setval_ne (by decide)
  have hadj₁ : ∀ q, (S.setval 0 initval).adj q 1 = S.adj q 1 :=
    fun q => SemSet.adj_setval_ne (by decide)
  have hadj₂ : ∀ q, (S.setval 0 initval).adj q 2 = S.adj q 2 :=
    fun q => SemSet.adj_setval_ne (by decide)
  apply h.stay hS
  · rw [hval₂, Pc.lock_eq_one hheld, Pc.lock_eq_one rfl]
  · exact Or.inl hheld
  · exact hadj₁ p
  · rw [hadj₂ p, hk.undoLock p, Pc.lock_eq_one hheld, Pc.lock_eq_one rfl]
  · exact fun q _ => ⟨hadj₁ q, hadj₂ q⟩
  · exact fun i hi => Option.some.inj (hi.symm.trans hheld)
  · exact fun i hi => (Option.some.inj hi).symm
  · rfl
  · rw [Counted, Unset, hval₁]
    exact hk.count
  · intro _
    rw [Pc.Knows, Unset, hval₁]
    exact hknows
  · exact fun q hq hqh _ => (h.alone hS hheld hq hqh).elim

theorem setval1 (h : Inv s) (hS : s.sets id = some S) (hp : s.pc p = .createSet1 id) :
    Inv ((s.set id (S.setval 1 BIGCOUNT)).goto p (.createEnd id)) := by
  have hheld : (s.pc p).held = some id := by rw [hp]; rfl
  have hk := h.kept id S hS
  have hknows := hk.knows p hheld
  rw [hp] at hknows
  obtain ⟨-, hzero⟩ := hknows
  have hadj : ∀ q, (S.setval 1 BIGCOUNT).adj q 1 = S.adj q 1 := by
    intro q
    have hle := opens_le_users s.opens q id
    rw [hk.undoCount q]
    rw [hzero, Nat.le_zero] at hle
    rw [hle]
    exact SemSet.adj_setval
  have hadj₂ : ∀ q, (S.setval 1 BIGCOUNT).adj q 2 = S.adj q 2 :=
    fun q => SemSet.adj_setval_ne (by decide)
  have hval₂ : (S.setval 1 BIGCOUNT).val 2 = S.val 2 := SemSet.val_setval_ne (by decide)
  have hcounted : Counted (S.setval 1 BIGCOUNT) (users s.opens id) := by
    rw [Counted, hzero, SemSet.val_setval, Nat.cast_zero, sub_zero]
  apply h.stay hS
  · rw [hval₂, Pc.lock_eq_one hheld, Pc.lock_eq_one rfl]
  · exact Or.inl hheld
  · exact hadj p
  · rw [hadj₂, hk.undoLock p, Pc.lock_eq_one hheld, Pc.lock_eq_one rfl]
  · exact fun q _ => ⟨hadj q, hadj₂ q⟩
  · exact fun i hi => Option.some.inj (hi.symm.trans hheld)
  · exact fun i hi => (Option.some.inj hi).symm
  · rfl
  · exact Or.inl hcounted
  · exact fun _ => hcounted
  · exact fun q hq hqh _ => (h.alone hS hheld hq hqh).elim

theorem endcreate (h : Inv s) (hS : s.sets id = some S)
    (hv : tryOps opEndcreate S.val (S.adj p) = .done v a)
    (hp : s.pc p = .createEnd id)
    (hfew : (users s.opens id + 1 : ℤ) < BIGCOUNT) :
    Inv (((s.set id (S.done p v a)).setOpens p id (s.opens p id + 1)).goto p .idle) := by
  have hheld : (s.pc p).held = some id := by rw [hp]; rfl
  have hk := h.kept id S hS
  have hknows := hk.knows p hheld
  rw [hp, Pc.Knows, Counted] at hknows
  obtain ⟨-, ⟨hv1, hv2⟩, hadj⟩ := tryOps_endcreate hv
  have hlock := Pc.lock_eq_one hheld
  have hlock' : Pc.idle.lock id = 0 := rfl
  refine h.move hS (hk.update ?_ (Or.inl hheld) ?_ ?_ ?_ ?_)
    (fun i hi => Option.some.inj (hi.symm.trans hheld)) nofun rfl
    (h.few_update (by push_cast; omega))
  · rw [SemSet.val_done, hv2, hlock, hlock']
    push_cast
    omega
  · rw [SemSet.adj_done, hadj.1, hk.undoCount p]
    rfl
  · rw [SemSet.adj_done, hadj.2, hk.undoLock p, hlock, hlock']
    rfl
  · intro q hq
    rw [SemSet.adj_done_ne hq]
    exact ⟨rfl, rfl⟩
  · intro u hu
    refine ⟨Or.inl ?_, nofun, fun q hq hqh _ => (h.alone hS hheld hq hqh).elim⟩
    rw [Counted, SemSet.val_done, hv1, hknows]
    omega

theorem openOp (h : Inv s) (hS : s.sets id = some S) (hv : tryOps opOpen S.val (S.adj p) = .done v a)
    (hp : s.pc p = .openOp id) (hcalm : ∀ q, s.pc q ≠ .closeRm id)
    (hfew : (users s.opens id + 1 : ℤ) < BIGCOUNT) :
    Inv (((s.set id (S.done p v a)).setOpens p id (s.opens p id + 1)).goto p .idle) := by
  have hheld : (s.pc p).held = none := by rw [hp]; rfl
  have hk := h.kept id S hS
  obtain ⟨hpos, ⟨hv1, hv2⟩, hadj⟩ := tryOps_open hv
  have hlock : (s.pc p).lock id = 0 := Pc.lock_eq_zero (by rw [hheld]; exact nofun)
  have hlock' : Pc.idle.lock id = 0 := rfl
  have hcounted : S.val 1 = BIGCOUNT - users s.opens id := by
    refine hk.count.resolve_right fun hu => ?_
    have hzero := hu.1
    omega
  have hnew : ∀ u, u + s.opens p id = users s.opens id + (s.opens p id + 1) →
      Counted (S.done p v a) u := by
    intro u hu
    rw [Counted, SemSet.val_done, hv1, hcounted]
    omega
  refine h.move hS (hk.update ?_ (Or.inr (Or.inl nofun)) ?_ ?_ ?_ ?_)
    (fun i hi => by rw [hheld] at hi; cases hi) nofun rfl (h.few_update (by push_cast; omega))
  · rw [SemSet.val_done, hv2, hlock, hlock']
  · rw [SemSet.adj_done, hadj.1, hk.undoCount p]
    rfl
  · rw [SemSet.adj_done, hadj.2, hk.undoLock p, hlock, hlock']
  · intro q hq
    rw [SemSet.adj_done_ne hq]
    exact ⟨rfl, rfl⟩
  · intro u hu
    refine ⟨Or.inl (hnew u hu), nofun, fun q hq hqh hknows => ?_⟩
    cases hpc : s.pc q with
    | createSet0 =>
      rw [hpc] at hknows
      have hzero := hknows.1
      omega
    | createSet1 =>
      rw [hpc] at hknows
      have hzero := hknows.1
      omega
    | createEnd => exact hnew u hu
    | closeVal => exact hnew u hu
    | closeRm i =>
      rw [hpc] at hqh
      obtain rfl := Option.some.inj hqh
      exact absurd hpc (hcalm q)
    | _ => trivial

theorem closeOp (h : Inv s) (hS : s.sets id = some S) (hv : tryOps opClose S.val (S.adj p) = .done v a)
    (hp : s.pc p = .closeOp id) :
    Inv (((s.set id (S.done p v a)).setOpens p id (s.opens p id - 1)).goto p
      (.closeVal id)) := by
  have hheld : (s.pc p).held = none := by rw [hp]; rfl
  have hopen : 0 < s.opens p id := h.uses p id (by rw [hp]; rfl)
  have hk := h.kept id S hS
  have hcounted := hk.counted hopen
  obtain ⟨hfree, ⟨hv1, hv2⟩, hadj⟩ := tryOps_close hv
  have hlock : (s.pc p).lock id = 0 := Pc.lock_eq_zero (by rw [hheld]; exact nofun)
  have hlock' : (Pc.closeVal id).lock id = 1 := Pc.lock_eq_one rfl
  have hnew : ∀ u, u + s.opens p id = users s.opens id + (s.opens p id - 1) →
      Counted (S.done p v a) u := by
    intro u hu
    rw [Counted] at hcounted
    rw [Counted, SemSet.val_done, hv1, hcounted]
    omega
  refine h.move hS (hk.update ?_ (Or.inr (Or.inr hfree)) ?_ ?_ ?_ ?_)
    (fun i hi => by rw [hheld] at hi; cases hi) (fun i hi => (Option.some.inj hi).symm) rfl
    (h.few_update (by have hfew := h.few id; omega))
  · rw [SemSet.val_done, hv2, hlock, hlock', hfree]
    rfl
  · rw [SemSet.adj_done, hadj.1, hk.undoCount p]
    omega
  · rw [SemSet.adj_done, hadj.2, hk.undoLock p, hlock, hlock']
    rfl
  · intro q hq
    rw [SemSet.adj_done_ne hq]
    exact ⟨rfl, rfl⟩
  · intro u hu
    exact ⟨Or.inl (hnew u hu), fun _ => hnew u hu, fun q _ hqh => absurd hqh (hk.not_held hfree q)⟩

theorem unlock (h : Inv s) (hS : s.sets id = some S) (hv : tryOps opUnlock S.val (S.adj p) = .done v a)
    (hp : s.pc p = .closeUnlock id) : Inv ((s.set id (S.done p v a)).goto p .idle) := by
  have hheld : (s.pc p).held = some id := by rw [hp]; rfl
  have hk := h.kept id S hS
  obtain ⟨⟨hv1, hv2⟩, hadj⟩ := tryOps_unlock hv
  have hlock := Pc.lock_eq_one hheld
  have hlock' : Pc.idle.lock id = 0 := rfl
  apply h.stay hS
  · rw [SemSet.val_done, hv2, hlock, hlock']
    push_cast
    omega
  · exact Or.inl hheld
  · rw [SemSet.adj_done]
    exact hadj.1
  · rw [SemSet.adj_done, hadj.2, hk.undoLock p, hlock, hlock']
    rfl
  · intro q hq
    rw [SemSet.adj_done_ne hq]
    exact ⟨rfl, rfl⟩
  · exact fun i hi => Option.some.inj (hi.symm.trans hheld)
  · exact nofun
  · rfl
  · rw [Counted, Unset, SemSet.val_done, hv1]
    exact hk.count
  · exact nofun
  · exact fun q hq hqh _ => (h.alone hS hheld hq hqh).elim

theorem op (h : Inv s) {value : ℤ} (hS : s.sets id = some S)
    (hv : tryOps (Semaph.opOp value) S.val (S.adj p) = .done v a) (hp : s.pc p = .opOp id value) :
    Inv ((s.set id (S.done p v a)).goto p .idle) := by
  have hheld : (s.pc p).held = none := by rw [hp]; rfl
  have hk := h.kept id S hS
  obtain ⟨⟨hv1, hv2⟩, hadj⟩ := tryOps_op hv
  have hlock : (s.pc p).lock id = 0 := Pc.lock_eq_zero (by rw [hheld]; exact nofun)
  have hlock' : Pc.idle.lock id = 0 := rfl
  have hsame : ∀ u, Counted (S.done p v a) u ↔ Counted S u := by
    intro u
    rw [Counted, Counted, SemSet.val_done, hv1]
  have hsame' : ∀ u, Unset (S.done p v a) u ↔ Unset S u := by
    intro u
    rw [Unset, Unset, SemSet.val_done, hv1]
  apply h.stay hS
  · rw [SemSet.val_done, hv2, hlock, hlock']
  · exact Or.inr (Or.inl nofun)
  · rw [SemSet.adj_done]
    exact hadj.1
  · rw [SemSet.adj_done, hadj.2, hk.undoLock p, hlock, hlock']
  · intro q hq
    rw [SemSet.adj_done_ne hq]
    exact ⟨rfl, rfl⟩
  · intro i hi
    rw [hheld] at hi
    cases hi
  · exact nofun
  · rfl
  · rw [hsame, hsame']
    exact hk.count
  · exact nofun
  · intro q _ _ hknows
    exact hknows.mono (hsame _).mpr (hsame' _).mpr fun hzero => hzero

end Inv

end Somenote.Semaph
