import Somenote.Program.Tally
import Somenote.Sbuf.Source

/-! # What the semaphores count

At most one thread is between the two calls on `mutex`. The value of `slots` and the threads that
have waited for a slot make up the free slots of the buffer, and that of `items` the items in it.
-/

namespace Somenote.Sbuf

variable {Pid : Type} [Fintype Pid] [DecidableEq Pid] {n : ℕ} {p q : Pid} {c : Call}
  {g : Phase} {k : State Pid}

namespace Phase

/-- The calls of a thread at its place in the two functions. -/
inductive Allows (n : ℕ) : Phase → Call → Prop
  | slots : Allows n outside (.wait .slots)
  | insert : Allows n hasSlot (.wait .mutex)
  | getRear : Allows n inserting .getRear
  | setRear (rear : ℤ) : Allows n (readRear rear) (.setRear (rear + 1))
  | store (rear v : ℤ) : Allows n (movedRear rear) (.store (rear.tmod n) v)
  | stored : Allows n stored (.post .mutex)
  | tell : Allows n telling (.post .items)
  | items : Allows n outside (.wait .items)
  | remove : Allows n hasItem (.wait .mutex)
  | getFront : Allows n removing .getFront
  | setFront (front : ℤ) : Allows n (readFront front) (.setFront (front + 1))
  | load (front : ℤ) : Allows n (movedFront front) (.load (front.tmod n))
  | loaded : Allows n loaded (.post .mutex)
  | free : Allows n freeing (.post .slots)

/-- The thread is between the two calls on `mutex`. -/
@[simp] def locked : Phase → ℕ
  | inserting | readRear _ | movedRear _ | stored => 1
  | removing | readFront _ | movedFront _ | loaded => 1
  | _ => 0

/-- The thread has a slot, which is free. -/
@[simp] def slot : Phase → ℕ
  | hasSlot | inserting | readRear _ | movedRear _ | loaded | freeing => 1
  | _ => 0

/-- The thread has an item, which is in the buffer. -/
@[simp] def item : Phase → ℕ
  | hasItem | removing | readFront _ | movedFront _ | stored | telling => 1
  | _ => 0

/-- The thread has moved `rear` and not stored. -/
@[simp] def ahead : Phase → ℕ
  | movedRear _ => 1
  | _ => 0

/-- The thread has moved `front` and not loaded. -/
@[simp] def behind : Phase → ℕ
  | movedFront _ => 1
  | _ => 0

/-- An index that the thread has read is still that of the buffer. -/
def Sees (front rear : ℤ) : Phase → Prop
  | readRear r | movedRear r => r = rear
  | readFront r | movedFront r => r = front
  | _ => True

theorem sees_of_locked {front rear : ℤ} (h : g.locked = 0) : g.Sees front rear := by
  cases g with
  | readRear | movedRear | readFront | movedFront => cases h
  | _ => trivial

end Phase

namespace State

/-- The numbers in a buffer with `len` items. -/
structure Counts (n : ℕ) (b : SbufT) (phase : Pid → Phase) (gets len : ℕ) : Prop where
  mutex : b.sem .mutex + tally Phase.locked phase = 1
  slots : b.sem .slots + tally Phase.slot phase + len = n
  items : b.sem .items + tally Phase.item phase = len
  rear : b.rear = (gets + len + tally Phase.ahead phase : ℕ)
  front : b.front = (gets + tally Phase.behind phase : ℕ)

/-- What holds in every state. -/
structure Inv (n : ℕ) (k : State Pid) : Prop where
  counts : Counts n k.sbuf k.phase k.gets k.queue.length
  sees : ∀ p, (k.phase p).Sees k.sbuf.front k.sbuf.rear
  cells : ∀ i x, k.queue[i]? = some x → k.sbuf.buf ((k.gets + 1 + i) % n : ℕ) = x
  bad : k.sbuf.bad = true → INT_MAX < k.sbuf.rear

section Counts

variable {b b' : SbufT} {phase : Pid → Phase} {gets gets' len len' : ℕ}

theorem Counts.update (h : Counts n b phase gets len) (p : Pid) (g : Phase)
    (hm : b'.sem .mutex + g.locked = b.sem .mutex + (phase p).locked)
    (hs : b'.sem .slots + g.slot + len' = b.sem .slots + (phase p).slot + len)
    (hi : b'.sem .items + g.item + len = b.sem .items + (phase p).item + len')
    (hr : b'.rear + (gets + len + (phase p).ahead : ℕ) = b.rear + (gets' + len' + g.ahead : ℕ))
    (hf : b'.front + (gets + (phase p).behind : ℕ) = b.front + (gets' + g.behind : ℕ)) :
    Counts n b' (Function.update phase p g) gets' len' where
  mutex := by
    have h₁ := tally_update Phase.locked phase p g
    have h₂ := h.mutex
    omega
  slots := by
    have h₁ := tally_update Phase.slot phase p g
    have h₂ := h.slots
    omega
  items := by
    have h₁ := tally_update Phase.item phase p g
    have h₂ := h.items
    omega
  rear := by
    have h₁ := tally_update Phase.ahead phase p g
    have h₂ := h.rear
    push_cast at hr h₂ ⊢
    omega
  front := by
    have h₁ := tally_update Phase.behind phase p g
    have h₂ := h.front
    push_cast at hf h₂ ⊢
    omega

theorem Counts.alone (h : Counts n b phase gets len) (hp : (phase p).locked = 1) (hq : q ≠ p) :
    (phase q).locked = 0 := by
  have h₁ := add_le_tally (w := Phase.locked) (f := phase) hq
  have h₂ := h.mutex
  omega

omit [DecidableEq Pid] in
/-- Only one thread at a time has moved `rear` and not stored. -/
theorem Counts.ahead_le (h : Counts n b phase gets len) : tally Phase.ahead phase ≤ 1 := by
  have h₁ : tally Phase.ahead phase ≤ tally Phase.locked phase := by
    apply Finset.sum_le_sum
    intro q _
    cases phase q <;> simp
  have h₂ := h.mutex
  omega

omit [DecidableEq Pid] in
theorem Counts.behind_le (h : Counts n b phase gets len) : tally Phase.behind phase ≤ 1 := by
  have h₁ : tally Phase.behind phase ≤ tally Phase.locked phase := by
    apply Finset.sum_le_sum
    intro q _
    cases phase q <;> simp
  have h₂ := h.mutex
  omega

omit [DecidableEq Pid] in
theorem Counts.mutex_lt (h : Counts n b phase gets len) (hp : (phase p).locked = 1) :
    b.sem .mutex < SEM_VALUE_MAX := by
  have h₁ := le_tally Phase.locked phase p
  have h₂ := h.mutex
  have h₃ : 1 < SEM_VALUE_MAX := by decide
  omega

omit [DecidableEq Pid] in
theorem Counts.slots_lt (h : Counts n b phase gets len) (hn : n ≤ SEM_VALUE_MAX)
    (hp : (phase p).slot = 1) : b.sem .slots < SEM_VALUE_MAX := by
  have h₁ := le_tally Phase.slot phase p
  have h₂ := h.slots
  omega

omit [DecidableEq Pid] in
theorem Counts.items_lt (h : Counts n b phase gets len) (hn : n ≤ SEM_VALUE_MAX)
    (hp : (phase p).item = 1) : b.sem .items < SEM_VALUE_MAX := by
  have h₁ := le_tally Phase.item phase p
  have h₂ := h.items
  have h₃ := h.slots
  omega

end Counts

section Exec

theorem Inv.still (h : k.Inv n) {b : SbufT} (hbuf : b.buf = k.sbuf.buf)
    (hfront : b.front = k.sbuf.front) (hrear : b.rear = k.sbuf.rear) (hbad : b.bad = k.sbuf.bad)
    (hg : g.Sees k.sbuf.front k.sbuf.rear)
    (hc : Counts n b (Function.update k.phase p g) k.gets k.queue.length) :
    Inv n { k with sbuf := b, phase := Function.update k.phase p g } where
  counts := hc
  sees q := by
    dsimp only
    rw [hfront, hrear]
    by_cases hq : q = p
    · subst hq
      rwa [Function.update_self]
    · rw [Function.update_of_ne hq]
      exact h.sees q
  cells i x hx := by
    dsimp only
    rw [hbuf]
    exact h.cells i x hx
  bad hb := by
    dsimp only at hb ⊢
    rw [hrear]
    exact h.bad (hbad ▸ hb)

theorem Inv.sees_update (h : k.Inv n) {front rear : ℤ} (hp : (k.phase p).locked = 1)
    (hg : g.Sees front rear) (q : Pid) : (Function.update k.phase p g q).Sees front rear := by
  by_cases hq : q = p
  · subst hq
    rwa [Function.update_self]
  · rw [Function.update_of_ne hq]
    exact Phase.sees_of_locked (h.counts.alone hp hq)

theorem Inv.wait (h : k.Inv n) {s : Sem} (ha : (k.phase p).Allows n (.wait s))
    (hr : 0 < k.sbuf.sem s) : (k.exec n p (.wait s)).2.Inv n := by
  have hsub : ∀ s', Function.update k.sbuf.sem s (k.sbuf.sem s - 1) s' + (if s' = s then 1 else 0) =
      k.sbuf.sem s' := by
    intro s'
    by_cases hs : s' = s
    · subst hs
      rw [Function.update_self, if_pos rfl]
      omega
    · rw [Function.update_of_ne hs, if_neg hs]
      rfl
  have hm := hsub .mutex
  have hs := hsub .slots
  have hi := hsub .items
  refine h.still rfl rfl rfl rfl ?_ (h.counts.update p _ ?_ ?_ ?_ ?_ ?_) <;>
    generalize k.phase p = g at ha <;> cases ha <;>
    simp [Phase.next, Phase.Sees] at hm hs hi ⊢ <;> omega

theorem Inv.post (h : k.Inv n) (hn : n ≤ SEM_VALUE_MAX) {s : Sem}
    (ha : (k.phase p).Allows n (.post s)) : (k.exec n p (.post s)).2.Inv n := by
  have hlt : k.sbuf.sem s < SEM_VALUE_MAX := by
    generalize hg : k.phase p = g at ha
    cases ha with
    | stored => exact h.counts.mutex_lt (by rw [hg]; rfl)
    | loaded => exact h.counts.mutex_lt (by rw [hg]; rfl)
    | tell => exact h.counts.items_lt hn (by rw [hg]; rfl)
    | free => exact h.counts.slots_lt hn (by rw [hg]; rfl)
  have hadd : ∀ s', Function.update k.sbuf.sem s (k.sbuf.sem s + 1) s' =
      k.sbuf.sem s' + (if s' = s then 1 else 0) := by
    intro s'
    by_cases hs : s' = s
    · subst hs
      rw [Function.update_self, if_pos rfl]
    · rw [Function.update_of_ne hs, if_neg hs]
      rfl
  have hm := hadd .mutex
  have hs := hadd .slots
  have hi := hadd .items
  simp only [State.exec, SbufT.exec]
  rw [if_pos hlt]
  refine h.still rfl rfl rfl rfl ?_ (h.counts.update p _ ?_ ?_ ?_ ?_ ?_) <;>
    generalize k.phase p = g at ha <;> cases ha <;>
    simp [Phase.next, Phase.Sees] at hm hs hi ⊢

theorem Inv.getRear (h : k.Inv n) (ha : (k.phase p).Allows n .getRear) :
    (k.exec n p .getRear).2.Inv n := by
  refine h.still rfl rfl rfl rfl rfl (h.counts.update p _ ?_ ?_ ?_ ?_ ?_) <;>
    generalize k.phase p = g at ha <;> cases ha <;> rfl

theorem Inv.getFront (h : k.Inv n) (ha : (k.phase p).Allows n .getFront) :
    (k.exec n p .getFront).2.Inv n := by
  refine h.still rfl rfl rfl rfl rfl (h.counts.update p _ ?_ ?_ ?_ ?_ ?_) <;>
    generalize k.phase p = g at ha <;> cases ha <;> rfl

theorem Inv.setRear (h : k.Inv n) {rear : ℤ} (hp : k.phase p = .readRear rear) :
    (k.exec n p (.setRear (rear + 1))).2.Inv n := by
  have hlock : (k.phase p).locked = 1 := by rw [hp]; rfl
  have hrear : rear = k.sbuf.rear := by
    have hsees := h.sees p
    rwa [hp] at hsees
  subst hrear
  exact {
    counts := by
      apply h.counts.update <;> rw [hp] <;> simp [Phase.next, State.exec, SbufT.exec]
      omega
    sees := h.sees_update hlock rfl
    cells := h.cells
    bad := by
      intro hb
      simp only [State.exec, SbufT.exec, Bool.or_eq_true, decide_eq_true_eq] at hb ⊢
      rcases hb with hb | hb
      · have hold := h.bad hb
        omega
      · exact hb }

theorem Inv.setFront (h : k.Inv n) {front : ℤ} (hp : k.phase p = .readFront front) :
    (k.exec n p (.setFront (front + 1))).2.Inv n := by
  have hlock : (k.phase p).locked = 1 := by rw [hp]; rfl
  have hfront : front = k.sbuf.front := by
    have hsees := h.sees p
    rwa [hp] at hsees
  subst hfront
  exact {
    counts := by
      apply h.counts.update <;> rw [hp] <;> simp [Phase.next, State.exec, SbufT.exec]
      omega
    sees := h.sees_update hlock rfl
    cells := h.cells
    bad := by
      intro hb
      simp only [State.exec, SbufT.exec, Bool.or_eq_true, decide_eq_true_eq] at hb ⊢
      rcases hb with hb | hb
      · exact h.bad hb
      · -- the thread has an item, and nobody else has moved `front`
        have hitem := le_tally Phase.item k.phase p
        rw [hp] at hitem
        have hitems := h.counts.items
        have hbehind : tally Phase.behind k.phase = 0 := by
          apply tally_eq_zero
          intro q
          by_cases hq : q = p
          · rw [hq, hp]
            rfl
          · have hnone := h.counts.alone hlock hq
            cases hphase : k.phase q with
            | movedFront => rw [hphase] at hnone; cases hnone
            | _ => rfl
        have hf := h.counts.front
        have hr := h.counts.rear
        rw [hbehind] at hf
        change 1 ≤ _ at hitem
        omega }

theorem index_eq {m : ℤ} {j : ℕ} (h : m = (j : ℕ)) (n : ℕ) : m.tmod n = ((j % n : ℕ) : ℤ) := by
  rw [h]
  exact (Int.ofNat_tmod j n).symm

theorem index_lt {n : ℕ} (j : ℕ) (hn : 0 < n) : 0 ≤ ((j % n : ℕ) : ℤ) ∧ ((j % n : ℕ) : ℤ) < n := by
  have hlt := Nat.mod_lt j hn
  omega

theorem mod_ne {a i j n : ℕ} (hij : i < j) (hj : j - i < n) : (a + i) % n ≠ (a + j) % n := by
  intro h
  have hdvd := Nat.sub_mod_eq_zero_of_mod_eq h.symm
  rw [Nat.add_sub_add_left, Nat.mod_eq_of_lt hj] at hdvd
  omega

omit [DecidableEq Pid] in
theorem Inv.rear_eq (h : k.Inv n) {rear : ℤ} (hp : k.phase p = .movedRear rear) :
    rear = ((k.gets + 1 + k.queue.length : ℕ) : ℤ) ∧ k.queue.length < n := by
  have hrear : rear = k.sbuf.rear := by
    have hsees := h.sees p
    rwa [hp] at hsees
  have hr := h.counts.rear
  have hle := h.counts.ahead_le
  have hge := le_tally Phase.ahead k.phase p
  have hslot := le_tally Phase.slot k.phase p
  have hslots := h.counts.slots
  rw [hp] at hge hslot
  change 1 ≤ _ at hge hslot
  constructor <;> omega

omit [DecidableEq Pid] in
theorem Inv.front_eq (h : k.Inv n) {front : ℤ} (hp : k.phase p = .movedFront front) :
    front = ((k.gets + 1 : ℕ) : ℤ) ∧ k.queue ≠ [] := by
  have hfront : front = k.sbuf.front := by
    have hsees := h.sees p
    rwa [hp] at hsees
  have hf := h.counts.front
  have hle := h.counts.behind_le
  have hge := le_tally Phase.behind k.phase p
  have hitem := le_tally Phase.item k.phase p
  have hitems := h.counts.items
  rw [hp] at hge hitem
  change 1 ≤ _ at hge hitem
  constructor
  · omega
  · rintro hnil
    rw [hnil, List.length_nil] at hitems
    omega

theorem Inv.store (h : k.Inv n) {rear v : ℤ} (hp : k.phase p = .movedRear rear) :
    (k.exec n p (.store (rear.tmod n) v)).2.Inv n := by
  have hlock : (k.phase p).locked = 1 := by rw [hp]; rfl
  obtain ⟨hrear, hlen⟩ := h.rear_eq hp
  rw [index_eq hrear n]
  exact {
    counts := by
      apply h.counts.update <;> rw [hp] <;> simp [Phase.next, State.exec, SbufT.exec]
      all_goals omega
    sees := h.sees_update hlock trivial
    cells := by
      intro i x hx
      simp only [State.exec, SbufT.exec] at hx ⊢
      rcases Nat.lt_trichotomy i k.queue.length with hi | rfl | hi
      · rw [List.getElem?_append_left hi] at hx
        rw [Function.update_of_ne]
        · exact h.cells i x hx
        · have hne := mod_ne (a := k.gets + 1) hi (by omega : k.queue.length - i < n)
          exact_mod_cast hne
      · rw [List.getElem?_append_right le_rfl, Nat.sub_self] at hx
        rw [Function.update_self]
        exact Option.some.inj hx
      · rw [List.getElem?_eq_none (by simp; omega)] at hx
        cases hx
    bad := by
      intro hb
      have hin := index_lt (k.gets + 1 + k.queue.length) (by omega : 0 < n)
      simp only [State.exec, SbufT.exec, hin, and_self, decide_true, Bool.not_true,
        Bool.or_false] at hb ⊢
      exact h.bad hb }

theorem Inv.load (h : k.Inv n) {front : ℤ} (hp : k.phase p = .movedFront front) :
    (k.exec n p (.load (front.tmod n))).2.Inv n := by
  have hlock : (k.phase p).locked = 1 := by rw [hp]; rfl
  obtain ⟨hfront, hne⟩ := h.front_eq hp
  have hlen : 0 < k.queue.length := List.length_pos_of_ne_nil hne
  have hslots := h.counts.slots
  rw [index_eq hfront n]
  exact {
    counts := by
      apply h.counts.update <;> rw [hp] <;> simp [Phase.next, State.exec, SbufT.exec]
      all_goals omega
    sees := h.sees_update hlock trivial
    cells := by
      intro i x hx
      simp only [State.exec, SbufT.exec, List.getElem?_tail] at hx ⊢
      have hcell := h.cells (i + 1) x hx
      rwa [show k.gets + 1 + (i + 1) = k.gets + 1 + 1 + i by omega] at hcell
    bad := by
      intro hb
      have hin := index_lt (k.gets + 1) (by omega : 0 < n)
      simp only [State.exec, SbufT.exec, hin, and_self, decide_true, Bool.not_true,
        Bool.or_false] at hb ⊢
      exact h.bad hb }

/-- A thread loads the first item of the queue. -/
theorem Inv.load_eq (h : k.Inv n) {front : ℤ} (hp : k.phase p = .movedFront front) :
    k.queue = (k.exec n p (.load (front.tmod n))).1 :: k.queue.tail := by
  obtain ⟨hfront, hne⟩ := h.front_eq hp
  obtain ⟨x, rest, hq⟩ := List.exists_cons_of_ne_nil hne
  have hcell := h.cells 0 x (by rw [hq]; rfl)
  simp only [State.exec, SbufT.exec]
  rw [index_eq hfront n, hq, List.tail_cons]
  rw [Nat.add_zero] at hcell
  rw [hcell]

/-- Every call of a thread keeps the invariant. -/
theorem Inv.exec (h : k.Inv n) (hn : n ≤ SEM_VALUE_MAX) (ha : (k.phase p).Allows n c)
    (hr : (kernel n).Ready p c () k) : (k.exec n p c).2.Inv n := by
  cases c with
  | wait s => exact h.wait ha hr
  | post s => exact h.post hn ha
  | getRear => exact h.getRear ha
  | getFront => exact h.getFront ha
  | setRear v =>
    generalize hg : k.phase p = g at ha
    cases ha
    exact h.setRear hg
  | setFront v =>
    generalize hg : k.phase p = g at ha
    cases ha
    exact h.setFront hg
  | store i v =>
    generalize hg : k.phase p = g at ha
    cases ha
    exact h.store hg
  | load i =>
    generalize hg : k.phase p = g at ha
    cases ha
    exact h.load hg

end Exec

omit [DecidableEq Pid] in
theorem inv_initial (n : ℕ) (buf : ℤ → ℤ) :
    Inv n (⟨sbufInit n buf, fun _ => .outside, 0, []⟩ : State Pid) := by
  have hzero : ∀ w : Phase → ℕ, w .outside = 0 → tally w (fun _ : Pid => .outside) = 0 :=
    fun w hw => tally_eq_zero fun _ => hw
  exact {
    counts := {
      mutex := by rw [hzero _ rfl]; rfl
      slots := by rw [hzero _ rfl]; rfl
      items := by rw [hzero _ rfl]; rfl
      rear := by rw [hzero _ rfl]; rfl
      front := by rw [hzero _ rfl]; rfl }
    sees := fun _ => trivial
    cells := fun i x hx => by cases hx
    bad := fun hb => by cases hb }

end State

end Somenote.Sbuf
