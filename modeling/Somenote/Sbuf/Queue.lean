import Somenote.Program.Atomic
import Somenote.Sbuf.Invariant

/-! # The buffer as a queue

Each call of `sbuf_insert` and `sbuf_remove` takes effect at one moment on one queue with at most
`n` items.
-/

namespace Somenote.Sbuf

/-- What the two functions do to a queue with room for `n` items. -/
def Op.Effect (n : ℕ) : Op → List ℤ → Option ℤ → List ℤ → Prop
  | insert item, q, none, q' => q.length < n ∧ q' = q ++ [item]
  | remove, q, some item, q' => q = item :: q'
  | _, _, _, _ => False

variable {Pid : Type} [Fintype Pid] [DecidableEq Pid] {n : ℕ} {p q : Pid} {c : Call}
  {g : Phase} {k w : State Pid} {op : Op} {τ : Option (Option ℤ)}

/-- The threads share the buffer and act on its queue. -/
def buffers (n : ℕ) : Sharing Pid Op (Option ℤ) (List ℤ) (State Pid) (State Pid) where
  shared k := k
  obj := State.queue
  Ok := State.Inv n
  Rely p k k' := k'.phase p = k.phase p
  spec := Op.Effect n
  refl _ _ := rfl
  trans h h' := h'.trans h

/-- The program of `p` is safe from this state of the buffer on. -/
abbrev Guarded (n : ℕ) (p : Pid) (op : Op) {α : Type} (m : SbufProg α)
    (Q : α → Unit → State Pid → Option (Option ℤ) → Prop) (w : State Pid)
    (τ : Option (Option ℤ)) : Prop :=
  m.Safe (buffers n) (kernel n) p op Q () w τ

section Rules

variable {α : Type} {f : Reply c → SbufProg α}
  {Q : α → Unit → State Pid → Option (Option ℤ) → Prop}

omit [Fintype Pid] in
theorem phase_exec (k : State Pid) (p : Pid) (c : Call) :
    (k.exec n p c).2.phase p = (k.phase p).next c (k.exec n p c).1 :=
  Function.update_self ..

omit [Fintype Pid] in
theorem phase_exec_ne (k : State Pid) (c : Call) (hq : q ≠ p) :
    (k.exec n p c).2.phase q = k.phase q :=
  Function.update_of_ne hq ..

/-- A call that the place of the thread allows. It may take effect with the call. -/
theorem guarded_call (hn : n ≤ SEM_VALUE_MAX) (hw : w.phase p = g) (ha : g.Allows n c)
    (h : ∀ k : State Pid, k.Inv n → k.phase p = g → ∃ τ',
      ((k.exec n p c).2.queue = k.queue ∧ τ' = τ ∨
        τ = none ∧ ∃ res, τ' = some res ∧ op.Effect n k.queue res (k.exec n p c).2.queue) ∧
      Guarded n p op (f (k.exec n p c).1) Q (k.exec n p c).2 τ') :
    Guarded n p op (.call c f) Q w τ := by
  intro k hok hrely hready
  have hk : k.phase p = g := hrely.trans hw
  obtain ⟨τ', heff, hf⟩ := h k hok hk
  refine ⟨(k.exec n p c).2, τ', ⟨?_, ?_, heff⟩, rfl, hf⟩
  · exact State.Inv.exec hok hn (hk ▸ ha) hready
  · intro q hq
    exact phase_exec_ne k c hq

theorem guarded_quiet (hn : n ≤ SEM_VALUE_MAX) (hw : w.phase p = g) (ha : g.Allows n c)
    (hq : ∀ k : State Pid, (k.exec n p c).2.queue = k.queue)
    (h : ∀ r (k : State Pid), k.phase p = g.next c r → Guarded n p op (f r) Q k τ) :
    Guarded n p op (.call c f) Q w τ := by
  apply guarded_call hn hw ha
  intro k _ hk
  refine ⟨τ, Or.inl ⟨hq k, rfl⟩, h _ _ ?_⟩
  rw [phase_exec, hk]

end Rules

/-- A thread between two calls. -/
def Rests (p : Pid) (_ : Unit) (k : State Pid) : Prop := k.phase p = .outside

theorem guarded_insert (hn : n ≤ SEM_VALUE_MAX) {item : ℤ} (hw : w.phase p = .outside) :
    Guarded n p (.insert item) ((Op.insert item).body n)
      (Returns (threads n) Rests p (.insert item) ()) w none := by
  apply guarded_quiet hn hw .slots fun _ => rfl
  intro _ w₁ h₁
  apply guarded_quiet hn h₁ .insert fun _ => rfl
  intro _ w₂ h₂
  apply guarded_quiet hn h₂ .getRear fun _ => rfl
  intro rear w₃ h₃
  apply guarded_quiet hn h₃ (.setRear rear) fun _ => rfl
  intro _ w₄ h₄
  apply guarded_call hn h₄ (.store _ item)
  intro k hk hphase
  refine ⟨some none, Or.inr ⟨rfl, none, rfl, (hk.rear_eq hphase).2, rfl⟩, ?_⟩
  have h₅ : (k.exec n p (.store ((rear + 1).tmod n) item)).2.phase p = .stored :=
    phase_exec k p _
  apply guarded_quiet hn h₅ .stored fun _ => rfl
  intro _ w₆ h₆
  apply guarded_quiet hn h₆ .tell fun _ => rfl
  intro _ w₇ h₇
  exact ⟨rfl, h₇⟩

theorem guarded_remove (hn : n ≤ SEM_VALUE_MAX) (hw : w.phase p = .outside) :
    Guarded n p .remove (Op.remove.body n) (Returns (threads n) Rests p .remove ()) w none := by
  apply guarded_quiet hn hw .items fun _ => rfl
  intro _ w₁ h₁
  apply guarded_quiet hn h₁ .remove fun _ => rfl
  intro _ w₂ h₂
  apply guarded_quiet hn h₂ .getFront fun _ => rfl
  intro front w₃ h₃
  apply guarded_quiet hn h₃ (.setFront front) fun _ => rfl
  intro _ w₄ h₄
  apply guarded_call hn h₄ (.load _)
  intro k hk hphase
  refine ⟨some (some _), Or.inr ⟨rfl, _, rfl, hk.load_eq hphase⟩, ?_⟩
  have h₅ : (k.exec n p (.load ((front + 1).tmod n))).2.phase p = .loaded := phase_exec k p _
  apply guarded_quiet hn h₅ .loaded fun _ => rfl
  intro _ w₆ h₆
  apply guarded_quiet hn h₆ .free fun _ => rfl
  intro _ w₇ h₇
  exact ⟨rfl, h₇⟩

/-- The places of a thread, as its calls lead through them. -/
def places (n : ℕ) : Protocol Call Reply Phase where
  Ok := Phase.Allows n
  Next g c r g' := g' = g.next c r

theorem obeys_body (n : ℕ) (op : Op) : (op.body n).Obeys (places n) .outside fun _ g => g = .outside := by
  cases op with
  | insert item =>
    refine ⟨.slots, ?_⟩
    rintro _ _ rfl
    refine ⟨.insert, ?_⟩
    rintro _ _ rfl
    refine ⟨.getRear, ?_⟩
    rintro rear _ rfl
    refine ⟨.setRear rear, ?_⟩
    rintro _ _ rfl
    refine ⟨.store _ item, ?_⟩
    rintro _ _ rfl
    refine ⟨.stored, ?_⟩
    rintro _ _ rfl
    refine ⟨.tell, ?_⟩
    rintro _ _ rfl
    rfl
  | remove =>
    refine ⟨.items, ?_⟩
    rintro _ _ rfl
    refine ⟨.remove, ?_⟩
    rintro _ _ rfl
    refine ⟨.getFront, ?_⟩
    rintro front _ rfl
    refine ⟨.setFront front, ?_⟩
    rintro _ _ rfl
    refine ⟨.load _, ?_⟩
    rintro _ _ rfl
    refine ⟨.loaded, ?_⟩
    rintro _ _ rfl
    refine ⟨.free, ?_⟩
    rintro _ _ rfl
    rfl

section Runs

variable {buf : ℤ → ℤ} {tr : List (Event Pid Op (Option ℤ) Call)} {t : Machine Pid}

omit [Fintype Pid] in
theorem not_die (hrun : Run (kernel n) (threads n) (Machine.initial n buf) tr t) (p : Pid) :
    .die p ∉ tr := by
  induction hrun with
  | nil => exact List.not_mem_nil
  | snoc hr hs ih =>
    simp only [List.mem_append, List.mem_singleton, not_or]
    refine ⟨ih, ?_⟩
    rintro rfl
    cases hs with
    | @die _ _ _ _ e => cases e

omit [Fintype Pid] in
theorem run_follow (hrun : Run (kernel n) (threads n) (Machine.initial n buf) tr t) :
    t.Follow (places n) (fun p g k => k.phase p = g) .outside := by
  apply hrun.follow
  · intro op _
    exact obeys_body n op
  · intro p c l k g hg _ _
    subst hg
    exact ⟨_, rfl, phase_exec k p c⟩
  · intro p q c l k g hq hg
    exact (phase_exec_ne k c hq).trans hg
  · intro p k
    exact Function.update_self ..
  · intro p q k g hq hg
    exact (Function.update_of_ne hq ..).trans hg
  · intro p
    rfl

/-- Every call takes effect at one moment, and the invariant holds. -/
theorem run_linearized (hn : n ≤ SEM_VALUE_MAX)
    (hrun : Run (kernel n) (threads n) (Machine.initial n buf) tr t) :
    ∃ y, Linearized (Op.Effect n) [] tr t.shared.queue y ∧ t.shared.Inv n ∧
      ∀ p, t.tasks p ≠ .gone ∧ ((∃ h, t.tasks p = .idle h) → t.shared.phase p = .outside) := by
  have hinitial : Follows (buffers n) (kernel n) (threads n) Rests (Machine.initial n buf : Machine Pid)
      (Machine.initial n buf).shared fun _ => none :=
    ⟨rfl, State.inv_initial n buf, fun p => ⟨rfl, rfl⟩⟩
  have hstart : ∀ (p : Pid) op h w, True → (threads n).Can op h → w.Inv n → Rests p h w →
      ∃ w' τ, (buffers n).Moves p op w none w' τ ∧ w' = w ∧
        Guarded n p op (op.body n) (Returns (threads n) Rests p op h) w' τ := by
    intro p op h w _ _ hok hp
    refine ⟨w, none, .stay hok, rfl, ?_⟩
    cases op with
    | insert item => exact guarded_insert hn hp
    | remove => exact guarded_remove hn hp
  obtain ⟨w, y, hl, hf⟩ := hrun.linearized (fun _ _ _ _ hr hp => Eq.trans hr hp) hstart hinitial
    (fun _ _ _ => trivial) (not_die hrun)
  obtain rfl : w = t.shared := hf.shared
  refine ⟨y, hl, hf.ok, fun p => ⟨?_, ?_⟩⟩
  · intro hp
    have hm := hf.tasks p
    rw [hp] at hm
    exact hm
  · rintro ⟨h, hp⟩
    have hm := hf.tasks p
    rw [hp] at hm
    exact hm.2

/-- What the fields of the buffer say while no thread is in a call: it holds the queue, from the
cell behind `front` to the cell of `rear`. -/
def SbufT.Holds (n : ℕ) (b : SbufT) (q : List ℤ) : Prop :=
  b.sem .mutex = 1 ∧ b.sem .slots + q.length = n ∧ b.sem .items = q.length ∧
    b.rear = b.front + q.length ∧
    ∀ (i : ℕ) x, q[i]? = some x → b.buf ((b.front + 1 + i).tmod n) = x

omit [DecidableEq Pid] in
theorem State.Inv.holds (h : k.Inv n) (hout : ∀ p, k.phase p = .outside) :
    k.sbuf.Holds n k.queue := by
  have hzero : ∀ w : Phase → ℕ, w .outside = 0 → tally w k.phase = 0 := by
    intro w hw
    exact tally_eq_zero fun p => by rw [hout p, hw]
  have hm := h.counts.mutex
  have hs := h.counts.slots
  have hi := h.counts.items
  have hr := h.counts.rear
  have hf := h.counts.front
  rw [hzero _ rfl] at hm hs hi hr hf
  refine ⟨hm, hs, hi, by omega, ?_⟩
  intro i x hx
  have hj : k.sbuf.front + 1 + i = ((k.gets + 1 + i : ℕ) : ℤ) := by omega
  rw [State.index_eq hj n]
  exact h.cells i x hx

/-- In every run the calls take effect one after the other on one queue that never has more than
`n` items, and between the calls the buffer holds it. Nothing undefined happens before `rear`
is beyond an `int`. -/
theorem queue_linearized (hn : n ≤ SEM_VALUE_MAX)
    (hrun : Run (kernel n) (threads n) (Machine.initial n buf) tr t) :
    ∃ q y, Linearized (Op.Effect n) [] tr q y ∧ q.length ≤ n ∧
      ((∀ p, ∃ h, t.tasks p = .idle h) → t.shared.sbuf.Holds n q) ∧
      (t.shared.sbuf.rear ≤ INT_MAX → t.shared.sbuf.bad = false) := by
  obtain ⟨y, hl, hinv, hidle⟩ := run_linearized hn hrun
  refine ⟨_, y, hl, ?_, fun h => hinv.holds fun p => (hidle p).2 (h p), ?_⟩
  · have hslots := hinv.counts.slots
    omega
  · intro hrear
    by_contra hbad
    exact absurd (hinv.bad (Bool.eq_true_of_not_eq_false hbad)) (not_lt.mpr hrear)

/-- A thread inserts an item, and another one waits for it and removes it. -/
def passed : List (Event Bool Op (Option ℤ) Call) :=
  [.inv false .remove, .inv true (.insert 7), .sys true (.wait .slots), .sys true (.wait .mutex),
    .sys true .getRear, .sys true (.setRear 1), .sys true (.store 0 7), .sys true (.post .mutex),
    .sys true (.post .items), .sys false (.wait .items), .ret true (.insert 7) none,
    .sys false (.wait .mutex), .sys false .getFront, .sys false (.setFront 1), .sys false (.load 0),
    .sys false (.post .mutex), .sys false (.post .slots), .ret false .remove (some 7)]

/-- The threads in the order in which they pass the item. -/
def passing : List (Choice Bool Op) :=
  .start false .remove :: .start true (.insert 7) ::
    [true, true, true, true, true, true, true, false, true,
      false, false, false, false, false, false, false].map .go

theorem run_passed : ∃ t, Run (kernel 1) (threads 1) (Machine.initial 1 fun _ => 0) passed t :=
  ⟨_, Conf.run_of_play passing rfl⟩

theorem queue_linearized_passed : ∃ t q y,
    Run (kernel 1) (threads 1) (Machine.initial 1 fun _ => 0) passed t ∧
    Linearized (Op.Effect 1) [] passed q y ∧ q.length ≤ 1 ∧
    ((∀ p, ∃ h, t.tasks p = .idle h) → t.shared.sbuf.Holds 1 q) ∧
    (t.shared.sbuf.rear ≤ INT_MAX → t.shared.sbuf.bad = false) := by
  obtain ⟨t, hrun⟩ := run_passed
  obtain ⟨q, y, h⟩ := queue_linearized (by decide) hrun
  exact ⟨t, q, y, hrun, h⟩

def Call.Accesses : Call → Prop
  | .wait _ | .post _ => False
  | _ => True

omit [Fintype Pid] in
theorem allows_of_at (hrun : Run (kernel n) (threads n) (Machine.initial n buf) tr t)
    (h : t.At p c) : (t.shared.phase p).Allows n c := by
  obtain ⟨op, d, l, k, ht⟩ := h
  have hp := run_follow hrun p
  rw [ht] at hp
  obtain ⟨g, rfl, hok, -⟩ := hp
  exact hok

theorem Phase.Allows.locked (h : g.Allows n c) (hc : c.Accesses) : g.locked = 1 := by
  cases h <;> first | rfl | cases hc

/-- Two threads are never both in front of an access to the fields of the buffer. -/
theorem no_race (hn : n ≤ SEM_VALUE_MAX)
    (hrun : Run (kernel n) (threads n) (Machine.initial n buf) tr t) (hpq : p ≠ q) {c' : Call}
    (hp : t.At p c) (hq : t.At q c') : ¬ (c.Accesses ∧ c'.Accesses) := by
  rintro ⟨hc, hc'⟩
  obtain ⟨-, -, hinv, -⟩ := run_linearized hn hrun
  have hlock := (allows_of_at hrun hp).locked hc
  have hnone := hinv.counts.alone ((allows_of_at hrun hq).locked hc') hpq
  omega

theorem no_race_passed : ∃ tr, ∃ t : Machine Bool,
    Run (kernel 1) (threads 1) (Machine.initial 1 fun _ => 0) tr t ∧
    t.At true .getRear ∧ t.At false (.wait .items) ∧
    ¬ (Call.getRear.Accesses ∧ (Call.wait .items).Accesses) := by
  have hplay : ∃ tr, ∃ t : Machine Bool, Conf.play (kernel 1) (threads 1) (passing.take 4)
      (Machine.initial 1 fun _ => 0) = some (tr, t) ∧ t.At true .getRear ∧
        t.At false (.wait .items) :=
    ⟨_, _, rfl, ⟨_, _, _, _, rfl⟩, ⟨_, _, _, _, rfl⟩⟩
  obtain ⟨tr, t, ht, hp, hq⟩ := hplay
  have hrun := Conf.run_of_play _ ht
  exact ⟨tr, t, hrun, hp, hq, no_race (by decide) hrun (by decide) hp hq⟩

omit [Fintype Pid] in
/-- A thread that waits is in neither of the two critical sections. -/
theorem Phase.Allows.wait {s : Sem} (h : g.Allows n (.wait s)) :
    g.locked = 0 ∧ (s ≠ .mutex → g = .outside) := by
  cases h with
  | slots => exact ⟨rfl, fun _ => rfl⟩
  | items => exact ⟨rfl, fun _ => rfl⟩
  | insert => exact ⟨rfl, fun hs => absurd rfl hs⟩
  | remove => exact ⟨rfl, fun hs => absurd rfl hs⟩

end Runs

end Somenote.Sbuf
