import Somenote.Refs.Safety

/-! # Runs of threads with references

In every run no statement uses an object that has been freed, the counts are the numbers of
references, and the threads do not wait for each other for ever.
-/

namespace Somenote.Refs

variable {Pid : Type} [Fintype Pid] [DecidableEq Pid] {s t : State Pid} {p q : Pid}
  {chain : ℕ → List Addr} {fp : Addr}

omit [DecidableEq Pid] in
theorem inv_initial : Inv (.initial : State Pid) fun _ => [] where
  count a := by
    have hzero : tally (fun r : Addr → ℕ => r a) (State.initial : State Pid).refs = 0 :=
      tally_eq_zero fun _ => rfl
    rw [hzero]
    rfl
  counts a ha := absurd rfl ha
  hash p := ⟨nofun, nofun⟩
  lock p a := ⟨nofun, nofun⟩
  owned p a ha := by cases ha
  sole p a ha := by cases ha
  alone p q a ha := by cases ha
  table := ⟨fun _ => rfl, fun i a => ⟨nofun, fun h => absurd rfl h.1.1⟩⟩
  knows p := trivial

omit [Fintype Pid] in
theorem State.Overflows.fault (h : s.Overflows p) : s.step p = .fault := by
  obtain ⟨fp, find, o, hp, ho, hmax⟩ := h
  rw [State.step, hp]
  dsimp only
  rw [State.deref_eq ho, if_neg (by omega)]

theorem Step.inv (hs : Step s t) (h : Inv s chain) : ∃ chain, Inv t chain := by
  cases hs with
  | @go p _ hgo =>
    have hover : ¬ s.Overflows p := by
      intro hover
      rw [hover.fault] at hgo
      cases hgo
    have hgood := h.good_step hover
    rw [hgo] at hgood
    exact hgood
  | @alloc p id fp next hp hfp => exact ⟨chain, h.alloc hp hfp id next⟩
  | find id hp =>
    exact ⟨chain, h.same (h.hash_keep (by rw [hp]; rfl)) (by rw [hp]; rfl) nofun nofun
      (by rw [hp]; rfl) trivial⟩
  | @hold p fp hp hr =>
    refine ⟨chain, h.quiet (h.hash_keep (by rw [hp]; rfl)) (by rw [hp]; rfl) ?_ nofun
      (by rw [hp]; rfl) trivial⟩
    rintro b ⟨⟩
    exact hr
  | @rele p fp hp hr =>
    refine ⟨chain, h.quiet (h.hash_keep (by rw [hp]; rfl)) (by rw [hp]; rfl) ?_ nofun
      (by rw [hp]; rfl) trivial⟩
    rintro b ⟨⟩
    exact hr
  | give hp hq hr => exact ⟨chain, h.give hp hq hr⟩

theorem Reach.inv (h : Reach s) : ∃ chain, Inv s chain := by
  induction h with
  | initial => exact ⟨_, inv_initial⟩
  | step _ hs ih =>
    obtain ⟨chain, h⟩ := ih
    exact hs.inv h

/-- The statements of threads, in this order. -/
def State.run : List Pid → State Pid → Option (State Pid)
  | [], s => some s
  | p :: ps, s =>
    match s.step p with
    | .next t => run ps t
    | _ => none

omit [Fintype Pid] in
theorem Reach.run (h : Reach s) (ps : List Pid) (hr : s.run ps = some t) : Reach t := by
  induction ps generalizing s with
  | nil =>
    cases hr
    exact h
  | cons p ps ih =>
    rw [State.run] at hr
    split at hr
    · rename_i u hu
      exact ih (h.step (.go hu)) hr
    · cases hr

theorem reach_found : ∃ s : State Bool, Reach s ∧ s.pc false = .findUnlock 5 (some 8) ∧
    s.refs true 8 = 1 ∧ s.refs false 8 = 1 := by
  have hput : Reach (((State.initial.set 8 (some ⟨1, none, 5, none⟩)).setRefs true 8 1).goto true
      (.allocLockHash 8 (HASH 5))) := .step .initial (.alloc rfl rfl)
  have hall := hput.run (List.replicate 6 true) rfl
  have hfound := (hall.step (.find (p := false) 5 rfl)).run (List.replicate 6 false) rfl
  exact ⟨_, hfound, rfl, rfl, rfl⟩

/-- The statement reads or changes a pointer of the table. -/
def Pc.links : Pc → Prop
  | allocNext .. | allocHead .. | findHead _ | findTest .. => True
  | releHead _ | releFirst .. | releNext .. | releUnlink .. => True
  | _ => False

/-- The object whose count the statement reads or changes. -/
def Pc.counts : Pc → Option Addr
  | holdCount fp _ | releTest fp | releRecheck fp | decrCount fp _ => some fp
  | _ => none

theorem Pc.hash_of_links {pc : Pc} (h : pc.links) : pc.hash = true := by
  cases pc <;> first | rfl | cases h

theorem Pc.locked_of_counts {pc : Pc} {a : Addr} (h : pc.counts = some a) : pc.locked = some a := by
  cases pc <;> first | exact h | cases h

/-- No statement uses a freed object or a mutex that it does not have, and only one that counts a
reference behind `INT_MAX` has no meaning. Two statements never access the same data at once, and
an object is allocated exactly while there are references to it, whose number is its count. -/
theorem counts_kept (h : Reach s) :
    (∀ p, s.step p = .fault ↔ s.Overflows p) ∧
      (∀ p q, p ≠ q → ¬ ((s.pc p).links ∧ (s.pc q).links) ∧
        ∀ a, (s.pc p).counts = some a → (s.pc q).counts ≠ some a) ∧
      ∀ fp, (s.heap fp ≠ none ↔ ∃ p, 0 < s.refs p fp) ∧
        ∀ o, s.heap fp = some o → o.f_count = ∑ p, (s.refs p fp : ℤ) ∧ o.f_count ≤ INT_MAX := by
  obtain ⟨chain, h⟩ := h.inv
  refine ⟨fun p => ⟨fun hfault => ?_, State.Overflows.fault⟩, ?_,
    fun fp => ⟨⟨fun hlive => ?_, ?_⟩, ?_⟩⟩
  · by_contra hover
    have hgood := h.good_step hover
    rw [hfault] at hgood
    exact hgood
  · intro p q hpq
    constructor
    · rintro ⟨hp, hq⟩
      have hfree := h.hash_unique (Pc.hash_of_links hp) hpq.symm
      rw [Pc.hash_of_links hq] at hfree
      cases hfree
    · intro a hp hq
      exact h.lock_unique (Pc.locked_of_counts hp) hpq.symm (Pc.locked_of_counts hq)
  · have hpos := (h.counts fp hlive).1
    rw [h.count fp] at hpos
    exact exists_of_tally_pos (Int.natCast_pos.mp hpos)
  · rintro ⟨p, hp⟩
    exact h.live_of_refs hp
  · intro o ho
    have hmax := (h.counts fp (by rw [ho]; exact nofun)).2
    rw [State.count_of_heap ho] at hmax
    refine ⟨?_, hmax⟩
    rw [← State.count_of_heap ho, h.count fp, tally]
    push_cast
    rfl

theorem counts_kept_found : ∃ s : State Bool, s.refs true 8 = 1 ∧ s.refs false 8 = 1 ∧
    (∀ p, s.step p = .fault ↔ s.Overflows p) ∧
    (∀ p q, p ≠ q → ¬ ((s.pc p).links ∧ (s.pc q).links) ∧
      ∀ a, (s.pc p).counts = some a → (s.pc q).counts ≠ some a) ∧
    ∀ fp, (s.heap fp ≠ none ↔ ∃ p, 0 < s.refs p fp) ∧
      ∀ o, s.heap fp = some o → o.f_count = ∑ p, (s.refs p fp : ℤ) ∧ o.f_count ≤ INT_MAX := by
  obtain ⟨s, hs, -, htrue, hfalse⟩ := reach_found
  exact ⟨s, htrue, hfalse, counts_kept hs⟩

/-- What `foo_find` returns is an object with the id, to which the thread has a reference then. It
returns the null pointer only when every object with the id is just being put in or freed. -/
theorem find_right (h : Reach s) {id : ℤ} {r : Option Addr} (hp : s.pc p = .findUnlock id r) :
    match r with
    | some fp => 0 < s.refs p fp ∧ ∃ o, s.heap fp = some o ∧ o.f_id = id
    | none => ∀ fp o, s.heap fp = some o → o.f_id = id → ∃ q, (s.pc q).out = some fp := by
  obtain ⟨chain, h⟩ := h.inv
  have hknows := h.knows p
  rw [hp] at hknows
  cases r with
  | some fp =>
    have howned := h.owned p fp (by rw [hp]; rfl)
    obtain ⟨o, ho⟩ := Option.ne_none_iff_exists'.mp (h.live_of_refs howned)
    exact ⟨howned, o, ho, (State.id_of_heap ho).symm.trans hknows⟩
  | none =>
    intro fp o ho hid
    by_contra hout
    rw [not_exists] at hout
    rw [← State.id_of_heap ho] at hid
    have hmem : fp ∈ chain (HASH id) := by
      rw [h.table.mem]
      exact ⟨⟨by rw [ho]; exact nofun, congrArg HASH hid⟩, hout⟩
    exact hknows fp hmem hid

theorem find_right_found : ∃ s : State Bool, s.pc false = .findUnlock 5 (some 8) ∧
    0 < s.refs false 8 ∧ ∃ o, s.heap 8 = some o ∧ o.f_id = 5 := by
  obtain ⟨s, hs, hp, -, -⟩ := reach_found
  exact ⟨s, hp, find_right hs hp⟩

section Waits

omit [Fintype Pid] in
theorem hashlock_of_wait {pc' : Pc} (h : s.lockHash p pc' = .wait) : s.hashlock ≠ none := by
  intro hnone
  rw [State.lockHash, if_pos hnone] at h
  cases h

omit [Fintype Pid] in
theorem owner_of_wait {pc' : Pc} (h : s.lock p fp pc' = .wait) : s.owner fp ≠ none := by
  intro hnone
  rw [State.lock, State.deref] at h
  split at h
  · rename_i o ho
    rw [if_pos ((State.owner_of_heap ho).symm.trans hnone)] at h
    cases h
  · cases h

omit [Fintype Pid] [DecidableEq Pid] in
theorem deref_ne_wait {f : Foo Pid → Outcome (State Pid)} (hf : ∀ o, f o ≠ .wait) :
    s.deref fp f ≠ .wait := by
  rw [State.deref]
  split
  · exact hf _
  · simp

omit [Fintype Pid] in
theorem unlockHash_ne_wait {pc' : Pc} : s.unlockHash p pc' ≠ .wait := by
  rw [State.unlockHash]
  split <;> simp

omit [Fintype Pid] in
theorem unlock_ne_wait {pc' : Pc} : s.unlock p fp pc' ≠ .wait := by
  apply deref_ne_wait
  intro o
  split <;> simp

omit [Fintype Pid] in
/-- A thread waits in front of a mutex that another one has, and does not have the mutex of an
object then. -/
theorem wait_cases (h : s.step p = .wait) (hp : s.pc p ≠ .outside) :
    (s.pc p).locked = none ∧
      ((s.pc p).hash = false ∧ s.hashlock ≠ none ∨ ∃ a, s.owner a ≠ none) := by
  cases hpc : s.pc p with
  | outside => exact absurd hpc hp
  | allocLockHash | findLock | releLockHash =>
    rw [State.step, hpc] at h
    exact ⟨rfl, Or.inl ⟨rfl, hashlock_of_wait h⟩⟩
  | allocLock | holdLock | releLock | releLockAgain =>
    rw [State.step, hpc] at h
    exact ⟨rfl, Or.inr ⟨_, owner_of_wait h⟩⟩
  | allocUnlockHash | findUnlock | freeUnlockHash | decrUnlockHash =>
    rw [State.step, hpc] at h
    exact absurd h unlockHash_ne_wait
  | allocUnlock | releLetGo | freeUnlock | decrUnlock =>
    rw [State.step, hpc] at h
    exact absurd h unlock_ne_wait
  | holdUnlock fp find =>
    rw [State.step, hpc] at h
    cases find <;> exact absurd h unlock_ne_wait
  | allocHead | findHead =>
    rw [State.step, hpc] at h
    cases h
  | allocNext | releFirst | free | decrCount =>
    rw [State.step, hpc] at h
    exact absurd h (deref_ne_wait fun _ => by simp)
  | releUnlink =>
    rw [State.step, hpc] at h
    exact absurd h (deref_ne_wait fun _ => deref_ne_wait fun _ => by simp)
  | holdCount | releTest | releRecheck | freeDestroy =>
    rw [State.step, hpc] at h
    refine absurd h (deref_ne_wait fun o => ?_)
    split <;> simp
  | releHead =>
    rw [State.step, hpc] at h
    refine absurd h (deref_ne_wait fun o => ?_)
    dsimp only
    split <;> simp
  | findTest id cur =>
    rw [State.step, hpc] at h
    cases cur with
    | none => cases h
    | some cur =>
      refine absurd h (deref_ne_wait fun o => ?_)
      split <;> simp
  | releNext fp tfp =>
    rw [State.step, hpc] at h
    cases tfp with
    | none => cases h
    | some tfp =>
      refine absurd h (deref_ne_wait fun o => ?_)
      split <;> simp

end Waits

/-- Threads that are in calls do not all wait: one of them can go on, unless one is about to count a
reference behind `INT_MAX`. -/
theorem no_deadlock (h : Reach s) (hp : s.pc p ≠ .outside) :
    (∃ q t, s.pc q ≠ .outside ∧ s.step q = .next t) ∨ ∃ q, s.Overflows q := by
  obtain ⟨chain, h⟩ := h.inv
  by_contra hno
  simp only [not_or, not_exists, not_and] at hno
  have hwait : ∀ q, s.pc q ≠ .outside → s.step q = .wait := by
    intro q hq
    have hgood := h.good_step (hno.2 q)
    cases hs : s.step q with
    | next t => exact absurd hs (hno.1 q t hq)
    | wait => rfl
    | fault =>
      rw [hs] at hgood
      exact hgood.elim
  -- a thread that has the mutex of an object goes on
  have hlocks : ∀ a, s.owner a = none := by
    intro a
    by_contra ha
    obtain ⟨q, hq⟩ := Option.ne_none_iff_exists'.mp ha
    rw [h.lock] at hq
    have hbusy : s.pc q ≠ .outside := by
      intro hout
      rw [hout] at hq
      cases hq
    rw [(wait_cases (hwait q hbusy) hbusy).1] at hq
    cases hq
  -- so that the one that has `hashlock` does, too
  have hhash : s.hashlock = none := by
    by_contra ha
    obtain ⟨q, hq⟩ := Option.ne_none_iff_exists'.mp ha
    rw [h.hash] at hq
    have hbusy : s.pc q ≠ .outside := by
      intro hout
      rw [hout] at hq
      cases hq
    rcases (wait_cases (hwait q hbusy) hbusy).2 with ⟨hfalse, -⟩ | ⟨a, ha⟩
    · rw [hq] at hfalse
      cases hfalse
    · exact ha (hlocks a)
  rcases (wait_cases (hwait p hp) hp).2 with ⟨-, hne⟩ | ⟨a, ha⟩
  · exact hne hhash
  · exact ha (hlocks a)

theorem no_deadlock_found : ∃ s : State Bool, s.pc false = .findUnlock 5 (some 8) ∧
    ((∃ q t, s.pc q ≠ .outside ∧ s.step q = .next t) ∨ ∃ q, s.Overflows q) := by
  obtain ⟨s, hs, hp, -, -⟩ := reach_found
  exact ⟨s, hp, no_deadlock hs (by rw [hp]; exact nofun)⟩

end Somenote.Refs
