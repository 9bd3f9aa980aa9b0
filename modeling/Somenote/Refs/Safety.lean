import Somenote.Refs.Moves

/-! # No object is used that is freed

Every statement of a thread has a meaning, in every order of the threads, and keeps the counts.
-/

namespace Somenote.Refs

/-- The outcome is not a fault, and the next state has the property. -/
def Outcome.Holds {σ : Type} (P : σ → Prop) : Outcome σ → Prop
  | next s => P s
  | wait => True
  | fault => False

variable {Pid : Type} [Fintype Pid] [DecidableEq Pid] {s t : State Pid} {p q : Pid} {pc' : Pc}
  {a fp : Addr} {o : Foo Pid} {chain : ℕ → List Addr} {id : ℤ} {idx : ℕ} {find : Option ℤ}

/-- The statement has a meaning, and the invariant holds behind it. -/
abbrev Good (out : Outcome (State Pid)) : Prop := out.Holds fun t => ∃ chain, Inv t chain

omit [Fintype Pid] [DecidableEq Pid] in
theorem State.deref_eq (ho : s.heap a = some o) (f : Foo Pid → Outcome (State Pid)) :
    s.deref a f = f o := by
  rw [State.deref, ho]

namespace Inv

/-- A statement after which the thread has what it had. -/
theorem same (h : Inv s chain) {hashlock : Option Pid}
    (hhash : ∀ q, hashlock = some q ↔ (Function.update s.pc p pc' q).hash = true)
    (hlock : pc'.locked = (s.pc p).locked)
    (howned : ∀ a, pc'.owned = some a → (s.pc p).owned = some a)
    (hsole : ∀ a, pc'.sole = some a → (s.pc p).sole = some a) (hout : pc'.out = (s.pc p).out)
    (hknows : pc'.Knows s chain) : Inv ({ s with hashlock }.goto p pc') chain :=
  h.quiet hhash hlock (fun a ha => h.owned p a (howned a ha))
    (fun a ha => ⟨h.sole p a (hsole a ha), Or.inl (hsole a ha)⟩) hout hknows

theorem good_goto (h : Inv s chain) (hhash : pc'.hash = (s.pc p).hash)
    (hlock : pc'.locked = (s.pc p).locked)
    (howned : ∀ a, pc'.owned = some a → (s.pc p).owned = some a)
    (hsole : ∀ a, pc'.sole = some a → (s.pc p).sole = some a) (hout : pc'.out = (s.pc p).out)
    (hknows : pc'.Knows s chain) : Good (.next (s.goto p pc')) :=
  ⟨chain, h.same (h.hash_keep hhash) hlock howned hsole hout hknows⟩

theorem good_lockHash (h : Inv s chain) (hpc' : pc'.hash = true)
    (hlock : pc'.locked = (s.pc p).locked)
    (howned : ∀ a, pc'.owned = some a → (s.pc p).owned = some a)
    (hsole : ∀ a, pc'.sole = some a → (s.pc p).sole = some a) (hout : pc'.out = (s.pc p).out)
    (hknows : pc'.Knows s chain) : Good (s.lockHash p pc') := by
  rw [State.lockHash]
  split
  · rename_i hnone
    have hset := h.hash_set p pc' (by simp [hnone])
    rw [if_pos hpc'] at hset
    exact ⟨chain, h.same hset hlock howned hsole hout hknows⟩
  · trivial

theorem good_unlockHash (h : Inv s chain) (hold : (s.pc p).hash = true) (hpc' : pc'.hash = false)
    (hlock : pc'.locked = (s.pc p).locked)
    (howned : ∀ a, pc'.owned = some a → (s.pc p).owned = some a)
    (hsole : ∀ a, pc'.sole = some a → (s.pc p).sole = some a) (hout : pc'.out = (s.pc p).out)
    (hknows : pc'.Knows s chain) : Good (s.unlockHash p pc') := by
  have hsome := (h.hash p).mpr hold
  rw [State.unlockHash, if_pos hsome]
  have hset := h.hash_set p pc' (by simp +contextual [hsome, eq_comm])
  rw [hpc', if_neg Bool.false_ne_true] at hset
  exact ⟨chain, h.same hset hlock howned hsole hout hknows⟩

theorem good_lock (h : Inv s chain) (hlive : s.heap a ≠ none) (hold : (s.pc p).locked = none)
    (hpc' : pc'.locked = some a) (hhash : pc'.hash = (s.pc p).hash)
    (howned : ∀ b, pc'.owned = some b → 0 < s.refs p b)
    (hsole : ∀ b, pc'.sole = some b → (s.pc p).sole = some b) (hout : pc'.out = (s.pc p).out)
    (hfree : s.owner a = none → ∀ q, q ≠ p → (s.pc q).sole ≠ some a)
    (hknows : pc'.Knows s chain) : Good (s.lock p a pc') := by
  obtain ⟨o, ho⟩ := Option.ne_none_iff_exists'.mp hlive
  rw [State.lock, State.deref_eq ho]
  split
  · rename_i hnone
    have howner : s.owner a = none := (State.owner_of_heap ho).trans hnone
    have hset := h.lock_set p pc' a (by simp [howner]) (by simp [hold])
      (by simp +contextual [hpc', eq_comm])
    rw [hpc'] at hset
    refine ⟨chain, h.relock ho hhash hset ?_ howned hsole hout hknows⟩
    intro b hb
    obtain rfl : a = b := Option.some.inj (hpc'.symm.trans hb)
    exact Or.inr (hfree howner)
  · trivial

theorem good_unlock (h : Inv s chain) (hold : (s.pc p).locked = some a) (hpc' : pc'.locked = none)
    (hhash : pc'.hash = (s.pc p).hash)
    (howned : ∀ b, pc'.owned = some b → 0 < s.refs p b)
    (hsole : ∀ b, pc'.sole = some b → (s.pc p).sole = some b) (hout : pc'.out = (s.pc p).out)
    (hknows : pc'.Knows s chain) : Good (s.unlock p a pc') := by
  obtain ⟨o, ho⟩ := Option.ne_none_iff_exists'.mp (h.live_of_locked hold)
  have howner : o.f_lock = some p := (State.owner_of_heap ho).symm.trans ((h.lock p a).mpr hold)
  rw [State.unlock, State.deref_eq ho, if_pos howner]
  have hset := h.lock_set p pc' a
    (by simp +contextual [(h.lock p a).mpr hold, eq_comm]) (by simp +contextual [hold, eq_comm])
    (by simp [hpc'])
  rw [hpc'] at hset
  refine ⟨chain, h.relock ho hhash hset ?_ howned hsole hout hknows⟩
  intro b hb
  rw [hpc'] at hb
  cases hb

theorem free_of_owned (h : Inv s chain) (hp : (s.pc p).owned = some a) (q : Pid) (hq : q ≠ p) :
    (s.pc q).sole ≠ some a :=
  h.not_sole (h.owned p a hp) hq

omit [DecidableEq Pid] in
theorem free_of_mem (h : Inv s chain) {i : ℕ} (ha : a ∈ chain i) (hnone : s.owner a = none)
    (q : Pid) : (s.pc q).sole ≠ some a := by
  intro hq
  have hlocked : (s.pc q).locked = some a := by
    apply Pc.locked_of_sole hq
    by_contra hout
    obtain ⟨b, hb⟩ := Option.ne_none_iff_exists'.mp hout
    have hab : a = b := Option.some.inj (hq.symm.trans (Pc.sole_of_out hb))
    exact h.not_out_of_mem ha q (hab ▸ hb)
  rw [← h.lock q a, hnone] at hlocked
  cases hlocked

end Inv

theorem Ref.ofPtr_eq {x : Option Addr} {l : List Addr}
    (h : Ref.ofPtr x = (l.map Ref.foo).headD .null) : x = l.head? := by
  cases x <;> cases l <;> simp_all [Ref.ofPtr]

namespace Table

omit [Fintype Pid] [DecidableEq Pid] in
theorem nodup (h : Table s chain) (i : ℕ) : (chain i).Nodup :=
  (h.linked i).nodup.of_map _

omit [Fintype Pid] [DecidableEq Pid] in
theorem fh_eq (h : Table s chain) (i : ℕ) : s.fh i = (chain i).head? :=
  Ref.ofPtr_eq (h.linked i).next_headD

omit [Fintype Pid] [DecidableEq Pid] in
theorem f_next_eq (h : Table s chain) {i : ℕ} {l l' : List Addr} (hchain : chain i = l ++ a :: l')
    (ho : s.heap a = some o) : o.f_next = l'.head? := by
  have hlinked := h.linked i
  rw [hchain, List.map_append, List.map_cons] at hlinked
  have hnext := hlinked.suffix.next_headD
  rw [State.next_of_heap ho] at hnext
  exact Ref.ofPtr_eq hnext

omit [Fintype Pid] in
theorem insert (h : Table s chain) (hid : t.id = s.id)
    (hlive : ∀ a, t.heap a ≠ none ↔ s.heap a ≠ none)
    (hbucket : ∀ i, t.next (.bucket i) = if i = idx then .foo fp else s.next (.bucket i))
    (hfoo : ∀ a, t.next (.foo a) = s.next (.foo a)) (hfp : s.next (.foo fp) = s.next (.bucket idx))
    (hheap : s.heap fp ≠ none) (hidx : HASH (s.id fp) = idx) (hpc : t.pc = Function.update s.pc p pc')
    (hold : (s.pc p).out = some fp) (hnew : pc'.out = none)
    (hothers : ∀ q, q ≠ p → (s.pc q).out ≠ some fp) :
    Table t (Function.update chain idx (fp :: chain idx)) where
  linked i := by
    by_cases hi : i = idx
    · subst hi
      rw [Function.update_self, List.map_cons]
      refine (h.linked i).push nofun ?_ ((hfoo fp).trans hfp) ?_
      · rw [hbucket, if_pos rfl]
      · intro r hr
        obtain ⟨b, -, rfl⟩ := List.mem_map.mp hr
        exact hfoo b
    · rw [Function.update_of_ne hi]
      apply (h.linked i).congr
      intro r hr
      rcases List.mem_cons.mp hr with rfl | hr
      · rw [hbucket, if_neg hi]
      · obtain ⟨b, -, rfl⟩ := List.mem_map.mp hr
        exact hfoo b
  mem i a := by
    rw [hlive a, hid, hpc]
    by_cases ha : a = fp
    · subst ha
      have hnot : a ∉ chain i := fun hm => ((h.mem i a).mp hm).2 p hold
      have hout : ∀ q, (Function.update s.pc p pc' q).out ≠ some a := by
        intro q
        by_cases hq : q = p
        · subst hq
          rw [Function.update_self, hnew]
          exact nofun
        · rw [Function.update_of_ne hq]
          exact hothers q hq
      by_cases hi : i = idx
      · subst hi
        rw [Function.update_self]
        exact ⟨fun _ => ⟨⟨hheap, hidx⟩, hout⟩, fun _ => List.mem_cons_self⟩
      · rw [Function.update_of_ne hi]
        exact ⟨fun hm => absurd hm hnot, fun hm => absurd (hm.1.2.symm.trans hidx) hi⟩
    · have hmem : a ∈ Function.update chain idx (fp :: chain idx) i ↔ a ∈ chain i := by
        by_cases hi : i = idx
        · subst hi
          rw [Function.update_self, List.mem_cons, or_iff_right ha]
        · rw [Function.update_of_ne hi]
      rw [hmem, h.mem i a]
      refine and_congr_right' (forall_congr' fun q => ?_)
      by_cases hq : q = p
      · subst hq
        rw [Function.update_self, hold, hnew]
        simp [Ne.symm ha]
      · rw [Function.update_of_ne hq]

omit [Fintype Pid] in
theorem remove (h : Table s chain) {l l' : List Addr} (hchain : chain idx = l ++ fp :: l')
    (hid : t.id = s.id) (hlive : ∀ a, t.heap a ≠ none ↔ s.heap a ≠ none)
    (hlast : t.next ((l.map Ref.foo).getLastD (.bucket idx)) = s.next (.foo fp))
    (hnext : ∀ r, r ≠ (l.map Ref.foo).getLastD (.bucket idx) → t.next r = s.next r)
    (hpc : t.pc = Function.update s.pc p pc') (hold : (s.pc p).out = none)
    (hnew : pc'.out = some fp) : Table t (Function.update chain idx (l ++ l')) where
  linked i := by
    by_cases hi : i = idx
    · subst hi
      rw [Function.update_self, List.map_append]
      have hlinked := h.linked i
      rw [hchain, List.map_append, List.map_cons] at hlinked
      refine hlinked.unlink ?_ hlast hnext
      simp
    · rw [Function.update_of_ne hi]
      apply (h.linked i).congr
      intro r hr
      apply hnext
      rintro rfl
      have hmem := Linked.getLastD_mem (l.map Ref.foo) (.bucket idx)
      rcases List.mem_cons.mp hr with hr | hr
      · rw [hr, List.mem_cons] at hmem
        rcases hmem with hmem | hmem
        · exact hi (Ref.bucket.inj hmem)
        · obtain ⟨b, -, hb⟩ := List.mem_map.mp hmem
          cases hb
      · obtain ⟨b, hb, hlb⟩ := List.mem_map.mp hr
        rw [← hlb, List.mem_cons] at hmem
        rcases hmem with hmem | hmem
        · cases hmem
        · obtain ⟨b', hb', he⟩ := List.mem_map.mp hmem
          obtain rfl : b' = b := Ref.foo.inj he
          have hin : b' ∈ chain idx := by
            rw [hchain]
            exact List.mem_append_left _ hb'
          exact hi (((h.mem i b').mp hb).1.2.symm.trans ((h.mem idx b').mp hin).1.2)
  mem i a := by
    have hfp : fp ∈ chain idx := by
      rw [hchain]
      simp
    have hnd := h.nodup idx
    rw [hchain, List.nodup_middle, List.nodup_cons] at hnd
    rw [hlive a, hid, hpc]
    by_cases ha : a = fp
    · subst ha
      refine ⟨fun hm => ?_, fun hm => absurd (by rw [Function.update_self, hnew]) (hm.2 p)⟩
      by_cases hi : i = idx
      · subst hi
        rw [Function.update_self] at hm
        exact absurd hm hnd.1
      · rw [Function.update_of_ne hi] at hm
        exact absurd (((h.mem i a).mp hm).1.2.symm.trans ((h.mem idx a).mp hfp).1.2) hi
    · have hmem : a ∈ Function.update chain idx (l ++ l') i ↔ a ∈ chain i := by
        by_cases hi : i = idx
        · subst hi
          rw [Function.update_self, hchain, List.mem_append, List.mem_append, List.mem_cons,
            or_iff_right ha]
        · rw [Function.update_of_ne hi]
      rw [hmem, h.mem i a]
      refine and_congr_right' (forall_congr' fun q => ?_)
      by_cases hq : q = p
      · subst hq
        rw [Function.update_self, hold, hnew]
        simp [Ne.symm ha]
      · rw [Function.update_of_ne hq]

end Table

namespace Inv

section Statements

theorem good_allocNext (h : Inv s chain) (hp : s.pc p = .allocNext fp idx) : Good (s.step p) := by
  have howned : (s.pc p).owned = some fp := by rw [hp]; rfl
  have hout : (s.pc p).out = some fp := by rw [hp]; rfl
  obtain ⟨o, ho⟩ := Option.ne_none_iff_exists'.mp (h.live_of_owned howned)
  have hknows := h.knows p
  rw [hp] at hknows
  rw [State.step, hp]
  dsimp only
  rw [State.deref_eq ho]
  have hid : (s.set fp (some { o with f_next := s.fh idx })).id = s.id := by
    rw [State.id_set]
    exact Function.update_eq_self_iff.mpr (State.id_of_heap ho).symm
  have hnext : ∀ b, b ≠ fp →
      (s.set fp (some { o with f_next := s.fh idx })).next (.foo b) = s.next (.foo b) := by
    intro b hb
    rw [State.next_set_foo, if_neg hb]
  refine ⟨chain, h.relink (by rw [hp]; rfl) rfl rfl rfl ?_ hid ?_ (State.live_set ho _) rfl
    (by rw [hp]; rfl) (by rw [hp]; rfl) (by rw [hp]; exact fun _ => id) ?_ ?_⟩
  · rw [State.count_set]
    exact Function.update_eq_self_iff.mpr (State.count_of_heap ho).symm
  · rw [State.owner_set]
    exact Function.update_eq_self_iff.mpr (State.owner_of_heap ho).symm
  · constructor
    · intro i
      apply (h.table.linked i).congr
      intro r hr
      rcases List.mem_cons.mp hr with rfl | hr
      · rfl
      · obtain ⟨b, hb, rfl⟩ := List.mem_map.mp hr
        apply hnext
        rintro rfl
        exact h.not_out_of_mem hb p hout
    · intro i b
      rw [h.table.mem i b]
      refine and_congr (and_congr (State.live_set ho _ b).symm ?_) (forall_congr' fun q => ?_)
      · exact Eq.congr_left (congrArg HASH (congrFun hid b).symm)
      · have hout' : (Pc.allocHead fp idx).out = (s.pc p).out := by rw [hp]; rfl
        rw [← out_update hout' q]
        rfl
  · refine ⟨(congrArg HASH (congrFun hid fp)).trans hknows, ?_⟩
    rw [State.next_set_foo, if_pos rfl]
    rfl

theorem good_allocHead (h : Inv s chain) (hp : s.pc p = .allocHead fp idx) : Good (s.step p) := by
  have howned : (s.pc p).owned = some fp := by rw [hp]; rfl
  have hout : (s.pc p).out = some fp := by rw [hp]; rfl
  have hknows := h.knows p
  rw [hp] at hknows
  rw [State.step, hp]
  dsimp only
  refine ⟨Function.update chain idx (fp :: chain idx),
    h.relink (t := { s with fh := Function.update s.fh idx (some fp) }) (by rw [hp]; rfl)
    rfl rfl rfl rfl rfl rfl (fun _ => Iff.rfl) rfl (by rw [hp]; rfl) (by rw [hp]; rfl)
    (fun b hb => by cases hb) ?_ trivial⟩
  refine h.table.insert
    (t := { s with fh := Function.update s.fh idx (some fp) }.goto p (.allocLock fp)) rfl
    (fun _ => Iff.rfl) ?_ (fun _ => rfl) hknows.2 (h.live_of_owned howned) hknows.1 rfl hout rfl ?_
  · intro i
    by_cases hi : i = idx
    · subst hi
      simp [State.next, State.goto, Ref.ofPtr]
    · simp [State.next, State.goto, hi]
  · intro q hq hqo
    exact h.free_of_owned howned q hq (Pc.sole_of_out hqo)

theorem good_releFirst (h : Inv s chain) (hp : s.pc p = .releFirst fp idx) : Good (s.step p) := by
  have howned : (s.pc p).owned = some fp := by rw [hp]; rfl
  obtain ⟨o, ho⟩ := Option.ne_none_iff_exists'.mp (h.live_of_owned howned)
  have hknows := h.knows p
  rw [hp] at hknows
  obtain ⟨-, l, hl⟩ := hknows
  rw [State.step, hp]
  dsimp only
  rw [State.deref_eq ho]
  refine ⟨Function.update chain idx ([] ++ l),
    h.relink (t := { s with fh := Function.update s.fh idx o.f_next }) (by rw [hp]; rfl)
    rfl rfl rfl rfl rfl rfl (fun _ => Iff.rfl) rfl (by rw [hp]; rfl) (by rw [hp]; rfl)
    (by rw [hp]; exact fun _ => id) ?_ trivial⟩
  refine h.table.remove
    (t := { s with fh := Function.update s.fh idx o.f_next }.goto p (.freeUnlockHash fp)) (l := [])
    hl rfl (fun _ => Iff.rfl) ?_ ?_ rfl (by rw [hp]; rfl) rfl
  · rw [State.next_of_heap ho]
    simp [State.next, State.goto]
  · intro r hr
    cases r with
    | bucket i =>
      have hi : i ≠ idx := fun hi => hr (congrArg Ref.bucket hi)
      simp [State.next, State.goto, hi]
    | _ => rfl

theorem good_releUnlink {tfp : Addr} (h : Inv s chain) (hp : s.pc p = .releUnlink fp tfp) :
    Good (s.step p) := by
  have howned : (s.pc p).owned = some fp := by rw [hp]; rfl
  obtain ⟨o, ho⟩ := Option.ne_none_iff_exists'.mp (h.live_of_owned howned)
  have hknows := h.knows p
  rw [hp] at hknows
  obtain ⟨l, l', hl⟩ := hknows
  have hmem : tfp ∈ chain (HASH (s.id fp)) := by
    rw [hl]
    simp
  obtain ⟨o', ho'⟩ := Option.ne_none_iff_exists'.mp (h.live_of_mem hmem)
  rw [State.step, hp]
  dsimp only
  rw [State.deref_eq ho, State.deref_eq ho']
  have hid : (s.set tfp (some { o' with f_next := o.f_next })).id = s.id := by
    rw [State.id_set]
    exact Function.update_eq_self_iff.mpr (State.id_of_heap ho').symm
  refine ⟨Function.update chain (HASH (s.id fp)) (l ++ [tfp] ++ l'),
    h.relink (by rw [hp]; rfl) rfl rfl rfl ?_ hid ?_ (State.live_set ho' _) rfl
    (by rw [hp]; rfl) (by rw [hp]; rfl) (by rw [hp]; exact fun _ => id) ?_ trivial⟩
  · rw [State.count_set]
    exact Function.update_eq_self_iff.mpr (State.count_of_heap ho').symm
  · rw [State.owner_set]
    exact Function.update_eq_self_iff.mpr (State.owner_of_heap ho').symm
  · have hlast : ((l ++ [tfp]).map Ref.foo).getLastD (.bucket (HASH (s.id fp))) = .foo tfp := by
      simp
    have hchain : chain (HASH (s.id fp)) = (l ++ [tfp]) ++ fp :: l' := by rw [hl]; simp
    refine h.table.remove
      (t := (s.set tfp (some { o' with f_next := o.f_next })).goto p (.freeUnlockHash fp)) hchain
      hid (State.live_set ho' _) ?_ ?_ rfl (by rw [hp]; rfl) rfl
    · rw [hlast, State.next_of_heap ho]
      exact (State.next_set_foo s tfp _ tfp).trans (if_pos rfl)
    · intro r hr
      rw [hlast] at hr
      cases r with
      | foo b =>
        have hb : b ≠ tfp := fun hb => hr (congrArg Ref.foo hb)
        exact (State.next_set_foo s tfp _ b).trans (if_neg hb)
      | _ => rfl

theorem good_holdCount (h : Inv s chain) (hp : s.pc p = .holdCount fp find)
    (hover : ¬ s.Overflows p) : Good (s.step p) := by
  have hlocked : (s.pc p).locked = some fp := by rw [hp]; rfl
  have hlive := h.live_of_locked hlocked
  obtain ⟨o, ho⟩ := Option.ne_none_iff_exists'.mp hlive
  have hcount := h.counts fp hlive
  rw [State.count_of_heap ho] at hcount
  have hlt : o.f_count < INT_MAX :=
    lt_of_le_of_ne hcount.2 fun hmax => hover ⟨fp, find, o, hp, ho, hmax⟩
  have hnext : IsCount (o.f_count + 1) := ⟨by have := hcount.1; omega, by omega⟩
  have hknows := h.knows p
  rw [hp] at hknows
  rw [State.step, hp]
  dsimp only
  rw [State.deref_eq ho, if_pos hlt]
  refine ⟨chain, h.recount ho hlocked (by push_cast; omega) hnext ?_ (by rw [hp]; rfl) ?_ rfl
    (by rw [hp]; rfl) ?_ ?_ (fun _ _ => nofun)⟩
  · rw [hp]
    cases find <;> rfl
  · rintro b hb
    exact ⟨(Option.some.inj hb).symm, Nat.succ_pos _⟩
  · intro q hq hsole
    exact hq (h.alone q p fp hsole hlocked).symm
  · cases find with
    | none => trivial
    | some id => exact hknows.2

theorem good_decrCount (h : Inv s chain) {hash : Bool} (hp : s.pc p = .decrCount fp hash) :
    Good (s.step p) := by
  have hlocked : (s.pc p).locked = some fp := by rw [hp]; rfl
  have hrefs := h.owned p fp (by rw [hp]; rfl)
  have hlive := h.live_of_locked hlocked
  obtain ⟨o, ho⟩ := Option.ne_none_iff_exists'.mp hlive
  have hmax := (h.counts fp hlive).2
  rw [State.count_of_heap ho] at hmax
  have hknows := h.knows p
  rw [hp, Pc.Knows, State.count_of_heap ho] at hknows
  rw [State.step, hp]
  dsimp only
  rw [State.deref_eq ho]
  refine ⟨chain, h.recount ho hlocked (by omega) ⟨by omega, by omega⟩ (by rw [hp]; rfl)
    (by rw [hp]; rfl)
    (by rintro _ ⟨⟩) rfl (by rw [hp]; rfl) ?_ trivial (by rintro _ _ ⟨⟩)⟩
  intro q hq hsole
  exact hq (h.alone q p fp hsole hlocked).symm

theorem good_releTest (h : Inv s chain) (hp : s.pc p = .releTest fp) : Good (s.step p) := by
  have hlive := h.live_of_locked (p := p) (a := fp) (by rw [hp]; rfl)
  obtain ⟨o, ho⟩ := Option.ne_none_iff_exists'.mp hlive
  have hpos := (h.counts fp hlive).1
  rw [State.step, hp]
  dsimp only
  rw [State.deref_eq ho]
  split
  · exact h.good_goto (by rw [hp]; rfl) (by rw [hp]; rfl) (by rw [hp]; exact fun _ => id) nofun
      (by rw [hp]; rfl) trivial
  · rename_i hne
    rw [← State.count_of_heap ho] at hne
    refine h.good_goto (by rw [hp]; rfl) (by rw [hp]; rfl) (by rw [hp]; exact fun _ => id) nofun
      (by rw [hp]; rfl) ?_
    exact lt_of_le_of_ne hpos (Ne.symm hne)

theorem good_releRecheck (h : Inv s chain) (hp : s.pc p = .releRecheck fp) :
    Good (s.step p) := by
  have hlive := h.live_of_locked (p := p) (a := fp) (by rw [hp]; rfl)
  obtain ⟨o, ho⟩ := Option.ne_none_iff_exists'.mp hlive
  have hpos := (h.counts fp hlive).1
  rw [State.step, hp]
  dsimp only
  rw [State.deref_eq ho]
  split
  · rename_i hne
    rw [← State.count_of_heap ho] at hne
    refine h.good_goto (by rw [hp]; rfl) (by rw [hp]; rfl) (by rw [hp]; exact fun _ => id) nofun
      (by rw [hp]; rfl) ?_
    exact lt_of_le_of_ne hpos (Ne.symm hne)
  · rename_i heq
    rw [not_not, ← State.count_of_heap ho] at heq
    refine ⟨chain, h.quiet (h.hash_keep (by rw [hp]; rfl)) (by rw [hp]; rfl) ?_ ?_ (by rw [hp]; rfl)
      trivial⟩
    · rintro b hb
      exact h.owned p b (by rw [hp]; exact hb)
    · rintro b hb
      obtain rfl : fp = b := Option.some.inj hb
      exact ⟨heq, Or.inr (by rw [hp]; rfl)⟩

theorem good_releHead (h : Inv s chain) (hp : s.pc p = .releHead fp) : Good (s.step p) := by
  have howned : (s.pc p).owned = some fp := by rw [hp]; rfl
  have hlive := h.live_of_owned howned
  obtain ⟨o, ho⟩ := Option.ne_none_iff_exists'.mp hlive
  have hmem : fp ∈ chain (HASH (s.id fp)) := by
    rw [h.table.mem]
    refine ⟨⟨hlive, rfl⟩, fun q hq => ?_⟩
    by_cases hqp : q = p
    · rw [hqp, hp] at hq
      cases hq
    · exact h.free_of_owned howned q hqp (Pc.sole_of_out hq)
  obtain ⟨l, l', hl⟩ := List.append_of_mem hmem
  have hhead := h.table.fh_eq (HASH (s.id fp))
  have hsole : ∀ b, some fp = some b → s.count b = 1 ∧
      ((s.pc p).sole = some b ∨ (s.pc p).locked = some b) := by
    rintro b ⟨⟩
    have hs : (s.pc p).sole = some fp := by rw [hp]; rfl
    exact ⟨h.sole p fp hs, Or.inl hs⟩
  have howned' : ∀ b, some fp = some b → 0 < s.refs p b := by
    rintro b ⟨⟩
    exact h.owned p fp howned
  rw [State.step, hp]
  dsimp only
  rw [State.deref_eq ho, ← State.id_of_heap ho]
  split
  · rename_i heq
    refine ⟨chain, h.quiet (h.hash_keep (by rw [hp]; rfl)) (by rw [hp]; rfl) howned' hsole
      (by rw [hp]; rfl) ⟨rfl, ?_⟩⟩
    rw [hhead] at heq
    obtain ⟨m, hm⟩ := List.head?_eq_some_iff.mp heq
    exact ⟨m, hm⟩
  · rename_i hne
    refine ⟨chain, h.quiet (h.hash_keep (by rw [hp]; rfl)) (by rw [hp]; rfl) howned' hsole
      (by rw [hp]; rfl) ?_⟩
    cases l with
    | nil =>
      rw [hhead, hl] at hne
      exact absurd rfl hne
    | cons b l =>
      refine ⟨b, [], l, l', ?_, hl⟩
      rw [hhead, hl]
      rfl

theorem good_releNext {tfp : Option Addr} (h : Inv s chain) (hp : s.pc p = .releNext fp tfp) :
    Good (s.step p) := by
  have hknows := h.knows p
  rw [hp] at hknows
  obtain ⟨b, l, l', l'', rfl, hl⟩ := hknows
  have hmem : b ∈ chain (HASH (s.id fp)) := by
    rw [hl]
    simp
  obtain ⟨o, ho⟩ := Option.ne_none_iff_exists'.mp (h.live_of_mem hmem)
  have hnext := h.table.f_next_eq hl ho
  have hnd := h.table.nodup (HASH (s.id fp))
  rw [State.step, hp]
  dsimp only
  rw [State.deref_eq ho]
  split
  · rename_i hne
    refine h.good_goto (by rw [hp]; rfl) (by rw [hp]; rfl) (by rw [hp]; exact fun _ => id)
      (by rw [hp]; exact fun _ => id) (by rw [hp]; rfl) ?_
    cases l' with
    | nil =>
      rw [hnext] at hne
      exact absurd rfl hne
    | cons c l' => exact ⟨c, l ++ [b], l', l'', hnext, by rw [hl]; simp⟩
  · rename_i heq
    rw [not_not, hnext] at heq
    refine h.good_goto (by rw [hp]; rfl) (by rw [hp]; rfl) (by rw [hp]; exact fun _ => id)
      (by rw [hp]; exact fun _ => id) (by rw [hp]; rfl) ?_
    cases l' with
    | nil => exact ⟨l, l'', hl⟩
    | cons c l' =>
      obtain rfl : c = fp := Option.some.inj heq
      rw [hl] at hnd
      have hc := (List.nodup_cons.mp (List.nodup_cons.mp (List.nodup_append.mp hnd).2.1).2).1
      exact absurd (List.mem_append_right _ List.mem_cons_self) hc

theorem good_findTest {cur : Option Addr} (h : Inv s chain) (hp : s.pc p = .findTest id cur) :
    Good (s.step p) := by
  have hknows := h.knows p
  rw [hp] at hknows
  obtain ⟨l, l', hl, hcur, hne⟩ := hknows
  rw [State.step, hp]
  cases l' with
  | nil =>
    obtain rfl := hcur
    refine h.good_goto (by rw [hp]; rfl) (by rw [hp]; rfl) nofun nofun (by rw [hp]; rfl) ?_
    rw [List.append_nil] at hl
    intro b hb
    exact hne b (hl ▸ hb)
  | cons b l' =>
    obtain rfl := hcur
    have hmem : b ∈ chain (HASH id) := by
      rw [hl]
      simp
    obtain ⟨o, ho⟩ := Option.ne_none_iff_exists'.mp (h.live_of_mem hmem)
    dsimp only [List.head?_cons]
    rw [State.deref_eq ho, ← State.id_of_heap ho]
    split
    · rename_i heq
      exact h.good_goto (by rw [hp]; rfl) (by rw [hp]; rfl) nofun nofun (by rw [hp]; rfl)
        ⟨hmem, heq⟩
    · rename_i hid
      refine h.good_goto (by rw [hp]; rfl) (by rw [hp]; rfl) nofun nofun (by rw [hp]; rfl) ?_
      refine ⟨l ++ [b], l', by rw [hl]; simp, h.table.f_next_eq hl ho, ?_⟩
      intro c hc
      rcases List.mem_append.mp hc with hc | hc
      · exact hne c hc
      · rw [List.mem_singleton.mp hc]
        exact hid

/-- Every other statement has a meaning, and keeps the invariant. -/
theorem good_step (h : Inv s chain) (hover : ¬ s.Overflows p) : Good (s.step p) := by
  have hknows := h.knows p
  cases hp : s.pc p with
  | outside =>
    rw [State.step, hp]
    trivial
  | allocLockHash fp idx =>
    rw [hp] at hknows
    rw [State.step, hp]
    exact h.good_lockHash rfl (by rw [hp]; rfl) (by rw [hp]; exact fun _ => id)
      (by rw [hp]; exact fun _ => id) (by rw [hp]; rfl) hknows
  | allocNext fp idx => exact h.good_allocNext hp
  | allocHead fp idx => exact h.good_allocHead hp
  | allocLock fp =>
    have howned : (s.pc p).owned = some fp := by rw [hp]; rfl
    rw [State.step, hp]
    refine h.good_lock (h.live_of_owned howned) (by rw [hp]; rfl) rfl (by rw [hp]; rfl) ?_ nofun
      (by rw [hp]; rfl) (fun _ => h.free_of_owned howned) trivial
    exact fun b hb => h.owned p b (by rw [hp]; exact hb)
  | allocUnlockHash fp =>
    rw [State.step, hp]
    exact h.good_unlockHash (by rw [hp]; rfl) rfl (by rw [hp]; rfl) (by rw [hp]; exact fun _ => id)
      nofun (by rw [hp]; rfl) trivial
  | allocUnlock fp =>
    rw [State.step, hp]
    exact h.good_unlock (by rw [hp]; rfl) rfl (by rw [hp]; rfl) nofun nofun (by rw [hp]; rfl) trivial
  | holdLock fp find =>
    rw [hp] at hknows
    rw [State.step, hp]
    cases find with
    | none =>
      have howned : (s.pc p).owned = some fp := by rw [hp]; rfl
      refine h.good_lock (h.live_of_owned howned) (by rw [hp]; rfl) rfl (by rw [hp]; rfl) ?_ nofun
        (by rw [hp]; rfl) (fun _ => h.free_of_owned howned) trivial
      exact fun b hb => h.owned p b (by rw [hp]; exact hb)
    | some id =>
      exact h.good_lock (h.live_of_mem hknows.1) (by rw [hp]; rfl) rfl (by rw [hp]; rfl) nofun nofun
        (by rw [hp]; rfl) (fun hnone q _ => h.free_of_mem hknows.1 hnone q) hknows
  | holdCount fp find => exact h.good_holdCount hp hover
  | holdUnlock fp find =>
    rw [hp] at hknows
    rw [State.step, hp]
    cases find with
    | none =>
      exact h.good_unlock (by rw [hp]; rfl) rfl (by rw [hp]; rfl) nofun nofun (by rw [hp]; rfl)
        trivial
    | some id =>
      refine h.good_unlock (by rw [hp]; rfl) rfl (by rw [hp]; rfl) ?_ nofun (by rw [hp]; rfl) hknows
      exact fun b hb => h.owned p b (by rw [hp]; exact hb)
  | findLock id =>
    rw [State.step, hp]
    exact h.good_lockHash rfl (by rw [hp]; rfl) nofun nofun (by rw [hp]; rfl) trivial
  | findHead id =>
    rw [State.step, hp]
    exact h.good_goto (by rw [hp]; rfl) (by rw [hp]; rfl) nofun nofun (by rw [hp]; rfl)
      ⟨[], _, rfl, h.table.fh_eq _, nofun⟩
  | findTest id cur => exact h.good_findTest hp
  | findUnlock id cur =>
    rw [State.step, hp]
    exact h.good_unlockHash (by rw [hp]; rfl) rfl (by rw [hp]; rfl) nofun nofun (by rw [hp]; rfl)
      trivial
  | releLock fp =>
    have howned : (s.pc p).owned = some fp := by rw [hp]; rfl
    rw [State.step, hp]
    refine h.good_lock (h.live_of_owned howned) (by rw [hp]; rfl) rfl (by rw [hp]; rfl) ?_ nofun
      (by rw [hp]; rfl) (fun _ => h.free_of_owned howned) trivial
    exact fun b hb => h.owned p b (by rw [hp]; exact hb)
  | releTest fp => exact h.good_releTest hp
  | releLetGo fp =>
    rw [State.step, hp]
    refine h.good_unlock (by rw [hp]; rfl) rfl (by rw [hp]; rfl) ?_ nofun (by rw [hp]; rfl) trivial
    exact fun b hb => h.owned p b (by rw [hp]; exact hb)
  | releLockHash fp =>
    rw [State.step, hp]
    exact h.good_lockHash rfl (by rw [hp]; rfl) (by rw [hp]; exact fun _ => id) nofun
      (by rw [hp]; rfl) trivial
  | releLockAgain fp =>
    have howned : (s.pc p).owned = some fp := by rw [hp]; rfl
    rw [State.step, hp]
    refine h.good_lock (h.live_of_owned howned) (by rw [hp]; rfl) rfl (by rw [hp]; rfl) ?_ nofun
      (by rw [hp]; rfl) (fun _ => h.free_of_owned howned) trivial
    exact fun b hb => h.owned p b (by rw [hp]; exact hb)
  | releRecheck fp => exact h.good_releRecheck hp
  | releHead fp => exact h.good_releHead hp
  | releFirst fp idx => exact h.good_releFirst hp
  | releNext fp tfp => exact h.good_releNext hp
  | releUnlink fp tfp => exact h.good_releUnlink hp
  | freeUnlockHash fp =>
    rw [State.step, hp]
    exact h.good_unlockHash (by rw [hp]; rfl) rfl (by rw [hp]; rfl) (by rw [hp]; exact fun _ => id)
      (by rw [hp]; exact fun _ => id) (by rw [hp]; rfl) trivial
  | freeUnlock fp =>
    rw [State.step, hp]
    refine h.good_unlock (by rw [hp]; rfl) rfl (by rw [hp]; rfl) ?_ (by rw [hp]; exact fun _ => id)
      (by rw [hp]; rfl) trivial
    exact fun b hb => h.owned p b (by rw [hp]; exact hb)
  | freeDestroy fp =>
    have hsole : (s.pc p).sole = some fp := by rw [hp]; rfl
    obtain ⟨o, ho⟩ := Option.ne_none_iff_exists'.mp (h.live_of_owned (Pc.owned_of_sole hsole))
    have hnone : o.f_lock = none := by
      by_contra hlock
      obtain ⟨q, hq⟩ := Option.ne_none_iff_exists'.mp hlock
      rw [← State.owner_of_heap ho, h.lock] at hq
      obtain rfl := h.alone p q fp hsole hq
      rw [hp] at hq
      cases hq
    rw [State.step, hp]
    dsimp only
    rw [State.deref_eq ho, if_pos hnone]
    exact h.good_goto (by rw [hp]; rfl) (by rw [hp]; rfl) (by rw [hp]; exact fun _ => id)
      (by rw [hp]; exact fun _ => id) (by rw [hp]; rfl) trivial
  | free fp =>
    have howned : (s.pc p).owned = some fp := by rw [hp]; rfl
    obtain ⟨o, ho⟩ := Option.ne_none_iff_exists'.mp (h.live_of_owned howned)
    rw [State.step, hp]
    dsimp only
    rw [State.deref_eq ho]
    exact ⟨chain, h.free hp⟩
  | decrCount fp hash => exact h.good_decrCount hp
  | decrUnlock fp hash =>
    rw [State.step, hp]
    cases hash with
    | false =>
      exact h.good_unlock (by rw [hp]; rfl) rfl (by rw [hp]; rfl) nofun nofun (by rw [hp]; rfl)
        trivial
    | true =>
      exact h.good_unlock (by rw [hp]; rfl) rfl (by rw [hp]; rfl) nofun nofun (by rw [hp]; rfl)
        trivial
  | decrUnlockHash =>
    rw [State.step, hp]
    exact h.good_unlockHash (by rw [hp]; rfl) rfl (by rw [hp]; rfl) nofun nofun (by rw [hp]; rfl)
      trivial

end Statements

end Inv

end Somenote.Refs
