import Somenote.Refs.Invariant

/-! # What a statement may do

Rules for the statements: they take or give up a mutex, change the count and the references of an
object whose mutex the thread has, or change the table under `hashlock`.
-/

namespace Somenote.Refs

variable {Pid : Type} {s t : State Pid} {p q : Pid} {pc pc' : Pc} {a b : Addr} {o : Foo Pid}
  {chain chain' : ℕ → List Addr}

namespace State

theorem count_of_heap (h : s.heap a = some o) : s.count a = o.f_count := by
  rw [count, h]
  rfl

theorem id_of_heap (h : s.heap a = some o) : s.id a = o.f_id := by
  rw [id, h]
  rfl

theorem owner_of_heap (h : s.heap a = some o) : s.owner a = o.f_lock := by
  rw [owner, h]
  rfl

theorem next_of_heap (h : s.heap a = some o) : s.next (.foo a) = .ofPtr o.f_next := by
  rw [next, h]
  rfl

theorem heap_of_owner (h : s.owner a = some p) : s.heap a ≠ none := by
  intro hnone
  rw [owner, hnone] at h
  cases h

section Simp

variable [DecidableEq Pid] (s : State Pid) (p : Pid) (pc : Pc) (a : Addr) (n : ℕ)

@[simp] theorem count_goto : (s.goto p pc).count = s.count := rfl

@[simp] theorem count_setRefs : (s.setRefs p a n).count = s.count := rfl

@[simp] theorem refs_goto : (s.goto p pc).refs = s.refs := rfl

@[simp] theorem refs_setRefs :
    (s.setRefs p a n).refs = Function.update s.refs p (Function.update (s.refs p) a n) := rfl

omit [DecidableEq Pid] in
@[simp] theorem refs_set (x : Option (Foo Pid)) : (s.set a x).refs = s.refs := rfl

end Simp

theorem count_set (s : State Pid) (a : Addr) (x : Option (Foo Pid)) :
    (s.set a x).count = Function.update s.count a ((x.map Foo.f_count).getD 0) :=
  Function.comp_update (fun y : Option (Foo Pid) => (y.map Foo.f_count).getD 0) s.heap a x

theorem id_set (s : State Pid) (a : Addr) (x : Option (Foo Pid)) :
    (s.set a x).id = Function.update s.id a ((x.map Foo.f_id).getD 0) :=
  Function.comp_update (fun y : Option (Foo Pid) => (y.map Foo.f_id).getD 0) s.heap a x

theorem owner_set (s : State Pid) (a : Addr) (x : Option (Foo Pid)) :
    (s.set a x).owner = Function.update s.owner a (x.bind Foo.f_lock) :=
  Function.comp_update (fun y : Option (Foo Pid) => y.bind Foo.f_lock) s.heap a x

theorem next_set_foo (s : State Pid) (a : Addr) (x : Option (Foo Pid)) (b : Addr) :
    (s.set a x).next (.foo b) = if b = a then .ofPtr (x.bind Foo.f_next) else s.next (.foo b) := by
  by_cases hb : b = a
  · subst hb
    simp [next, set]
  · simp [next, set, hb]

theorem next_set (h : s.heap a = some o) {o' : Foo Pid} (ho : o'.f_next = o.f_next) :
    (s.set a (some o')).next = s.next := by
  funext r
  cases r with
  | foo b =>
    rw [next_set_foo]
    split
    · subst b
      rw [next_of_heap h, ← ho]
      rfl
    · rfl
  | _ => rfl

theorem live_set (h : s.heap a = some o) (o' : Foo Pid) (b : Addr) :
    (s.set a (some o')).heap b ≠ none ↔ s.heap b ≠ none := by
  by_cases hb : b = a
  · subst hb
    simp [set, h]
  · simp [set, hb]

end State

theorem Table.congr (h : Table s chain) (hnext : t.next = s.next)
    (hheap : ∀ a, t.heap a ≠ none ↔ s.heap a ≠ none) (hid : t.id = s.id)
    (hout : ∀ q, (t.pc q).out = (s.pc q).out) : Table t chain where
  linked i := by
    rw [hnext]
    exact h.linked i
  mem i a := by
    rw [h.mem i a, hheap a, hid]
    simp only [hout]

namespace Inv

variable [Fintype Pid]

section Facts

theorem live_of_refs (h : Inv s chain) (hr : 0 < s.refs p a) : s.heap a ≠ none := by
  intro hnone
  have hcount := h.count a
  have hle := le_tally (fun r : Addr → ℕ => r a) s.refs p
  rw [State.count, hnone] at hcount
  simp only [Option.map_none, Option.getD_none] at hcount
  omega

theorem live_of_owned (h : Inv s chain) (hp : (s.pc p).owned = some a) : s.heap a ≠ none :=
  h.live_of_refs (h.owned p a hp)

theorem live_of_locked (h : Inv s chain) (hp : (s.pc p).locked = some a) : s.heap a ≠ none :=
  State.heap_of_owner ((h.lock p a).mpr hp)

theorem live_of_mem (h : Inv s chain) {i : ℕ} (ha : a ∈ chain i) : s.heap a ≠ none :=
  ((h.table.mem i a).mp ha).1.1

theorem hash_unique (h : Inv s chain) (hp : (s.pc p).hash = true) (hq : q ≠ p) :
    (s.pc q).hash = false := by
  by_contra hne
  have hq' := (h.hash q).mpr (Bool.eq_true_of_not_eq_false hne)
  rw [(h.hash p).mpr hp] at hq'
  exact hq (Option.some.inj hq').symm

theorem lock_unique (h : Inv s chain) (hp : (s.pc p).locked = some a) (hq : q ≠ p) :
    (s.pc q).locked ≠ some a := by
  intro hql
  have hq' := (h.lock q a).mpr hql
  rw [(h.lock p a).mpr hp] at hq'
  exact hq (Option.some.inj hq').symm

theorem sole_refs [DecidableEq Pid] (h : Inv s chain) (hp : (s.pc p).sole = some a) (hq : q ≠ p) :
    s.refs q a = 0 := by
  have hone := h.sole p a hp
  have howned := h.owned p a (Pc.owned_of_sole hp)
  have hcount := h.count a
  have hle := add_le_tally (w := fun r : Addr → ℕ => r a) (f := s.refs) hq
  omega

theorem sole_refs_self [DecidableEq Pid] (h : Inv s chain) (hp : (s.pc p).sole = some a) :
    s.refs p a = 1 := by
  have hone := h.sole p a hp
  have howned := h.owned p a (Pc.owned_of_sole hp)
  have hcount := h.count a
  have hle := le_tally (fun r : Addr → ℕ => r a) s.refs p
  omega

theorem not_out_of_mem (h : Inv s chain) {i : ℕ} (ha : a ∈ chain i) (p : Pid) :
    (s.pc p).out ≠ some a :=
  ((h.table.mem i a).mp ha).2 p

/-- A thread that uses an object with one reference is the one that has the reference. -/
theorem not_sole [DecidableEq Pid] (h : Inv s chain) (hp : 0 < s.refs p a) (hq : q ≠ p) :
    (s.pc q).sole ≠ some a := by
  intro hsole
  have hzero := h.sole_refs hsole hq.symm
  omega

end Facts

variable [DecidableEq Pid]

/-- A thread goes on, and with it what it alone may change. -/
theorem move (h : Inv s chain) (hpc : t.pc = Function.update s.pc p pc')
    (hrefs : ∀ q, q ≠ p → t.refs q = s.refs q)
    (hcount : ∀ a, t.count a = tally (fun r : Addr → ℕ => r a) t.refs)
    (hcounts : ∀ a, t.heap a ≠ none → IsCount (t.count a))
    (hhash : ∀ q, t.hashlock = some q ↔ (Function.update s.pc p pc' q).hash = true)
    (hlock : ∀ q a, t.owner a = some q ↔ (Function.update s.pc p pc' q).locked = some a)
    (howned : ∀ a, pc'.owned = some a → 0 < t.refs p a)
    (hsole : ∀ a, pc'.sole = some a → t.count a = 1)
    (hsole' : ∀ a, pc'.sole = some a → (s.pc p).sole = some a ∨ (s.pc p).locked = some a ∨
      s.heap a = none)
    (hlock' : ∀ a, pc'.locked = some a → (s.pc p).locked = some a ∨
      ∀ q, q ≠ p → (s.pc q).sole ≠ some a)
    (hothers : ∀ q, q ≠ p → ∀ a, (s.pc q).sole = some a → t.count a = s.count a)
    (htable : Table t chain') (hknows : pc'.Knows t chain')
    (hframe : ∀ q, q ≠ p → (s.pc q).Knows t chain') : Inv t chain' where
  count := hcount
  counts := hcounts
  hash q := by rw [hpc, hhash]
  lock q a := by rw [hpc, hlock]
  owned q a hq := by
    by_cases hqp : q = p
    · subst hqp
      rw [hpc, Function.update_self] at hq
      exact howned a hq
    · rw [hpc, Function.update_of_ne hqp] at hq
      rw [hrefs q hqp]
      exact h.owned q a hq
  sole q a hq := by
    by_cases hqp : q = p
    · subst hqp
      rw [hpc, Function.update_self] at hq
      exact hsole a hq
    · rw [hpc, Function.update_of_ne hqp] at hq
      rw [hothers q hqp a hq]
      exact h.sole q a hq
  alone q r a hq hr := by
    by_cases hqp : q = p
    · subst hqp
      rw [hpc, Function.update_self] at hq
      by_contra hrq
      rw [hpc, Function.update_of_ne hrq] at hr
      rcases hsole' a hq with hs | hl | hnone
      · exact hrq (h.alone q r a hs hr)
      · exact h.lock_unique hl hrq hr
      · exact h.live_of_locked hr hnone
    · rw [hpc, Function.update_of_ne hqp] at hq
      by_cases hrp : r = p
      · subst hrp
        rw [hpc, Function.update_self] at hr
        rcases hlock' a hr with hl | hno
        · exact h.alone q r a hq hl
        · exact absurd hq (hno q hqp)
      · rw [hpc, Function.update_of_ne hrp] at hr
        exact h.alone q r a hq hr
  table := htable
  knows q := by
    by_cases hqp : q = p
    · subst hqp
      rw [hpc, Function.update_self]
      exact hknows
    · rw [hpc, Function.update_of_ne hqp]
      exact hframe q hqp

section Mutexes

theorem hash_keep (h : Inv s chain) (hp : pc'.hash = (s.pc p).hash) (q : Pid) :
    s.hashlock = some q ↔ (Function.update s.pc p pc' q).hash = true := by
  rw [h.hash q]
  by_cases hq : q = p
  · subst hq
    rw [Function.update_self, hp]
  · rw [Function.update_of_ne hq]

variable (p pc') in
theorem hash_set (h : Inv s chain) (hothers : ∀ q, q ≠ p → s.hashlock ≠ some q) (q : Pid) :
    (if pc'.hash then some p else none) = some q ↔
      (Function.update s.pc p pc' q).hash = true := by
  by_cases hq : q = p
  · subst hq
    simp
  · rw [Function.update_of_ne hq, ← h.hash q]
    simp [hothers q hq, Ne.symm hq]

theorem lock_keep (h : Inv s chain) (hp : pc'.locked = (s.pc p).locked) (q : Pid) (a : Addr) :
    s.owner a = some q ↔ (Function.update s.pc p pc' q).locked = some a := by
  rw [h.lock q a]
  by_cases hq : q = p
  · subst hq
    rw [Function.update_self, hp]
  · rw [Function.update_of_ne hq]

variable (p pc' a) in
theorem lock_set (h : Inv s chain) (hothers : ∀ q, q ≠ p → s.owner a ≠ some q)
    (hold : ∀ b, b ≠ a → (s.pc p).locked ≠ some b) (hnew : ∀ b, b ≠ a → pc'.locked ≠ some b)
    (q : Pid) (b : Addr) :
    Function.update s.owner a (pc'.locked.map fun _ => p) b = some q ↔
      (Function.update s.pc p pc' q).locked = some b := by
  by_cases hb : b = a
  · subst hb
    rw [Function.update_self]
    by_cases hq : q = p
    · subst hq
      rw [Function.update_self]
      cases hl : pc'.locked with
      | none => simp
      | some c =>
        have hc : c = b := by
          by_contra hne
          exact hnew c hne hl
        simp [hc]
    · rw [Function.update_of_ne hq, ← h.lock q b]
      simp [hothers q hq, Ne.symm hq]
  · rw [Function.update_of_ne hb, h.lock q b]
    by_cases hq : q = p
    · subst hq
      simp [hold b hb, hnew b hb]
    · rw [Function.update_of_ne hq]

end Mutexes

omit [Fintype Pid] in
theorem out_update (hout : pc'.out = (s.pc p).out) (q : Pid) :
    (Function.update s.pc p pc' q).out = (s.pc q).out := by
  by_cases hq : q = p
  · subst hq
    rw [Function.update_self, hout]
  · rw [Function.update_of_ne hq]

theorem quiet (h : Inv s chain) {hashlock : Option Pid}
    (hhash : ∀ q, hashlock = some q ↔ (Function.update s.pc p pc' q).hash = true)
    (hlock : pc'.locked = (s.pc p).locked) (howned : ∀ a, pc'.owned = some a → 0 < s.refs p a)
    (hsole : ∀ a, pc'.sole = some a →
      s.count a = 1 ∧ ((s.pc p).sole = some a ∨ (s.pc p).locked = some a))
    (hout : pc'.out = (s.pc p).out) (hknows : pc'.Knows s chain) :
    Inv ({ s with hashlock }.goto p pc') chain := by
  refine h.move (t := { s with hashlock }.goto p pc') rfl (fun _ _ => rfl) h.count h.counts hhash
    (h.lock_keep hlock) howned (fun a ha => (hsole a ha).1)
    (fun a ha => (hsole a ha).2.imp_right Or.inl) (fun a ha => Or.inl (hlock ▸ ha))
    (fun _ _ _ _ => rfl) ?_ ?_ ?_
  · exact h.table.congr rfl (fun _ => Iff.rfl) rfl (out_update hout)
  · exact hknows.frame (fun _ _ => rfl) (fun _ _ _ => rfl)
      fun _ => ⟨rfl, fun _ => rfl, fun _ _ => rfl⟩
  · intro q _
    exact (h.knows q).frame (fun _ _ => rfl) (fun _ _ _ => rfl)
      fun _ => ⟨rfl, fun _ => rfl, fun _ _ => rfl⟩

theorem relock (h : Inv s chain) (ho : s.heap a = some o) {x : Option Pid}
    (hhash : pc'.hash = (s.pc p).hash)
    (hlock : ∀ q b, Function.update s.owner a x b = some q ↔
      (Function.update s.pc p pc' q).locked = some b)
    (hlock' : ∀ b, pc'.locked = some b → (s.pc p).locked = some b ∨
      ∀ q, q ≠ p → (s.pc q).sole ≠ some b)
    (howned : ∀ b, pc'.owned = some b → 0 < s.refs p b)
    (hsole : ∀ b, pc'.sole = some b → (s.pc p).sole = some b) (hout : pc'.out = (s.pc p).out)
    (hknows : pc'.Knows s chain) :
    Inv ((s.set a (some { o with f_lock := x })).goto p pc') chain := by
  have hcount : (s.set a (some { o with f_lock := x })).count = s.count := by
    rw [State.count_set]
    exact Function.update_eq_self_iff.mpr (State.count_of_heap ho).symm
  have hid : (s.set a (some { o with f_lock := x })).id = s.id := by
    rw [State.id_set]
    exact Function.update_eq_self_iff.mpr (State.id_of_heap ho).symm
  have hnext : (s.set a (some { o with f_lock := x })).next = s.next := State.next_set ho rfl
  have hlive := State.live_set ho { o with f_lock := x }
  refine h.move (t := (s.set a (some { o with f_lock := x })).goto p pc') rfl (fun _ _ => rfl)
    ?_ ?_ (h.hash_keep hhash) ?_ howned ?_ (fun b hb => Or.inl (hsole b hb)) hlock' ?_ ?_ ?_ ?_
  · intro b
    exact (congrFun hcount b).trans (h.count b)
  · intro b hb
    rw [State.count_goto, hcount]
    exact h.counts b ((hlive b).mp hb)
  · intro q b
    rw [← hlock q b]
    exact Eq.congr_left (congrFun (State.owner_set s a _) b)
  · intro b hb
    exact (congrFun hcount b).trans (h.sole p b (hsole b hb))
  · intro q _ b _
    exact congrFun hcount b
  · exact h.table.congr hnext hlive hid (out_update hout)
  · exact hknows.frame (fun b _ => congrFun hid b) (fun b _ _ => congrFun hcount b)
      fun _ => ⟨rfl, fun i => congrFun hnext (.bucket i), fun b _ => congrFun hnext (.foo b)⟩
  · intro q _
    exact (h.knows q).frame (fun b _ => congrFun hid b) (fun b _ _ => congrFun hcount b)
      fun _ => ⟨rfl, fun i => congrFun hnext (.bucket i), fun b _ => congrFun hnext (.foo b)⟩

/-- The thread that has locked an object changes its count, with its references. -/
theorem recount (h : Inv s chain) (ho : s.heap a = some o) (hold : (s.pc p).locked = some a)
    {c : ℤ} {n : ℕ} (hc : c + s.refs p a = o.f_count + n) (hpos : IsCount c)
    (hhash : pc'.hash = (s.pc p).hash) (hlock : pc'.locked = (s.pc p).locked)
    (howned : ∀ b, pc'.owned = some b → b = a ∧ 0 < n) (hsole : pc'.sole = none)
    (hout : pc'.out = (s.pc p).out) (hnot : ∀ q, q ≠ p → (s.pc q).sole ≠ some a)
    (hknows : pc'.Knows s chain) (hdecr : ∀ b hash, pc' ≠ .decrCount b hash) :
    Inv (((s.set a (some { o with f_count := c })).setRefs p a n).goto p pc') chain := by
  have hcount : (s.set a (some { o with f_count := c })).count = Function.update s.count a c :=
    State.count_set ..
  have hid : (s.set a (some { o with f_count := c })).id = s.id := by
    rw [State.id_set]
    exact Function.update_eq_self_iff.mpr (State.id_of_heap ho).symm
  have howner : (s.set a (some { o with f_count := c })).owner = s.owner := by
    rw [State.owner_set]
    exact Function.update_eq_self_iff.mpr (State.owner_of_heap ho).symm
  have hnext : (s.set a (some { o with f_count := c })).next = s.next := State.next_set ho rfl
  have hlive := State.live_set ho { o with f_count := c }
  refine h.move
    (t := ((s.set a (some { o with f_count := c })).setRefs p a n).goto p pc') rfl ?_ ?_ ?_
    (h.hash_keep hhash) ?_ ?_ ?_ ?_ (fun b hb => Or.inl (hlock ▸ hb)) ?_ ?_ ?_ ?_
  · intro q hq
    exact Function.update_of_ne hq ..
  · intro b
    have htally := tally_update (fun r : Addr → ℕ => r b) s.refs p
      (Function.update (s.refs p) a n)
    have hbefore := h.count b
    rw [State.count_goto, State.count_setRefs, hcount, State.refs_goto, State.refs_setRefs,
      State.refs_set]
    by_cases hb : b = a
    · subst hb
      rw [Function.update_self] at htally ⊢
      rw [State.count_of_heap ho] at hbefore
      omega
    · rw [Function.update_of_ne hb] at htally ⊢
      omega
  · intro b hb
    rw [State.count_goto, State.count_setRefs, hcount]
    by_cases hba : b = a
    · subst hba
      rwa [Function.update_self]
    · rw [Function.update_of_ne hba]
      exact h.counts b ((hlive b).mp hb)
  · intro q b
    rw [← h.lock_keep hlock q b]
    exact Eq.congr_left (congrFun howner b)
  · intro b hb
    obtain ⟨rfl, hn⟩ := howned b hb
    exact hn.trans_eq (by simp [State.setRefs, State.goto])
  · intro b hb
    rw [hsole] at hb
    cases hb
  · intro b hb
    rw [hsole] at hb
    cases hb
  · intro q hq b hb
    have hba : b ≠ a := by
      rintro rfl
      exact hnot q hq hb
    exact (congrFun hcount b).trans (Function.update_of_ne hba ..)
  · exact h.table.congr hnext hlive hid (out_update hout)
  · exact hknows.frame (fun b _ => congrFun hid b)
      (fun b hash hb => absurd hb (hdecr b hash))
      fun _ => ⟨rfl, fun i => congrFun hnext (.bucket i), fun b _ => congrFun hnext (.foo b)⟩
  · intro q hq
    refine (h.knows q).frame (fun b _ => congrFun hid b) (fun b hash hb => ?_)
      fun _ => ⟨rfl, fun i => congrFun hnext (.bucket i), fun b _ => congrFun hnext (.foo b)⟩
    have hba : b ≠ a := by
      rintro rfl
      exact h.lock_unique hold hq (by rw [hb]; rfl)
    exact (congrFun hcount b).trans (Function.update_of_ne hba ..)

/-- The thread that has `hashlock` changes the pointers of the table. -/
theorem relink (h : Inv s chain) (hold : (s.pc p).hash = true) (hpc : t.pc = s.pc)
    (hrefs : t.refs = s.refs) (hhashlock : t.hashlock = s.hashlock) (hcount : t.count = s.count)
    (hid : t.id = s.id) (howner : t.owner = s.owner)
    (hlive : ∀ a, t.heap a ≠ none ↔ s.heap a ≠ none) (hhash : pc'.hash = true)
    (hlock : pc'.locked = (s.pc p).locked) (howned : pc'.owned = (s.pc p).owned)
    (hsole : ∀ a, pc'.sole = some a → (s.pc p).sole = some a)
    (htable : Table (t.goto p pc') chain') (hknows : pc'.Knows t chain') :
    Inv (t.goto p pc') chain' := by
  refine h.move (t := t.goto p pc') (by rw [← hpc]; rfl)
    (fun q _ => congrFun hrefs q) ?_ ?_ ?_ ?_ ?_ ?_ (fun a ha => Or.inl (hsole a ha))
    (fun a ha => Or.inl (hlock ▸ ha)) (fun _ _ a _ => congrFun hcount a) htable ?_ ?_
  · intro a
    rw [State.count_goto, hcount, State.refs_goto, hrefs]
    exact h.count a
  · intro a ha
    rw [State.count_goto, hcount]
    exact h.counts a ((hlive a).mp ha)
  · intro q
    rw [← h.hash_keep (hhash.trans hold.symm) q, ← hhashlock]
    rfl
  · intro q a
    rw [← h.lock_keep hlock q a, ← howner]
    rfl
  · intro a ha
    rw [State.refs_goto, hrefs]
    exact h.owned p a (howned ▸ ha)
  · intro a ha
    rw [State.count_goto, hcount]
    exact h.sole p a (hsole a ha)
  · exact hknows.frame (fun _ _ => rfl) (fun _ _ _ => rfl)
      fun _ => ⟨rfl, fun _ => rfl, fun _ _ => rfl⟩
  · intro q hq
    refine (h.knows q).frame (fun a _ => congrFun hid a) (fun a _ _ => congrFun hcount a) ?_
    intro hqh
    rw [h.hash_unique hold hq] at hqh
    cases hqh

theorem alloc (h : Inv s chain) (hp : s.pc p = .outside) (hfp : s.heap a = none) (id : ℤ)
    (next : Option Addr) :
    Inv (((s.set a (some ⟨1, none, id, next⟩)).setRefs p a 1).goto p
      (.allocLockHash a (HASH id))) chain := by
  have hmem : ∀ i b, b ∈ chain i → b ≠ a := by
    rintro i b hb rfl
    exact h.live_of_mem hb hfp
  have howned : ∀ q b, (s.pc q).owned = some b → b ≠ a := by
    rintro q b hb rfl
    exact h.live_of_owned hb hfp
  have hzero : ∀ q, s.refs q a = 0 := by
    intro q
    by_contra hq
    exact h.live_of_refs (Nat.pos_of_ne_zero hq) hfp
  have hcount : (s.set a (some ⟨1, none, id, next⟩)).count = Function.update s.count a 1 :=
    State.count_set ..
  have hid : (s.set a (some ⟨1, none, id, next⟩)).id = Function.update s.id a id :=
    State.id_set ..
  have hnext : ∀ b, b ≠ a →
      (s.set a (some ⟨1, none, id, next⟩)).next (.foo b) = s.next (.foo b) := by
    intro b hb
    rw [State.next_set_foo, if_neg hb]
  have hnotlocked : ∀ q, (s.pc q).locked ≠ some a := fun q hq => h.live_of_locked hq hfp
  have hpc : (((s.set a (some ⟨1, none, id, next⟩)).setRefs p a 1).goto p
      (.allocLockHash a (HASH id))).pc = Function.update s.pc p (.allocLockHash a (HASH id)) := rfl
  refine h.move hpc ?_ ?_ ?_ ?_ ?_ ?_ ?_ ?_ ?_ ?_ ?_ ?_ ?_
  · intro q hq
    exact Function.update_of_ne hq ..
  · intro b
    have htally := tally_update (fun r : Addr → ℕ => r b) s.refs p
      (Function.update (s.refs p) a 1)
    have hbefore := h.count b
    rw [State.count_goto, State.count_setRefs, hcount, State.refs_goto, State.refs_setRefs,
      State.refs_set]
    by_cases hb : b = a
    · subst hb
      rw [Function.update_self] at htally ⊢
      have hnone := tally_eq_zero (w := fun r : Addr → ℕ => r b) hzero
      rw [hzero p] at htally
      omega
    · rw [Function.update_of_ne hb] at htally ⊢
      omega
  · intro b hb
    rw [State.count_goto, State.count_setRefs, hcount]
    by_cases hba : b = a
    · subst hba
      rw [Function.update_self]
      exact ⟨Int.zero_lt_one, by decide⟩
    · rw [Function.update_of_ne hba]
      apply h.counts b
      simpa [State.goto, State.setRefs, State.set, hba] using hb
  · exact h.hash_keep (by rw [hp]; rfl)
  · intro q b
    rw [← h.lock_keep (by rw [hp]; rfl) q b]
    change (s.set a (some ⟨1, none, id, next⟩)).owner b = some q ↔ _
    rw [State.owner_set]
    by_cases hb : b = a
    · subst hb
      rw [Function.update_self, h.lock]
      simp [hnotlocked q]
    · rw [Function.update_of_ne hb]
  · rintro b hb
    obtain rfl : a = b := Option.some.inj hb
    simp
  · rintro b hb
    obtain rfl : a = b := Option.some.inj hb
    rw [State.count_goto, State.count_setRefs, hcount, Function.update_self]
  · rintro b hb
    obtain rfl : a = b := Option.some.inj hb
    exact Or.inr (Or.inr hfp)
  · intro b hb
    cases hb
  · intro q _ b hb
    rw [State.count_goto, State.count_setRefs, hcount,
      Function.update_of_ne (howned q b (Pc.owned_of_sole hb))]
  · constructor
    · intro i
      apply (h.table.linked i).congr
      intro r hr
      rcases List.mem_cons.mp hr with rfl | hr
      · rfl
      · obtain ⟨b, hb, rfl⟩ := List.mem_map.mp hr
        exact hnext b (hmem i b hb)
    · intro i b
      by_cases hb : b = a
      · subst hb
        refine ⟨fun hm => absurd rfl (hmem i b hm), fun hm => absurd ?_ (hm.2 p)⟩
        simp [State.goto, Pc.out]
      · rw [h.table.mem i b]
        have hout : ∀ q, ((Function.update s.pc p (.allocLockHash a (HASH id)) q).out ≠ some b ↔
            (s.pc q).out ≠ some b) := by
          intro q
          by_cases hq : q = p
          · subst hq
            simp [hp, Pc.out, Ne.symm hb]
          · rw [Function.update_of_ne hq]
        refine and_congr (and_congr ?_ ?_) (forall_congr' fun q => (hout q).symm)
        · simp [State.goto, State.setRefs, State.set, hb]
        · change _ ↔ HASH ((s.set a (some ⟨1, none, id, next⟩)).id b) = i
          rw [hid, Function.update_of_ne hb]
  · change HASH ((s.set a (some ⟨1, none, id, next⟩)).id a) = HASH id
    rw [hid, Function.update_self]
  · intro q _
    apply (h.knows q).frame
    · intro b hb
      have hba : b ≠ a := by
        rcases hb with ⟨i, hb⟩ | hb
        · exact hmem i b hb
        · exact howned q b hb
      exact (congrFun hid b).trans (Function.update_of_ne hba ..)
    · intro b hash hb
      have hba : b ≠ a := howned q b (by rw [hb]; rfl)
      exact (congrFun hcount b).trans (Function.update_of_ne hba ..)
    · exact fun _ => ⟨rfl, fun _ => rfl, fun b hb => hnext b (howned q b hb)⟩

theorem free (h : Inv s chain) (hp : s.pc p = .free a) :
    Inv (((s.set a none).setRefs p a (s.refs p a - 1)).goto p .outside) chain := by
  have hsole : (s.pc p).sole = some a := by rw [hp]; rfl
  have hmem : ∀ i b, b ∈ chain i → b ≠ a := by
    rintro i b hb rfl
    exact h.not_out_of_mem hb p (by rw [hp]; rfl)
  have hnone : ∀ q, q ≠ p → ∀ b, 0 < s.refs q b → b ≠ a := by
    rintro q hq b hb rfl
    have hzero := h.sole_refs hsole hq
    omega
  have hnotlocked : ∀ q, (s.pc q).locked ≠ some a := by
    intro q hq
    obtain rfl := h.alone p q a hsole hq
    rw [hp] at hq
    cases hq
  have hcount : (s.set a none).count = Function.update s.count a 0 := State.count_set ..
  have hid : (s.set a none).id = Function.update s.id a 0 := State.id_set ..
  have hnext : ∀ b, b ≠ a → (s.set a none).next (.foo b) = s.next (.foo b) := by
    intro b hb
    rw [State.next_set_foo, if_neg hb]
  have hpc : (((s.set a none).setRefs p a (s.refs p a - 1)).goto p .outside).pc =
      Function.update s.pc p .outside := rfl
  refine h.move hpc ?_ ?_ ?_ ?_ ?_ ?_ ?_ ?_ ?_ ?_ ?_ ?_ ?_
  · intro q hq
    exact Function.update_of_ne hq ..
  · intro b
    have htally := tally_update (fun r : Addr → ℕ => r b) s.refs p
      (Function.update (s.refs p) a (s.refs p a - 1))
    have hbefore := h.count b
    rw [State.count_goto, State.count_setRefs, hcount, State.refs_goto, State.refs_setRefs,
      State.refs_set]
    by_cases hb : b = a
    · subst hb
      rw [Function.update_self] at htally ⊢
      rw [h.sole p b hsole] at hbefore
      have hself := h.sole_refs_self hsole
      omega
    · rw [Function.update_of_ne hb] at htally ⊢
      omega
  · intro b hb
    have hba : b ≠ a := by
      rintro rfl
      simp [State.goto, State.setRefs, State.set] at hb
    rw [State.count_goto, State.count_setRefs, hcount, Function.update_of_ne hba]
    apply h.counts b
    simpa [State.goto, State.setRefs, State.set, hba] using hb
  · exact h.hash_keep (by rw [hp]; rfl)
  · intro q b
    rw [← h.lock_keep (by rw [hp]; rfl) q b]
    change (s.set a none).owner b = some q ↔ _
    rw [State.owner_set]
    by_cases hb : b = a
    · subst hb
      rw [Function.update_self, h.lock]
      simp [hnotlocked q]
    · rw [Function.update_of_ne hb]
  · intro b hb
    cases hb
  · intro b hb
    cases hb
  · intro b hb
    cases hb
  · intro b hb
    cases hb
  · intro q hq b hb
    rw [State.count_goto, State.count_setRefs, hcount, Function.update_of_ne]
    exact hnone q hq b (h.owned q b (Pc.owned_of_sole hb))
  · constructor
    · intro i
      apply (h.table.linked i).congr
      intro r hr
      rcases List.mem_cons.mp hr with rfl | hr
      · rfl
      · obtain ⟨b, hb, rfl⟩ := List.mem_map.mp hr
        exact hnext b (hmem i b hb)
    · intro i b
      by_cases hb : b = a
      · subst hb
        refine ⟨fun hm => absurd rfl (hmem i b hm), fun hm => absurd ?_ hm.1.1⟩
        simp [State.goto, State.setRefs, State.set]
      · rw [h.table.mem i b]
        have hout : ∀ q, ((Function.update s.pc p .outside q).out ≠ some b ↔
            (s.pc q).out ≠ some b) := by
          intro q
          by_cases hq : q = p
          · subst hq
            simp [hp, Pc.out, Ne.symm hb]
          · rw [Function.update_of_ne hq]
        refine and_congr (and_congr ?_ ?_) (forall_congr' fun q => (hout q).symm)
        · simp [State.goto, State.setRefs, State.set, hb]
        · change _ ↔ HASH ((s.set a none).id b) = i
          rw [hid, Function.update_of_ne hb]
  · trivial
  · intro q hq
    apply (h.knows q).frame
    · intro b hb
      have hba : b ≠ a := by
        rcases hb with ⟨i, hb⟩ | hb
        · exact hmem i b hb
        · exact hnone q hq b (h.owned q b hb)
      exact (congrFun hid b).trans (Function.update_of_ne hba ..)
    · intro b hash hb
      have hba : b ≠ a := hnone q hq b (h.owned q b (by rw [hb]; rfl))
      exact (congrFun hcount b).trans (Function.update_of_ne hba ..)
    · exact fun _ => ⟨rfl, fun _ => rfl, fun b hb => hnext b (hnone q hq b (h.owned q b hb))⟩

theorem give (h : Inv s chain) (hp : s.pc p = .outside) (hq : q ≠ p) (hr : 0 < s.refs p a) :
    Inv ((s.setRefs p a (s.refs p a - 1)).setRefs q a (s.refs q a + 1)) chain := by
  have hrefs : ∀ r b, r ≠ p → s.refs r b ≤
      ((s.setRefs p a (s.refs p a - 1)).setRefs q a (s.refs q a + 1)).refs r b := by
    intro r b hrp
    rw [State.refs_setRefs, State.refs_setRefs, Function.update_of_ne hq]
    by_cases hrq : r = q
    · subst hrq
      rw [Function.update_self]
      by_cases hb : b = a
      · subst hb
        rw [Function.update_self]
        omega
      · rw [Function.update_of_ne hb]
    · rw [Function.update_of_ne hrq, Function.update_of_ne hrp]
  exact {
    count := by
      intro b
      have h₁ := tally_update (fun r : Addr → ℕ => r b) s.refs p
        (Function.update (s.refs p) a (s.refs p a - 1))
      have h₂ := tally_update (fun r : Addr → ℕ => r b) (s.setRefs p a (s.refs p a - 1)).refs q
        (Function.update ((s.setRefs p a (s.refs p a - 1)).refs q) a (s.refs q a + 1))
      have hbefore := h.count b
      rw [State.refs_setRefs] at h₂
      rw [State.count_setRefs, State.count_setRefs, State.refs_setRefs, State.refs_setRefs]
      rw [Function.update_of_ne hq] at h₂ ⊢
      by_cases hb : b = a
      · subst hb
        rw [Function.update_self] at h₁ h₂
        omega
      · rw [Function.update_of_ne hb] at h₁ h₂
        omega
    counts := h.counts
    hash := h.hash
    lock := h.lock
    owned := by
      intro r b hb
      have hrp : r ≠ p := by
        rintro rfl
        rw [State.setRefs, State.setRefs, hp] at hb
        cases hb
      exact (h.owned r b hb).trans_le (hrefs r b hrp)
    sole := h.sole
    alone := h.alone
    table := h.table.congr rfl (fun _ => Iff.rfl) rfl fun _ => rfl
    knows := fun r => (h.knows r).frame (fun _ _ => rfl) (fun _ _ _ => rfl)
      fun _ => ⟨rfl, fun _ => rfl, fun _ _ => rfl⟩ }

end Inv

end Somenote.Refs
