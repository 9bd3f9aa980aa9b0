import Somenote.Poll.Source

/-! # The table of the poll server

The loop keeps its clients in the slots of the table, each in one, and never touches the first
slot. That slot does not watch the listening descriptor: the loop that marks the free slots
has marked it too, and no client is ever accepted.
-/

namespace Somenote.Poll

variable {openMax listenfd i c : ℕ} {v v₀ : Vars} {conns conns₀ : Finset ℕ} {fd₀ : ℤ}
  {events₀ : Finset Flag}

/-- The first slot watches the listening descriptor, the other ones up to `maxi` hold the open
connections, each in one and watched, and those above `maxi` are free. -/
def Table (openMax listenfd : ℕ) (v : Vars) (conns : Finset ℕ) : Prop :=
  ((v.client 0).fd = listenfd ∧ (v.client 0).events = {.rdnorm}) ∧
    (∀ c : ℕ, c ∈ conns ↔ ∃ i, 1 ≤ i ∧ i ≤ v.maxi ∧ (v.client i).fd = c) ∧
    (∀ i j (c : ℕ), 1 ≤ i → i ≤ v.maxi → 1 ≤ j → j ≤ v.maxi → (v.client i).fd = c →
      (v.client j).fd = c → i = j) ∧
    (∀ i, 1 ≤ i → i ≤ v.maxi → 0 ≤ (v.client i).fd → (v.client i).events = {.rdnorm}) ∧
    ∀ i, v.maxi < i → i < openMax → (v.client i).fd = -1

/-- What the loop keeps: the first slot, and the clients in the others. -/
structure Kept (openMax listenfd : ℕ) (fd₀ : ℤ) (events₀ : Finset Flag) (v : Vars)
    (conns : Finset ℕ) : Prop where
  head_fd : (v.client 0).fd = fd₀
  head_events : (v.client 0).events = events₀
  slots : Slots 1 openMax v.maxi (fun i => (v.client i).fd) conns
  events : ∀ i, 1 ≤ i → i < openMax → 0 ≤ (v.client i).fd → (v.client i).events = {.rdnorm}
  listener : listenfd ∉ conns

namespace Kept

theorem table_iff (h : Kept openMax listenfd fd₀ events₀ v conns) :
    Table openMax listenfd v conns ↔ fd₀ = listenfd ∧ events₀ = {.rdnorm} := by
  have hlt := h.slots.maxi_lt
  constructor
  · rintro ⟨⟨hfd, hev⟩, -⟩
    exact ⟨h.head_fd.symm.trans hfd, h.head_events.symm.trans hev⟩
  · rintro ⟨rfl, rfl⟩
    refine ⟨⟨h.head_fd, h.head_events⟩, fun c => ⟨fun hc => ?_, ?_⟩, ?_, ?_, ?_⟩
    · obtain ⟨i, hlo, hn, hle, hi⟩ := h.slots.exists_slot hc
      exact ⟨i, hlo, by omega, (hi i hlo hn).mpr rfl⟩
    · rintro ⟨i, hlo, hle, hi⟩
      exact h.slots.mem hlo (by omega) hi
    · intro i j c hi hi' hj hj'
      exact h.slots.inj i j c hi (by omega) hj (by omega)
    · intro i hi hi'
      exact h.events i hi (by omega)
    · intro i hi hn
      exact h.slots.above i (by omega) hn (by omega)

theorem congr {v' : Vars} (h : Kept openMax listenfd fd₀ events₀ v conns)
    (hfd : ∀ i, (v'.client i).fd = (v.client i).fd)
    (hev : ∀ i, (v'.client i).events = (v.client i).events) (hm : v'.maxi = v.maxi) :
    Kept openMax listenfd fd₀ events₀ v' conns where
  head_fd := by rw [hfd, h.head_fd]
  head_events := by rw [hev, h.head_events]
  slots := by
    rw [hm, funext hfd]
    exact h.slots
  events i hi hn hpos := by
    rw [hev]
    exact h.events i hi hn (hfd i ▸ hpos)
  listener := h.listener

theorem accept {n : ℤ} (h : Kept openMax listenfd fd₀ events₀ v conns)
    (hc : c ∉ insert listenfd conns) (hlo : 1 ≤ i) (hn : i < openMax) (hi : (v.client i).fd < 0) :
    Kept openMax listenfd fd₀ events₀ { v with
      client := Function.update v.client i { v.client i with fd := c, events := {.rdnorm} }
      maxi := if i > v.maxi then i else v.maxi
      nready := n } (insert c conns) where
  head_fd := by
    dsimp only
    rw [Function.update_of_ne (by omega)]
    exact h.head_fd
  head_events := by
    dsimp only
    rw [Function.update_of_ne (by omega)]
    exact h.head_events
  slots := by
    have hlt := h.slots.maxi_lt
    rw [Finset.mem_insert, not_or] at hc
    have hup : (fun j => (Function.update v.client i
        { v.client i with fd := c, events := {.rdnorm} } j).fd) =
        Function.update (fun j => (v.client j).fd) i (c : ℤ) :=
      Function.comp_update Pollfd.fd v.client i _
    dsimp only
    rw [hup]
    split
    · exact h.slots.insert hlo hn hi hc.2 (by omega) le_rfl (by omega)
    · exact h.slots.insert hlo hn hi hc.2 le_rfl (by omega) hlt
  events j hj hjn hpos := by
    dsimp only at hpos ⊢
    by_cases hji : j = i
    · subst hji
      rw [Function.update_self]
    · rw [Function.update_of_ne hji] at hpos ⊢
      exact h.events j hj hjn hpos
  listener hm := by
    rcases Finset.mem_insert.mp hm with heq | hm
    · exact hc (heq ▸ Finset.mem_insert_self ..)
    · exact h.listener hm

theorem close (h : Kept openMax listenfd fd₀ events₀ v conns) (hlo : 1 ≤ i) (hn : i < openMax)
    (hi : (v.client i).fd = c) :
    Kept openMax listenfd fd₀ events₀ { v with client := setFd v.client i (-1) }
      (conns.erase c) where
  head_fd := by
    dsimp only [setFd]
    rw [Function.update_of_ne (by omega)]
    exact h.head_fd
  head_events := by
    dsimp only [setFd]
    rw [Function.update_of_ne (by omega)]
    exact h.head_events
  slots := by
    have hup : (fun j => (setFd v.client i (-1) j).fd) =
        Function.update (fun j => (v.client j).fd) i (-1) :=
      Function.comp_update Pollfd.fd v.client i _
    dsimp only
    rw [hup]
    exact h.slots.erase hlo hn hi
  events j hj hjn hpos := by
    dsimp only [setFd] at hpos ⊢
    by_cases hji : j = i
    · subst hji
      rw [Function.update_self] at hpos
      simp at hpos
    · rw [Function.update_of_ne hji] at hpos ⊢
      exact h.events j hj hjn hpos
  listener hm := h.listener (Finset.mem_of_mem_erase hm)

end Kept

theorem kept_poll (h : Kept openMax listenfd fd₀ events₀ v conns) :
    (poll v).Obeys (runs listenfd) conns (Kept openMax listenfd fd₀ events₀) := by
  unfold poll
  refine Prog.obeys_call trivial ?_
  rintro ⟨revents, nready⟩ conns' ⟨-, -, -, -, rfl⟩
  refine h.congr (fun i => ?_) (fun i => ?_) rfl
  · dsimp only
    split <;> rfl
  · dsimp only
    split <;> rfl

theorem kept_acceptClient (h : Kept openMax listenfd fd₀ events₀ v conns) :
    (acceptClient openMax listenfd v).Obeys (runs listenfd) conns
      (Kept openMax listenfd fd₀ events₀) := by
  unfold acceptClient
  refine Prog.obeys_call trivial ?_
  rintro c conns' ⟨hc, rfl⟩
  dsimp only
  cases hfree : firstFree 1 openMax fun i => (v.client i).fd with
  | none => exact Prog.obeys_dump
  | some i =>
    obtain ⟨hlo, hn, hi⟩ := firstFree_some hfree
    exact h.accept hc hlo hn hi

theorem kept_close (h : Kept openMax listenfd fd₀ events₀ v conns) (hlo : 1 ≤ i)
    (hn : i < openMax) (hi : 0 ≤ (v.client i).fd) :
    (close (v.client i).fd >>= fun _ =>
      (pure { v with client := setFd v.client i (-1) } : PollProg Vars)).Obeys
      (runs listenfd) conns (Kept openMax listenfd fd₀ events₀) := by
  unfold close
  refine .bind (Prog.obeys_call trivial ?_)
  rintro done conns' rfl
  refine Prog.obeys_ite (fun _ => ?_) fun _ => Prog.obeys_dump
  exact h.close hlo hn (Int.toNat_of_nonneg hi).symm

theorem kept_serve (h : Kept openMax listenfd fd₀ events₀ v conns) (hlo : 1 ≤ i)
    (hn : i < openMax) (hi : 0 ≤ (v.client i).fd) :
    (serve i v).Obeys (runs listenfd) conns (Kept openMax listenfd fd₀ events₀) := by
  unfold serve
  refine Prog.obeys_call trivial ?_
  rintro (e | n) conns' rfl
  · exact Prog.obeys_ite (fun _ => kept_close h hlo hn hi) fun _ => Prog.obeys_dump
  · refine Prog.obeys_ite (fun _ => kept_close h hlo hn hi) fun _ => ?_
    unfold writen
    refine .bind (Prog.obeys_call trivial ?_)
    rintro done conns' rfl
    exact Prog.obeys_ite (fun _ => h) fun _ => Prog.obeys_dump

/-- What holds in a state of the loop. -/
def Holds (openMax listenfd : ℕ) (fd₀ : ℤ) (events₀ : Finset Flag) (x : Pc × Vars)
    (conns : Finset ℕ) : Prop :=
  Kept openMax listenfd fd₀ events₀ x.2 conns ∧ ∀ i, x.1 = .client i → 1 ≤ i

theorem holds_segment {x : Pc × Vars} (h : Holds openMax listenfd fd₀ events₀ x conns) :
    (segment openMax listenfd x).Obeys (runs listenfd) conns fun o conns' =>
      ∀ y, o = some y → Holds openMax listenfd fd₀ events₀ y conns' := by
  obtain ⟨pc, v⟩ := x
  obtain ⟨hk, hpc⟩ := h
  dsimp only at hk
  cases pc with
  | top =>
    refine .bind ((kept_poll hk).mono fun v conns hk => ?_)
    refine Prog.obeys_ite (fun _ => ?_) fun _ => ?_
    · refine .bind ((kept_acceptClient hk).mono fun v' conns' hk' => ?_)
      rintro y ⟨⟩
      refine ⟨hk', ?_⟩
      dsimp only
      split <;> rintro i ⟨⟩
      exact le_rfl
    · rintro y ⟨⟩
      refine ⟨hk, ?_⟩
      rintro i ⟨⟩
      exact le_rfl
  | client i =>
    have hlo := hpc i rfl
    have hlt := hk.slots.maxi_lt
    refine Prog.obeys_ite (fun hle => ?_) fun _ => ?_
    · refine Prog.obeys_ite (fun _ => ?_) fun hfd => ?_
      · rintro y ⟨⟩
        refine ⟨hk, ?_⟩
        rintro j ⟨⟩
        omega
      · refine Prog.obeys_ite (fun _ => ?_) fun _ => ?_
        · refine .bind ((kept_serve hk hlo (by omega) (by omega)).mono fun v' conns' hk' => ?_)
          rintro y ⟨⟩
          refine ⟨hk'.congr (fun _ => rfl) (fun _ => rfl) rfl, ?_⟩
          dsimp only
          split <;> rintro j ⟨⟩
          omega
        · rintro y ⟨⟩
          refine ⟨hk, ?_⟩
          rintro j ⟨⟩
          omega
    · rintro y ⟨⟩
      refine ⟨hk, ?_⟩
      rintro j ⟨⟩

/-- Behind a table whose clients are in order, the whole table is in order if and only if its
first slot was at the start. -/
theorem Behind.table_iff {x : Pc × Vars} (hr : Behind openMax listenfd v₀ conns₀ x conns)
    (h : Kept openMax listenfd (v₀.client 0).fd (v₀.client 0).events v₀ conns₀) :
    Table openMax listenfd x.2 conns ↔
      (v₀.client 0).fd = listenfd ∧ (v₀.client 0).events = {.rdnorm} := by
  have hinv : Holds openMax listenfd (v₀.client 0).fd (v₀.client 0).events x conns := by
    refine hr.inv ⟨h, ?_⟩ fun _ _ => holds_segment
    rintro i ⟨⟩
  exact hinv.1.table_iff

theorem kept_init {client : ℕ → Pollfd} (hopen : 0 < openMax) :
    Kept openMax listenfd (-1) {.rdnorm} (.init openMax listenfd client) ∅ where
  head_fd := by simp [Vars.init, hopen]
  head_events := by simp [Vars.init, hopen]
  slots := .empty (fun i _ hn => by simp [Vars.init, hn]) (by simpa [Vars.init] using hopen)
  events i hi hn hpos := by simp [Vars.init, hn] at hpos
  listener := Finset.notMem_empty _

/-- The table of the server is in order in no state of the loop. -/
theorem table_never {client : ℕ → Pollfd} {x : Pc × Vars} (hopen : 0 < openMax)
    (hr : Reachable openMax listenfd client x conns) : ¬ Table openMax listenfd x.2 conns := by
  have hk : Kept openMax listenfd (-1) {.rdnorm} (.init openMax listenfd client) ∅ := kept_init hopen
  have hhead := hk.head_fd
  rw [hr.table_iff (by rw [hhead, hk.head_events]; exact hk), hhead]
  rintro ⟨hfd, -⟩
  omega

def blank (_ : ℕ) : Pollfd := ⟨0, ∅, ∅⟩

/-- The first slot is marked free in front of the loop. -/
theorem first_slot_free : ¬ ∀ x conns, Reachable 4 3 blank x conns → Table 4 3 x.2 conns := by
  intro hall
  have hfd := (hall _ _ .start).1.1
  simp [Vars.init] at hfd

theorem table_never_sample : ¬ Table 4 3 (Vars.init 4 3 blank) ∅ := by
  have s₀ : Reachable 4 3 blank (.top, .init 4 3 blank) ∅ := .start
  exact table_never (by decide) s₀

end Somenote.Poll
