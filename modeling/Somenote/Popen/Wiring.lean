import Somenote.Popen.Course

/-! # The wiring of a child

The child of a call of `popen` has its end of the new pipe unless the table has an entry for the
standard descriptor itself, and no end of another stream unless one was duplicated.
-/

namespace Somenote.Popen

variable {cmdstring : String} {type : List Char} {e : Replies} {s : Parent} {pfd : ℕ × ℕ}
  {i j id pid : ℕ} {fp : File} {fds : Fds} {dups : Prop}

section Invariant

/-- The invariant of the process. Where nothing is duplicated, each end of a stream's pipe that is
open has an entry in the table. -/
structure Inv (dups : Prop) (s : Parent) : Prop where
  pipes : ∀ i id side, s.fds i = some (.pipe id side) → id < s.pipes
  streams : ∀ fp ∈ s.streams, fp.pipe < s.pipes
  table : s.childpid = none → s.streams = []
  guarded : ¬ dups → ∀ fp ∈ s.streams, ∀ i side, s.fds i = some (.pipe fp.pipe side) →
    i < s.maxfd ∧ 0 < s.entry i

variable {s' : Parent}

/-- A step without a new stream, in which the old pipes get no new ends and keep their entries. -/
theorem Inv.step (h : Inv dups s) (hle : s.pipes ≤ s'.pipes)
    (hpipes : ∀ i id side, s'.fds i = some (.pipe id side) → id < s'.pipes)
    (hstreams : ∀ fp ∈ s'.streams, fp ∈ s.streams)
    (htable : s'.childpid = none → s.childpid = none)
    (hmaxfd : s.childpid ≠ none → s'.maxfd = s.maxfd)
    (hfds : ¬ dups → ∀ i id side, s'.fds i = some (.pipe id side) → id < s.pipes →
      s.fds i = some (.pipe id side) ∧ s'.entry i = s.entry i) : Inv dups s' where
  pipes := hpipes
  streams fp hfp := lt_of_lt_of_le (h.streams fp (hstreams fp hfp)) hle
  table hnone := by
    have hnil := h.table (htable hnone)
    refine List.eq_nil_iff_forall_not_mem.mpr fun fp hfp => ?_
    have hmem := hstreams fp hfp
    rw [hnil] at hmem
    cases hmem
  guarded hd fp hfp i side hi := by
    have hmem := hstreams fp hfp
    have hsome : s.childpid ≠ none := fun hnone => by
      rw [h.table hnone] at hmem
      cases hmem
    obtain ⟨hold, hentry⟩ := hfds hd i _ side hi (h.streams fp hmem)
    rw [hentry, hmaxfd hsome]
    exact h.guarded hd fp hmem i side hold

theorem Inv.start {errno : ℕ} (h : ∀ i, fds i = none ∨ fds i = some .other) :
    Inv dups ⟨fds, none, 0, errno, [], [], 0⟩ where
  pipes i id side hi := by
    dsimp only at hi
    rcases h i with hi' | hi' <;> rw [hi'] at hi <;> cases hi
  streams fp hfp := by cases hfp
  table _ := rfl
  guarded _ fp hfp := by cases hfp

theorem pipe_of_update {x : Option Desc} {side : Side} (hx : ∀ id side, x ≠ some (.pipe id side))
    (hj : Function.update fds i x j = some (.pipe id side)) :
    j ≠ i ∧ fds j = some (.pipe id side) := by
  rcases eq_or_ne j i with rfl | hne
  · rw [Function.update_self] at hj
    exact absurd hj (hx id side)
  · rw [Function.update_of_ne hne] at hj
    exact ⟨hne, hj⟩

theorem Inv.update (h : Inv dups s) {x : Option Desc} (hx : ∀ id side, x ≠ some (.pipe id side)) :
    Inv dups { s with fds := Function.update s.fds i x } :=
  h.step le_rfl (fun j id side hj => h.pipes j id side (pipe_of_update hx hj).2)
    (fun _ hfp => hfp) id (fun _ => rfl) fun _ _ _ _ hj _ => ⟨(pipe_of_update hx hj).2, rfl⟩

theorem Inv.closed (h : Inv dups s) : Inv dups { s with fds := close s.fds i } :=
  h.update fun _ _ hx => by cases hx

theorem Inv.opened (h : Inv dups s) :
    Inv dups { s with fds := Function.update s.fds i (some .other) } :=
  h.update fun _ _ hx => by cases hx

theorem Inv.dup (h : Inv dups s) (hd : dups) : Inv dups { s with fds := dup2 s.fds i j } := by
  refine h.step le_rfl (fun k id side hk => ?_) (fun _ hfp => hfp) id (fun _ => rfl)
    fun hnot => absurd hd hnot
  dsimp only at hk
  rcases eq_or_ne k j with rfl | hne
  · rw [dup2_self] at hk
    exact h.pipes i id side hk
  · rw [dup2_of_ne hne] at hk
    exact h.pipes k id side hk

theorem Inv.errno (h : Inv dups s) {n : ℕ} : Inv dups { s with errno := n } :=
  ⟨h.pipes, h.streams, h.table, h.guarded⟩

theorem Inv.children (h : Inv dups s) {l : List ℕ} : Inv dups { s with children := l } :=
  ⟨h.pipes, h.streams, h.table, h.guarded⟩

theorem Inv.allocate (h : Inv dups s) : Inv dups (allocate e s) := by
  refine h.step (Nat.le_of_eq allocate_pipes.symm) ?_ ?_ ?_ ?_ ?_
  · intro i id side hi
    rw [allocate_fds] at hi
    rw [allocate_pipes]
    exact h.pipes i id side hi
  · exact fun fp hfp => allocate_streams ▸ hfp
  · exact fun hnone => (allocate_eq_none.mp hnone).1
  · intro hsome
    rw [allocate_maxfd, limit, if_neg (by simpa using hsome)]
  · intro _ i id side hi _
    rw [allocate_fds] at hi
    exact ⟨hi, allocate_entry⟩

theorem Inv.pipe (h : Inv dups s) : Inv dups (s.opened pfd) := by
  have hold : ∀ i id side, (s.opened pfd).fds i = some (.pipe id side) →
      s.fds i = some (.pipe id side) ∨ id = s.pipes := by
    intro i id side hi
    rcases eq_or_ne i pfd.2 with rfl | hi₂
    · rw [opened_snd] at hi
      cases hi
      exact Or.inr rfl
    rcases eq_or_ne i pfd.1 with rfl | hi₁
    · rw [opened_fst hi₂] at hi
      cases hi
      exact Or.inr rfl
    · exact Or.inl (opened_of_ne hi₁ hi₂ ▸ hi)
  refine h.step (Nat.le_succ _) ?_ (fun _ hfp => hfp) id (fun _ => rfl) ?_
  · intro i id side hi
    rcases hold i id side hi with hi | rfl
    · exact Nat.lt_succ_of_lt (h.pipes i id side hi)
    · exact Nat.lt_succ_self _
  · intro _ i id side hi hid
    rcases hold i id side hi with hi | rfl
    · exact ⟨hi, rfl⟩
    · exact absurd hid (Nat.lt_irrefl _)

/-- The process gets a new stream, whose pipe has no other end in it. -/
theorem Inv.stream {childpid : ℕ → ℕ} (h : Inv dups s) (hs : s.childpid = some childpid)
    (hid : id < s.pipes) (hpid : 0 < pid) (hi : i < s.maxfd)
    (honly : ∀ j side, s.fds j = some (.pipe id side) → j = i) :
    Inv dups { s with
      childpid := some (Function.update childpid i pid), streams := ⟨i, id⟩ :: s.streams } where
  pipes := h.pipes
  streams fp hfp := by
    rcases List.mem_cons.mp hfp with rfl | hfp
    · exact hid
    · exact h.streams fp hfp
  table hnone := by cases hnone
  guarded hd fp hfp j side hj := by
    rcases List.mem_cons.mp hfp with rfl | hfp
    · rw [honly j side hj]
      refine ⟨hi, ?_⟩
      simpa [Parent.entry] using hpid
    · have hold := h.guarded hd fp hfp j side hj
      refine ⟨hold.1, ?_⟩
      rcases eq_or_ne j i with rfl | hne
      · simpa [Parent.entry] using hpid
      · simpa [Parent.entry, hs, Function.update_of_ne hne] using hold.2

theorem Inv.only (h : Inv dups s) {side : Side}
    (hj : close (s.opened pfd).fds (ends type pfd).2 j = some (.pipe s.pipes side)) :
    j = (ends type pfd).1 := by
  have hne : j ≠ (ends type pfd).2 := by
    rintro rfl
    rw [close_self] at hj
    cases hj
  rw [close_of_ne hne] at hj
  have hends : j = pfd.1 ∨ j = pfd.2 := by
    by_contra hnot
    rw [not_or] at hnot
    rw [opened_of_ne hnot.1 hnot.2] at hj
    exact absurd (h.pipes j _ side hj) (Nat.lt_irrefl _)
  unfold ends at hne ⊢
  split_ifs at hne ⊢
  · exact hends.resolve_right hne
  · exact hends.resolve_left hne

theorem Inv.popen (h : Inv dups s) (he : e.Fits s) :
    Inv dups (popen cmdstring type e s).parent := by
  have hcourse := popen_course cmdstring type e s
  generalize Popen.popen cmdstring type e s = o at hcourse
  cases hcourse with
  | badType => exact h.errno
  | calloc => exact h.allocate
  | pipe => exact h.allocate.errno
  | tooHigh => exact h.allocate.pipe.closed.closed.errno
  | fork => exact h.allocate.pipe.errno
  | fdopen => exact h.allocate.pipe.closed.children.errno
  | done pfd pid _ hs hp hlim hf ho =>
    obtain ⟨childpid, hchildpid⟩ := Option.ne_none_iff_exists'.mp hs
    have hkept : (ends type pfd).1 < limit e s := by
      unfold ends
      split_ifs
      · exact hlim.1
      · exact hlim.2
    rw [hchildpid, ← allocate_streams (e := e) (s := s)]
    exact (h.allocate.pipe.closed.children).stream hchildpid
      (by simp [Parent.opened]) (he.fork pid hf) (allocate_maxfd ▸ hkept)
      fun j side hj => h.allocate.only (by rw [allocate_pipes]; exact hj)

theorem Inv.drop {childpid : ℕ → ℕ} (h : Inv dups s) (hs : s.childpid = some childpid) :
    Inv dups { s with
      childpid := some (Function.update childpid fp.fileno 0)
      fds := Popen.close s.fds fp.fileno
      streams := s.streams.erase fp } := by
  have hold : ∀ i id side, Popen.close s.fds fp.fileno i = some (.pipe id side) →
      i ≠ fp.fileno ∧ s.fds i = some (.pipe id side) :=
    fun i id side hi => pipe_of_update (fun _ _ hx => by cases hx) hi
  refine h.step le_rfl (fun i id side hi => h.pipes i id side (hold i id side hi).2)
    (fun _ hfp => List.mem_of_mem_erase hfp) (fun hnone => by cases hnone) (fun _ => rfl) ?_
  intro _ i id side hi _
  obtain ⟨hne, hi⟩ := hold i id side hi
  refine ⟨hi, ?_⟩
  simp [Parent.entry, hs, Function.update_of_ne hne]

theorem Inv.pclose (h : Inv dups s) {e : CloseReplies} : Inv dups (pclose fp e s).2 := by
  unfold Popen.pclose
  split
  · exact h.errno
  next childpid hs =>
    dsimp only
    split_ifs
    · exact h.errno
    · exact h.errno
    · split
      · exact (h.drop hs).errno
      · exact (h.drop hs).children
    · exact (h.drop hs).errno

theorem Reachable.inv (h : Reachable dups s) : Inv dups s := by
  induction h with
  | start fds errno h => exact .start h
  | popen _ _ _ he _ ih => exact ih.popen he
  | pclose _ _ _ _ ih => exact ih.pclose
  | opened _ _ _ ih => exact ih.opened
  | close _ _ ih => exact ih.closed
  | dup _ _ hd _ ih => exact ih.dup hd

end Invariant

section Child

/-- The standard descriptor that the child is to have on the pipe. -/
def target (type : List Char) : ℕ :=
  if type.head? = some 'r' then STDOUT_FILENO else STDIN_FILENO

/-- The side of the pipe that the child is to have. -/
def side (type : List Char) : Side := if type.head? = some 'r' then .write else .read

/-- The child has its end of the pipe `id` as standard descriptor, and no end of a pipe of a
stream that is open. -/
structure Wired (type : List Char) (id : ℕ) (streams : List File) (c : Child) : Prop where
  target : c.fds (target type) = some (.pipe id (side type))
  others : ∀ fp ∈ streams, ∀ i side, c.fds i ≠ some (.pipe fp.pipe side)

/-- The end `j` of a pipe becomes the descriptor `i`, and the other end `k` is closed. -/
def moveTo (i j k : ℕ) (fds : Fds) : Fds :=
  if j ≠ i then close (dup2 (close fds k) j i) j else close fds k

theorem redirect_eq :
    redirect type pfd fds = moveTo (target type) (ends type pfd).2 (ends type pfd).1 fds := by
  unfold redirect moveTo target ends
  by_cases h : type.head? = some 'r'
  · simp only [if_pos h]
  · simp only [if_neg h]

theorem moveTo_self {k : ℕ} (hne : j ≠ k) : moveTo i j k fds i = fds j := by
  unfold moveTo
  split_ifs with hi
  · rw [close_of_ne (Ne.symm hi), dup2_self, close_of_ne hne]
  · rw [← not_ne_iff.mp hi, close_of_ne hne]

theorem moveTo_of_ne {k l : ℕ} (hl : l ≠ i) :
    moveTo i j k fds l = if l = j ∨ l = k then none else fds l := by
  unfold moveTo
  by_cases hj : l = j
  · subst hj
    rw [if_pos hl, close_self, if_pos (Or.inl rfl)]
  have hmove : (if j ≠ i then close (dup2 (close fds k) j i) j else close fds k) l =
      close fds k l := by
    split_ifs
    · rw [close_of_ne hj, dup2_of_ne hl]
    · rfl
  rw [hmove]
  by_cases hk : l = k
  · rw [if_pos (Or.inr hk), hk, close_self]
  · rw [if_neg (not_or.mpr ⟨hj, hk⟩), close_of_ne hk]

theorem closeAll_eq {childpid : ℕ → ℕ} {n : ℕ} :
    closeAll childpid n fds i = if i < n ∧ 0 < childpid i then none else fds i := by
  induction n with
  | zero => simp [closeAll]
  | succ n ih =>
    rw [closeAll]
    rcases eq_or_ne i n with rfl | hne
    · split_ifs with hpid hin hin
      · exact close_self
      · exact absurd ⟨Nat.lt_succ_self i, hpid⟩ hin
      · exact absurd hin.2 hpid
      · rw [ih, if_neg fun h => absurd h.1 (Nat.lt_irrefl i)]
    · have hlt : i < n + 1 ↔ i < n := by omega
      simp only [hlt]
      rw [← ih]
      split_ifs
      · exact close_of_ne hne
      · rfl

theorem childOf_target (h : pfd.1 ≠ pfd.2) : (childOf cmdstring type pfd (s.opened pfd)).fds
    (target type) = if target type < s.maxfd ∧ 0 < s.entry (target type) then none
      else some (.pipe s.pipes (side type)) := by
  have hend : (s.opened pfd).fds (ends type pfd).2 = some (.pipe s.pipes (side type)) := by
    unfold ends side
    split_ifs
    · exact opened_snd
    · exact opened_fst h
  have hne : (ends type pfd).2 ≠ (ends type pfd).1 := by
    unfold ends
    split_ifs
    · exact h.symm
    · exact h
  have hmove : redirect type pfd (s.opened pfd).fds (target type) =
      some (.pipe s.pipes (side type)) := by
    rw [redirect_eq, moveTo_self hne]
    exact hend
  exact closeAll_eq.trans (by rw [hmove]; rfl)

theorem childOf_of_ne (h₁ : s.fds pfd.1 = none) (h₂ : s.fds pfd.2 = none)
    (hi : i ≠ target type) : (childOf cmdstring type pfd (s.opened pfd)).fds i =
      if i < s.maxfd ∧ 0 < s.entry i then none else s.fds i := by
  have hmove : redirect type pfd (s.opened pfd).fds i = s.fds i := by
    have hends : (i = (ends type pfd).2 ∨ i = (ends type pfd).1) ↔ (i = pfd.1 ∨ i = pfd.2) := by
      unfold ends
      split_ifs
      · exact or_comm
      · exact Iff.rfl
    rw [redirect_eq, moveTo_of_ne hi]
    simp only [hends]
    split_ifs with hpfd
    · rcases hpfd with rfl | rfl
      · exact h₁.symm
      · exact h₂.symm
    · exact opened_of_ne (not_or.mp hpfd).1 (not_or.mp hpfd).2
  exact closeAll_eq.trans (by rw [hmove]; rfl)

theorem target_le : target type ≤ 1 := by
  unfold target
  split_ifs
  · exact Nat.le_refl 1
  · exact Nat.zero_le 1

theorem called_target (hne : pfd.1 ≠ pfd.2) (hlim : pfd.1 < limit e s ∧ pfd.2 < limit e s) :
    (childOf cmdstring type pfd ((allocate e s).opened pfd)).fds (target type) =
      if 0 < s.entry (target type) then none else some (.pipe s.pipes (side type)) := by
  have htarget : target type < limit e s := by
    have hle : target type ≤ 1 := target_le
    omega
  rw [childOf_target hne, allocate_maxfd, allocate_entry, allocate_pipes]
  simp only [htarget, true_and]

theorem called_of_ne (h₁ : s.fds pfd.1 = none) (h₂ : s.fds pfd.2 = none) (hi : i ≠ target type) :
    (childOf cmdstring type pfd ((allocate e s).opened pfd)).fds i =
      if i < limit e s ∧ 0 < s.entry i then none else s.fds i := by
  rw [childOf_of_ne (by rw [allocate_fds, h₁]) (by rw [allocate_fds, h₂]) hi, allocate_maxfd,
    allocate_entry, allocate_fds]

theorem popen_child {c : Child} (hc : (popen cmdstring type e s).child = some c) :
    ∃ pfd, e.pipe = some pfd ∧ (pfd.1 < limit e s ∧ pfd.2 < limit e s) ∧
      c = childOf cmdstring type pfd ((allocate e s).opened pfd) := by
  have hcourse := popen_course cmdstring type e s
  generalize popen cmdstring type e s = o at hcourse hc
  cases hcourse with
  | fdopen pfd pid _ _ hp hlim _ _ =>
    cases hc
    exact ⟨pfd, hp, hlim, rfl⟩
  | done pfd pid _ _ hp hlim _ _ =>
    cases hc
    exact ⟨pfd, hp, hlim, rfl⟩
  | _ => cases hc

/-- The descriptors that the child must not have are closed by the table. -/
def Covered (type : List Char) (e : Replies) (s : Parent) : Prop :=
  ∀ fp ∈ s.streams, ∀ i side, i ≠ target type → s.fds i = some (.pipe fp.pipe side) →
    i < limit e s ∧ 0 < s.entry i

theorem Inv.covered (h : Inv dups s) (hd : ¬ dups) : Covered type e s := by
  intro fp hfp i side _ hi
  have hsome : s.childpid ≠ none := by
    intro hnone
    rw [h.table hnone] at hfp
    cases hfp
  rw [limit, if_neg (by simpa using hsome)]
  exact h.guarded hd fp hfp i side hi

/-- The child is wired as it is to be if and only if the table has no entry for its standard
descriptor and has one for each duplicate of an end of a stream. Without duplicates, only the
first can fail. -/
theorem child_wired_iff (cmdstring : String) (type : List Char) (e : Replies) (s : Parent)
    (c : Child) (hs : Reachable dups s) (he : e.Fits s)
    (hc : (popen cmdstring type e s).child = some c) :
    (Wired type s.pipes s.streams c ↔ s.entry (target type) = 0 ∧ Covered type e s) ∧
      (¬ dups → (Wired type s.pipes s.streams c ↔ s.entry (target type) = 0)) := by
  have hinv := hs.inv
  obtain ⟨pfd, hp, hlim, rfl⟩ := popen_child hc
  obtain ⟨h₁, h₂, hne⟩ := he.pipe pfd hp
  have hiff : Wired type s.pipes s.streams (childOf cmdstring type pfd ((allocate e s).opened pfd)) ↔
      s.entry (target type) = 0 ∧ Covered type e s := by
    constructor
    · rintro ⟨hwired, hothers⟩
      constructor
      · rw [called_target hne hlim] at hwired
        split_ifs at hwired with hentry
        exact Nat.eq_zero_of_not_pos hentry
      · intro fp hfp i side hi hold
        by_contra hnot
        have hfree := hothers fp hfp i side
        rw [called_of_ne h₁ h₂ hi, if_neg hnot] at hfree
        exact hfree hold
    · rintro ⟨hzero, hcovered⟩
      have hwired : (childOf cmdstring type pfd ((allocate e s).opened pfd)).fds (target type) =
          some (.pipe s.pipes (side type)) := by
        rw [called_target hne hlim, if_neg (by omega)]
      constructor
      · exact hwired
      · intro fp hfp i side hi
        rcases eq_or_ne i (target type) with rfl | hi'
        · rw [hwired] at hi
          have hid : s.pipes = fp.pipe := (Desc.pipe.inj (Option.some.inj hi)).1
          exact absurd (hinv.streams fp hfp) (hid ▸ Nat.lt_irrefl _)
        · rw [called_of_ne h₁ h₂ hi'] at hi
          split_ifs at hi with hclosed
          exact hclosed (hcovered fp hfp i side hi' hi)
  exact ⟨hiff, fun hd => hiff.trans (and_iff_left (hinv.covered hd))⟩

/-- The second child of a process closes the stream of the first one, but not a duplicate. -/
theorem child_wired_sample :
    Wired ['w'] 1 [⟨3, 0⟩] (childOf "cat" ['w'] (4, 5)
      ((allocate ⟨16, true, some (4, 5), some 101, true, 0⟩ oneStream).opened (4, 5))) ∧
    ¬ Wired ['w'] 1 [⟨3, 0⟩] (childOf "cat" ['w'] (4, 5)
      ((allocate ⟨16, true, some (4, 5), some 101, true, 0⟩
        { oneStream with fds := dup2 oneStream.fds 3 6 }).opened (4, 5))) := by
  constructor
  · exact ((child_wired_iff "cat" ['w'] ⟨16, true, some (4, 5), some 101, true, 0⟩ oneStream _
      (reachable_oneStream : Reachable False oneStream)
      ⟨fun _ hp => by cases hp; decide, fun _ hf => by cases hf; decide⟩ rfl).2 id).mpr rfl
  · intro hwired
    have hcovered := ((child_wired_iff "cat" ['w'] ⟨16, true, some (4, 5), some 101, true, 0⟩ _ _
      (Reachable.dup 3 6 trivial (reachable_oneStream : Reachable True oneStream))
      ⟨fun _ hp => by cases hp; decide, fun _ hf => by cases hf; decide⟩ rfl).1.mp hwired).2
    exact absurd (hcovered ⟨3, 0⟩ List.mem_cons_self 6 .read (by decide) rfl) (by decide)

/-- With descriptor 1 closed, the first stream gets it, and the child of the second call closes its
standard output. -/
theorem child_unwired : ¬ ∀ cmdstring type e s c, Reachable False s → e.Fits s →
    (popen cmdstring type e s).child = some c → Wired type s.pipes s.streams c := by
  intro hall
  have hfirst := Reachable.popen "ls" ['r'] ⟨16, true, some (1, 3), some 100, true, 0⟩
    ⟨fun _ hp => by cases hp; decide, fun _ hf => by cases hf; decide⟩
    (Reachable.close 1 (reachable_begun : Reachable False begun))
  have hwired := hall "ls" ['r'] ⟨16, true, some (3, 4), some 101, true, 0⟩ _ _ hfirst
    ⟨fun _ hp => by cases hp; decide, fun _ hf => by cases hf; decide⟩ rfl
  exact absurd hwired.target (by decide)

end Child

end Somenote.Popen
