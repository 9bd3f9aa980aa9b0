import Mathlib.Data.Nat.Basic
import Mathlib.Tactic.SplitIfs
import Somenote.Popen.Source

/-! # Failed calls

What a call of `popen` leads to, by the point that it reaches. A call that fails in front of the
fork gives everything back, and one that fails behind it does not.
-/

namespace Somenote.Popen

variable {cmdstring : String} {type : List Char} {e : Replies} {s : Parent} {pfd : ℕ × ℕ}
  {i j pid : ℕ} {fp : File} {fds : Fds} {dups : Prop}

@[simp] theorem close_self : close fds i i = none := Function.update_self ..

theorem close_of_ne (h : j ≠ i) : close fds i j = fds j := Function.update_of_ne h ..

@[simp] theorem dup2_self : dup2 fds i j j = fds i := Function.update_self ..

theorem dup2_of_ne {k : ℕ} (h : k ≠ j) : dup2 fds i j k = fds k := Function.update_of_ne h ..

section Opened

theorem opened_fst (h : pfd.1 ≠ pfd.2) :
    (s.opened pfd).fds pfd.1 = some (.pipe s.pipes .read) :=
  (Function.update_of_ne h ..).trans (Function.update_self ..)

theorem opened_snd : (s.opened pfd).fds pfd.2 = some (.pipe s.pipes .write) :=
  Function.update_self ..

theorem opened_of_ne (h₁ : i ≠ pfd.1) (h₂ : i ≠ pfd.2) : (s.opened pfd).fds i = s.fds i :=
  (Function.update_of_ne h₂ ..).trans (Function.update_of_ne h₁ ..)

theorem close_opened (h₁ : s.fds pfd.1 = none) (h₂ : s.fds pfd.2 = none) :
    close (close (s.opened pfd).fds pfd.1) pfd.2 = s.fds := by
  funext i
  rcases eq_or_ne i pfd.2 with rfl | hi₂
  · rw [close_self, h₂]
  rcases eq_or_ne i pfd.1 with rfl | hi₁
  · rw [close_of_ne hi₂, close_self, h₁]
  · rw [close_of_ne hi₂, close_of_ne hi₁, opened_of_ne hi₁ hi₂]

theorem close_opened_ends (h : pfd.1 ≠ pfd.2) :
    close (s.opened pfd).fds (ends type pfd).2 (ends type pfd).1 ≠ none := by
  unfold ends
  split_ifs
  · rw [close_of_ne h, opened_fst h]
    exact Option.some_ne_none _
  · rw [close_of_ne h.symm, opened_snd]
    exact Option.some_ne_none _

end Opened

section Allocate

/-- The size of the table behind the allocation. -/
def limit (e : Replies) (s : Parent) : ℕ := if s.childpid.isNone then e.openMax else s.maxfd

theorem allocate_eq : allocate e s = { s with
    childpid := (allocate e s).childpid, maxfd := limit e s, errno := (allocate e s).errno } := by
  obtain ⟨fds, childpid, maxfd, errno, streams, children, pipes⟩ := s
  rcases childpid with _ | t
  · rcases hc : e.calloc <;> simp [allocate, limit, hc]
  · rfl

@[simp] theorem allocate_fds : (allocate e s).fds = s.fds := by
  rw [allocate_eq]

@[simp] theorem allocate_maxfd : (allocate e s).maxfd = limit e s := by
  rw [allocate_eq]

@[simp] theorem allocate_streams : (allocate e s).streams = s.streams := by
  rw [allocate_eq]

@[simp] theorem allocate_children : (allocate e s).children = s.children := by
  rw [allocate_eq]

@[simp] theorem allocate_pipes : (allocate e s).pipes = s.pipes := by
  rw [allocate_eq]

@[simp] theorem allocate_entry : (allocate e s).entry i = s.entry i := by
  rcases hs : s.childpid with _ | t
  · rcases hc : e.calloc <;> simp [allocate, Parent.entry, hs, hc]
  · simp [allocate, Parent.entry, hs]

theorem allocate_eq_none :
    (allocate e s).childpid = none ↔ s.childpid = none ∧ e.calloc = false := by
  rcases hs : s.childpid with _ | t
  · rcases hc : e.calloc <;> simp [allocate, hs, hc]
  · simp [allocate, hs]

end Allocate

/-- What a call of `popen` leads to, by the point that it reaches. -/
inductive Course (cmdstring : String) (type : List Char) (e : Replies) (s : Parent) :
    Outcome → Prop
  | badType (h : BadType type) : Course cmdstring type e s ⟨none, { s with errno := EINVAL }, none⟩
  | calloc (h : ¬ BadType type) (hs : s.childpid = none) (hc : e.calloc = false) :
      Course cmdstring type e s ⟨none, allocate e s, none⟩
  | pipe (h : ¬ BadType type) (hs : (allocate e s).childpid ≠ none) (hp : e.pipe = none) :
      Course cmdstring type e s ⟨none, { allocate e s with errno := e.errno }, none⟩
  | tooHigh (pfd : ℕ × ℕ) (h : ¬ BadType type) (hs : (allocate e s).childpid ≠ none)
      (hp : e.pipe = some pfd) (hlim : limit e s ≤ pfd.1 ∨ limit e s ≤ pfd.2) :
      Course cmdstring type e s ⟨none, { (allocate e s).opened pfd with
        fds := close (close ((allocate e s).opened pfd).fds pfd.1) pfd.2, errno := EMFILE }, none⟩
  | fork (pfd : ℕ × ℕ) (h : ¬ BadType type) (hs : (allocate e s).childpid ≠ none)
      (hp : e.pipe = some pfd) (hlim : pfd.1 < limit e s ∧ pfd.2 < limit e s)
      (hf : e.fork = none) :
      Course cmdstring type e s ⟨none, { (allocate e s).opened pfd with errno := e.errno }, none⟩
  | fdopen (pfd : ℕ × ℕ) (pid : ℕ) (h : ¬ BadType type) (hs : (allocate e s).childpid ≠ none)
      (hp : e.pipe = some pfd) (hlim : pfd.1 < limit e s ∧ pfd.2 < limit e s)
      (hf : e.fork = some pid) (ho : e.fdopen = false) :
      Course cmdstring type e s ⟨none, { (allocate e s).opened pfd with
        children := pid :: s.children
        fds := close ((allocate e s).opened pfd).fds (ends type pfd).2
        errno := e.errno }, some (childOf cmdstring type pfd ((allocate e s).opened pfd))⟩
  | done (pfd : ℕ × ℕ) (pid : ℕ) (h : ¬ BadType type) (hs : (allocate e s).childpid ≠ none)
      (hp : e.pipe = some pfd) (hlim : pfd.1 < limit e s ∧ pfd.2 < limit e s)
      (hf : e.fork = some pid) (ho : e.fdopen = true) :
      Course cmdstring type e s ⟨some ⟨(ends type pfd).1, s.pipes⟩,
        { (allocate e s).opened pfd with
          children := pid :: s.children
          fds := close ((allocate e s).opened pfd).fds (ends type pfd).2
          childpid := (allocate e s).childpid.map fun t =>
            Function.update t (ends type pfd).1 pid
          streams := ⟨(ends type pfd).1, s.pipes⟩ :: s.streams },
        some (childOf cmdstring type pfd ((allocate e s).opened pfd))⟩

theorem popen_course (cmdstring : String) (type : List Char) (e : Replies) (s : Parent) :
    Course cmdstring type e s (popen cmdstring type e s) := by
  unfold popen
  dsimp only
  split_ifs with h hnone
  · exact .badType h
  · have hnone := allocate_eq_none.mp (Option.isNone_iff_eq_none.mp hnone)
    exact .calloc h hnone.1 hnone.2
  have hs : (allocate e s).childpid ≠ none := by simpa using hnone
  rcases hp : e.pipe with _ | pfd
  · exact .pipe h hs hp
  dsimp only
  by_cases hlim : limit e s ≤ pfd.1 ∨ limit e s ≤ pfd.2
  · rw [connect, if_pos (by simpa [Parent.opened] using hlim)]
    exact .tooHigh pfd h hs hp hlim
  rw [connect, if_neg (by simpa [Parent.opened] using hlim)]
  rw [not_or, Nat.not_le, Nat.not_le] at hlim
  rcases hf : e.fork with _ | pid
  · exact .fork pfd h hs hp hlim hf
  dsimp only
  rcases ho : e.fdopen
  · have hcourse : Course cmdstring type e s _ := .fdopen pfd pid h hs hp hlim hf ho
    rw [if_neg (by simp)]
    simpa [Parent.opened] using hcourse
  · have hcourse : Course cmdstring type e s _ := .done pfd pid h hs hp hlim hf ho
    rw [if_pos rfl]
    simpa [Parent.opened] using hcourse

section Failure

/-- What a failed call is to leave as it was: the descriptors, the entries of the streams that are
open, and each child has been there or has an entry. -/
structure Kept (s s' : Parent) : Prop where
  fds : s'.fds = s.fds
  entries : ∀ fp ∈ s.streams, s'.entry fp.fileno = s.entry fp.fileno
  children : ∀ pid ∈ s'.children, pid ∈ s.children ∨ ∃ i, s'.entry i = pid

/-- The type is bad, there is no room for the table, no pipe, or an end of it is too high. -/
def FailsEarly (type : List Char) (e : Replies) (s : Parent) : Prop :=
  BadType type ∨ (s.childpid = none ∧ e.calloc = false) ∨ e.pipe = none ∨
    ∃ pfd, e.pipe = some pfd ∧ (limit e s ≤ pfd.1 ∨ limit e s ≤ pfd.2)

theorem not_failsEarly (h : ¬ BadType type) (hs : (allocate e s).childpid ≠ none)
    (hp : e.pipe = some pfd) (hlim : pfd.1 < limit e s ∧ pfd.2 < limit e s) :
    ¬ FailsEarly type e s := by
  rintro (hbad | hnone | hpipe | ⟨pfd', hpfd, hhigh⟩)
  · exact h hbad
  · exact hs (allocate_eq_none.mpr hnone)
  · rw [hp] at hpipe
    cases hpipe
  · rw [hp] at hpfd
    cases hpfd
    omega

/-- A call that fails leaves the process as it was if and only if it fails in front of the fork. -/
theorem popen_kept_iff (cmdstring : String) (type : List Char) (e : Replies) (s : Parent)
    (he : e.Fits s) (hnull : (popen cmdstring type e s).fp = none) :
    Kept s (popen cmdstring type e s).parent ↔ FailsEarly type e s := by
  have hcourse := popen_course cmdstring type e s
  generalize popen cmdstring type e s = o at hcourse hnull
  cases hcourse with
  | badType h =>
    exact iff_of_true ⟨rfl, fun _ _ => rfl, fun _ hpid => Or.inl hpid⟩ (Or.inl h)
  | calloc h hs hc =>
    exact iff_of_true ⟨allocate_fds, fun _ _ => allocate_entry,
      fun pid hpid => Or.inl (allocate_children ▸ hpid)⟩ (Or.inr (Or.inl ⟨hs, hc⟩))
  | pipe h hs hp =>
    exact iff_of_true ⟨allocate_fds, fun _ _ => allocate_entry,
      fun pid hpid => Or.inl (allocate_children ▸ hpid)⟩ (Or.inr (Or.inr (Or.inl hp)))
  | tooHigh pfd h hs hp hlim =>
    obtain ⟨h₁, h₂, -⟩ := he.pipe pfd hp
    refine iff_of_true ⟨?_, fun _ _ => allocate_entry,
      fun pid hpid => Or.inl (allocate_children ▸ hpid)⟩ (Or.inr (Or.inr (Or.inr ⟨pfd, hp, hlim⟩)))
    dsimp only
    rw [close_opened (by rw [allocate_fds, h₁]) (by rw [allocate_fds, h₂]), allocate_fds]
  | fork pfd h hs hp hlim hf =>
    obtain ⟨-, h₂, -⟩ := he.pipe pfd hp
    refine iff_of_false (fun hkept => ?_) (not_failsEarly h hs hp hlim)
    have hend := congrFun hkept.fds pfd.2
    rw [h₂] at hend
    exact absurd (opened_snd.symm.trans hend) (Option.some_ne_none _)
  | fdopen pfd pid h hs hp hlim hf ho =>
    obtain ⟨h₁, h₂, hne⟩ := he.pipe pfd hp
    refine iff_of_false (fun hkept => ?_) (not_failsEarly h hs hp hlim)
    have hend := congrFun hkept.fds (ends type pfd).1
    have hnone : s.fds (ends type pfd).1 = none := by
      unfold ends
      split_ifs
      · exact h₁
      · exact h₂
    rw [hnone] at hend
    exact close_opened_ends hne hend
  | done => cases hnull

/-- The three standard descriptors are open. -/
def console : Fds := fun i => if i < 3 then some .other else none

/-- A process that has not called `popen`. -/
def begun : Parent := ⟨console, none, 0, 0, [], [], 0⟩

theorem reachable_begun : Reachable dups begun :=
  .start console 0 fun i => by
    unfold console
    split_ifs
    · exact Or.inr rfl
    · exact Or.inl rfl

/-- The process with a stream from its first child. -/
def oneStream : Parent := (popen "ls" ['r'] ⟨16, true, some (3, 4), some 100, true, 0⟩ begun).parent

theorem reachable_oneStream : Reachable dups oneStream :=
  reachable_begun.popen "ls" ['r'] ⟨16, true, some (3, 4), some 100, true, 0⟩
    ⟨fun _ hp => by cases hp; decide, fun _ hf => by cases hf; decide⟩

/-- Behind an open stream: an end of the pipe is too high, and the fork and `fdopen` fail. -/
theorem popen_kept_sample :
    Kept oneStream (popen "cat" ['w'] ⟨16, true, some (15, 16), some 101, true, 0⟩ oneStream).parent ∧
    ¬ Kept oneStream (popen "cat" ['w'] ⟨16, true, some (4, 5), none, true, 11⟩ oneStream).parent ∧
    ¬ Kept oneStream
      (popen "cat" ['w'] ⟨16, true, some (4, 5), some 101, false, 12⟩ oneStream).parent := by
  refine ⟨(popen_kept_iff "cat" ['w'] ⟨16, true, some (15, 16), some 101, true, 0⟩ oneStream
      ⟨fun _ hp => by cases hp; decide, fun _ hf => by cases hf; decide⟩ rfl).mpr ?_,
    mt (popen_kept_iff "cat" ['w'] ⟨16, true, some (4, 5), none, true, 11⟩ oneStream
      ⟨fun _ hp => by cases hp; decide, fun _ hf => by cases hf⟩ rfl).mp ?_,
    mt (popen_kept_iff "cat" ['w'] ⟨16, true, some (4, 5), some 101, false, 12⟩ oneStream
      ⟨fun _ hp => by cases hp; decide, fun _ hf => by cases hf; decide⟩ rfl).mp ?_⟩
  · exact Or.inr (Or.inr (Or.inr ⟨(15, 16), rfl, by decide⟩))
  · exact not_failsEarly (by decide) (Option.some_ne_none _) rfl (by decide)
  · exact not_failsEarly (by decide) (Option.some_ne_none _) rfl (by decide)

/-- When the fork fails, both ends of the pipe stay open. -/
theorem popen_leaks : ¬ ∀ cmdstring type e s, Reachable False s → e.Fits s →
    (popen cmdstring type e s).fp = none → Kept s (popen cmdstring type e s).parent := by
  intro hall
  have hkept := hall "ls" ['r'] ⟨16, true, some (3, 4), none, true, 11⟩ begun reachable_begun
    ⟨fun _ hp => by cases hp; decide, fun _ hf => by cases hf⟩ rfl
  exact absurd (congrFun hkept.fds 3) (by decide)

end Failure

end Somenote.Popen
