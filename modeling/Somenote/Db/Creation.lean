import Mathlib.Data.List.Basic
import Somenote.Db.Open
import Somenote.Db.Schedules

/-! # Creation by several processes

Processes create a database at the same path. Each truncates the index file when it opens
it, tests its size under a lock, and writes the initial image when the file is empty.
Whatever the order of the steps, a truncation is followed by a test of the same process.
-/

namespace Somenote.Db

/-- How far a call of `db_open` that creates a database has come. -/
inductive Stage
  | start | opened | both | locked | empty | filled | unlocked | done
  deriving DecidableEq

/-- What is left of the call at each stage. -/
inductive At {α : Type} : Stage → DbProg α → Prop
  | done (a : α) : At .done (.ret a)
  | unlocked {k} (h : At .done (k (some idxStart))) : At .unlocked (.call (.lseek .idx idxStart .set) k)
  | filled {k} (h : At .unlocked (k (some ()))) : At .filled (.call (.unlck .idx 0 0) k)
  | empty {k} (h : ∀ n, n = initImage.length → At .filled (k (some n))) : At .empty (.call (.write .idx initImage) k)
  | locked {k} (he : At .empty (k (some 0))) (hf : ∀ n, n ≠ 0 → At .filled (k (some n))) :
    At .locked (.call (.fstat .idx) k)
  | both {k} (h : At .locked (k (some ()))) : At .both (.call (.setlkw .idx .wr 0 0) k)
  | opened {k} (h : At .both (k (some ()))) : At .opened (.call (.openFd .dat .create) k)
  | start {k} (h : At .opened (k (some ()))) : At .start (.call (.openFd .idx .create) k)

theorem at_create {α : Type} (f : Option DB → α) :
    At .start (dbOpen .create >>= fun h => pure (f h)) := by
  have hrewind : At .unlocked (dbRewind dbAlloc >>= fun db => (pure (f (some db)) : DbProg α)) :=
    .unlocked (.done _)
  have hunlock : At .filled (orDump (.unlck .idx 0 0) .openUnLock >>= fun _ =>
      dbRewind dbAlloc >>= fun db => (pure (f (some db)) : DbProg α)) := .filled hrewind
  have hinit : At .both (initIndex >>= fun _ =>
      dbRewind dbAlloc >>= fun db => (pure (f (some db)) : DbProg α)) := by
    refine .both (.locked (.empty fun n hn => ?_) fun n hn => ?_)
    · change At .filled ((dumpIf (n ≠ initImage.length) .openWrite >>= fun _ =>
        orDump (.unlck .idx 0 0) .openUnLock) >>= fun _ => _)
      rw [dumpIf_neg (not_not.mpr hn), Prog.ret_bind]
      exact hunlock
    · change At .filled (((if n = 0 then _ else pure () : DbProg Unit) >>= fun _ =>
        orDump (.unlck .idx 0 0) .openUnLock) >>= fun _ => _)
      rw [if_neg hn]
      exact hunlock
  unfold dbOpen
  refine .start (.opened ?_)
  simp only [Prog.bind, reduceCtorEq, or_self, if_false]
  rw [if_pos (by decide)]
  change At .both ((initIndex >>= fun _ => _) >>= fun h => (pure (f h) : DbProg α))
  simp only [Prog.bind_assoc, Prog.pure_eq, Prog.ret_bind]
  exact hinit

variable {Pid : Type} [DecidableEq Pid] {fuel : ℕ} {f₀ : Files} {s t : Machine Pid}
  {tr : List (Event Pid Req Ans Call)} {e : Event Pid Req Ans Call} {p q : Pid}

/-- The steps at which `p` opens the index file, true, and unlocks it, false. -/
def mark (p : Pid) : Event Pid Req Ans Call → Option Bool
  | .sys q (.openFd .idx _) => if q = p then some true else none
  | .sys q (.unlck .idx 0 0) => if q = p then some false else none
  | _ => none

/-- The process is between its open of the index file and its unlock. -/
def Between (p : Pid) (tr : List (Event Pid Req Ans Call)) : Prop :=
  (tr.filterMap (mark p)).getLast? = some true

/-- Some process has opened the index file. -/
def Started (tr : List (Event Pid Req Ans Call)) : Prop :=
  ∃ p oflag, Event.sys p (.openFd .idx oflag) ∈ tr

namespace Stage

/-- The stages between the open of the index file and the unlock. -/
def Inside : Stage → Prop
  | opened | both | locked | empty | filled => True
  | _ => False

/-- The stages between the truncation of the index file and the end of its test. -/
def Pending : Stage → Prop
  | opened | both | locked | empty => True
  | _ => False

end Stage

/-- A process that only creates: between two calls, or at a stage of one. -/
inductive Creator : Task Req Handles Call Reply Err (Ans × Option DB) Fds → Stage → Prop
  | idle (h) : Creator (.idle h) .done
  | busy {h n l m a} (hm : At a m) (hacc : a ≠ .start → l.acc = .rdwr)
      (hpos : a.Pending → l.idxpos = 0) : Creator (.busy (.openDb n .create) h l m) a

/-- What all orders of the steps of creating processes keep. -/
structure Creating (tr : List (Event Pid Req Ans Call)) (s : Machine Pid) (a : Pid → Stage) :
    Prop where
  task : ∀ p, Creator (s.tasks p) (a p)
  between : ∀ p, Between p tr ↔ (a p).Inside
  idx : Started tr → s.shared.1.idx = some initImage ∨
    s.shared.1.idx = some [] ∧ ∃ p, (a p).Pending
  dat : Started tr → s.shared.1.dat = some [] ∨ ∃ p, a p = .opened

theorem between_snoc : Between p (tr ++ [e]) ↔ mark p e = some true ∨ mark p e = none ∧ Between p tr := by
  rw [Between, Between, List.filterMap_append]
  cases hm : mark p e with
  | none => simp [hm]
  | some b => simp [hm]

omit [DecidableEq Pid] in
theorem started_snoc :
    Started (tr ++ [e]) ↔ Started tr ∨ ∃ p oflag, e = .sys p (.openFd .idx oflag) := by
  simp only [Started, List.mem_append, List.mem_singleton, exists_or, eq_comm]

namespace Creating

variable {a : Pid → Stage} {b : Stage} {u : Task Req Handles Call Reply Err (Ans × Option DB) Fds}
  {k : Files × LockTable Pid Fd}

theorem move (h : Creating tr s a) (hu : Creator u b) (hm : ∀ q, q ≠ p → mark q e = none)
    (hin : Between p (tr ++ [e]) ↔ b.Inside)
    (hidx : Started (tr ++ [e]) → k.1.idx = some initImage ∨
      k.1.idx = some [] ∧ (b.Pending ∨ ∃ q, q ≠ p ∧ (a q).Pending))
    (hdat : Started (tr ++ [e]) → k.1.dat = some [] ∨ b = .opened ∨ ∃ q, q ≠ p ∧ a q = .opened) :
    ∃ a, Creating (tr ++ [e]) (s.put p u k) a := by
  have hex : ∀ {P : Stage → Prop}, (P b ∨ ∃ q, q ≠ p ∧ P (a q)) →
      ∃ q, P (Function.update a p b q) := by
    rintro P (hb | ⟨q, hq, hP⟩)
    · exact ⟨p, by rwa [Function.update_self]⟩
    · exact ⟨q, by rwa [Function.update_of_ne hq]⟩
  refine ⟨Function.update a p b, fun q => ?_, fun q => ?_, fun hs => ?_, fun hs => ?_⟩
  · by_cases hq : q = p
    · subst hq
      rwa [Conf.put_self, Function.update_self]
    · rw [Conf.put_ne hq, Function.update_of_ne hq]
      exact h.task q
  · by_cases hq : q = p
    · subst hq
      rwa [Function.update_self]
    · rw [between_snoc, hm q hq, Function.update_of_ne hq, ← h.between q]
      simp
  · exact (hidx hs).imp_right (And.imp_right (hex (P := Stage.Pending)))
  · exact (hdat hs).imp_right fun hp => hex (P := (· = .opened)) hp

theorem idx_other (h : Creating tr s a) (hs : Started tr) (hp : ¬ (a p).Pending) :
    s.shared.1.idx = some initImage ∨ s.shared.1.idx = some [] ∧ ∃ q, q ≠ p ∧ (a q).Pending := by
  rcases h.idx hs with hi | ⟨hi, q, hq⟩
  · exact Or.inl hi
  · refine Or.inr ⟨hi, q, ?_, hq⟩
    rintro rfl
    exact hp hq

theorem dat_other (h : Creating tr s a) (hs : Started tr) (hp : a p ≠ .opened) :
    s.shared.1.dat = some [] ∨ ∃ q, q ≠ p ∧ a q = .opened := by
  rcases h.dat hs with hd | ⟨q, hq⟩
  · exact Or.inl hd
  · refine Or.inr ⟨q, ?_, hq⟩
    rintro rfl
    exact hp hq

theorem quiet (h : Creating tr s a) (hu : Creator u b) (hm : ∀ q, mark q e = none)
    (hopen : ∀ q oflag, e ≠ .sys q (.openFd .idx oflag)) (hin : (a p).Inside ↔ b.Inside)
    (hpend : s.shared.1.idx = some [] → (a p).Pending → b.Pending) (hne : a p ≠ .opened)
    (hk : k.1 = s.shared.1) : ∃ a, Creating (tr ++ [e]) (s.put p u k) a := by
  have hs : Started (tr ++ [e]) → Started tr := by
    intro hs
    rcases started_snoc.mp hs with hs | ⟨q, oflag, he⟩
    · exact hs
    · exact absurd he (hopen q oflag)
  refine h.move hu (fun q _ => hm q) ?_ (fun hst => ?_) fun hst => ?_
  · rw [between_snoc, hm p, h.between p, hin]
    simp
  · rw [hk]
    by_cases hp : (a p).Pending
    · rcases h.idx (hs hst) with hi | ⟨hi, -⟩
      · exact Or.inl hi
      · exact Or.inr ⟨hi, Or.inl (hpend hi hp)⟩
    · exact (h.idx_other (hs hst) hp).imp_right (And.imp_right Or.inr)
  · rw [hk]
    exact (h.dat_other (hs hst) hne).imp_right Or.inr

theorem call (h : Creating tr s a) {op : Req} {c : Call} {hs : Handles} {l : Fds}
    {m : Reply c → DbProg (Ans × Option DB)} (ht : s.tasks p = .busy op hs l (.call c m)) :
    ∃ a, Creating (tr ++ [.sys p c]) (s.put p (.busy op hs (kernel.exec p c l s.shared).2.1
      (m (kernel.exec p c l s.shared).1)) (kernel.exec p c l s.shared).2.2) a := by
  have hp := h.task p
  rw [ht] at hp
  generalize ha : a p = b at hp
  cases hp with
  | @busy _ n _ _ _ hm hacc hpos =>
  cases hm with
  | start hm =>
    have hex : exec (.openFd .idx .create) (l, s.shared.1) = _ :=
      exec_open .idx (Or.inr rfl) (Or.inl rfl)
    simp only [kernel, hex]
    refine h.move (b := .opened) (.busy hm (fun _ => rfl) fun _ => rfl) (fun q hq => ?_) ?_
      (fun _ => Or.inr ⟨rfl, Or.inl trivial⟩) fun _ => Or.inr (Or.inl rfl)
    · simp [mark, hq.symm]
    · simp [between_snoc, mark, Stage.Inside]
  | opened hm =>
    have hex : exec (.openFd .dat .create) (l, s.shared.1) = _ :=
      exec_open .dat (Or.inr rfl) (Or.inl rfl)
    simp only [kernel, hex]
    refine h.move (b := .both) (.busy hm (fun _ => rfl) fun _ => hpos trivial) (fun _ _ => rfl) ?_
      (fun hs => ?_) fun _ => Or.inl rfl
    · simp [between_snoc, mark, Stage.Inside, h.between, ha]
    · have hs' : Started tr := by simpa [started_snoc] using hs
      exact (h.idx hs').imp_right (And.imp_right fun _ => Or.inl trivial)
  | both hm =>
    have hacc := hacc (by simp)
    have hex : exec (.setlkw .idx .wr 0 0) (l, s.shared.1) = (some (), l, s.shared.1) := by
      simp [exec, hacc, Access.allows, Access.writable]
    simp only [kernel, hex]
    refine h.quiet (b := .locked) (.busy hm (fun _ => hacc) fun _ => hpos trivial) (fun _ => rfl)
      (by simp) ?_ (fun _ _ => trivial) (by simp [ha]) rfl
    simp [ha, Stage.Inside]
  | locked he hf =>
    have hacc := hacc (by simp)
    have hpos := hpos trivial
    by_cases hz : (s.shared.1.bytes .idx).length = 0
    · have hex : exec (.fstat .idx) (l, s.shared.1) = (some 0, l, s.shared.1) := by
        simp only [exec, hz]
      simp only [kernel, hex]
      refine h.quiet (b := .empty) (.busy he (fun _ => hacc) fun _ => hpos) (fun _ => rfl)
        (by simp) ?_ (fun _ _ => trivial) (by simp [ha]) rfl
      simp [ha, Stage.Inside]
    · refine h.quiet (b := .filled) (.busy (hf _ hz) (fun _ => hacc) fun hn => hn.elim)
        (fun _ => rfl) (by simp) ?_ (fun hi _ => ?_) (by simp [ha]) rfl
      · simp [ha, Stage.Inside]
      · exact absurd (by simp [Files.bytes, Files.get, hi]) hz
  | empty hm =>
    have hacc := hacc (by simp)
    have hex : exec (.write .idx initImage) (l, s.shared.1) = (some initImage.length,
        l.setPos .idx initImage.length, s.shared.1.set .idx
          (overwrite 0 (s.shared.1.bytes .idx) 0 initImage)) := by
      have hl : l.pos .idx = 0 := hpos trivial
      simp [exec, hacc, Access.writable, hl]
    simp only [kernel, hex]
    refine h.move (b := .filled) (.busy (hm _ rfl) (fun _ => hacc) fun hn => hn.elim)
      (fun _ _ => rfl) ?_ (fun hs => Or.inl ?_) (fun hs => ?_)
    · simp [between_snoc, mark, Stage.Inside, h.between, ha]
    · have hs' : Started tr := by simpa [started_snoc] using hs
      rcases h.idx hs' with hi | ⟨hi, -⟩
      · simp [Files.set, Files.bytes, Files.get, hi, overwrite]
      · simp [Files.set, Files.bytes, Files.get, hi, overwrite]
    · have hs' : Started tr := by simpa [started_snoc] using hs
      exact (h.dat_other hs' (by simp [ha])).imp_right Or.inr
  | filled hm =>
    have hacc := hacc (by simp)
    simp only [kernel, exec]
    refine h.move (b := .unlocked) (.busy hm (fun _ => hacc) fun hn => hn.elim) (fun q hq => ?_) ?_
      (fun hs => ?_) fun hs => ?_
    · simp [mark, hq.symm]
    · simp [between_snoc, mark, Stage.Inside]
    · have hs' : Started tr := by simpa [started_snoc] using hs
      exact (h.idx_other hs' (by simp [ha, Stage.Pending])).imp_right (And.imp_right Or.inr)
    · have hs' : Started tr := by simpa [started_snoc] using hs
      exact (h.dat_other hs' (by simp [ha])).imp_right Or.inr
  | unlocked hm =>
    have hacc := hacc (by simp)
    have hex := exec_seek (p := l) (f := s.shared.1) .idx idxStart
    simp only [kernel, hex]
    refine h.quiet (b := .done) (.busy hm (fun _ => ?_) fun hn => hn.elim) (fun _ => rfl)
      (by simp) ?_ (fun _ hn => ?_) (by simp [ha]) rfl
    · simpa using hacc
    · simp [ha, Stage.Inside]
    · simp [ha, Stage.Pending] at hn

end Creating

/-- The steps of processes that only create. -/
theorem Creating.step {a : Pid → Stage} (h : Creating tr s a) (hs : Step kernel (users fuel) s e t)
    (honly : ∀ p r, e = .inv p r → ∃ n, r = .openDb n .create) :
    ∃ a, Creating (tr ++ [e]) t a := by
  cases hs with
  | @inv p op hd ht hc =>
    obtain ⟨n, rfl⟩ := honly p op rfl
    have hp := h.task p
    rw [ht] at hp
    generalize ha : a p = b at hp
    cases hp with
    | idle =>
      refine h.quiet (b := .start) (.busy (at_create _) (by simp) (by simp [Stage.Pending]))
        (fun _ => rfl) (by simp) ?_ ?_ ?_ rfl
      · simp [ha, Stage.Inside]
      · simp [ha, Stage.Pending]
      · simp [ha]
  | @sys p op hd l c k ht hr => exact h.call ht
  | @ret p op hd l x ht =>
    have hp := h.task p
    rw [ht] at hp
    generalize ha : a p = b at hp
    cases hp with
    | busy hm hacc hpos =>
      cases hm
      refine h.quiet (b := .done) (.idle _) (fun _ => rfl) (by simp) ?_ ?_ ?_ rfl
      · simp [ha]
      · simp [ha]
      · simp [ha]
  | @die p op hd l x ht =>
    have hp := h.task p
    rw [ht] at hp
    generalize a p = b at hp
    cases hp with
    | busy hm hacc hpos => cases hm

theorem initial_creating : Creating [] (Machine.initial f₀ : Machine Pid) fun _ => .done where
  task _ := .idle _
  between p := by simp [Between, Stage.Inside]
  idx h := by simp [Started] at h
  dat h := by simp [Started] at h

theorem Run.creating (hrun : Run kernel (users fuel) (Machine.initial f₀) tr s)
    (honly : ∀ p r, .inv p r ∈ tr → ∃ n, r = .openDb n .create) : ∃ a, Creating tr s a := by
  induction hrun with
  | nil => exact ⟨_, initial_creating⟩
  | snoc hr hs ih =>
    obtain ⟨a, ha⟩ := ih fun p r hp => honly p r (List.mem_append_left _ hp)
    exact ha.step hs fun p r he => honly p r (by simp [he])

/-- When no process is between its open of the index file and its unlock, the index file is the
initial image, and the data file is empty. -/
theorem creation (hrun : Run kernel (users fuel) (Machine.initial f₀) tr s)
    (honly : ∀ p r, .inv p r ∈ tr → ∃ n, r = .openDb n .create) (hstart : Started tr)
    (hout : ∀ p, ¬ Between p tr) :
    s.shared.1 = ⟨some initImage, some []⟩ ∧ initImage.length = 967 := by
  obtain ⟨a, h⟩ := Run.creating hrun honly
  have hno : ∀ p, ¬ (a p).Inside := fun p hp => hout p ((h.between p).mpr hp)
  have hidx : s.shared.1.idx = some initImage := by
    rcases h.idx hstart with hi | ⟨-, p, hp⟩
    · exact hi
    · refine absurd ?_ (hno p)
      cases hap : a p <;> simp_all [Stage.Inside, Stage.Pending]
  have hdat : s.shared.1.dat = some [] := by
    rcases h.dat hstart with hd | ⟨p, hp⟩
    · exact hd
    · exact absurd (by simp [hp, Stage.Inside]) (hno p)
  refine ⟨?_, length_initImage⟩
  generalize s.shared.1 = f at hidx hdat
  cases f
  simp_all

section Sample

instance (p : Pid) (tr : List (Event Pid Req Ans Call)) : Decidable (Between p tr) :=
  inferInstanceAs (Decidable (_ = _))

/-- A process truncates the index file that another one has filled, and finds it empty; then it is
truncated once more, between the test and the write. -/
def creations : List (Choice Bool Req) :=
  [.start true (.openDb 0 .create)] ++ turns true 6 ++
    [.start false (.openDb 0 .create)] ++ turns false 1 ++ turns true 2 ++ turns false 3 ++
    [.start true (.openDb 1 .create)] ++ turns true 1 ++ turns false 4 ++ turns true 6

def creationOutline : List (Event Bool Req Ans Call) :=
  [.inv true (.openDb 0 .create), .inv false (.openDb 0 .create),
    .ret true (.openDb 0 .create) (.handle true), .inv true (.openDb 1 .create),
    .ret false (.openDb 0 .create) (.handle true), .ret true (.openDb 1 .create) (.handle true)]

theorem run_creations : ∃ (tr : List (Event Bool Req Ans Call)) (s : Machine Bool),
    Run kernel (users 1) (Machine.initial ⟨none, none⟩) tr s ∧ outline tr = creationOutline ∧
      .sys true (.openFd .idx .create) ∈ tr ∧ ∀ p, ¬ Between p tr :=
  run_of_schedule creations (fun tr _ => outline tr = creationOutline ∧
    .sys true (.openFd .idx .create) ∈ tr ∧ ∀ p, ¬ Between p tr)
    (fun _ _ _ _ => rfl) (by decide +kernel)

theorem creation_sample : ∃ (tr : List (Event Bool Req Ans Call)) (s : Machine Bool),
    Run kernel (users 1) (Machine.initial ⟨none, none⟩) tr s ∧ outline tr = creationOutline ∧
      s.shared.1 = ⟨some initImage, some []⟩ ∧ initImage.length = 967 := by
  obtain ⟨tr, s, hrun, hout, hopen, hbetween⟩ := run_creations
  refine ⟨tr, s, hrun, hout, creation hrun ?_ ⟨true, .create, hopen⟩ hbetween⟩
  intro p r hr
  have hmem := (mem_outline (e := .inv p r)).mpr ⟨hr, by simp⟩
  rw [hout, creationOutline] at hmem
  simp only [List.mem_cons, Event.inv.injEq, reduceCtorEq, List.not_mem_nil, or_false,
    false_or] at hmem
  rcases hmem with ⟨-, rfl⟩ | ⟨-, rfl⟩ | ⟨-, rfl⟩
  · exact ⟨0, rfl⟩
  · exact ⟨0, rfl⟩
  · exact ⟨1, rfl⟩

end Sample

end Somenote.Db
