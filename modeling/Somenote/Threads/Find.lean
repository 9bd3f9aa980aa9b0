import Somenote.Program.Fuel
import Somenote.Threads.Jobs

/-! # Looking for a job

The function `job_find` of `rwlock.c` never sets the pointer with which its loop starts: the loop
begins with `jp->q_head`, whose value goes nowhere. The pointer holds whatever was in its place, an
argument here, which is `none` when that is not the address of a job.
-/

namespace Somenote.Threads

variable {J T : Type}

/-- The lock is not given for reading when it is held for writing; the readers are not counted. -/
def Queue.rdlock (q : Queue J T) : Option (Queue J T) := if q.q_lock then none else some q

section Find

variable [DecidableEq T]

/-- The loop of `job_find`. -/
def findLoop (q : Queue J T) (id : T) : ℕ → Option J → Option (Option J)
  | 0, _ => none
  | _ + 1, none => some none
  | n + 1, some jp =>
    if (q.job jp).j_id = id then some (some jp) else findLoop q id n (q.job jp).j_next

def jobFind (fuel : ℕ) (jp : Option J) (q : Queue J T) (id : T) :
    Option (Option J × Queue J T) :=
  match q.rdlock with
  | none => some (none, q)
  | some q => do
    -- `jp->q_head` is read, and dropped
    let _ ← jp
    let jp ← findLoop q id fuel jp
    some (jp, q.unlock)

end Find

/-- Following `next` from `p` passes the jobs `l` and comes to `r`. -/
def Leads (next : J → Option J) : Option J → List J → Option J → Prop
  | p, [], r => p = r
  | p, j :: l, r => p = some j ∧ Leads next (next j) l r

/-- From `jp`, past jobs that are not in the queue `l` and do not have the id, one comes to a place
of the queue, its end included, with no job in front that has the id. -/
def StartsRight (q : Queue J T) (l : List J) (id : T) (jp : Option J) : Prop :=
  ∃ out m n, l = m ++ n ∧ Leads (fun j => (q.job j).j_next) jp out n.head? ∧
    (∀ j ∈ out, j ∉ l) ∧ ∀ j ∈ out ++ m, (q.job j).j_id ≠ id

variable {q : Queue J T} {l m n out : List J} {p r : Option J} {id : T}

theorem Follows.suffix {next : J → Option J} (h : Follows next p (m ++ n)) :
    Follows next n.head? n := by
  induction m generalizing p with
  | nil =>
    cases n with
    | nil => rfl
    | cons j n => exact ⟨rfl, h.2⟩
  | cons i m ih => exact ih h.2

theorem find?_append_eq_iff {f : J → Bool} (hnd : (m ++ n).Nodup) :
    (m ++ n).find? f = n.find? f ↔ ∀ j ∈ m, f j = false := by
  rw [List.find?_append]
  constructor
  · intro heq j hj
    by_contra hf
    obtain ⟨i, hi⟩ := Option.isSome_iff_exists.mp
      (List.find?_isSome.mpr ⟨j, hj, by simpa using hf⟩)
    rw [hi, Option.some_or] at heq
    exact (List.nodup_append.mp hnd).2.2 i (List.mem_of_find?_eq_some hi) i
      (List.mem_of_find?_eq_some heq.symm) rfl
  · intro hm
    rw [List.find?_eq_none.mpr fun j hj => by simp [hm j hj], Option.none_or]

section Loop

variable [DecidableEq T]

theorem findLoop_follows (h : Follows (fun j => (q.job j).j_next) p n) :
    Yields (fun k => findLoop q id k p) (n.find? fun j => (q.job j).j_id = id) := by
  induction n generalizing p with
  | nil =>
    obtain rfl : p = none := h
    exact Yields.succ (.of_eq fun _ => rfl)
  | cons j n ih =>
    obtain ⟨rfl, h⟩ := h
    refine Yields.succ ?_
    by_cases hid : (q.job j).j_id = id
    · exact .of_eq fun k => by simp [findLoop, hid]
    · simpa [findLoop, hid] using ih h

theorem findLoop_leads (h : Leads (fun j => (q.job j).j_next) p out r)
    (hout : ∀ j ∈ out, (q.job j).j_id ≠ id) {s : Option J}
    (hr : Yields (fun k => findLoop q id k r) s) : Yields (fun k => findLoop q id k p) s := by
  induction out generalizing p with
  | nil =>
    obtain rfl : p = r := h
    exact hr
  | cons j out ih =>
    obtain ⟨rfl, h⟩ := h
    refine Yields.succ ?_
    have hid := hout j List.mem_cons_self
    simpa [findLoop, hid] using ih h fun i hi => hout i (List.mem_cons_of_mem _ hi)

/-- From a place of the queue, the loop finds the first job with the id if and only if none is in
front of that place. -/
theorem findLoop_entry (hfwd : Follows (fun j => (q.job j).j_next) q.q_head (m ++ n))
    (hnd : (m ++ n).Nodup) :
    Yields (fun k => findLoop q id k n.head?) ((m ++ n).find? fun j => (q.job j).j_id = id) ↔
      ∀ j ∈ m, (q.job j).j_id ≠ id := by
  have hrest : Yields (fun k => findLoop q id k n.head?)
      (n.find? fun j => (q.job j).j_id = id) := findLoop_follows hfwd.suffix
  have hiff := find?_append_eq_iff (f := fun j => decide ((q.job j).j_id = id)) hnd
  simp only [decide_eq_false_iff_not] at hiff
  rw [← hiff]
  constructor
  · intro h
    exact h.unique hrest
  · intro heq
    rw [heq]
    exact hrest

theorem findLoop_iff (hfwd : Follows (fun j => (q.job j).j_next) q.q_head l) (hnd : l.Nodup) :
    Yields (fun k => findLoop q id k p) (l.find? fun j => (q.job j).j_id = id) ↔
      StartsRight q l id p := by
  constructor
  · rintro ⟨N, hN⟩
    dsimp only at hN
    induction N generalizing p with
    | zero => cases hN 0 le_rfl
    | succ N ih =>
      rcases p with _ | j
      · have hnone := (Option.some.inj (hN (N + 1) le_rfl)).symm
        refine ⟨[], l, [], by simp, rfl, by simp, fun j hj => ?_⟩
        simpa using List.find?_eq_none.mp hnone j (by simpa using hj)
      · by_cases hj : j ∈ l
        · obtain ⟨m, n, rfl⟩ := List.append_of_mem hj
          exact ⟨[], m, j :: n, rfl, rfl, by simp, (findLoop_entry hfwd hnd).mp ⟨N + 1, hN⟩⟩
        · have hid : (q.job j).j_id ≠ id := by
            intro hid
            have hfound := hN (N + 1) le_rfl
            rw [findLoop, if_pos hid] at hfound
            exact hj (List.mem_of_find?_eq_some (Option.some.inj hfound).symm)
          have hnext : ∀ k, N ≤ k → findLoop q id k (q.job j).j_next =
              some (l.find? fun j => (q.job j).j_id = id) := by
            intro k hk
            have hfound := hN (k + 1) (Nat.succ_le_succ hk)
            rwa [findLoop, if_neg hid] at hfound
          obtain ⟨out, m, n, hl, hleads, hout, hids⟩ := ih hnext
          exact ⟨j :: out, m, n, hl, ⟨rfl, hleads⟩, by simpa [hj] using hout,
            by simpa [hid] using hids⟩
  · rintro ⟨out, m, n, rfl, hleads, -, hid⟩
    refine findLoop_leads hleads (fun j hj => hid j (List.mem_append_left _ hj)) ?_
    exact (findLoop_entry hfwd hnd).mpr fun j hj => hid j (List.mem_append_right _ hj)

/-- The first job with the id is found, and the queue is left as it is, if and only if the pointer
is a job from which the loop starts right. -/
theorem jobFind_iff (h : q.Inv l) :
    Yields (fun n => jobFind n p q id) (l.find? fun j => (q.job j).j_id = id, q) ↔
      p ≠ none ∧ StartsRight q l id p := by
  have hfree : q.unlock = q := by
    obtain ⟨q_head, q_tail, q_lock, job⟩ := q
    obtain rfl : q_lock = false := h.lock
    rfl
  have hrdlock : q.rdlock = some q := by
    rw [Queue.rdlock, h.lock]
    rfl
  rw [← findLoop_iff h.holds.fwd h.nodup]
  rcases p with _ | j
  · refine iff_of_false ?_ fun hp => hp.1 rfl
    rintro ⟨N, hN⟩
    have hfault := hN N le_rfl
    simp [jobFind, hrdlock] at hfault
  · have hcall : ∀ n, jobFind n (some j) q id =
        (findLoop q id n (some j)).map fun jp => (jp, q) := by
      intro n
      simp only [jobFind, hrdlock, hfree]
      cases findLoop q id n (some j) <;> rfl
    simp [Yields, hcall]

end Loop

section Runs

variable [DecidableEq J] [DecidableEq T]

/-- In a queue that calls have left, `job_find` gives the first job with the id, or null if there is
none, exactly when its pointer happens to start right. -/
theorem jobFind_runs_iff (q₀ : Queue J T) (ops : List (JobOp J)) (hops : JobOp.Allowed ops [])
    (id : T) (jp : Option J) :
    ∃ q l, runs ops (queueInit q₀) = some q ∧ Follows (fun j => (q.job j).j_next) q.q_head l ∧
      (Yields (fun n => jobFind n jp q id) (l.find? fun j => (q.job j).j_id = id, q) ↔
        jp ≠ none ∧ StartsRight q l id jp) := by
  obtain ⟨q, hruns, h⟩ := runs_inv (queueInit_inv q₀) hops
  exact ⟨q, _, hruns, h.holds.fwd, jobFind_iff h⟩

end Runs

/-- A memory whose jobs have their addresses for identifiers. -/
def numbered : Queue ℕ ℕ := ⟨none, none, false, fun j => ⟨none, none, j⟩⟩

theorem jobFind_runs_iff_second :
    ∃ q l, runs [.append 1, .append 2] (queueInit numbered) = some q ∧
      Follows (fun j => (q.job j).j_next) q.q_head l ∧
      (Yields (fun n => jobFind n (some 2) q 1) (l.find? fun j => (q.job j).j_id = 1, q) ↔
        some 2 ≠ none ∧ StartsRight q l 1 (some 2)) :=
  jobFind_runs_iff numbered [.append 1, .append 2] ⟨by decide, by decide, trivial⟩ 1 (some 2)

/-- The first job is in the queue, and is not found when the pointer happens to be the second. -/
theorem jobFind_misses : ∃ q, runs [.append 1, .append 2] (queueInit numbered) = some q ∧
    Follows (fun j => (q.job j).j_next) q.q_head [1, 2] ∧ (q.job 1).j_id = 1 ∧
    ¬ Yields (fun n => jobFind n (some 2) q 1) (some 1, q) := by
  refine ⟨_, rfl, ⟨rfl, rfl, rfl⟩, rfl, ?_⟩
  rintro ⟨N, hN⟩
  have hmiss := hN (N + 2) (by omega)
  cases (Prod.mk.inj (Option.some.inj hmiss)).1

end Somenote.Threads
