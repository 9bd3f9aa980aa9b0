import Mathlib.Data.List.Nodup
import Somenote.Lists.Doubly

/-! # The queue of jobs

The queue of `rwlock.c`: jobs that are linked in both directions, put in at either end and taken
out anywhere. The functions are called one after the other, each with the write lock. A job is known
by its address; an assignment through a null pointer, or to a lock that is held, goes nowhere.
-/

namespace Somenote.Threads

variable {J T : Type}

structure Job (J T : Type) where
  j_next : Option J
  j_prev : Option J
  j_id : T

/-- The queue, with the memory of the jobs. -/
structure Queue (J T : Type) where
  q_head : Option J
  q_tail : Option J
  /-- Held for writing. -/
  q_lock : Bool
  job : J → Job J T

namespace Queue

def setNext [DecidableEq J] (q : Queue J T) (j : J) (j_next : Option J) : Queue J T :=
  { q with job := Function.update q.job j { q.job j with j_next } }

def setPrev [DecidableEq J] (q : Queue J T) (j : J) (j_prev : Option J) : Queue J T :=
  { q with job := Function.update q.job j { q.job j with j_prev } }

def setHead (q : Queue J T) (q_head : Option J) : Queue J T := { q with q_head }

def setTail (q : Queue J T) (q_tail : Option J) : Queue J T := { q with q_tail }

def setLock (q : Queue J T) (q_lock : Bool) : Queue J T := { q with q_lock }

def wrlock (q : Queue J T) : Option (Queue J T) :=
  if q.q_lock then none else some (q.setLock true)

def unlock (q : Queue J T) : Queue J T := q.setLock false

end Queue

open Queue

/-- `queue_init`; the memory of the jobs is what it was. -/
def queueInit (q : Queue J T) : Queue J T :=
  { q with q_head := none, q_tail := none, q_lock := false }

section Calls

variable [DecidableEq J]

def jobInsert (q : Queue J T) (jp : J) : Option (Queue J T) := do
  let q ← q.wrlock
  let q := q.setNext jp q.q_head
  let q := q.setPrev jp none
  let q := match q.q_head with
    | some j => q.setPrev j (some jp)
    | none => q.setTail (some jp)
  let q := q.setHead (some jp)
  some q.unlock

def jobAppend (q : Queue J T) (jp : J) : Option (Queue J T) := do
  let q ← q.wrlock
  let q := q.setNext jp none
  let q := q.setPrev jp q.q_tail
  let q := match q.q_tail with
    | some j => q.setNext j (some jp)
    | none => q.setHead (some jp)
  let q := q.setTail (some jp)
  some q.unlock

def jobRemove (q : Queue J T) (jp : J) : Option (Queue J T) := do
  let q ← q.wrlock
  let q ← (
    if some jp = q.q_head then
      let q := q.setHead (q.job jp).j_next
      if q.q_tail = some jp then some (q.setTail none)
      else do
        let j ← (q.job jp).j_next
        some (q.setPrev j (q.job jp).j_prev)
    else if some jp = q.q_tail then
      let q := q.setTail (q.job jp).j_prev
      do
        let j ← (q.job jp).j_prev
        some (q.setNext j (q.job jp).j_next)
    else do
      let j ← (q.job jp).j_prev
      let q := q.setNext j (q.job jp).j_next
      let i ← (q.job jp).j_next
      some (q.setPrev i (q.job jp).j_prev) : Option (Queue J T))
  some q.unlock

end Calls

/-- The calls on a queue. -/
inductive JobOp (J : Type)
  | insert (jp : J)
  | append (jp : J)
  | remove (jp : J)
  deriving DecidableEq, Repr

namespace JobOp

def run [DecidableEq J] : JobOp J → Queue J T → Option (Queue J T)
  | insert jp, q => jobInsert q jp
  | append jp, q => jobAppend q jp
  | remove jp, q => jobRemove q jp

/-- What the call does to the sequence of jobs. -/
def on [DecidableEq J] : JobOp J → List J → List J
  | insert jp, l => jp :: l
  | append jp, l => l ++ [jp]
  | remove jp, l => l.erase jp

/-- A job is put in when it is not in the queue, and taken out when it is. -/
def Fits : JobOp J → List J → Prop
  | insert jp, l => jp ∉ l
  | append jp, l => jp ∉ l
  | remove jp, l => jp ∈ l

instance [DecidableEq J] (op : JobOp J) (l : List J) : Decidable (op.Fits l) :=
  match op with
  | insert jp => inferInstanceAs (Decidable (jp ∉ l))
  | append jp => inferInstanceAs (Decidable (jp ∉ l))
  | remove jp => inferInstanceAs (Decidable (jp ∈ l))

/-- The calls are allowed one after the other. -/
def Allowed [DecidableEq J] : List (JobOp J) → List J → Prop
  | [], _ => True
  | op :: ops, l => op.Fits l ∧ Allowed ops (op.on l)

end JobOp

/-- Following `next` from `p` gives the jobs `l`, and then the null pointer. -/
def Follows (next : J → Option J) : Option J → List J → Prop
  | p, [] => p = none
  | p, j :: l => p = some j ∧ Follows next (next j) l

/-- The queue holds the jobs `l`, in both directions. -/
structure Queue.Holds (q : Queue J T) (l : List J) : Prop where
  nodup : l.Nodup
  fwd : Follows (fun j => (q.job j).j_next) q.q_head l
  bwd : Follows (fun j => (q.job j).j_prev) q.q_tail l.reverse
  ends : q.q_head = none ↔ q.q_tail = none

namespace Queue

/-- The pointers to the next job; that of the null pointer is the head. -/
def next (q : Queue J T) : Option J → Option J
  | none => q.q_head
  | some j => (q.job j).j_next

def prev (q : Queue J T) : Option J → Option J
  | none => q.q_tail
  | some j => (q.job j).j_prev

variable (q : Queue J T) (p : Option J) (b : Bool)

@[simp] theorem q_head_setLock : (q.setLock b).q_head = q.q_head := rfl

@[simp] theorem q_tail_setLock : (q.setLock b).q_tail = q.q_tail := rfl

@[simp] theorem q_tail_setHead : (q.setHead p).q_tail = q.q_tail := rfl

@[simp] theorem job_setLock : (q.setLock b).job = q.job := rfl

@[simp] theorem job_setHead : (q.setHead p).job = q.job := rfl

@[simp] theorem job_setTail : (q.setTail p).job = q.job := rfl

@[simp] theorem next_setLock : (q.setLock b).next = q.next := by
  ext1 x
  cases x <;> rfl

@[simp] theorem prev_setLock : (q.setLock b).prev = q.prev := by
  ext1 x
  cases x <;> rfl

@[simp] theorem prev_setHead : (q.setHead p).prev = q.prev := by
  ext1 x
  cases x <;> rfl

@[simp] theorem next_setTail : (q.setTail p).next = q.next := by
  ext1 x
  cases x <;> rfl

variable [DecidableEq J] (j : J)

@[simp] theorem q_head_setNext : (q.setNext j p).q_head = q.q_head := rfl

@[simp] theorem q_tail_setNext : (q.setNext j p).q_tail = q.q_tail := rfl

@[simp] theorem q_head_setPrev : (q.setPrev j p).q_head = q.q_head := rfl

@[simp] theorem q_tail_setPrev : (q.setPrev j p).q_tail = q.q_tail := rfl

theorem job_setNext_ne {i j : J} (h : i ≠ j) : (q.setNext j p).job i = q.job i :=
  Function.update_of_ne h ..

@[simp] theorem next_setHead : (q.setHead p).next = Function.update q.next none p := by
  ext1 x
  cases x <;> simp [next, setHead]

@[simp] theorem prev_setTail : (q.setTail p).prev = Function.update q.prev none p := by
  ext1 x
  cases x <;> simp [prev, setTail]

@[simp] theorem next_setNext : (q.setNext j p).next = Function.update q.next (some j) p := by
  ext1 x
  cases x with
  | none => rfl
  | some i =>
    by_cases hi : i = j
    · subst hi
      simp [next, setNext]
    · simp [next, setNext, hi]

@[simp] theorem prev_setNext : (q.setNext j p).prev = q.prev := by
  ext1 x
  cases x with
  | none => rfl
  | some i =>
    by_cases hi : i = j
    · subst hi
      simp [prev, setNext]
    · simp [prev, setNext, hi]

@[simp] theorem next_setPrev : (q.setPrev j p).next = q.next := by
  ext1 x
  cases x with
  | none => rfl
  | some i =>
    by_cases hi : i = j
    · subst hi
      simp [next, setPrev]
    · simp [next, setPrev, hi]

@[simp] theorem prev_setPrev : (q.setPrev j p).prev = Function.update q.prev (some j) p := by
  ext1 x
  cases x with
  | none => rfl
  | some i =>
    by_cases hi : i = j
    · subst hi
      simp [prev, setPrev]
    · simp [prev, setPrev, hi]

end Queue

theorem linked_iff_follows {next : Option J → Option J} {a : Option J} {l : List J} :
    Linked none next a (l.map some) ↔ Follows (fun j => next (some j)) (next a) l := by
  induction l generalizing a with
  | nil => exact Iff.rfl
  | cons j l ih =>
    rw [List.map_cons, Linked.cons_iff, ih, Follows]
    constructor
    · rintro ⟨ha, -, hl⟩
      exact ⟨ha, hl⟩
    · rintro ⟨ha, hl⟩
      exact ⟨ha, Option.some_ne_none j, hl⟩

/-- The queue is linked in both directions, and its lock is free. -/
structure Queue.Inv (q : Queue J T) (l : List J) : Prop where
  lock : q.q_lock = false
  doubly : Doubly none q.next q.prev (l.map some)

section Steps

variable {q : Queue J T} {l m n : List J} {jp : J} (h : q.Inv l)
include h

theorem Queue.Inv.head_eq : q.q_head = l.head? := by
  have hn := h.doubly.next_null
  cases l <;> exact hn

theorem Queue.Inv.tail_eq : q.q_tail = l.getLast? := by
  have hp := h.doubly.prev_null
  rw [List.getLastD_eq_getLast?, List.getLast?_map] at hp
  refine hp.trans ?_
  cases l.getLast? <;> rfl

theorem Queue.Inv.wrlock : q.wrlock = some (q.setLock true) := by
  rw [Queue.wrlock, h.lock]
  rfl

theorem Queue.Inv.nodup : l.Nodup := h.doubly.nodup.of_map

theorem Queue.Inv.head_ne (hl : l = m ++ jp :: n) (hm : m ≠ []) : some jp ≠ q.q_head := by
  intro hhead
  have hnd := h.nodup
  subst hl
  rw [h.head_eq, List.head?_append_of_ne_nil _ hm] at hhead
  exact (List.nodup_append.mp hnd).2.2 _ (List.mem_of_mem_head? hhead.symm) _ List.mem_cons_self rfl

theorem Queue.Inv.tail_ne (hl : l = m ++ jp :: n) (hn : n ≠ []) : q.q_tail ≠ some jp := by
  intro htail
  have hnd := h.nodup
  subst hl
  rw [h.tail_eq, ← List.singleton_append, ← List.append_assoc,
    List.getLast?_append_of_ne_nil _ hn] at htail
  rw [List.perm_middle.nodup_iff, List.nodup_cons] at hnd
  exact hnd.1 (List.mem_append_right _ (List.mem_of_getLast? htail))

variable [DecidableEq J]

theorem jobInsert_inv (hnew : jp ∉ l) : ∃ q', jobInsert q jp = some q' ∧ q'.Inv (jp :: l) := by
  have hmem : some jp ∉ [] ++ l.map some := by simpa using hnew
  have hhead := h.head_eq
  rw [jobInsert, h.wrlock]
  cases l with
  | nil =>
    replace hhead : q.q_head = none := hhead
    refine ⟨_, rfl, rfl, ?_⟩
    refine h.doubly.insert (l := []) (m := []) (Option.some_ne_none jp) hmem ?_ ?_ ?_ ?_ ?_ ?_
    all_goals simp +contextual [unlock, hhead]
  | cons j l =>
    replace hhead : q.q_head = some j := hhead
    have hne : jp ≠ j := fun he => hnew (he ▸ List.mem_cons_self)
    refine ⟨_, rfl, rfl, ?_⟩
    refine h.doubly.insert (l := []) (m := (j :: l).map some) (Option.some_ne_none jp) hmem
      ?_ ?_ ?_ ?_ ?_ ?_
    all_goals simp +contextual [unlock, hhead, hne]

theorem jobAppend_inv (hnew : jp ∉ l) : ∃ q', jobAppend q jp = some q' ∧ q'.Inv (l ++ [jp]) := by
  have hmem : some jp ∉ l.map some ++ [] := by simpa using hnew
  have hdoubly : Doubly none q.next q.prev (l.map some ++ []) := by simpa using h.doubly
  have htail := h.tail_eq
  rw [jobAppend, h.wrlock]
  rcases List.eq_nil_or_concat l with rfl | ⟨l, j, rfl⟩
  · replace htail : q.q_tail = none := htail
    refine ⟨_, rfl, rfl, ?_⟩
    rw [List.map_append]
    refine hdoubly.insert (Option.some_ne_none jp) hmem ?_ ?_ ?_ ?_ ?_ ?_
    all_goals simp +contextual [unlock, htail]
  · rw [List.concat_eq_append] at *
    replace htail : q.q_tail = some j := by rw [htail, List.getLast?_concat]
    have hne : jp ≠ j := fun he => hnew (by simp [he])
    refine ⟨_, rfl, rfl, ?_⟩
    rw [List.map_append]
    refine hdoubly.insert (Option.some_ne_none jp) hmem ?_ ?_ ?_ ?_ ?_ ?_
    all_goals simp +contextual [unlock, htail, hne]

/-- The four cases of a removal: the only job, the first, the last, and one in between. -/
theorem jobRemove_inv (hl : l = m ++ jp :: n) :
    ∃ q', jobRemove q jp = some q' ∧ q'.Inv (m ++ n) := by
  have hdoubly : Doubly none q.next q.prev (m.map some ++ some jp :: n.map some) := by
    rw [← List.map_cons, ← List.map_append, ← hl]
    exact h.doubly
  have hnext : (q.job jp).j_next = (n.map some).headD none := hdoubly.next_eq
  have hprev : (q.job jp).j_prev = (m.map some).getLastD none := hdoubly.prev_eq
  have hnext' := hdoubly.next_eq
  have hprev' := hdoubly.prev_eq
  rw [jobRemove, h.wrlock]
  rcases List.eq_nil_or_concat m with rfl | ⟨m, i, rfl⟩
  · have hhead : some jp = q.q_head := by rw [h.head_eq, hl]; rfl
    cases n with
    | nil =>
      have htail : q.q_tail = some jp := by rw [h.tail_eq, hl]; rfl
      refine ⟨(((q.setLock true).setHead (q.job jp).j_next).setTail none).unlock, ?_, rfl, ?_⟩
      · simp [← hhead, htail]
      · rw [List.map_append]
        refine hdoubly.remove ?_ ?_ ?_ ?_
        all_goals simp +contextual [unlock, hnext, hnext', hprev']
    | cons j n =>
      replace hnext : (q.job jp).j_next = some j := hnext
      have hne := h.tail_ne hl (List.cons_ne_nil j n)
      refine ⟨(((q.setLock true).setHead (q.job jp).j_next).setPrev j (q.job jp).j_prev).unlock,
        ?_, rfl, ?_⟩
      · simp [← hhead, hne, hnext]
      · rw [List.map_append]
        refine hdoubly.remove ?_ ?_ ?_ ?_
        all_goals simp +contextual [unlock, hnext, hprev, hnext', hprev']
  · rw [List.concat_eq_append] at *
    have hne := h.head_ne hl (by simp)
    replace hprev : (q.job jp).j_prev = some i := by simpa using hprev
    cases n with
    | nil =>
      have htail : some jp = q.q_tail := by rw [h.tail_eq, hl, List.getLast?_concat]
      refine ⟨(((q.setLock true).setTail (q.job jp).j_prev).setNext i (q.job jp).j_next).unlock,
        ?_, rfl, ?_⟩
      · simp [hne, ← htail, hprev]
      · rw [List.map_append]
        refine hdoubly.remove ?_ ?_ ?_ ?_
        all_goals simp +contextual [unlock, hnext, hprev, hnext', hprev']
    | cons j n =>
      replace hnext : (q.job jp).j_next = some j := hnext
      have hne' := (h.tail_ne hl (List.cons_ne_nil j n)).symm
      have hij : jp ≠ i := by
        rintro rfl
        have hnd := h.nodup
        rw [hl, List.perm_middle.nodup_iff, List.nodup_cons] at hnd
        exact hnd.1 (by simp)
      have hjob : ((q.setLock true).setNext i (some j)).job jp = q.job jp := job_setNext_ne _ _ hij
      refine ⟨(((q.setLock true).setNext i (some j)).setPrev j (some i)).unlock, ?_, rfl, ?_⟩
      · simp [hne, hne', hprev, hnext, hjob]
      · rw [List.map_append]
        refine hdoubly.remove ?_ ?_ ?_ ?_
        all_goals simp +contextual [unlock, hnext', hprev']

end Steps

variable {q : Queue J T} {l : List J} {ops : List (JobOp J)}

theorem queueInit_inv (q : Queue J T) : (queueInit q).Inv [] := ⟨rfl, .empty rfl rfl⟩

theorem Queue.Inv.holds (h : q.Inv l) : q.Holds l where
  nodup := h.nodup
  fwd := linked_iff_follows.mp h.doubly.fwd
  bwd := by
    have hb := h.doubly.bwd
    rw [← List.map_reverse] at hb
    exact linked_iff_follows.mp hb
  ends := by rw [h.head_eq, h.tail_eq, List.head?_eq_none_iff, List.getLast?_eq_none_iff]

variable [DecidableEq J]

/-- A call that is allowed does to the queue what it does to the sequence. -/
theorem JobOp.run_inv (h : q.Inv l) (op : JobOp J) (hop : op.Fits l) :
    ∃ q', op.run q = some q' ∧ q'.Inv (op.on l) := by
  cases op with
  | insert jp => exact jobInsert_inv h hop
  | append jp => exact jobAppend_inv h hop
  | remove jp =>
    obtain ⟨m, n, hl⟩ := List.append_of_mem (show jp ∈ l from hop)
    have herase : l.erase jp = m ++ n := by
      have hnd := h.nodup
      rw [hl, List.perm_middle.nodup_iff, List.nodup_cons, List.mem_append, not_or] at hnd
      rw [hl, List.erase_append_right _ hnd.1.1, List.erase_cons_head]
    rw [JobOp.on, herase]
    exact jobRemove_inv h hl

/-- The calls one after the other. -/
def runs : List (JobOp J) → Queue J T → Option (Queue J T)
  | [], q => some q
  | op :: ops, q => op.run q >>= runs ops

theorem runs_inv (h : q.Inv l) (hops : JobOp.Allowed ops l) :
    ∃ q', runs ops q = some q' ∧ q'.Inv (ops.foldl (fun l op => op.on l) l) := by
  induction ops generalizing q l with
  | nil => exact ⟨q, rfl, h⟩
  | cons op ops ih =>
    obtain ⟨q₁, hrun, h₁⟩ := op.run_inv h hops.1
    obtain ⟨q₂, hruns, h₂⟩ := ih h₁ hops.2
    exact ⟨q₂, by rw [runs, hrun]; exact hruns, h₂⟩

/-- From `queue_init` on, allowed calls keep the queue a list in both directions, that of the jobs
which the calls leave. -/
theorem queue_holds (q : Queue J T) (hops : JobOp.Allowed ops []) :
    ∃ q', runs ops (queueInit q) = some q' ∧
      q'.Holds (ops.foldl (fun l op => op.on l) []) := by
  obtain ⟨q', hruns, h⟩ := runs_inv (queueInit_inv q) hops
  exact ⟨q', hruns, h.holds⟩

/-- Two jobs put in at either end, the first taken out. -/
theorem queue_holds_sample : ∃ q' : Queue ℕ Unit,
    runs [.insert 1, .append 2, .remove 1] (queueInit ⟨some 7, some 7, false, fun _ =>
      ⟨some 7, some 7, ()⟩⟩) = some q' ∧ q'.Holds [2] :=
  queue_holds _ ⟨by decide, by decide, by decide, trivial⟩

end Somenote.Threads
