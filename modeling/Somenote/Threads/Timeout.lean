import Mathlib.Algebra.Ring.Int.Defs
import Mathlib.Tactic.ByContra

/-! # Deadlines

The function `timeout` of `pthread_timeout.c`, which runs a function when a time has come: at once,
or in a thread that sleeps until then. The branch is taken by a comparison with a wrong field.
-/

namespace Somenote.Threads

abbrev SECTONSEC : ℤ := 1000000000

structure Timespec where
  tv_sec : ℤ
  tv_nsec : ℤ
  deriving DecidableEq, Repr

/-- A result of type `long`; a value out of its range is undefined behaviour. -/
def long (x : ℤ) : Option ℤ := if -2 ^ 63 ≤ x ∧ x < 2 ^ 63 then some x else none

structure ToInfo (F A : Type) where
  to_fn : F
  to_arg : A
  to_wait : Timespec
  deriving DecidableEq, Repr

/-- What the function does, in its thread and in the thread it makes. -/
inductive Action (F A : Type)
  | nanosleep (t : Timespec)
  | run (f : F) (a : A)
  | makethread (tip : ToInfo F A) (start : List (Action F A))
  | free (tip : ToInfo F A)

variable {F A : Type} (now t : Timespec) (func : F) (arg : A)

def timeoutHelper (tip : ToInfo F A) : List (Action F A) :=
  [.nanosleep tip.to_wait, .run tip.to_fn tip.to_arg, .free tip]

/-- The time from `now` to `t`, as it is set in `to_wait`. -/
def toWait : Option Timespec := do
  let tv_sec ← long (t.tv_sec - now.tv_sec)
  if t.tv_nsec ≥ now.tv_nsec then do
    let tv_nsec ← long (t.tv_nsec - now.tv_nsec)
    some { tv_sec, tv_nsec }
  else do
    let tv_sec ← long (tv_sec - 1)
    let x ← long (SECTONSEC - now.tv_nsec)
    let tv_nsec ← long (x + t.tv_nsec)
    some { tv_sec, tv_nsec }

/-- The comparison of `timeout`, whose second part has the seconds for the nanoseconds. -/
abbrev Late : Prop := t.tv_sec > now.tv_sec ∨ t.tv_sec = now.tv_sec ∧ t.tv_sec > now.tv_nsec

/-- `timeout` at the time `now`, with the replies of `malloc` and `makethread`. -/
def timeout (malloc : Bool) (makethread : ℤ) : Option (List (Action F A)) :=
  if Late now t then
    if malloc then do
      let to_wait ← toWait now t
      let tip := { to_fn := func, to_arg := arg, to_wait }
      let made := Action.makethread tip (timeoutHelper tip)
      if makethread = 0 then some [made] else some [made, .free tip, .run func arg]
    else some [.run func arg]
  else some [.run func arg]

namespace Timespec

/-- The fraction is less than a second. -/
def Normal (t : Timespec) : Prop := 0 ≤ t.tv_nsec ∧ t.tv_nsec < SECTONSEC

instance (t : Timespec) : Decidable t.Normal := inferInstanceAs (Decidable (_ ∧ _))

/-- The time in nanoseconds. -/
def total (t : Timespec) : ℤ := t.tv_sec * SECTONSEC + t.tv_nsec

end Timespec

/-- The function is run at once if the time has come, and else by a thread that sleeps until then. -/
structure Punctual (acts : Option (List (Action F A))) : Prop where
  come : t.total ≤ now.total → acts = some [.run func arg]
  ahead : now.total < t.total → ∃ w : Timespec, 0 ≤ w.tv_sec ∧ w.Normal ∧
    w.total = t.total - now.total ∧
    acts = some [.makethread ⟨func, arg, w⟩ (timeoutHelper ⟨func, arg, w⟩)]

variable {now t func arg}

theorem long_eq {x : ℤ} (h : -2 ^ 63 ≤ x) (h' : x < 2 ^ 63) : long x = some x := if_pos ⟨h, h'⟩

theorem long_eq_some {x y : ℤ} (h : long x = some y) : y = x ∧ x < 2 ^ 63 := by
  rw [long] at h
  split at h
  · cases h
    exact ⟨rfl, ‹_ ∧ _›.2⟩
  · cases h

section Normal

variable (hn : now.Normal) (ht : t.Normal)
include hn ht

theorem total_lt_iff : now.total < t.total ↔
    now.tv_sec < t.tv_sec ∨ now.tv_sec = t.tv_sec ∧ now.tv_nsec < t.tv_nsec := by
  unfold Timespec.Normal SECTONSEC at hn ht
  unfold Timespec.total SECTONSEC
  omega

theorem toWait_eq (hle : now.tv_sec ≤ t.tv_sec) (hlong : t.tv_sec - now.tv_sec < 2 ^ 63) :
    ∃ w : Timespec, toWait now t = some w ∧ w.Normal ∧ w.total = t.total - now.total := by
  unfold Timespec.Normal SECTONSEC at hn ht
  have hsec : long (t.tv_sec - now.tv_sec) = some _ := long_eq (by omega) hlong
  by_cases hns : t.tv_nsec ≥ now.tv_nsec
  · have hnsec : long (t.tv_nsec - now.tv_nsec) = some _ := long_eq (by omega) (by omega)
    refine ⟨⟨t.tv_sec - now.tv_sec, t.tv_nsec - now.tv_nsec⟩, ?_, ?_, ?_⟩
    · rw [toWait, hsec, hnsec]
      exact if_pos hns
    · simp only [Timespec.Normal, SECTONSEC]
      omega
    · simp only [Timespec.total, SECTONSEC]
      omega
  · have hborrow : long (t.tv_sec - now.tv_sec - 1) = some _ := long_eq (by omega) (by omega)
    have hrest : long (SECTONSEC - now.tv_nsec) = some _ :=
      long_eq (by unfold SECTONSEC; omega) (by unfold SECTONSEC; omega)
    have hnsec : long (SECTONSEC - now.tv_nsec + t.tv_nsec) = some _ :=
      long_eq (by unfold SECTONSEC; omega) (by unfold SECTONSEC; omega)
    refine ⟨⟨t.tv_sec - now.tv_sec - 1, SECTONSEC - now.tv_nsec + t.tv_nsec⟩, ?_, ?_, ?_⟩
    · rw [toWait, hsec, Option.bind_eq_bind, Option.bind_some, if_neg hns, hborrow, hrest]
      simp only [Option.bind_some, hnsec]
    · simp only [Timespec.Normal, SECTONSEC]
      omega
    · simp only [Timespec.total, SECTONSEC]
      omega

end Normal

theorem timeout_of_not_late (h : ¬ Late now t) (malloc : Bool) (makethread : ℤ) :
    timeout now t func arg malloc makethread = some [.run func arg] := if_neg h

theorem timeout_of_late (h : Late now t) : timeout now t func arg true 0 =
    (toWait now t).map fun w =>
      [.makethread ⟨func, arg, w⟩ (timeoutHelper ⟨func, arg, w⟩)] := by
  rw [timeout, if_pos h, if_pos rfl]
  cases toWait now t <;> rfl

theorem lt_of_toWait {w : Timespec} (h : toWait now t = some w) :
    t.tv_sec - now.tv_sec < 2 ^ 63 := by
  obtain ⟨x, hx, -⟩ := Option.bind_eq_some_iff.mp h
  exact (long_eq_some hx).2

/-- With room for the threads, `timeout` is punctual if and only if the difference of the seconds
has type `long`, where one is taken, and the seconds compare as the nanoseconds do, where it comes
to these. -/
theorem timeout_iff (hn : now.Normal) (ht : t.Normal) :
    Punctual now t func arg (timeout now t func arg true 0) ↔
      (now.tv_sec < t.tv_sec → t.tv_sec - now.tv_sec < 2 ^ 63) ∧
        (t.tv_sec = now.tv_sec → (now.tv_nsec < t.tv_sec ↔ now.tv_nsec < t.tv_nsec)) := by
  have hlt := total_lt_iff hn ht
  constructor
  · intro hp
    have hlate : now.total < t.total ↔ Late now t := by
      constructor
      · intro hahead
        by_contra hno
        obtain ⟨w, -, -, -, hacts⟩ := hp.ahead hahead
        rw [timeout_of_not_late hno] at hacts
        cases hacts
      · intro hlate
        by_contra hno
        have hacts := hp.come (Int.not_lt.mp hno)
        rw [timeout_of_late hlate] at hacts
        obtain ⟨w, -, hw⟩ := Option.map_eq_some_iff.mp hacts
        cases hw
    constructor
    · intro hsec
      obtain ⟨w, -, -, -, hacts⟩ := hp.ahead (hlt.mpr (Or.inl hsec))
      rw [timeout_of_late (Or.inl hsec)] at hacts
      obtain ⟨w', hw', -⟩ := Option.map_eq_some_iff.mp hacts
      exact lt_of_toWait hw'
    · intro hsec
      unfold Late at hlate
      omega
  · rintro ⟨hlong, hsame⟩
    have hlate : now.total < t.total ↔ Late now t := by
      unfold Late
      omega
    constructor
    · intro hcome
      exact timeout_of_not_late (fun h => Int.not_lt.mpr hcome (hlate.mpr h)) true 0
    · intro hahead
      have hle : now.tv_sec ≤ t.tv_sec := by omega
      obtain ⟨w, hw, hnormal, htotal⟩ := toWait_eq hn ht hle (by omega)
      refine ⟨w, ?_, hnormal, htotal, ?_⟩
      · unfold Timespec.Normal at hnormal
        unfold Timespec.total SECTONSEC at *
        omega
      · rw [timeout_of_late (hlate.mp hahead), hw]
        rfl

/-- A time that is ten seconds ahead. -/
theorem timeout_ten_ahead :
    Punctual ⟨1700000000, 500⟩ ⟨1700000010, 400⟩ 0 1
      (timeout ⟨1700000000, 500⟩ ⟨1700000010, 400⟩ 0 1 true 0) :=
  (timeout_iff (by decide) (by decide)).mpr (by decide)

/-- A time of the second that is running, and that has come, is waited for with a negative time. -/
theorem timeout_not_punctual : ¬ ∀ now t : Timespec, now.Normal → t.Normal →
    ∀ func arg : ℕ, Punctual now t func arg (timeout now t func arg true 0) := by
  intro hall
  have hp := hall ⟨1700000000, 500⟩ ⟨1700000000, 400⟩ (by decide) (by decide) 0 1
  have hacts := hp.come (by decide)
  rw [timeout, if_pos (by decide), if_pos rfl] at hacts
  cases hacts

end Somenote.Threads
