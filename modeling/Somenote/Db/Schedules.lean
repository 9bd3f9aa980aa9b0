import Mathlib.Data.Fintype.Basic
import Somenote.Db.System
import Somenote.Program.Schedule

/-! # Schedules of processes that share a database

Whether a lock is granted depends on all bytes of its range, which may have no end. The ranges of
the module either end in front of the index records or have no end, so that what a process holds on
the first record it holds on all bytes behind it, and a schedule can be played.
-/

namespace Somenote.Db

variable {Pid : Type} [DecidableEq Pid] {p : Pid} {c : Call} {l : Fds} {T : LockTable Pid Fd}
  {fuel : ℕ}

/-- The range of a lock does not end behind the first index record. -/
def Coarse (off len : ℕ) : Prop := if len = 0 then off ≤ idxStart else off + len ≤ idxStart

instance (off len : ℕ) : Decidable (Coarse off len) := inferInstanceAs (Decidable (ite ..))

def Call.Coarse : Call → Prop
  | setlkw _ _ off len | unlck _ off len => Db.Coarse off len
  | _ => True

instance (c : Call) : Decidable c.Coarse := by
  cases c <;> unfold Call.Coarse <;> infer_instance

/-- What is held on the first index record is held behind it. -/
def Flat (T : LockTable Pid Fd) : Prop := ∀ q fd b, idxStart ≤ b → T q fd b = T q fd idxStart

instance (t u : LockType) : Decidable (t.Conflicts u) := inferInstanceAs (Decidable (_ ∨ _))

/-- The bytes of a range up to the first index record. -/
def width (off len : ℕ) : ℕ := if len = 0 then idxStart + 1 - off else len

/-- No other process has a conflicting lock on the bytes up to the first index record. -/
def Call.ReadyBelow (p : Pid) (l : Fds) (T : LockTable Pid Fd) : Call → Prop
  | setlkw fd t off len => l.acc.allows t = true → ∀ q, q ≠ p → ∀ i : Fin (width off len),
      (T q fd (off + i)).all fun u => ¬ t.Conflicts u
  | _ => True

instance [Fintype Pid] (c : Call) : Decidable (c.ReadyBelow p l T) := by
  cases c <;> unfold Call.ReadyBelow <;> infer_instance

/-- The system for calls whose ranges are coarse. -/
def coarseKernel : Kernel Pid Call Reply Fds (Files × LockTable Pid Fd) where
  Ready p c l s := c.Coarse ∧ c.ReadyBelow p l s.2
  exec := kernel.exec
  exit := kernel.exit

instance [Fintype Pid] (p : Pid) (c : Call) (l : Fds) (s : Files × LockTable Pid Fd) :
    Decidable (coarseKernel.Ready p c l s) := inferInstanceAs (Decidable (_ ∧ _))

instance (r : Req) (h : Handles) : Decidable ((users fuel).Can r h) := by
  cases r <;> unfold users Req.Can <;> infer_instance

theorem Coarse.inRange_iff {off len b : ℕ} (h : Coarse off len) (hb : idxStart ≤ b) :
    inRange off len b ↔ inRange off len idxStart := by
  unfold Coarse at h
  unfold inRange
  split at h <;> omega

omit [DecidableEq Pid] in
theorem Flat.grantable (hT : Flat T) {fd : Fd} {t : LockType} {off len : ℕ} (hc : Coarse off len)
    (h : ∀ q, q ≠ p → ∀ i : Fin (width off len), (T q fd (off + i)).all fun u => ¬ t.Conflicts u) :
    T.Grantable p fd t off len := by
  -- a byte of the range that is not behind the first record
  have hbelow : ∀ q, q ≠ p → ∀ b, inRange off len b → b ≤ idxStart → ∀ u, T q fd b = some u →
      ¬ t.Conflicts u := by
    intro q hq b hb hle u hu
    have hlt : b - off < width off len := by
      unfold inRange at hb
      unfold width
      split <;> omega
    have hall := h q hq ⟨b - off, hlt⟩
    rw [show off + (b - off) = b from Nat.add_sub_cancel' hb.1, hu] at hall
    simpa using hall
  intro q hq b hb u hu
  by_cases hle : b ≤ idxStart
  · exact hbelow q hq b hb hle u hu
  · have hge : idxStart ≤ b := by omega
    rw [hT q fd b hge] at hu
    exact hbelow q hq idxStart ((hc.inRange_iff hge).mp hb) le_rfl u hu

theorem Flat.assign (hT : Flat T) {fd : Fd} {off len : ℕ} (hc : Coarse off len)
    (v : Option LockType) : Flat (T.assign p fd off len v) := by
  intro q g b hb
  simp only [LockTable.assign, hc.inRange_iff hb, hT q g b hb]

theorem Flat.locks (hT : Flat T) (hc : c.Coarse) : Flat (c.locks p l T) := by
  cases c with
  | setlkw fd t off len =>
    rw [Call.locks]
    split
    · exact hT.assign hc _
    · exact hT
  | unlck fd off len => exact hT.assign hc _
  | close fd => exact hT.assign (show Coarse 0 0 from Nat.zero_le _) _
  | _ => exact hT

theorem Flat.release (hT : Flat T) : Flat (T.release p) := by
  intro q fd b hb
  simp only [LockTable.release, hT q fd b hb]

omit [DecidableEq Pid] in
theorem Flat.ready (hT : Flat T) (h : c.Coarse ∧ c.ReadyBelow p l T) : c.Ready p l T := by
  cases c with
  | setlkw fd t off len => exact fun ha => hT.grantable h.1 (h.2 ha)
  | _ => trivial

variable {s t : Machine Pid} {tr : List (Event Pid Req Ans Call)}

/-- What runs with coarse ranges is a run of the system. -/
theorem run_of_coarse (hs : Flat s.shared.2) (h : Run coarseKernel (users fuel) s tr t) :
    Run kernel (users fuel) s tr t ∧ Flat t.shared.2 := by
  induction h with
  | nil => exact ⟨.nil, hs⟩
  | snoc _ hstep ih =>
    obtain ⟨hrun, hT⟩ := ih
    cases hstep with
    | inv ht hc => exact ⟨.snoc hrun (.inv ht hc), hT⟩
    | sys ht hr => exact ⟨.snoc hrun (.sys ht (hT.ready hr)), hT.locks hr.1⟩
    | ret ht => exact ⟨.snoc hrun (.ret ht), hT⟩
    | die ht => exact ⟨.snoc hrun (.die ht), hT.release⟩

/-- A schedule that can be played is a run. -/
theorem run_of_schedule [Fintype Pid] (cs : List (Choice Pid Req))
    (P : List (Event Pid Req Ans Call) → Machine Pid → Prop) [∀ tr t, Decidable (P tr t)]
    (hs : Flat s.shared.2)
    (h : (Conf.play coarseKernel (users fuel) cs s).any fun x => P x.1 x.2) :
    ∃ tr t, Run kernel (users fuel) s tr t ∧ P tr t := by
  obtain ⟨⟨tr, t⟩, hplay, hP⟩ := (Option.any_eq_true ..).mp h
  exact ⟨tr, t, (run_of_coarse hs (Conf.run_of_play cs hplay)).1, of_decide_eq_true hP⟩

/-- The process goes on with its call, `n` times. -/
def turns (p : Pid) (n : ℕ) : List (Choice Pid Req) := List.replicate n (.go p)

end Somenote.Db
