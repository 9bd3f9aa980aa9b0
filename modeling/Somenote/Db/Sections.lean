import Somenote.Db.Guarded

/-! # Inside a hash chain

A process enters the chain of a key with a lock on its byte, and searches it. While it is inside,
the records of the chain are the map for all keys of the chain, or for all but the key
whose record the process is changing.
-/

namespace Somenote.Db

/-- The locks of one process. -/
abbrev Locking := Fd → ℕ → Option LockType

namespace Locking

def none : Locking := fun _ _ => .none

def add (g : Locking) (fd : Fd) (off len : ℕ) (x : Option LockType) : Locking :=
  fun fd' b => if fd' = fd ∧ inRange off len b then x else g fd' b

/-- A lock on the byte of a hash chain. -/
def chain (j : Fin nhashDef) (t : LockType) : Locking := none.add .idx (slot j) 1 (some t)

variable {g : Locking} {fd : Fd} {off len b : ℕ} {x : Option LockType} {j : Fin nhashDef}
  {t : LockType}

theorem inRange_one {off b : ℕ} : inRange off 1 b ↔ b = off := by
  simp only [inRange]
  omega

theorem add_in (h : inRange off len b) : g.add fd off len x fd b = x := if_pos ⟨rfl, h⟩

theorem add_out {fd' : Fd} (h : fd' = fd → ¬ inRange off len b) :
    g.add fd off len x fd' b = g fd' b :=
  if_neg fun hb => h hb.1 hb.2

theorem add_clear (h : ∀ b, inRange off len b → g fd b = .none) :
    (g.add fd off len x).add fd off len .none = g := by
  funext fd' b
  by_cases hb : fd' = fd ∧ inRange off len b
  · obtain ⟨rfl, hb⟩ := hb
    rw [add_in hb, h b hb]
  · have hout : fd' = fd → ¬ inRange off len b := fun he hr => hb ⟨he, hr⟩
    rw [add_out hout, add_out hout]

theorem chain_self : chain j t .idx (slot j) = some t := add_in (inRange_one.mpr rfl)

theorem chain_idx (h : b ≠ slot j) : chain j t .idx b = .none :=
  add_out fun _ hb => h (inRange_one.mp hb)

theorem chain_dat : chain j t .dat b = .none := add_out fun h => by cases h

end Locking

theorem slot_lt (j : Fin nhashDef) : slot j < idxStart := by
  have := j.isLt
  simp only [slot, ptrSz, hashOff, idxStart, nhashDef] at this ⊢
  omega

theorem slot_notInRange {j : Fin nhashDef} : ¬ inRange idxStart 0 (slot j) := fun h =>
  absurd h.1 (Nat.not_le.mpr (slot_lt j))

theorem slot_notInFree {j : Fin nhashDef} : ¬ inRange freeOff 1 (slot j) := fun h =>
  slot_ne_free j (Locking.inRange_one.mp h)

variable {Pid : Type} {p q : Pid} {w w' : World Pid} {j : Fin nhashDef} {t : LockType} {k k' d : CStr}
  {v : Option CStr} {n o : ℕ} {r : Rec}

namespace World

/-- The process is in no operation. -/
structure Outside (p : Pid) (w : World Pid) : Prop where
  locks : w.locks p = Locking.none
  hand : w.hand p = .empty
  timely : w.Timely p

/-- The process has the chain locked and changes no record of it. -/
structure Inside (p : Pid) (w : World Pid) (j : Fin nhashDef) (t : LockType) : Prop where
  locks : w.locks p = Locking.chain j t
  hand : w.hand p = .empty
  timely : w.Timely p
  agree : ∀ k, dbHash k.1 = j → w.map k = w.chained k

/-- The process has the chain of the key locked for writing, and the key has left it or is
not yet on it. The map has `v` for the key. -/
structure Away (p : Pid) (w : World Pid) (k : CStr) (v : Option CStr) : Prop where
  writes : w.Writes p (slot (dbHash k.1))
  chained : w.chained k = none
  map : w.map k = v
  others : ∀ k', dbHash k'.1 = dbHash k.1 → k' ≠ k → w.map k' = w.chained k'

/-- A key that may be put on its chain, whose pointer is `n`. -/
structure Pending (p : Pid) (w : World Pid) (k : CStr) (v : Option CStr) (n : ℕ) : Prop
    extends Away p w k v where
  timely : w.Timely p
  first : w.image.next (slot (dbHash k.1)) = n

theorem Outside.rely (h : Outside p w) (hr : Rely p w w') : Outside p w' :=
  ⟨hr.locks.trans h.locks, hr.hand.trans h.hand, hr.timely h.timely⟩

theorem Inside.holds (h : Inside p w j t) : w.Holds p (slot j) := by
  rw [Holds, h.locks, Locking.chain_self]
  exact Option.some_ne_none _

theorem Inside.writes (h : Inside p w j .wr) : w.Writes p (slot j) := by
  rw [Writes, h.locks, Locking.chain_self]

theorem Inside.rely (h : Inside p w j t) (hr : Rely p w w') : Inside p w' j t where
  locks := hr.locks.trans h.locks
  hand := hr.hand.trans h.hand
  timely := hr.timely h.timely
  agree k hk := by
    rw [hr.map k (hk ▸ h.holds), hr.chained k (hk ▸ h.holds)]
    exact h.agree k hk

theorem Inside.found (h : Inside p w (dbHash k.1) t) (ok : w.Ok)
    (hmem : o ∈ w.lists.chain (dbHash k.1)) (ho : w.image.RecAt o r) (hk : r.key = k)
    (hd : w.image.blkAt r.datoff = some d) : w.chained k = some d ∧ w.map k = some d := by
  subst hk
  have hchained := ok.inv.present hmem ho hd
  exact ⟨hchained, (h.agree r.key rfl).trans hchained⟩

theorem Away.rely (h : Away p w k v) (hr : Rely p w w') : Away p w' k v where
  writes := hr.writes.mpr h.writes
  chained := (hr.chained k h.writes.holds).trans h.chained
  map := (hr.map k h.writes.holds).trans h.map
  others k' hk hne := by
    rw [hr.map k' (hk ▸ h.writes.holds), hr.chained k' (hk ▸ h.writes.holds)]
    exact h.others k' hk hne

theorem Pending.rely (h : Pending p w k v n) (hr : Rely p w w') : Pending p w' k v n :=
  { h.toAway.rely hr with
    timely := hr.timely h.timely
    first := by
      have hc := hr.cells (some (dbHash k.1)) h.writes.holds (slot (dbHash k.1))
        List.mem_cons_self
      rw [Image.next_congr hc]
      exact h.first }

theorem Inside.pending (h : Inside p w (dbHash k.1) .wr) (hk : w.chained k = none) :
    Pending p w k none (w.image.next (slot (dbHash k.1))) where
  writes := h.writes
  timely := h.timely
  chained := hk
  map := (h.agree k rfl).trans hk
  others k' hk' _ := h.agree k' hk'
  first := rfl

end World

open World

variable [DecidableEq Pid] {α : Type} {op : Req} {l : Fds} {τ : Option Ans} {e : Err} {b : DB}
  {Q : α → Fds → World Pid → Option Ans → Prop} {fd : Fd} {off len : ℕ} {x : Option LockType}

theorem lock_self : (w.lock p fd off len x).locks p = Locking.add (w.locks p) fd off len x := by
  funext fd' b
  simp [World.lock, LockTable.assign, Locking.add]

theorem guarded_enter {f : Unit → DbProg α} (hout : Outside p w)
    (h : ∀ w', w'.Ok → Inside p w' j t → Guarded p op (f ()) Q l w' τ) :
    Guarded p op (orDump (.setlkw .idx t (slot j) 1) e >>= f) Q l w τ := by
  refine guarded_lock (fun b _ => by rw [hout.locks]; rfl) fun w' ok' h' hg => ?_
  have hout' := hout.rely h'
  have hnone : ∀ fd b, w'.locks p fd b = none := fun fd b => by rw [hout'.locks]; rfl
  refine h _ (lock_ok ok' hg fun b _ => hnone _ b) ?_
  exact {
    locks := by
      rw [lock_self, hout'.locks]
      rfl
    hand := hout'.hand
    timely := hout'.timely
    agree := fun k hk => by
      subst hk
      have hagree : w'.map k = w'.chained k := lock_agree ok' hg fun hh => hh (hnone _ _)
      exact hagree }

/-- A process leaves a chain; its call may take effect before. -/
theorem guarded_leave {f : Unit → DbProg α}
    (h : ∀ w', w'.Ok → Rely p w w' → ∃ w₁ τ', Moves p op w' τ w₁ τ' ∧ w₁.real = w'.real ∧
      w₁.locks = w'.locks ∧ Inside p w₁ j t ∧
      ∀ w₂, w₂.Ok → Outside p w₂ → w₂.image = w₁.image → Guarded p op (f ()) Q l w₂ τ') :
    Guarded p op (orDump (.unlck .idx (slot j) 1) e >>= f) Q l w τ := by
  refine guarded_unlock fun w' ok' h' => ?_
  obtain ⟨w₁, τ', hmove, hreal, hlocks, hin, hf⟩ := h w' ok' h'
  have hok : (w₁.lock p .idx (slot j) 1 none).Ok := by
    refine unlock_ok hmove.ok (by simp [hin.hand]) hin.timely (fun _ k hk => ?_) ?_
    · exact hin.agree k (slot_injective (Locking.inRange_one.mp hk))
    · intro _ o r ho
      rw [hin.hand] at ho
      cases ho
  refine ⟨w₁, τ', hmove, hreal, hlocks, hok, hf _ hok ?_ rfl⟩
  refine ⟨?_, hin.hand, hin.timely⟩
  rw [lock_self, hin.locks]
  exact Locking.add_clear fun _ _ => rfl

section Find

/-- A search ends inside the chain of the key, with the record of the key or with none. -/
theorem guarded_find {f : ℤ × DB → DbProg α} {fuel : ℕ} {wl : Bool} (hout : Outside p w)
    (hit : ∀ l' w' (b' : DB) l₀ o m r, w'.Ok → Inside p w' (dbHash k.1) (lockFor wl) →
      w'.lists.chain (dbHash k.1) = l₀ ++ o :: m → w'.image.RecAt o r → r.key = k →
      b'.chainoff = slot (dbHash k.1) → b'.ptroff = (l₀.getLastD (slot (dbHash k.1)) : ℕ) →
      Guarded p op (f (0, b'.load o r)) Q l' w' τ)
    (miss : ∀ l' w' (b' : DB), w'.Ok → Inside p w' (dbHash k.1) (lockFor wl) → w'.chained k = none →
      b'.chainoff = slot (dbHash k.1) → Guarded p op (f (-1, b')) Q l' w' τ) :
    Guarded p op (dbFindAndLock fuel b k.1 wl >>= f) Q l w τ := by
  rw [dbFindAndLock, Prog.bind_assoc]
  refine guarded_enter (j := dbHash k.1) (t := lockFor wl) hout fun w₁ ok₁ hin₁ => ?_
  rw [Prog.bind_assoc]
  refine guarded_readptr (i := some (dbHash k.1)) (x := slot (dbHash k.1)) hin₁.holds
    List.mem_cons_self hin₁.timely fun l₂ w₂ ok₂ h₂ => ?_
  have hin₂ := hin₁.rely h₂
  have hnext : w₂.image.next (slot (dbHash k.1)) = (w₂.lists.chain (dbHash k.1)).headD 0 :=
    (ok₂.inv.linked (some (dbHash k.1))).next_headD
  rw [hnext, findLoop_eq k.1 fuel _ (slot (dbHash k.1) : ℕ)]
  simp only [Prog.bind_assoc]
  refine guarded_search (i := some (dbHash k.1)) (F := fun r => r.key = k)
    (K := fun w' => Inside p w' (dbHash k.1) (lockFor wl))
    (P := fun z b' => b'.chainoff = slot (dbHash k.1) ∧ b'.ptroff = (z : ℕ))
    (fun _ _ _ => Subtype.ext_iff.symm) (fun _ _ _ _ h => ⟨h.1, rfl⟩) (fun _ _ h => h.rely)
    (fun _ h => ⟨h.holds, h.timely⟩) ?_ ?_ ok₂ hin₂ (List.nil_append _).symm (by simp) ⟨rfl, rfl⟩
  · intro l' w' b' l₀ o m r ok' hin' hl' ho hk h0 hb
    rw [Prog.pure_eq, Prog.ret_bind]
    dsimp only
    rw [if_neg (by exact_mod_cast h0)]
    exact hit l' w' b' l₀ o m r ok' hin' hl' ho hk hb.1 hb.2
  · intro l' w' b' a s ok' hin' hno hb
    exact miss l' w' b' ok' hin' (ok'.inv.absent hno) hb.1

end Find

end Somenote.Db
