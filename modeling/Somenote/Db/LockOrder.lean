import Mathlib.Order.BooleanAlgebra.Set
import Mathlib.Logic.Relation
import Somenote.Db.Creation
import Somenote.Db.Session
import Somenote.Program.Protocol

/-! # The order of the locks

A process that holds nothing may lock any range. While it holds the byte of one hash chain
it may lock the byte of the free list, the data file, or the index records, one at a time,
and nothing else. So a process that others wait for, and that waits itself, holds a chain
byte and waits for one that does not wait.
-/

namespace Somenote.Db

/-- The bytes of a range in a file. -/
def span (fd : Fd) (off len : ℕ) : Set (Fd × ℕ) := {x | x.1 = fd ∧ inRange off len x.2}

/-- The ranges that are locked by a process that holds a chain byte. -/
def Inner (fd : Fd) (off len : ℕ) : Prop :=
  fd = .idx ∧ off = freeOff ∧ len = 1 ∨ fd = .dat ∧ off = 0 ∧ len = 0 ∨
    fd = .idx ∧ off = idxStart ∧ len = 0

/-- The byte that locks a hash chain. -/
def chainByte (j : Fin nhashDef) : Set (Fd × ℕ) := span .idx (slot j) 1

/-- The bytes that a process may hold behind a call. -/
def held (g : Set (Fd × ℕ)) : (c : Call) → Reply c → Set (Fd × ℕ)
  | .setlkw fd _ off len, some _ => g ∪ span fd off len
  | .unlck fd off len, _ => g \ span fd off len
  | .close fd, _ => g \ span fd 0 0
  | _, _ => g

/-- The order of the locks, for the bytes that a process may hold. -/
def lockOrder : Protocol Call Reply (Set (Fd × ℕ)) where
  Ok
    | g, .setlkw fd _ off len => g = ∅ ∨ (∃ j, g ⊆ chainByte j) ∧ Inner fd off len
    | _, _ => True
  Next g c r g' := g' = held g c r

/-- The calls that change no lock. -/
def Call.Lockless : Call → Prop
  | setlkw .. | unlck .. | close _ => False
  | _ => True

section Programs

variable {c : Call} {e : Err} {g : Set (Fd × ℕ)} {b : DB} {key data : List Byte}
  {offset ptrval : ℤ} {whence : Whence} {fuel : ℕ} {j : Fin nhashDef}

theorem obeys_orDump {Q : c.Val → Set (Fd × ℕ) → Prop} (hc : c.Lockless) (h : ∀ v, Q v g) :
    (orDump c e).Obeys lockOrder g Q := by
  cases c with
  | setlkw => exact hc.elim
  | unlck => exact hc.elim
  | close => exact hc.elim
  | _ =>
    refine ⟨trivial, ?_⟩
    rintro r g' rfl
    cases r with
    | none => trivial
    | some v => exact h v

theorem obeys_dumpIf {q : Prop} [Decidable q] {Q : Unit → Set (Fd × ℕ) → Prop} (h : Q () g) :
    (dumpIf q e).Obeys lockOrder g Q :=
  Prog.obeys_ite (fun _ => trivial) fun _ => h

theorem obeys_lock {fd : Fd} {t : LockType} {off len : ℕ} {Q : Unit → Set (Fd × ℕ) → Prop}
    (hok : g = ∅ ∨ (∃ j, g ⊆ chainByte j) ∧ Inner fd off len) (h : Q () (g ∪ span fd off len)) :
    (orDump (.setlkw fd t off len) e).Obeys lockOrder g Q := by
  refine ⟨hok, ?_⟩
  rintro r g' rfl
  cases r with
  | none => trivial
  | some v => exact h

theorem obeys_unlock {fd : Fd} {off len : ℕ} {Q : Unit → Set (Fd × ℕ) → Prop}
    (h : Q () (g \ span fd off len)) : (orDump (.unlck fd off len) e).Obeys lockOrder g Q := by
  refine ⟨trivial, ?_⟩
  rintro r g' rfl
  cases r with
  | none => trivial
  | some v => exact h

theorem obeys_readptr {Q : ℤ → Set (Fd × ℕ) → Prop} (h : ∀ v, Q v g) :
    (dbReadptr offset).Obeys lockOrder g Q := by
  unfold dbReadptr
  exact .bind (obeys_orDump trivial fun _ => .bind (obeys_orDump trivial fun _ =>
    .bind (obeys_dumpIf (h _))))

theorem obeys_parseidx {buf : List Byte} {Q : DB → Set (Fd × ℕ) → Prop}
    (h : ∀ b', b'.chainoff = b.chainoff → Q b' g) : (dbParseidx b buf).Obeys lockOrder g Q := by
  unfold dbParseidx
  refine .bind (obeys_dumpIf ?_)
  cases strchr (cstr buf.dropLast) SEP with
  | none => trivial
  | some x =>
    dsimp only
    cases strchr x.2 SEP with
    | none => trivial
    | some y =>
      exact .bind (obeys_dumpIf (.bind (obeys_dumpIf (.bind (obeys_dumpIf (h _ rfl))))))

theorem obeys_readidx {Q : ℤ × DB → Set (Fd × ℕ) → Prop}
    (h : ∀ x, x.2.chainoff = b.chainoff → Q x g) : (dbReadidx b offset).Obeys lockOrder g Q := by
  unfold dbReadidx
  refine .bind (obeys_orDump trivial fun idxoff => .bind (obeys_orDump trivial fun iov => ?_))
  refine Prog.obeys_ite (fun _ => Prog.obeys_ite (fun _ => h _ rfl) fun _ => trivial) fun _ => ?_
  refine .bind (obeys_dumpIf (.bind (obeys_orDump trivial fun buf => .bind (obeys_dumpIf ?_))))
  exact .bind (obeys_parseidx fun b' hb => h _ hb)

theorem obeys_readdat {Q : List Byte × DB → Set (Fd × ℕ) → Prop}
    (h : ∀ x, x.2.chainoff = b.chainoff → Q x g) : (dbReaddat b).Obeys lockOrder g Q := by
  unfold dbReaddat
  refine .bind (obeys_orDump trivial fun _ => .bind (obeys_orDump trivial fun buf => ?_))
  exact .bind (obeys_dumpIf (.bind (obeys_dumpIf (h _ rfl))))

theorem obeys_search {found : DB → Prop} [DecidablePred found] {past : ℤ → DB → DB}
    {saveoffset : ℤ} (hpast : ∀ o b, (past o b).chainoff = b.chainoff)
    {Q : ℤ × ℤ × DB → Set (Fd × ℕ) → Prop} (h : ∀ x, x.2.2.chainoff = b.chainoff → Q x g) :
    (search found past fuel b saveoffset offset).Obeys lockOrder g Q := by
  induction fuel generalizing b saveoffset offset with
  | zero => trivial
  | succ fuel ih =>
    unfold search
    refine Prog.obeys_ite (fun _ => .bind (obeys_readidx fun x hx => ?_)) fun _ => h _ rfl
    refine Prog.obeys_ite (fun _ => h _ hx) fun _ => ih fun y hy => h y ?_
    exact (hy.trans (hpast ..)).trans hx

theorem obeys_findLoop {Q : ℤ × DB → Set (Fd × ℕ) → Prop}
    (h : ∀ x, x.2.chainoff = b.chainoff → Q x g) :
    (findLoop key fuel b offset).Obeys lockOrder g Q := by
  rw [findLoop_eq key fuel b 0]
  refine .bind (obeys_search (fun _ _ => ?_) fun x hx => h x.2 hx)
  rfl

theorem obeys_findfreeLoop {keylen datlen : ℕ} {saveoffset : ℤ}
    {Q : ℤ × ℤ × DB → Set (Fd × ℕ) → Prop} (h : ∀ x, x.2.2.chainoff = b.chainoff → Q x g) :
    (findfreeLoop keylen datlen fuel b saveoffset offset).Obeys lockOrder g Q := by
  rw [findfreeLoop_eq]
  exact obeys_search (fun _ _ => rfl) h

theorem obeys_nextrecLoop {Q : Bool × DB → Set (Fd × ℕ) → Prop} (h : ∀ x, Q x g) :
    (nextrecLoop fuel b).Obeys lockOrder g Q := by
  induction fuel generalizing b with
  | zero => trivial
  | succ fuel ih =>
    unfold nextrecLoop
    refine .bind (obeys_readidx fun x _ => ?_)
    exact Prog.obeys_ite (fun _ => h _) fun _ => Prog.obeys_ite (fun _ => ih) fun _ => h _

theorem obeys_writeptr {Q : Unit → Set (Fd × ℕ) → Prop} (h : Q () g) :
    (dbWriteptr offset ptrval).Obeys lockOrder g Q := by
  unfold dbWriteptr
  exact .bind (obeys_dumpIf (.bind (obeys_orDump trivial fun _ =>
    .bind (obeys_orDump trivial fun _ => obeys_dumpIf h))))

theorem Inner.diff {fd : Fd} {off len : ℕ} (hi : Inner fd off len) (hg : g ⊆ chainByte j) :
    (g ∪ span fd off len) \ span fd off len = g := by
  rw [Set.union_sdiff_right, sdiff_eq_left, Set.disjoint_left]
  rintro ⟨fd', x⟩ hx ⟨rfl, hr⟩
  obtain ⟨rfl, hlo, hhi⟩ := hg hx
  have hj := j.isLt
  simp only [slot, nhashDef, ptrSz, hashOff, inRange] at hlo hhi hr hj
  rcases hi with ⟨-, rfl, rfl⟩ | ⟨hfd, -, -⟩ | ⟨-, rfl, rfl⟩
  · simp only [freeOff] at hr
    omega
  · cases hfd
  · simp only [idxStart, nhashDef, ptrSz] at hr
    omega

theorem inner_free : Inner .idx freeOff 1 := Or.inl ⟨rfl, rfl, rfl⟩

theorem inner_dat : Inner .dat 0 0 := Or.inr (Or.inl ⟨rfl, rfl, rfl⟩)

theorem inner_tail : Inner .idx idxStart 0 := Or.inr (Or.inr ⟨rfl, rfl, rfl⟩)

theorem obeys_writedat {off : ℕ} {Q : DB → Set (Fd × ℕ) → Prop}
    (hg : whence = .fin → g ⊆ chainByte j) (h : ∀ b', b'.chainoff = b.chainoff → Q b' g) :
    (dbWritedat b data off whence).Obeys lockOrder g Q := by
  unfold dbWritedat
  by_cases hw : whence = .fin
  · simp only [onEnd, if_pos hw]
    refine .bind (obeys_lock (Or.inr ⟨⟨j, hg hw⟩, inner_dat⟩) (.bind (obeys_orDump trivial
      fun _ => .bind (obeys_orDump trivial fun _ => .bind (obeys_dumpIf ?_)))))
    refine .bind (obeys_unlock ?_)
    rw [inner_dat.diff (hg hw)]
    exact h _ rfl
  · simp only [onEnd, if_neg hw, Prog.ret_bind]
    exact .bind (obeys_orDump trivial fun _ => .bind (obeys_orDump trivial fun _ =>
      .bind (obeys_dumpIf (h _ rfl))))

theorem obeys_writeidx {off : ℕ} {Q : DB → Set (Fd × ℕ) → Prop}
    (hg : whence = .fin → g ⊆ chainByte j) (h : ∀ b', b'.chainoff = b.chainoff → Q b' g) :
    (dbWriteidx b key off whence ptrval).Obeys lockOrder g Q := by
  unfold dbWriteidx
  refine .bind (obeys_dumpIf (.bind (obeys_dumpIf ?_)))
  by_cases hw : whence = .fin
  · simp only [onEnd, if_pos hw]
    refine .bind (obeys_lock (Or.inr ⟨⟨j, hg hw⟩, inner_tail⟩) (.bind (obeys_orDump trivial
      fun _ => .bind (obeys_orDump trivial fun _ => .bind (obeys_dumpIf ?_)))))
    refine .bind (obeys_unlock ?_)
    rw [inner_tail.diff (hg hw)]
    exact h _ rfl
  · simp only [onEnd, if_neg hw, Prog.ret_bind]
    exact .bind (obeys_orDump trivial fun _ => .bind (obeys_orDump trivial fun _ =>
      .bind (obeys_dumpIf (h _ rfl))))

section Chain

variable (hg : g ⊆ chainByte j)
include hg

theorem obeys_dodelete {Q : DB → Set (Fd × ℕ) → Prop} (h : ∀ b', b'.chainoff = b.chainoff → Q b' g) :
    (dbDodelete b).Obeys lockOrder g Q := by
  unfold dbDodelete
  refine .bind (obeys_lock (Or.inr ⟨⟨j, hg⟩, inner_free⟩) ?_)
  refine .bind (obeys_writedat (j := j) (fun hw => by cases hw) fun b₁ h₁ => ?_)
  refine .bind (obeys_readptr fun _ => ?_)
  refine .bind (obeys_writeidx (j := j) (fun hw => by cases hw) fun b₂ h₂ => ?_)
  refine .bind (obeys_writeptr (.bind (obeys_writeptr (.bind (obeys_unlock ?_)))))
  rw [inner_free.diff hg]
  exact h _ (h₂.trans h₁)

theorem obeys_findfree {keylen datlen : ℕ} {Q : ℤ × DB → Set (Fd × ℕ) → Prop}
    (h : ∀ x, x.2.chainoff = b.chainoff → Q x g) :
    (dbFindfree fuel b keylen datlen).Obeys lockOrder g Q := by
  unfold dbFindfree
  refine .bind (obeys_lock (Or.inr ⟨⟨j, hg⟩, inner_free⟩) ?_)
  refine .bind (obeys_readptr fun _ => .bind (obeys_findfreeLoop fun x hx => .bind ?_))
  have hend : ∀ rc : ℤ, (orDump (.unlck .idx freeOff 1) .findfreeUnLock >>= fun _ =>
      (pure (rc, x.2.2) : DbProg (ℤ × DB))).Obeys lockOrder (g ∪ span .idx freeOff 1) Q := by
    intro rc
    refine .bind (obeys_unlock ?_)
    rw [inner_free.diff hg]
    exact h _ hx
  refine Prog.obeys_ite (fun _ => hend _) fun _ => ?_
  exact .bind (obeys_writeptr (hend _))

theorem obeys_append {Q : DB → Set (Fd × ℕ) → Prop} (h : ∀ b', b'.chainoff = b.chainoff → Q b' g) :
    (storeAppend b key data ptrval).Obeys lockOrder g Q := by
  unfold storeAppend
  refine .bind (obeys_writedat (fun _ => hg) fun b₁ h₁ => ?_)
  refine .bind (obeys_writeidx (fun _ => hg) fun b₂ h₂ => ?_)
  exact .bind (obeys_writeptr (h _ (h₂.trans h₁)))

theorem obeys_reuse {Q : DB → Set (Fd × ℕ) → Prop} (h : ∀ b', b'.chainoff = b.chainoff → Q b' g) :
    (storeReuse b key data ptrval).Obeys lockOrder g Q := by
  unfold storeReuse
  refine .bind (obeys_writedat (fun _ => hg) fun b₁ h₁ => ?_)
  refine .bind (obeys_writeidx (fun _ => hg) fun b₂ h₂ => ?_)
  exact .bind (obeys_writeptr (h _ (h₂.trans h₁)))

theorem obeys_absent {Q : DB → Set (Fd × ℕ) → Prop} (h : ∀ b', b'.chainoff = b.chainoff → Q b' g) :
    (storeAbsent fuel b key data).Obeys lockOrder g Q := by
  unfold storeAbsent
  refine .bind (obeys_readptr fun _ => .bind (obeys_findfree hg fun x hx => ?_))
  exact Prog.obeys_ite (fun _ => obeys_append hg fun b' hb => h b' (hb.trans hx))
    fun _ => obeys_reuse hg fun b' hb => h b' (hb.trans hx)

theorem obeys_present {Q : DB → Set (Fd × ℕ) → Prop} (h : ∀ b', b'.chainoff = b.chainoff → Q b' g) :
    (storePresent b key data).Obeys lockOrder g Q := by
  unfold storePresent
  refine Prog.obeys_ite (fun _ => ?_) fun _ => obeys_writedat (fun _ => hg) h
  refine .bind (obeys_dodelete hg fun b₁ h₁ => .bind (obeys_readptr fun _ => ?_))
  exact obeys_append hg fun b' hb => h b' (hb.trans h₁)

end Chain

theorem obeys_find {wl : Bool} {Q : ℤ × DB → Set (Fd × ℕ) → Prop}
    (h : ∀ x, x.2.chainoff = slot (dbHash key) → Q x (chainByte (dbHash key))) :
    (dbFindAndLock fuel b key wl).Obeys lockOrder ∅ Q := by
  unfold dbFindAndLock
  refine .bind (obeys_lock (Or.inl rfl) ?_)
  rw [Set.empty_union]
  refine .bind (obeys_readptr fun _ => .bind (obeys_findLoop fun x hx => ?_))
  exact h _ hx

theorem obeys_chain_unlock {β : Type} {a : β} {Q : β → Set (Fd × ℕ) → Prop}
    (hb : b.chainoff = slot j) (h : Q a ∅) :
    (orDump (.unlck .idx b.chainoff 1) e >>= fun _ => (pure a : DbProg β)).Obeys lockOrder
      (chainByte j) Q := by
  refine .bind (obeys_unlock ?_)
  rw [hb, chainByte, sdiff_self]
  exact h

theorem obeys_rewind {Q : DB → Set (Fd × ℕ) → Prop} (h : ∀ b', Q b' g) :
    (dbRewind b).Obeys lockOrder g Q := by
  unfold dbRewind
  exact .bind (obeys_orDump trivial fun _ => h _)

theorem obeys_free {idxfd datfd : Option Unit} {Q : Unit → Set (Fd × ℕ) → Prop} (h : Q () ∅) :
    (dbFree idxfd datfd).Obeys lockOrder ∅ Q := by
  have hclose : ∀ (fd : Fd) (o : Option Unit), ((if o = none then .ret none else
      .call (.close fd) .ret : DbProg (Option Unit))).Obeys lockOrder ∅ fun _ g => g = ∅ := by
    intro fd o
    refine Prog.obeys_ite (fun _ => rfl) fun _ => ⟨trivial, ?_⟩
    rintro r g' rfl
    exact Set.empty_sdiff _
  unfold dbFree
  refine .bind ((hclose .idx idxfd).mono fun _ g hg => .bind ?_)
  subst hg
  refine (hclose .dat datfd).mono fun _ g hg => ?_
  subst hg
  exact h

theorem obeys_initIndex {Q : Unit → Set (Fd × ℕ) → Prop} (h : Q () ∅) :
    initIndex.Obeys lockOrder ∅ Q := by
  have hend : (orDump (.unlck .idx 0 0) .openUnLock).Obeys lockOrder (span .idx 0 0) Q := by
    refine obeys_unlock ?_
    rw [sdiff_self]
    exact h
  unfold initIndex
  refine .bind (obeys_lock (Or.inl rfl) ?_)
  rw [Set.empty_union]
  refine .bind (obeys_orDump trivial fun size => .bind (Prog.obeys_ite (fun _ => ?_) fun _ => hend))
  exact .bind (obeys_orDump trivial fun n => obeys_dumpIf hend)

theorem obeys_open {oflag : OFlag} {Q : Option DB → Set (Fd × ℕ) → Prop} (h : ∀ x, Q x ∅) :
    (dbOpen oflag).Obeys lockOrder ∅ Q := by
  have hend : (dbRewind dbAlloc >>= fun b => (pure (some b) : DbProg (Option DB))).Obeys lockOrder
      ∅ Q := .bind (obeys_rewind fun b => h _)
  unfold dbOpen
  refine ⟨trivial, ?_⟩
  rintro idxfd _ rfl
  refine ⟨trivial, ?_⟩
  rintro datfd _ rfl
  refine Prog.obeys_ite (fun _ => ?_) fun _ => ?_
  · exact .bind (obeys_free (h _))
  · exact .bind (Prog.obeys_ite (fun _ => obeys_initIndex hend) fun _ => hend)

theorem obeys_fetch {Q : Option (List Byte) × DB → Set (Fd × ℕ) → Prop} (h : ∀ x, Q x ∅) :
    (dbFetch fuel b key).Obeys lockOrder ∅ Q := by
  unfold dbFetch
  refine .bind (obeys_find fun x hx => .bind (Prog.obeys_ite (fun _ => ?_) fun _ => ?_))
  · exact obeys_chain_unlock hx (h _)
  · exact .bind (obeys_readdat fun y hy => obeys_chain_unlock (hy.trans hx) (h _))

theorem obeys_delete {Q : ℤ × DB → Set (Fd × ℕ) → Prop} (h : ∀ x, Q x ∅) :
    (dbDelete fuel b key).Obeys lockOrder ∅ Q := by
  unfold dbDelete
  refine .bind (obeys_find fun x hx => .bind (Prog.obeys_ite (fun _ => ?_) fun _ => ?_))
  · exact .bind (obeys_dodelete le_rfl fun b' hb => obeys_chain_unlock (hb.trans hx) (h _))
  · exact obeys_chain_unlock hx (h _)

theorem obeys_store {flag : ℤ} {Q : ℤ × DB → Set (Fd × ℕ) → Prop} (h : ∀ x, Q x ∅) :
    (dbStore fuel b key data flag).Obeys lockOrder ∅ Q := by
  unfold dbStore
  refine Prog.obeys_ite (fun _ => h _) fun _ => .bind (obeys_dumpIf (.bind (obeys_find
    fun x hx => .bind (Prog.obeys_ite (fun _ => Prog.obeys_ite (fun _ => ?_) fun _ => ?_)
      fun _ => Prog.obeys_ite (fun _ => ?_) fun _ => ?_))))
  · exact obeys_chain_unlock hx (h _)
  · exact .bind (obeys_absent le_rfl fun b' hb => obeys_chain_unlock (hb.trans hx) (h _))
  · exact obeys_chain_unlock hx (h _)
  · exact .bind (obeys_present le_rfl fun b' hb => obeys_chain_unlock (hb.trans hx) (h _))

theorem obeys_nextrec {Q : Option (List Byte × List Byte) × DB → Set (Fd × ℕ) → Prop}
    (h : ∀ x, Q x ∅) : (dbNextrec fuel b).Obeys lockOrder ∅ Q := by
  have hend : ∀ x : Option (List Byte × List Byte) × DB,
      (orDump (.unlck .idx freeOff 1) .nextrecUnLock >>= fun _ => (pure x : DbProg _)).Obeys
        lockOrder (span .idx freeOff 1) Q := by
    intro x
    refine .bind (obeys_unlock ?_)
    rw [sdiff_self]
    exact h x
  unfold dbNextrec
  refine .bind (obeys_lock (Or.inl rfl) ?_)
  rw [Set.empty_union]
  refine .bind (obeys_nextrecLoop fun x => .bind (Prog.obeys_ite (fun _ => ?_) fun _ => hend _))
  exact .bind (obeys_readdat fun y _ => hend _)

/-- Every call takes its locks in order, and gives them up before it returns. -/
theorem obeys_body (r : Req) : (r.body fuel b).Obeys lockOrder ∅ fun _ g => g = ∅ := by
  cases r with
  | openDb n oflag => exact .bind (obeys_open fun _ => rfl)
  | close n => exact .bind (obeys_free rfl)
  | fetch n key => exact .bind (obeys_fetch fun _ => rfl)
  | store n key data flag => exact .bind (obeys_store fun _ => rfl)
  | delete n key => exact .bind (obeys_delete fun _ => rfl)
  | rewind n => exact .bind (obeys_rewind fun _ => rfl)
  | nextrec n => exact .bind (obeys_nextrec fun _ => rfl)

end Programs

variable {Pid : Type} [DecidableEq Pid] {fuel : ℕ} {f : Files} {s : Machine Pid}
  {tr : List (Event Pid Req Ans Call)} {p q : Pid} {T : LockTable Pid Fd} {g : Set (Fd × ℕ)}

/-- The process holds locks on bytes of `g` only. -/
def Holds (p : Pid) (g : Set (Fd × ℕ)) (k : Files × LockTable Pid Fd) : Prop :=
  ∀ fd x, k.2 p fd x ≠ none → (fd, x) ∈ g

theorem Holds.assign {fd : Fd} {off len : ℕ} {v : Option LockType} {f f' : Files}
    (h : Holds p g (f, T)) : Holds p (g ∪ span fd off len) (f', T.assign p fd off len v) := by
  intro fd' x hx
  by_cases hin : fd' = fd ∧ inRange off len x
  · exact Or.inr hin
  · refine Or.inl (h fd' x ?_)
    dsimp only at hx
    rwa [LockTable.assign_out fun he hr => hin ⟨he, hr⟩] at hx

theorem Holds.clear {fd : Fd} {off len : ℕ} {f f' : Files} (h : Holds p g (f, T)) :
    Holds p (g \ span fd off len) (f', T.assign p fd off len none) := by
  intro fd' x hx
  by_cases hin : fd' = fd ∧ inRange off len x
  · obtain ⟨rfl, hr⟩ := hin
    exact absurd (LockTable.assign_in hr none) hx
  · refine ⟨h fd' x ?_, hin⟩
    dsimp only at hx
    rwa [LockTable.assign_out fun he hr => hin ⟨he, hr⟩] at hx

/-- The process waits for a lock that the other one holds. -/
def WaitsFor (s : Machine Pid) (p q : Pid) : Prop :=
  ∃ r h l fd t off len m, s.tasks p = .busy r h l (.call (.setlkw fd t off len) m) ∧
    l.acc.allows t = true ∧ q ≠ p ∧
    ∃ x u, inRange off len x ∧ s.shared.2 q fd x = some u ∧ t.Conflicts u

/-- In every run, all processes keep to the order of the locks. -/
theorem run_follow (hr : Run kernel (users fuel) (Machine.initial f) tr s) :
    s.Follow lockOrder Holds ∅ := by
  refine hr.follow (fun r h => obeys_body r) ?_ ?_ ?_ ?_ ?_
  · rintro p c l ⟨f, T⟩ g hg - -
    refine ⟨_, rfl, ?_⟩
    cases c with
    | setlkw fd t off len =>
      simp only [kernel, Call.locks, exec]
      split
      · exact hg.assign
      · exact hg
    | unlck fd off len => exact hg.clear
    | close fd => exact hg.clear
    | _ => exact hg
  · rintro p q c l ⟨f, T⟩ g hq hg fd x hx
    refine hg fd x ?_
    simp only [kernel] at hx
    rwa [c.locks_other hq] at hx
  · rintro p ⟨f, T⟩ fd x hx
    simp [kernel, LockTable.release] at hx
  · rintro p q ⟨f, T⟩ g hq hg fd x hx
    refine hg fd x ?_
    simpa [kernel, LockTable.release, hq] using hx
  · intro p fd x hx
    exact absurd rfl hx

section Waiting

variable (h : s.Follow lockOrder Holds ∅)
include h
omit [DecidableEq Pid]

theorem WaitsFor.holds (hw : WaitsFor s p q) :
    ∃ g fd x, Holds p g s.shared ∧ s.shared.2 q fd x ≠ none ∧
      (g = ∅ ∨ (∃ j, g ⊆ chainByte j) ∧ ∀ j, (fd, x) ∉ chainByte j) := by
  obtain ⟨r, d, l, fd, t, off, len, m, ht, -, -, x, u, hx, hu, -⟩ := hw
  have hp := h p
  rw [ht] at hp
  obtain ⟨g, hg, hok, -⟩ := hp
  refine ⟨g, fd, x, hg, by simp [hu], hok.imp_right fun ⟨hj, hi⟩ => ⟨hj, fun j hmem => ?_⟩⟩
  have hdiff := hi.diff (j := j) le_rfl
  rw [← hdiff] at hmem
  exact hmem.2 ⟨rfl, hx⟩

/-- A process that waits for one that waits holds nothing. -/
theorem WaitsFor.holds_nothing {z : Pid} (hpq : WaitsFor s p q) (hqz : WaitsFor s q z) :
    Holds p ∅ s.shared := by
  obtain ⟨g, fd, x, hg, hx, rfl | ⟨-, hno⟩⟩ := hpq.holds h
  · exact hg
  · obtain ⟨g', -, -, hg', -, rfl | ⟨⟨j, hj⟩, -⟩⟩ := hqz.holds h
    · exact absurd (hg' fd x hx) (Set.notMem_empty _)
    · exact absurd (hj (hg' fd x hx)) (hno j)

theorem not_waiting_cycle (p : Pid) : ¬ Relation.TransGen (WaitsFor s) p p := by
  intro hc
  obtain ⟨q, hpq, hqp⟩ := Relation.TransGen.head'_iff.mp hc
  obtain ⟨y, -, hyp⟩ := Relation.TransGen.tail'_iff.mp hc
  obtain ⟨z, hqz⟩ : ∃ z, WaitsFor s q z := by
    rcases Relation.ReflTransGen.cases_head hqp with rfl | ⟨z, hqz, -⟩
    · exact ⟨_, hpq⟩
    · exact ⟨z, hqz⟩
  obtain ⟨-, fd, x, -, hx, -⟩ := hyp.holds h
  exact hpq.holds_nothing h hqz fd x hx

end Waiting

/-- No processes wait for each other in a cycle, and a process between two calls holds no lock. -/
theorem lock_discipline (hr : Run kernel (users fuel) (Machine.initial f) tr s) :
    (∀ p, ¬ Relation.TransGen (WaitsFor s) p p) ∧
      ∀ p h, s.tasks p = .idle h → s.shared.2 p = fun _ _ => none := by
  have hf := run_follow hr
  refine ⟨not_waiting_cycle hf, fun p h ht => ?_⟩
  have hp := hf p
  rw [ht] at hp
  funext fd x
  by_contra hx
  exact hp fd x hx

/-- A process stores a record and holds the bytes of the chain and of the free list; the other one
is about to wait for the chain. -/
def storesOfOneKey : List (Choice Bool Req) :=
  [.start true (.openDb 0 .create)] ++ turns true 8 ++
    [.start false (.openDb 0 ⟨.rdwr, false, false, false⟩)] ++ turns false 4 ++
    [.start true (.store 0 keyA dataX Flag.dbInsert)] ++ turns true 7 ++
    [.start false (.store 0 keyA dataY Flag.dbInsert)]

theorem run_storesOfOneKey : ∃ (tr : List (Event Bool Req Ans Call)) (s : Machine Bool),
    Run kernel (users 100) (Machine.initial ⟨none, none⟩) tr s ∧
      s.shared.2 true .idx 686 = some .wr ∧ s.shared.2 true .idx freeOff = some .wr ∧
        s.At false (.setlkw .idx .wr 686 1) :=
  run_of_schedule storesOfOneKey (fun _ s => s.shared.2 true .idx 686 = some .wr ∧
    s.shared.2 true .idx freeOff = some .wr ∧ s.At false (.setlkw .idx .wr 686 1))
    (fun _ _ _ _ => rfl) (by decide +kernel)

theorem lock_discipline_sample : ∃ (tr : List (Event Bool Req Ans Call)) (s : Machine Bool),
    Run kernel (users 100) (Machine.initial ⟨none, none⟩) tr s ∧
      (s.shared.2 true .idx 686 = some .wr ∧ s.shared.2 true .idx freeOff = some .wr ∧
        s.At false (.setlkw .idx .wr 686 1)) ∧
      (∀ p, ¬ Relation.TransGen (WaitsFor s) p p) ∧
        ∀ p h, s.tasks p = .idle h → s.shared.2 p = fun _ _ => none := by
  obtain ⟨tr, s, hrun, hmeet⟩ := run_storesOfOneKey
  exact ⟨tr, s, hrun, hmeet, lock_discipline hrun⟩

end Somenote.Db
