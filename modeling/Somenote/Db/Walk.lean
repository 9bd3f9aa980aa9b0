import Somenote.Db.Helpers
import Somenote.Db.Invariant

/-! # Walks along a list

What the loops of `_db_find_and_lock` and `_db_findfree` find on a linked list: the first
record that matches, the end of the list, or a record whose key holds a separator.
-/

namespace Somenote.Db

open Decimal

@[simp] theorem Fds.setPos_setPos (p : Fds) (fd : Fd) (m n : ℕ) :
    (p.setPos fd m).setPos fd n = p.setPos fd n := by
  cases fd <;> rfl

namespace Image

/-- The offset behind the cell at an offset. -/
def endOf (I : Image) (o : ℕ) : ℕ := o + (I.cellAt o).elim 0 fun c => c.bytes.length

theorem RecAt.endOf {I : Image} {o : ℕ} {r : Rec} (h : I.RecAt o r) :
    I.endOf o = o + r.bytes.length := by
  rw [Image.endOf, show I.cellAt o = some (.record r) from h]
  rfl

/-- The descriptors after the records of a list have been read. -/
def walked (I : Image) (p : Fds) (l : List ℕ) : Fds :=
  l.getLast?.elim p fun o => p.setPos .idx (I.endOf o)

@[simp] theorem walked_nil (I : Image) (p : Fds) : I.walked p [] = p := rfl

theorem walked_cons (I : Image) (p : Fds) (o : ℕ) (l : List ℕ) :
    I.walked (p.setPos .idx (I.endOf o)) l = I.walked p (o :: l) := by
  unfold walked
  rw [List.getLast?_cons]
  cases l.getLast? with
  | none => rfl
  | some x => simp

theorem setPos_walked (I : Image) (p : Fds) (l : List ℕ) (n : ℕ) :
    (I.walked p l).setPos .idx n = p.setPos .idx n := by
  unfold walked
  cases l.getLast? with
  | none => rfl
  | some x => exact Fds.setPos_setPos p .idx _ n

@[simp] theorem walked_acc (I : Image) (p : Fds) (l : List ℕ) : (I.walked p l).acc = p.acc := by
  unfold walked
  cases l.getLast? with
  | none => rfl
  | some x => exact Fds.setPos_acc p .idx _

/-- A record that a search for the key `k` reads and goes past. -/
def Passes (I : Image) (k : CStr) (o : ℕ) : Prop := ∃ r, I.RecAt o r ∧ SEP ∉ r.key.1 ∧ r.key ≠ k

/-- A free record whose key or data does not have the length asked for. -/
def Unfit (I : Image) (keylen datlen : ℕ) (o : ℕ) : Prop :=
  ∃ r, I.RecAt o r ∧ SEP ∉ r.key.1 ∧ ¬ (r.key.1.length = keylen ∧ r.datlen = datlen)

end Image

theorem not_sep_of_isBlank {k : CStr} (h : IsBlank k) : SEP ∉ k.1 :=
  fun hs => absurd (h SEP hs) (by decide)

variable {I : Image} {p : Fds} {a o fuel : ℕ} {r : Rec} {k : CStr} {b : DB} {l m : List ℕ}

/-- The handle after a search has found a record behind the records `l`. -/
def DB.found (db : DB) (a : ℕ) (l : List ℕ) (o : ℕ) (r : Rec) : DB :=
  { db with ptroff := (l.getLastD a : ℕ) }.load o r

/-- The handles differ at most in what reading a record sets. -/
def DB.Alike (b' b : DB) : Prop := ∀ o r, b'.load o r = b.load o r

theorem DB.Alike.load {b' : DB} (h : b'.Alike b) (x : ℕ) (q : Rec) : (b'.load x q).Alike b := by
  rw [h x q]
  exact fun _ _ => rfl

theorem DB.Alike.load_ptroff {b' : DB} {i : ℤ} (h : b'.Alike { b with ptroff := i }) (x : ℕ) (q : Rec)
    (n : ℤ) : DB.Alike { b'.load x q with ptroff := n } { b with ptroff := n } := by
  rw [h x q]
  exact fun _ _ => rfl

/-- The loop of `_db_find_and_lock` and of `_db_findfree`, with the test that ends it and what it
notes in the handle about a record that it goes past. -/
def search (found : DB → Prop) [DecidablePred found] (past : ℤ → DB → DB) :
    ℕ → DB → ℤ → ℤ → DbProg (ℤ × ℤ × DB)
  | 0, _, _, _ => .spin
  | fuel + 1, db, saveoffset, offset =>
    if offset ≠ 0 then do
      let (nextoffset, db) ← dbReadidx db offset
      if found db then pure (saveoffset, offset, db)
      else search found past fuel (past offset db) offset nextoffset
    else pure (saveoffset, offset, db)

theorem findLoop_eq (key : List Byte) (fuel : ℕ) (b : DB) (save offset : ℤ) :
    findLoop key fuel b offset =
      search (fun db => db.idxbuf = key) (fun o db => { db with ptroff := o }) fuel b save offset >>=
        fun x => pure x.2 := by
  induction fuel generalizing b save offset with
  | zero => rfl
  | succ fuel ih =>
    rw [findLoop, search]
    split
    · rw [Prog.bind_assoc]
      congr 1
      funext x
      dsimp only
      split
      · rfl
      · exact ih ..
    · rfl

theorem findfreeLoop_eq (keylen datlen fuel : ℕ) (b : DB) (save offset : ℤ) :
    findfreeLoop keylen datlen fuel b save offset =
      search (fun db => db.idxbuf.length = keylen ∧ db.datlen = datlen) (fun _ db => db) fuel b save
        offset := by
  induction fuel generalizing b save offset with
  | zero => rfl
  | succ fuel ih =>
    rw [findfreeLoop, search]
    simp only [ih]

section Search

variable {found : DB → Prop} [DecidablePred found] (past : ℤ → DB → DB) {P : ℕ → DB → Prop}

/-- A record that a search reads and goes past. -/
def Image.Past (I : Image) (found : DB → Prop) (o : ℕ) : Prop :=
  ∃ r, I.RecAt o r ∧ SEP ∉ r.key.1 ∧ ∀ b : DB, ¬ found (b.load o r)

variable (hr : p.acc.readable = true) (hP : ∀ o r a b, P a b → P o (past o (b.load o r)))
  (hb : P a b) (hl : ∀ x ∈ l, I.Past found x)
include hr hP hb hl

/-- What a search has done when it has gone past the records `l`: the handle has each property
that going past a record keeps. -/
theorem run_search_past (h : Linked 0 I.next a (l ++ m)) (n : ℕ) :
    ∃ b', P (l.getLastD a) b' ∧
      (search found past (l.length + n) b a (I.next a)).run exec (p, I.files) =
        (search found past n b' (l.getLastD a : ℕ) (I.next (l.getLastD a))).run exec
          (I.walked p l, I.files) := by
  induction l generalizing a b p with
  | nil => exact ⟨b, hb, by rw [List.length_nil, Nat.zero_add]; rfl⟩
  | cons x l ih =>
    obtain ⟨hn, h0, hlink⟩ := h
    obtain ⟨r, hx, hsep, hpast⟩ := hl x (by simp)
    obtain ⟨b', hb', hrun⟩ := ih (p := p.setPos .idx (I.endOf x)) (by simpa using hr)
      (hP x r a b hb) (fun y hy => hl y (List.mem_cons_of_mem _ hy)) hlink
    rw [I.walked_cons] at hrun
    refine ⟨b', by rwa [List.getLastD_cons], ?_⟩
    rw [List.getLastD_cons, ← hrun, List.length_cons, Nat.succ_add, search, hn,
      if_pos (by exact_mod_cast h0), Prog.run_bind_ok (run_readidx hr (Or.inl ⟨rfl, h0⟩) hx hsep)]
    dsimp only
    rw [if_neg (hpast b), hx.next, hx.endOf]

theorem run_search_hit (h : Linked 0 I.next a (l ++ o :: m)) (ho : I.RecAt o r)
    (hs : SEP ∉ r.key.1) (hfound : ∀ b : DB, found (b.load o r)) (hf : l.length < fuel) :
    ∃ b', P (l.getLastD a) b' ∧
      (search found past fuel b a (I.next a)).run exec (p, I.files) =
        (.ok (((l.getLastD a : ℕ) : ℤ), (o : ℤ), b'.load o r), p.setPos .idx (I.endOf o),
          I.files) := by
  obtain ⟨n, rfl⟩ := Nat.exists_eq_add_of_lt hf
  obtain ⟨b', hb', hrun⟩ := run_search_past past hr hP hb hl h (n + 1)
  have h0 : o ≠ 0 := h.ne_null (by simp)
  refine ⟨b', hb', ?_⟩
  rw [Nat.add_assoc, hrun, h.next_getLastD, search, if_pos (by exact_mod_cast h0),
    Prog.run_bind_ok (run_readidx (by simpa using hr) (Or.inl ⟨rfl, h0⟩) ho hs)]
  dsimp only
  rw [if_pos (hfound b'), ho.endOf, I.setPos_walked]
  rfl

theorem run_search_miss (h : Linked 0 I.next a l) (hf : l.length < fuel) :
    ∃ b', P (l.getLastD a) b' ∧
      (search found past fuel b a (I.next a)).run exec (p, I.files) =
        (.ok (((l.getLastD a : ℕ) : ℤ), 0, b'), I.walked p l, I.files) := by
  obtain ⟨n, rfl⟩ := Nat.exists_eq_add_of_lt hf
  rw [← l.append_nil] at h
  obtain ⟨b', hb', hrun⟩ := run_search_past past hr hP hb hl h (n + 1)
  have hnext : I.next (l.getLastD a) = 0 := h.drop
  refine ⟨b', hb', ?_⟩
  rw [Nat.add_assoc, hrun, hnext]
  rfl

theorem run_search_sep (h : Linked 0 I.next a (l ++ o :: m)) (ho : I.RecAt o r)
    (hs : SEP ∈ r.key.1) (hf : l.length < fuel) :
    (search found past fuel b a (I.next a)).run exec (p, I.files) =
      (.dump .readidxSep3, p.setPos .idx (I.endOf o), I.files) := by
  obtain ⟨n, rfl⟩ := Nat.exists_eq_add_of_lt hf
  obtain ⟨b', -, hrun⟩ := run_search_past past hr hP hb hl h (n + 1)
  have h0 : o ≠ 0 := h.ne_null (by simp)
  rw [Nat.add_assoc, hrun, h.next_getLastD, search, if_pos (by exact_mod_cast h0),
    Prog.run_bind_dump (run_readidx_sep (by simpa using hr) (Or.inl ⟨rfl, h0⟩) ho hs), ho.endOf,
    I.setPos_walked]

end Search

section Find

variable (hr : p.acc.readable = true) (hl : ∀ x ∈ l, I.Passes k x)
include hr hl

omit hr in
theorem past_of_passes : ∀ x ∈ l, I.Past (fun db => db.idxbuf = k.1) x := by
  intro x hx
  obtain ⟨r, hrec, hs, hk⟩ := hl x hx
  exact ⟨r, hrec, hs, fun b he => hk (Subtype.ext he)⟩

theorem run_findLoop_hit (h : Linked 0 I.next a (l ++ o :: m)) (ho : I.RecAt o r)
    (hs : SEP ∉ r.key.1) (hk : r.key = k) (hf : l.length < fuel) (hp : b.ptroff = a) :
    (findLoop k.1 fuel b (I.next a)).run exec (p, I.files) =
      (.ok ((o : ℤ), b.found a l o r), p.setPos .idx (I.endOf o), I.files) := by
  obtain ⟨b', hb', hrun⟩ := run_search_hit (P := fun z b' => b'.Alike { b with ptroff := (z : ℤ) })
    (fun o db => { db with ptroff := o }) hr (fun x q z b' hb' => hb'.load_ptroff x q x)
    (fun o r => by rw [← hp]) (past_of_passes hl) h ho hs (fun b => congrArg Subtype.val hk) hf
  rw [findLoop_eq k.1 fuel b a, Prog.run_bind_ok hrun, DB.found, ← hb' o r]
  rfl

theorem run_findLoop_miss (h : Linked 0 I.next a l) (hf : l.length < fuel) :
    ∃ b', (findLoop k.1 fuel b (I.next a)).run exec (p, I.files) =
      (.ok (0, b'), I.walked p l, I.files) ∧ b'.chainoff = b.chainoff := by
  obtain ⟨b', hb', hrun⟩ := run_search_miss (P := fun _ b' => b'.chainoff = b.chainoff)
    (fun o db => { db with ptroff := o }) hr (fun _ _ _ _ hb => hb) rfl (past_of_passes hl) h hf
  refine ⟨b', ?_, hb'⟩
  rw [findLoop_eq k.1 fuel b a, Prog.run_bind_ok hrun]
  rfl

theorem run_findLoop_sep (h : Linked 0 I.next a (l ++ o :: m)) (ho : I.RecAt o r)
    (hs : SEP ∈ r.key.1) (hf : l.length < fuel) :
    (findLoop k.1 fuel b (I.next a)).run exec (p, I.files) =
      (.dump .readidxSep3, p.setPos .idx (I.endOf o), I.files) := by
  rw [findLoop_eq k.1 fuel b a, Prog.run_bind_dump (run_search_sep (P := fun _ _ => True) _ hr
    (fun _ _ _ _ _ => trivial) trivial (past_of_passes hl) h ho hs hf)]

end Find

/-- On a list of records a search finds the key, goes past all records, or comes to a record
with a separator in its key. -/
theorem search_cases (k : CStr) (hl : ∀ o ∈ l, I.IsRec o) :
    (∀ x ∈ l, I.Passes k x) ∨
      ∃ s o t r, l = s ++ o :: t ∧ (∀ x ∈ s, I.Passes k x) ∧ I.RecAt o r ∧
        (SEP ∉ r.key.1 ∧ r.key = k ∨ SEP ∈ r.key.1) := by
  induction l with
  | nil => exact Or.inl (by simp)
  | cons o l ih =>
    obtain ⟨r, hr⟩ := hl o (by simp)
    by_cases hs : SEP ∈ r.key.1
    · exact Or.inr ⟨[], o, l, r, rfl, by simp, hr, Or.inr hs⟩
    · by_cases hk : r.key = k
      · exact Or.inr ⟨[], o, l, r, rfl, by simp, hr, Or.inl ⟨hs, hk⟩⟩
      · have hpass : I.Passes k o := ⟨r, hr, hs, hk⟩
        rcases ih fun x hx => hl x (List.mem_cons_of_mem _ hx) with hall | ⟨s, x, t, q, rfl, hps, hq⟩
        · exact Or.inl (List.forall_mem_cons.mpr ⟨hpass, hall⟩)
        · exact Or.inr ⟨o :: s, x, t, q, rfl, List.forall_mem_cons.mpr ⟨hpass, hps⟩, hq⟩

section Findfree

variable {keylen datlen : ℕ} (hr : p.acc.readable = true) (hl : ∀ x ∈ l, I.Unfit keylen datlen x)
include hr hl

omit hr in
theorem past_of_unfit :
    ∀ x ∈ l, I.Past (fun db => db.idxbuf.length = keylen ∧ db.datlen = datlen) x := by
  intro x hx
  obtain ⟨r, hrec, hs, hk⟩ := hl x hx
  exact ⟨r, hrec, hs, fun _ => hk⟩

theorem run_findfreeLoop_hit (h : Linked 0 I.next a (l ++ o :: m)) (ho : I.RecAt o r)
    (hs : SEP ∉ r.key.1) (hk : r.key.1.length = keylen ∧ r.datlen = datlen) (hf : l.length < fuel) :
    (findfreeLoop keylen datlen fuel b a (I.next a)).run exec (p, I.files) =
      (.ok (((l.getLastD a : ℕ) : ℤ), (o : ℤ), b.load o r), p.setPos .idx (I.endOf o), I.files) := by
  obtain ⟨b', hb', hrun⟩ := run_search_hit (P := fun _ b' => b'.Alike b) (fun _ db => db) hr
    (fun x q _ b' hb' => hb'.load x q) (fun o r => rfl) (past_of_unfit hl) h ho hs (fun b => hk) hf
  rw [findfreeLoop_eq, hrun, hb' o r]

theorem run_findfreeLoop_miss (h : Linked 0 I.next a l) (hf : l.length < fuel) :
    ∃ s b', (findfreeLoop keylen datlen fuel b a (I.next a)).run exec (p, I.files) =
      (.ok (s, 0, b'), I.walked p l, I.files) ∧ b'.chainoff = b.chainoff := by
  obtain ⟨b', hb', hrun⟩ := run_search_miss (P := fun _ b' => b'.chainoff = b.chainoff)
    (fun _ db => db) hr (fun _ _ _ _ hb => hb) rfl (past_of_unfit hl) h hf
  exact ⟨_, b', by rw [findfreeLoop_eq, hrun], hb'⟩

end Findfree

/-- On a list of blank records a search for a free record finds one that fits, or none does. -/
theorem findfree_cases (keylen datlen : ℕ) (hl : ∀ o ∈ l, ∃ r, I.RecAt o r ∧ IsBlank r.key) :
    (∀ x ∈ l, I.Unfit keylen datlen x) ∨
      ∃ s o t r, l = s ++ o :: t ∧ (∀ x ∈ s, I.Unfit keylen datlen x) ∧ I.RecAt o r ∧
        SEP ∉ r.key.1 ∧ r.key.1.length = keylen ∧ r.datlen = datlen := by
  induction l with
  | nil => exact Or.inl (by simp)
  | cons o l ih =>
    obtain ⟨r, hr, hb⟩ := hl o (by simp)
    have hs := not_sep_of_isBlank hb
    by_cases hk : r.key.1.length = keylen ∧ r.datlen = datlen
    · exact Or.inr ⟨[], o, l, r, rfl, by simp, hr, hs, hk⟩
    · have hu : I.Unfit keylen datlen o := ⟨r, hr, hs, hk⟩
      rcases ih fun x hx => hl x (List.mem_cons_of_mem _ hx) with hall | ⟨s, x, t, q, rfl, hps, hq⟩
      · exact Or.inl (List.forall_mem_cons.mpr ⟨hu, hall⟩)
      · exact Or.inr ⟨o :: s, x, t, q, rfl, List.forall_mem_cons.mpr ⟨hu, hps⟩, hq⟩

end Somenote.Db
