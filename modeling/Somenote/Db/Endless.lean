import Mathlib.Data.Int.Interval
import Somenote.Db.Operations
import Somenote.Lists.Follow

/-! # Walks on any file

The walks of `_db_find_and_lock` and of `_db_findfree` on an index file with any contents. A record
that passes the checks may point anywhere, also back: a walk ends if and only if the pointers that
it follows do not come back to an offset.
-/

namespace Somenote.Db

open Decimal

/-- The error exits of `_db_readptr` and of `_db_readidx`. -/
def Err.IsRead : Err → Prop
  | readptrLseek | readptrRead => True
  | readidxLseek | readidxReadv | readidxIdxlen | readidxRead | readidxNewline => True
  | readidxSep1 | readidxSep2 | readidxSep3 | readidxDatoff | readidxDatlen => True
  | _ => False

/-- The error exits of the calls that lock a list. -/
def Err.IsLock : Err → Prop
  | findWritewLock | findReadwLock | findfreeLock => True
  | _ => False

/-- A descriptor of the index file that nothing was read from. -/
def Fds.idle (acc : Access) : Fds := ⟨acc, 0, 0⟩

/-- The pointer at an offset, if `_db_readptr` reads one. -/
def headAt (acc : Access) (f : Files) (o : ℤ) : Option ℤ :=
  match (dbReadptr o).run exec (Fds.idle acc, f) with
  | (.ok v, _) => some v
  | _ => none

/-- The record at an offset, if it passes the checks of `_db_readidx`. -/
def recordAt (acc : Access) (f : Files) (o : ℤ) : Option (ℤ × DB) :=
  match (dbReadidx dbAlloc o).run exec (Fds.idle acc, f) with
  | (.ok x, _) => some x
  | _ => none

/-- The offset that a walk goes on to from an offset: the pointer of a record that passes the
checks and does not end the search. -/
def onward (acc : Access) (f : Files) (found : DB → Bool) (o : ℤ) : Option ℤ :=
  if o = 0 then none
  else (recordAt acc f o).bind fun x => if found x.2 then none else some x.1

variable {acc : Access} {p : Fds} {f : Files} {o : ℤ} {b : DB} {e : Err} {key : List Byte}
  {keylen datlen n : ℕ}

section Record

theorem dbParseidx_uniform (buf : List Byte) :
    (∃ e, e.IsRead ∧ ∀ db, dbParseidx db buf = .dump e) ∨
      ∃ k a l, ∀ db, dbParseidx db buf = .ret { db with idxbuf := k, datoff := a, datlen := l } := by
  unfold dbParseidx
  by_cases hnl : buf.getLast? ≠ some NEWLINE
  · exact Or.inl ⟨.readidxNewline, trivial, fun _ => by rw [dumpIf_pos hnl]; rfl⟩
  rw [dumpIf_neg hnl]
  rcases strchr (cstr buf.dropLast) SEP with _ | ⟨k, ptr1⟩
  · exact Or.inl ⟨.readidxSep1, trivial, fun _ => rfl⟩
  dsimp only
  rcases strchr ptr1 SEP with _ | ⟨a, ptr2⟩
  · exact Or.inl ⟨.readidxSep2, trivial, fun _ => rfl⟩
  dsimp only
  by_cases hsep : strchr ptr2 SEP ≠ none
  · exact Or.inl ⟨.readidxSep3, trivial, fun _ => by rw [dumpIf_pos hsep]; rfl⟩
  rw [dumpIf_neg hsep]
  by_cases hoff : atol a < 0
  · exact Or.inl ⟨.readidxDatoff, trivial, fun _ => by rw [dumpIf_pos hoff]; rfl⟩
  rw [dumpIf_neg hoff]
  by_cases hlen : atol ptr2 ≤ 0 ∨ datlenMax < atol ptr2
  · exact Or.inl ⟨.readidxDatlen, trivial, fun _ => by rw [dumpIf_pos hlen]; rfl⟩
  · exact Or.inr ⟨k, _, _, fun _ => by rw [dumpIf_neg hlen]; rfl⟩

/-- The front of the record at an offset, and its text. -/
def frontAt (f : Files) (o : ℕ) : List Byte := ((f.bytes .idx).drop o).take (ptrSz + idxlenSz)

def textAt (f : Files) (o : ℕ) : List Byte :=
  ((f.bytes .idx).drop (o + (frontAt f o).length)).take (atol ((frontAt f o).drop ptrSz)).toNat

section Readable

variable {i : ℕ} (hr : p.acc.readable = true) (hi : (i : ℤ) ≠ 0)
include hr hi

theorem run_readidx_front : (dbReadidx b i).run exec (p, f) =
    (if (frontAt f i).length ≠ ptrSz + idxlenSz then .dump .readidxReadv
    else dumpIf (atol ((frontAt f i).drop ptrSz) < idxlenMin ∨
        idxlenMax < atol ((frontAt f i).drop ptrSz)) .readidxIdxlen >>= fun _ =>
      orDump (.read .idx (atol ((frontAt f i).drop ptrSz)).toNat) .readidxRead >>= fun buf =>
      dumpIf (buf.length ≠ (atol ((frontAt f i).drop ptrSz)).toNat) .readidxRead >>= fun _ =>
      dbParseidx { b with
        idxoff := i
        ptrval := atol ((frontAt f i).take ptrSz)
        idxlen := (atol ((frontAt f i).drop ptrSz)).toNat } buf >>= fun db =>
      pure (atol ((frontAt f i).take ptrSz), db) : DbProg (ℤ × DB)).run exec
        (p.setPos .idx (i + (frontAt f i).length), f) := by
  have hfront : exec (.read .idx (ptrSz + idxlenSz)) (p.setPos .idx i, f) =
      (some (frontAt f i), p.setPos .idx (i + (frontAt f i).length), f) := by
    rw [exec_read_eq (by simpa using hr), Fds.pos_setPos, Fds.setPos_setPos]
    rfl
  rw [dbReadidx, if_neg hi, Prog.run_bind_ok (run_orDump (exec_seek .idx i)),
    Prog.run_bind_ok (run_orDump hfront)]
  by_cases hlen : (frontAt f i).length ≠ ptrSz + idxlenSz
  · rw [if_pos hlen, if_pos hlen, if_neg fun h => hi h.2]
  · rw [if_neg hlen, if_neg hlen]

theorem run_readidx_rest (hlen : ¬ (frontAt f i).length ≠ ptrSz + idxlenSz)
    (hidxlen : ¬ (atol ((frontAt f i).drop ptrSz) < idxlenMin ∨
      idxlenMax < atol ((frontAt f i).drop ptrSz))) : (dbReadidx b i).run exec (p, f) =
    (dumpIf ((textAt f i).length ≠ (atol ((frontAt f i).drop ptrSz)).toNat) .readidxRead >>= fun _ =>
      dbParseidx { b with
        idxoff := i
        ptrval := atol ((frontAt f i).take ptrSz)
        idxlen := (atol ((frontAt f i).drop ptrSz)).toNat } (textAt f i) >>= fun db =>
      pure (atol ((frontAt f i).take ptrSz), db) : DbProg (ℤ × DB)).run exec
        (p.setPos .idx (i + (frontAt f i).length + (textAt f i).length), f) := by
  have htext : exec (.read .idx (atol ((frontAt f i).drop ptrSz)).toNat)
      (p.setPos .idx (i + (frontAt f i).length), f) =
      (some (textAt f i), p.setPos .idx (i + (frontAt f i).length + (textAt f i).length), f) := by
    rw [exec_read_eq (by simpa using hr), Fds.pos_setPos, Fds.setPos_setPos]
    rfl
  rw [run_readidx_front hr hi, if_neg hlen, dumpIf_neg hidxlen, Prog.ret_bind,
    Prog.run_bind_ok (run_orDump htext)]

end Readable

theorem readidx_uniform (acc : Access) (f : Files) (ho : o ≠ 0) :
    (∃ e, e.IsRead ∧ ∀ db p, p.acc = acc → ∃ p', p'.acc = acc ∧
        (dbReadidx db o).run exec (p, f) = (.dump e, p', f)) ∨
      ∃ v k l, (0 < o ∧ o < (f.bytes .idx).length) ∧ ∀ db p, p.acc = acc →
        ∃ p' db', p'.acc = acc ∧ (dbReadidx db o).run exec (p, f) = (.ok (v, db'), p', f) ∧
          db'.ptrval = v ∧ db'.idxbuf = k ∧ db'.datlen = l := by
  rcases lt_or_ge o 0 with hneg | hpos
  · refine Or.inl ⟨.readidxLseek, trivial, fun db p hp => ⟨p, hp, ?_⟩⟩
    rw [dbReadidx, if_neg ho, Prog.run_bind_dump (run_orDump_none (exec_seek_neg hneg))]
  obtain ⟨i, rfl⟩ := Int.eq_ofNat_of_zero_le hpos
  rcases hr : acc.readable
  · refine Or.inl ⟨.readidxReadv, trivial, fun db p hp => ⟨p.setPos .idx i, by simp [hp], ?_⟩⟩
    rw [dbReadidx, if_neg ho, Prog.run_bind_ok (run_orDump (exec_seek .idx i)),
      Prog.run_bind_dump (run_orDump_none (exec_read_denied (by simp [hp, hr])))]
  by_cases hlen : (frontAt f i).length ≠ ptrSz + idxlenSz
  · refine Or.inl ⟨.readidxReadv, trivial, fun db p hp =>
      ⟨p.setPos .idx (i + (frontAt f i).length), by simp [hp], ?_⟩⟩
    rw [run_readidx_front (hp ▸ hr) ho, if_pos hlen]
    rfl
  by_cases hidxlen : atol ((frontAt f i).drop ptrSz) < idxlenMin ∨
      idxlenMax < atol ((frontAt f i).drop ptrSz)
  · refine Or.inl ⟨.readidxIdxlen, trivial, fun db p hp =>
      ⟨p.setPos .idx (i + (frontAt f i).length), by simp [hp], ?_⟩⟩
    rw [run_readidx_front (hp ▸ hr) ho, if_neg hlen, dumpIf_pos hidxlen]
    rfl
  by_cases htext : (textAt f i).length ≠ (atol ((frontAt f i).drop ptrSz)).toNat
  · refine Or.inl ⟨.readidxRead, trivial, fun db p hp =>
      ⟨p.setPos .idx (i + (frontAt f i).length + (textAt f i).length), by simp [hp], ?_⟩⟩
    rw [run_readidx_rest (hp ▸ hr) ho hlen hidxlen, dumpIf_pos htext]
    rfl
  rcases dbParseidx_uniform (textAt f i) with ⟨e, he, hparse⟩ | ⟨k, a, l, hparse⟩
  · refine Or.inl ⟨e, he, fun db p hp =>
      ⟨p.setPos .idx (i + (frontAt f i).length + (textAt f i).length), by simp [hp], ?_⟩⟩
    rw [run_readidx_rest (hp ▸ hr) ho hlen hidxlen, dumpIf_neg htext, Prog.ret_bind, hparse]
    rfl
  · have hlt : i < (f.bytes .idx).length := by
      by_contra hge
      have hnil : frontAt f i = [] := by
        rw [frontAt, List.drop_of_length_le (Nat.not_lt.mp hge), List.take_nil]
      rw [hnil] at hlen
      exact hlen (by decide)
    refine Or.inr ⟨atol ((frontAt f i).take ptrSz), k, l, ⟨by omega, by exact_mod_cast hlt⟩,
      fun db p hp => ⟨p.setPos .idx (i + (frontAt f i).length + (textAt f i).length), { db with
        idxoff := i
        ptrval := atol ((frontAt f i).take ptrSz)
        idxlen := (atol ((frontAt f i).drop ptrSz)).toNat
        idxbuf := k
        datoff := a
        datlen := l }, by simp [hp], ?_, rfl, rfl, rfl⟩⟩
    rw [run_readidx_rest (hp ▸ hr) ho hlen hidxlen, dumpIf_neg htext, Prog.ret_bind, hparse]
    rfl

/-- A record that fails a check, or is read to the same pointer, key and length by each handle. -/
theorem recordAt_cases (acc : Access) (f : Files) (ho : o ≠ 0) :
    (recordAt acc f o = none ∧ ∃ e, e.IsRead ∧ ∀ db p, p.acc = acc → ∃ p', p'.acc = acc ∧
        (dbReadidx db o).run exec (p, f) = (.dump e, p', f)) ∨
      ∃ v x, recordAt acc f o = some (v, x) ∧ (0 < o ∧ o < (f.bytes .idx).length) ∧
        ∀ db p, p.acc = acc → ∃ p' db', p'.acc = acc ∧
          (dbReadidx db o).run exec (p, f) = (.ok (v, db'), p', f) ∧
          db'.ptrval = v ∧ db'.idxbuf = x.idxbuf ∧ db'.datlen = x.datlen := by
  rcases readidx_uniform acc f ho with ⟨e, he, h⟩ | ⟨v, k, l, hin, h⟩
  · obtain ⟨p', -, hrun⟩ := h dbAlloc (Fds.idle acc) rfl
    exact Or.inl ⟨by rw [recordAt, hrun], e, he, h⟩
  · obtain ⟨p', x, -, hrun, hv, hk, hl⟩ := h dbAlloc (Fds.idle acc) rfl
    refine Or.inr ⟨v, x, by rw [recordAt, hrun], hin, fun db p hp => ?_⟩
    rw [hk, hl]
    exact h db p hp

theorem headAt_cases (acc : Access) (f : Files) (i : ℕ) :
    (headAt acc f i = none ∧ ∃ e, e.IsRead ∧ ∀ p, p.acc = acc → ∃ p', p'.acc = acc ∧
        (dbReadptr i).run exec (p, f) = (.dump e, p', f)) ∨
      ∃ v, headAt acc f i = some v ∧ ∀ p, p.acc = acc → ∃ p', p'.acc = acc ∧
        (dbReadptr i).run exec (p, f) = (.ok v, p', f) := by
  rcases hr : acc.readable
  · refine Or.inl ⟨by rw [headAt, run_readptr_denied hr], .readptrRead, trivial, fun p hp => ?_⟩
    exact ⟨_, by simp [hp], run_readptr_denied (hp ▸ hr)⟩
  let bs := ((f.bytes .idx).drop i).take ptrSz
  have hrun : ∀ p : Fds, p.acc = acc → (dbReadptr i).run exec (p, f) =
      (dumpIf (bs.length ≠ ptrSz) .readptrRead >>= fun _ => pure (atol bs) : DbProg ℤ).run exec
        (p.setPos .idx (i + bs.length), f) := by
    intro p hp
    have hread : exec (.read .idx ptrSz) (p.setPos .idx i, f) =
        (some bs, p.setPos .idx (i + bs.length), f) := by
      rw [exec_read_eq (by simp [hp, hr]), Fds.pos_setPos, Fds.setPos_setPos]
    rw [dbReadptr, Prog.run_bind_ok (run_orDump (exec_seek .idx i)),
      Prog.run_bind_ok (run_orDump hread)]
  by_cases hlen : bs.length ≠ ptrSz
  · have hdump : ∀ p : Fds, p.acc = acc → (dbReadptr i).run exec (p, f) =
        (.dump .readptrRead, p.setPos .idx (i + bs.length), f) := by
      intro p hp
      rw [hrun p hp, dumpIf_pos hlen]
      rfl
    refine Or.inl ⟨by rw [headAt, hdump _ rfl], .readptrRead, trivial, fun p hp => ?_⟩
    exact ⟨_, by simp [hp], hdump p hp⟩
  · have hok : ∀ p : Fds, p.acc = acc → (dbReadptr i).run exec (p, f) =
        (.ok (atol bs), p.setPos .idx (i + bs.length), f) := by
      intro p hp
      rw [hrun p hp, dumpIf_neg hlen]
      rfl
    exact Or.inr ⟨atol bs, by rw [headAt, hok _ rfl], fun p hp => ⟨_, by simp [hp], hok p hp⟩⟩

end Record

section Onward

variable {found : DB → Bool}

theorem onward_zero : onward acc f found 0 = none := if_pos rfl

theorem onward_none (h0 : o ≠ 0) (h : recordAt acc f o = none) : onward acc f found o = none := by
  rw [onward, if_neg h0, h]
  rfl

theorem onward_some {v : ℤ} {x : DB} (h0 : o ≠ 0) (h : recordAt acc f o = some (v, x)) :
    onward acc f found o = if found x then none else some v := by
  rw [onward, if_neg h0, h]
  rfl

/-- A walk goes on at finitely many offsets only. -/
theorem finite_onward (acc : Access) (f : Files) (found : DB → Bool) :
    {o | onward acc f found o ≠ none}.Finite := by
  refine (Set.finite_Ioo 0 ((f.bytes .idx).length : ℤ)).subset fun o ho => ?_
  rcases eq_or_ne o 0 with rfl | h0
  · exact absurd onward_zero ho
  rcases recordAt_cases acc f h0 with ⟨hnone, -⟩ | ⟨-, -, -, hin, -⟩
  · exact absurd (onward_none h0 hnone) ho
  · exact hin

end Onward

section Walks

variable {α : Type}

/-- The program returned a value with the property `Q`, or ended in an error exit with `P`. -/
def Ended (Q : α → Prop) (P : Err → Prop) : Out Err α → Prop
  | .ok a => Q a
  | .dump e => P e
  | .spin => False

/-- With enough fuel, the program returns or ends in one of the error exits. -/
def Ends (P : Err → Prop) (m : ℕ → DbProg α) (s : Fds × Files) : Prop :=
  ∃ N, ∀ n, N ≤ n → Ended (fun _ => True) P ((m n).run exec s).1

theorem ends_congr {P : Err → Prop} {m m' : ℕ → DbProg α} {s : Fds × Files}
    (h : ∀ n, (m n).run exec s = (m' n).run exec s) : Ends P m s ↔ Ends P m' s := by
  simp only [Ends, h]

/-- The outcome of a loop over a list that is followed to `x`: the loop spins while the pointers
lead on, and returns with `Q` or ends in a check where they do not. -/
structure Paced (acc : Access) (f : Files) (Q : α → Prop) (x : Option ℤ)
    (r : Out Err α × Fds × Files) : Prop where
  access : r.2.1.acc = acc
  files : r.2.2 = f
  spins : x ≠ none → r.1 = .spin
  ends : x = none → Ended Q Err.IsRead r.1

namespace Paced

variable {Q : α → Prop} {found : DB → Bool} {k : ℤ × DB → DbProg α}

theorem of_ended {out : Out Err α} (h : Ended Q Err.IsRead out) :
    Paced p.acc f Q none (out, p, f) := ⟨rfl, rfl, fun hgo => absurd rfl hgo, fun _ => h⟩

theorem of_spin {x : Option ℤ} (h : x ≠ none) : Paced p.acc f Q x (.spin, p, f) :=
  ⟨rfl, rfl, fun _ => rfl, fun hend => absurd hend h⟩

theorem record (h0 : o ≠ 0)
    (hfound : ∀ b b' : DB, b.idxbuf = b'.idxbuf → b.datlen = b'.datlen → found b = found b')
    (hk : ∀ v b' p', p'.acc = p.acc → 0 < o →
      Paced p.acc f Q (if found b' then none else follow (onward p.acc f found) n v)
        ((k (v, b')).run exec (p', f))) :
    Paced p.acc f Q (follow (onward p.acc f found) (n + 1) o)
      ((dbReadidx b o >>= k).run exec (p, f)) := by
  rw [follow_succ]
  rcases recordAt_cases p.acc f h0 with ⟨hnone, e, he, hrun⟩ | ⟨v, x, hsome, hin, hrun⟩
  · obtain ⟨p', hp', hrun⟩ := hrun b p rfl
    rw [Prog.run_bind_dump hrun, onward_none h0 hnone, ← hp']
    exact of_ended he
  · obtain ⟨p', b', hp', hrun, -, hkey, hlen⟩ := hrun b p rfl
    have hstep := hk v b' p' hp' hin.1
    rw [hfound b' x hkey hlen] at hstep
    rw [Prog.run_bind_ok hrun, onward_some h0 hsome]
    cases hx : found x with
    | true => simpa [hx] using hstep
    | false => simpa [hx] using hstep

end Paced

/-- A search spins while the pointers lead on. The offset that it saves is not negative. -/
theorem paced_search {found : DB → Prop} [DecidablePred found] {past : ℤ → DB → DB}
    (hfound : ∀ b b' : DB, b.idxbuf = b'.idxbuf → b.datlen = b'.datlen → (found b ↔ found b'))
    (n : ℕ) (b : DB) (save o : ℤ) (hsave : 0 ≤ save) (p : Fds) (f : Files) :
    Paced p.acc f (fun x => 0 ≤ x.1) (follow (onward p.acc f fun x => found x) n o)
      ((search found past n b save o).run exec (p, f)) := by
  induction n generalizing b save o p with
  | zero => exact Paced.of_spin (Option.some_ne_none o)
  | succ n ih =>
    rw [search]
    rcases eq_or_ne o 0 with rfl | h0
    · rw [follow_succ, onward_zero]
      exact Paced.of_ended hsave
    rw [if_pos h0]
    refine Paced.record h0 (fun b b' hkey hlen => decide_eq_decide.mpr (hfound b b' hkey hlen))
      fun v b' p' hp' ho => ?_
    rw [← hp']
    dsimp only
    by_cases hstop : found b'
    · rw [if_pos hstop, if_pos (decide_eq_true hstop)]
      exact Paced.of_ended hsave
    · rw [if_neg hstop, if_neg (by simpa using hstop)]
      exact ih (past o b') o v ho.le p'

theorem ends_iff_of {P : Err → Prop} {m : ℕ → DbProg α} {s : Fds × Files} {found : DB → Bool} {v : ℤ}
    (hspin : ∀ n, follow (onward acc f found) n v ≠ none → ((m n).run exec s).1 = .spin)
    (hend : ∀ n, follow (onward acc f found) n v = none →
      Ended (fun _ => True) P ((m n).run exec s).1) :
    Ends P m s ↔ ¬ ComesBack (onward acc f found) v := by
  rw [← endless_iff (finite_onward acc f found), not_forall]
  constructor
  · rintro ⟨N, hN⟩
    refine ⟨N, fun hgo => ?_⟩
    have hout := hN N le_rfl
    rw [hspin N hgo] at hout
    exact hout
  · rintro ⟨N, hN⟩
    rw [not_not] at hN
    refine ⟨N, fun n hn => hend n ?_⟩
    by_contra hgo
    exact follow_ne_none_of_le hn hgo hN

/-- A walk reads the head of its list, goes along the list and does a rest that ends. -/
theorem walk_ends_iff {β : Type} {P : Err → Prop} {Q : β → Prop} {found : DB → Bool} {i : ℕ}
    {loop : ℕ → ℤ → DbProg β} {rest : β → DbProg α} (hP : ∀ e, e.IsRead → P e)
    (hloop : ∀ n v p', p'.acc = p.acc →
      Paced p'.acc f Q (follow (onward p'.acc f found) n v) ((loop n v).run exec (p', f)))
    (hrest : ∀ x p', p'.acc = p.acc → Q x →
      Ended (fun _ => True) P ((rest x).run exec (p', f)).1) :
    Ends P (fun n => dbReadptr i >>= fun v => loop n v >>= rest) (p, f) ↔
      ∀ v, headAt p.acc f i = some v → ¬ ComesBack (onward p.acc f found) v := by
  rcases headAt_cases p.acc f i with ⟨hnone, e, he, hrun⟩ | ⟨v, hsome, hrun⟩
  · obtain ⟨p', -, hrun⟩ := hrun p rfl
    refine iff_of_true ⟨0, fun n _ => ?_⟩ (fun v hv => by rw [hnone] at hv; cases hv)
    rw [Prog.run_bind_dump hrun]
    exact hP e he
  · obtain ⟨p', hp', hrun⟩ := hrun p rfl
    have hhead : (∀ w, headAt p.acc f i = some w → ¬ ComesBack (onward p.acc f found) w) ↔
        ¬ ComesBack (onward p.acc f found) v := by
      rw [hsome]
      simp
    rw [hhead, ← hp']
    refine ends_iff_of (fun n hgo => ?_) fun n hend => ?_
    · have hspin := (hloop n v p' hp').spins hgo
      rcases hr : (loop n v).run exec (p', f) with ⟨out, t⟩
      rw [hr] at hspin
      obtain rfl : out = .spin := hspin
      rw [Prog.run_bind_ok hrun, Prog.run_bind, hr]
    · have hended := (hloop n v p' hp').ends hend
      have haccess := (hloop n v p' hp').access
      have hfiles := (hloop n v p' hp').files
      rw [Prog.run_bind_ok hrun, Prog.run_bind]
      rcases hr : (loop n v).run exec (p', f) with ⟨out, q, f'⟩
      rw [hr] at hended haccess hfiles
      obtain rfl := hfiles
      cases out with
      | ok x => exact hrest x q (haccess.trans hp') hended
      | dump e => exact hP e hended
      | spin => exact hended.elim

end Walks

section Ends

variable (b : DB) (p : Fds) (f : Files)

theorem find_ends_iff (key : List Byte) (writelock : Bool) :
    Ends (fun e => e.IsRead ∨ e.IsLock ∧ p.acc.allows (lockFor writelock) = false)
        (fun n => dbFindAndLock n b key writelock) (p, f) ↔
      (p.acc.allows (lockFor writelock) = true → ∀ v,
        headAt p.acc f (slot (dbHash key)) = some v →
          ¬ ComesBack (onward p.acc f fun x => x.idxbuf = key) v) := by
  cases ha : p.acc.allows (lockFor writelock) with
  | false =>
    refine iff_of_true ⟨0, fun n _ => ?_⟩ (fun h => by cases h)
    have hrun : ((dbFindAndLock n b key writelock).run exec (p, f)).1 =
        .dump (if writelock then .findWritewLock else .findReadwLock) := by
      rw [dbFindAndLock]
      exact congrArg Prod.fst (Prog.run_bind_dump (run_lock_denied ha) _)
    rw [hrun]
    exact Or.inr ⟨by cases writelock <;> trivial, rfl⟩
  | true =>
    have hlock : ∀ n, (dbFindAndLock n b key writelock).run exec (p, f) =
        (dbReadptr (slot (dbHash key)) >>= fun offset =>
          search (fun db => db.idxbuf = key) (fun o db => { db with ptroff := o }) n
            { b with chainoff := slot (dbHash key), ptroff := slot (dbHash key) } 0 offset >>=
          fun x => pure (if x.2.1 = 0 then -1 else 0, x.2.2) : DbProg (ℤ × DB)).run exec (p, f) := by
      intro n
      simp only [dbFindAndLock, findLoop_eq key n _ 0, Prog.bind_assoc]
      exact Prog.run_bind_ok (run_lock ha) _
    rw [forall_prop_of_true rfl, ends_congr hlock]
    exact walk_ends_iff (fun e he => Or.inl he)
      (fun n v p' _ => paced_search (fun b b' hkey _ => by rw [hkey]) n _ 0 v le_rfl p' f)
      fun x p' _ _ => trivial

theorem run_writeptr_ended {o v : ℤ} (hw : p.acc.writable = true) (ho : 0 ≤ o) :
    ∃ out s, (dbWriteptr o v).run exec (p, f) = (out, s) ∧
      Ended (fun _ => True) (· = .writeptrPtr) out := by
  obtain ⟨i, rfl⟩ := Int.eq_ofNat_of_zero_le ho
  by_cases hv : v < 0 ∨ ptrMax < v
  · rw [dbWriteptr, dumpIf_pos hv]
    exact ⟨_, _, rfl, rfl⟩
  · obtain ⟨u, rfl⟩ := Int.eq_ofNat_of_zero_le (show 0 ≤ v by omega)
    have hrun := run_writeptr_at (o := i) (f := f) hw ⟨u, by omega⟩
    exact ⟨_, _, hrun, trivial⟩

theorem findfree_ends_iff (keylen datlen : ℕ) :
    Ends (fun e => e.IsRead ∨ e = .writeptrPtr ∨ e.IsLock ∧ p.acc.writable = false)
        (fun n => dbFindfree n b keylen datlen) (p, f) ↔
      (p.acc.writable = true → ∀ v, headAt p.acc f (freeOff : ℕ) = some v →
        ¬ ComesBack
          (onward p.acc f fun x => x.idxbuf.length = keylen ∧ x.datlen = datlen) v) := by
  cases ha : p.acc.writable with
  | false =>
    refine iff_of_true ⟨0, fun n _ => ?_⟩ (fun h => by cases h)
    have hrun : ((dbFindfree n b keylen datlen).run exec (p, f)).1 = .dump .findfreeLock := by
      rw [dbFindfree]
      exact congrArg Prod.fst (Prog.run_bind_dump (run_lock_denied (t := .wr) ha) _)
    rw [hrun]
    exact Or.inr (Or.inr ⟨trivial, rfl⟩)
  | true =>
    have hlock : ∀ n, (dbFindfree n b keylen datlen).run exec (p, f) =
        (dbReadptr (freeOff : ℕ) >>= fun offset =>
          search (fun db => db.idxbuf.length = keylen ∧ db.datlen = datlen) (fun _ db => db) n b
            freeOff offset >>= fun x =>
          ((if x.2.1 = 0 then pure (-1) else dbWriteptr x.1 x.2.2.ptrval >>= fun _ => pure 0 :
            DbProg ℤ) >>= fun rc =>
          orDump (.unlck .idx freeOff 1) .findfreeUnLock >>= fun _ => pure (rc, x.2.2)) :
            DbProg (ℤ × DB)).run exec (p, f) := by
      intro n
      simp only [dbFindfree, findfreeLoop_eq]
      exact Prog.run_bind_ok (run_lock (t := .wr) ha) _
    rw [forall_prop_of_true rfl, ends_congr hlock]
    refine walk_ends_iff (fun e he => Or.inl he)
      (fun n v p' _ => paced_search (fun b b' hkey hlen => by rw [hkey, hlen]) n b freeOff v le_rfl
        p' f)
      fun x p' hp' hsave => ?_
    by_cases hx : x.2.1 = 0
    · rw [if_pos hx]
      exact trivial
    · have hw : p'.acc.writable = true := by rw [hp', ha]
      obtain ⟨out, s, hwrite, hout⟩ := run_writeptr_ended p' f (v := x.2.2.ptrval) hw hsave
      rw [if_neg hx, Prog.bind_assoc, Prog.run_bind, hwrite]
      cases out with
      | ok _ => exact trivial
      | dump e => exact Or.inr (Or.inl hout)
      | spin => exact hout.elim

/-- On any index file, a walk returns or ends in a check if and only if it does not come back to an
offset. -/
theorem walks_end_iff (key : List Byte) (writelock : Bool) (keylen datlen : ℕ) :
    (Ends (fun e => e.IsRead ∨ e.IsLock ∧ p.acc.allows (lockFor writelock) = false)
        (fun n => dbFindAndLock n b key writelock) (p, f) ↔
      (p.acc.allows (lockFor writelock) = true → ∀ v,
        headAt p.acc f (slot (dbHash key)) = some v →
          ¬ ComesBack (onward p.acc f fun x => x.idxbuf = key) v)) ∧
    (Ends (fun e => e.IsRead ∨ e = .writeptrPtr ∨ e.IsLock ∧ p.acc.writable = false)
        (fun n => dbFindfree n b keylen datlen) (p, f) ↔
      (p.acc.writable = true → ∀ v, headAt p.acc f (freeOff : ℕ) = some v →
        ¬ ComesBack
          (onward p.acc f fun x => x.idxbuf.length = keylen ∧ x.datlen = datlen) v)) :=
  ⟨find_ends_iff b p f key writelock, findfree_ends_iff b p f keylen datlen⟩

/-- An index file whose first chain has a record that points to itself. -/
def ringed : Files :=
  ⟨some ("      0     14     14   6x:0:2\n".toList.map Char.toUInt8), some []⟩

/-- The search for another key of this chain does not end. -/
theorem walk_endless : ¬ ∀ (b : DB) (p : Fds) (f : Files) (key : List Byte) (writelock : Bool),
    Ends (fun e => e.IsRead ∨ e.IsLock ∧ p.acc.allows (lockFor writelock) = false)
      (fun n => dbFindAndLock n b key writelock) (p, f) := by
  intro hall
  have hring : onward .rdwr ringed (fun x => x.idxbuf = []) 14 = some 14 := by decide +kernel
  refine (find_ends_iff dbAlloc (Fds.idle .rdwr) ringed [] false).mp (hall _ _ _ _ _) rfl 14
    (by decide +kernel) ⟨0, 1, 14, Nat.zero_lt_one, rfl, ?_⟩
  have hfollow : follow (onward .rdwr ringed fun x => x.idxbuf = []) 1 14 = some 14 := by
    rw [follow_succ, hring]
    rfl
  exact hfollow

end Ends

end Somenote.Db
