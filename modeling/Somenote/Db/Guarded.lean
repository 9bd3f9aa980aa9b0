import Somenote.Db.Contents
import Somenote.Db.Map

/-! # Helper functions among other processes

Each system call of a process finds a world that the process can rely on. The rules
for the helper functions say in which worlds a process goes on behind them.
-/

namespace Somenote.Db

open Decimal

/-- The results that a call may have on a map, and the map behind it. -/
def Req.Effect : Req → Map → Ans → Map → Prop
  | .fetch _ key, M, a, M' => a = .data (M.fetch key) ∧ M' = M
  | .store _ key data flag, M, a, M' =>
    a = .rc (M.store key data flag).1 ∧ M' = (M.store key data flag).2
  | .delete _ key, M, a, M' => a = .rc (M.delete key).1 ∧ M' = (M.delete key).2
  | .rewind _, M, a, M' => a = .done ∧ M' = M
  | .nextrec _, M, a, M' =>
    (a = .pair none ∨ ∃ k d, a = .pair (some (k.1, d.1)) ∧ M k = some d) ∧ M' = M
  | _, _, _, _ => False

variable {Pid : Type} [DecidableEq Pid]

/-- The processes share the files and the locks, and act on the map. -/
def worlds : Sharing Pid Req Ans Map (Files × LockTable Pid Fd) (World Pid) where
  shared w := (w.real.files, w.locks)
  obj := World.map
  Ok := World.Ok
  Rely := World.Rely
  spec := Req.Effect
  refl := World.Rely.refl
  trans := World.Rely.trans

open World

variable {α : Type} {p : Pid} {op : Req} {w w' w'' : World Pid} {l : Fds} {τ τ' : Option Ans}
  {Q : α → Fds → World Pid → Option Ans → Prop} {c : Call} {e : Err} {f : c.Val → DbProg α}
  {fd : Fd} {b : DB} {o a : ℕ} {r : Rec} {i : ListId}

/-- The program of `p` is safe from these descriptors and this world on. -/
abbrev Guarded (p : Pid) (op : Req) (m : DbProg α) (Q : α → Fds → World Pid → Option Ans → Prop)
    (l : Fds) (w : World Pid) (τ : Option Ans) : Prop := m.Safe worlds kernel p op Q l w τ

/-- A step of `p` in the call `op`. -/
abbrev Moves (p : Pid) (op : Req) (w : World Pid) (τ : Option Ans) (w' : World Pid)
    (τ' : Option Ans) : Prop := worlds.Moves p op w τ w' τ'

omit [DecidableEq Pid] in
theorem World.Change.moves (h : Change p w w') (ok : w.Ok) (ok' : w'.Ok) (hmap : w'.map = w.map) :
    Moves p op w τ w' τ :=
  ⟨ok', fun _ hq => h.rely ok hq, Or.inl ⟨hmap, rfl⟩⟩

omit [DecidableEq Pid] in
/-- A change with which the call takes effect. -/
theorem World.Change.takes (h : Change p w w') (ok : w.Ok) (ok' : w'.Ok) {res : Ans}
    (heff : op.Effect w.map res w'.map) : Moves p op w none w' (some res) :=
  ⟨ok', fun _ hq => h.rely ok hq, Or.inr ⟨rfl, res, rfl, heff⟩⟩

omit [DecidableEq Pid] in
theorem World.Ok.takes (ok : w.Ok) {res : Ans} (heff : op.Effect w.map res w.map) :
    Moves p op w none w (some res) :=
  ⟨ok, fun q _ => Rely.refl q w, Or.inr ⟨rfl, res, rfl, heff⟩⟩

section Rules

theorem guarded_orDump
    (h : ∀ w', w'.Ok → Rely p w w' → c.Ready p l w'.locks →
      (exec c (l, w'.real.files) = (none, l, w'.real.files) ∧ c.locks p l w'.locks = w'.locks) ∨
      ∃ v l' w'' τ', exec c (l, w'.real.files) = (some v, l', w''.real.files) ∧
        c.locks p l w'.locks = w''.locks ∧ Moves p op w' τ w'' τ' ∧
        Guarded p op (f v) Q l' w'' τ') :
    Guarded p op (orDump c e >>= f) Q l w τ := by
  intro w' hok hrely hready
  rcases h w' hok hrely hready with ⟨hx, hl⟩ | ⟨v, l', w'', τ', hx, hl, hmove, hf⟩
  · refine ⟨w', τ, .stay hok, ?_, ?_⟩
    · simp only [kernel, worlds, hx, hl]
    · simp only [kernel, worlds, hx]
      trivial
  · refine ⟨w'', τ', hmove, ?_, ?_⟩
    · simp only [kernel, worlds, hx, hl]
    · simp only [kernel, worlds, hx]
      exact hf

theorem guarded_dumpIf {P : Prop} [Decidable P] {f : Unit → DbProg α}
    (h : ¬ P → Guarded p op (f ()) Q l w τ) : Guarded p op (dumpIf P e >>= f) Q l w τ := by
  unfold dumpIf
  split
  · trivial
  · exact h ‹_›

theorem guarded_lock {t : LockType} {off len : ℕ} {f : Unit → DbProg α}
    (hnone : ∀ b, inRange off len b → w.locks p fd b = none)
    (h : ∀ w', w'.Ok → Rely p w w' → w'.locks.Grantable p fd t off len →
      Guarded p op (f ()) Q l (w'.lock p fd off len (some t)) τ) :
    Guarded p op (orDump (.setlkw fd t off len) e >>= f) Q l w τ := by
  refine guarded_orDump fun w' hok hrely hready => ?_
  cases hacc : l.acc.allows t with
  | false => exact Or.inl ⟨by simp [exec, hacc], by simp [Call.locks, hacc]⟩
  | true =>
    refine Or.inr ⟨(), l, w'.lock p fd off len (some t), τ, by simp [exec, hacc]; rfl, ?_, ?_, ?_⟩
    · simp [Call.locks, hacc, World.lock]
    · have hg := hready hacc
      rw [← hrely.locks] at hnone
      exact ⟨lock_ok hok hg hnone, fun q hq => lock_rely hq, Or.inl ⟨rfl, rfl⟩⟩
    · exact h w' hok hrely (hready hacc)

theorem guarded_unlock {off len : ℕ} {f : Unit → DbProg α}
    (h : ∀ w', w'.Ok → Rely p w w' → ∃ w₁ τ', Moves p op w' τ w₁ τ' ∧ w₁.real = w'.real ∧
      w₁.locks = w'.locks ∧ (w₁.lock p fd off len none).Ok ∧
      Guarded p op (f ()) Q l (w₁.lock p fd off len none) τ') :
    Guarded p op (orDump (.unlck fd off len) e >>= f) Q l w τ := by
  refine guarded_orDump fun w' hok hrely _ => ?_
  obtain ⟨w₁, τ', hmove, hreal, hlocks, hok₁, hf⟩ := h w' hok hrely
  refine Or.inr ⟨(), l, w₁.lock p fd off len none, τ', ?_, ?_, ?_, hf⟩
  · rw [← hreal]
    rfl
  · rw [← hlocks]
    rfl
  · exact hmove.behind ⟨hok₁, fun q hq => lock_rely hq, Or.inl ⟨rfl, rfl⟩⟩ rfl

theorem guarded_seek {f : ℕ → DbProg α}
    (h : ∀ w', w'.Ok → Rely p w w' → Guarded p op (f o) Q (l.setPos fd o) w' τ) :
    Guarded p op (orDump (.lseek fd o .set) e >>= f) Q l w τ :=
  guarded_orDump fun w' hok hrely _ =>
    Or.inr ⟨o, l.setPos fd o, w', τ, exec_seek fd o, rfl, .stay hok, h w' hok hrely⟩

theorem guarded_seek_end {f : ℕ → DbProg α}
    (h : ∀ w', w'.Ok → Rely p w w' → Guarded p op (f (w'.real.files.bytes fd).length) Q
      (l.setPos fd (w'.real.files.bytes fd).length) w' τ) :
    Guarded p op (orDump (.lseek fd (0 : ℕ) .fin) e >>= f) Q l w τ :=
  guarded_orDump fun w' hok hrely _ =>
    Or.inr ⟨_, _, w', τ, exec_seek_fin fd, rfl, .stay hok, h w' hok hrely⟩

theorem guarded_read {n : ℕ} {f : List Byte → DbProg α}
    (h : l.acc.readable = true → ∀ w', w'.Ok → Rely p w w' →
      ∃ v l' τ', exec (.read fd n) (l, w'.real.files) = (some v, l', w'.real.files) ∧
        Moves p op w' τ w' τ' ∧ Guarded p op (f v) Q l' w' τ') :
    Guarded p op (orDump (.read fd n) e >>= f) Q l w τ := by
  refine guarded_orDump fun w' hok hrely _ => ?_
  cases hacc : l.acc.readable with
  | false => exact Or.inl ⟨by simp [exec, hacc], rfl⟩
  | true =>
    obtain ⟨v, l', τ', hx, hmove, hf⟩ := h hacc w' hok hrely
    exact Or.inr ⟨v, l', w', τ', hx, rfl, hmove, hf⟩

theorem guarded_write {bs : List Byte} {f : ℕ → DbProg α}
    (h : l.acc.writable = true → ∀ w', w'.Ok → Rely p w w' →
      ∃ v l' w'' τ', exec (.write fd bs) (l, w'.real.files) = (some v, l', w''.real.files) ∧
        w''.locks = w'.locks ∧ Moves p op w' τ w'' τ' ∧ Guarded p op (f v) Q l' w'' τ') :
    Guarded p op (orDump (.write fd bs) e >>= f) Q l w τ := by
  refine guarded_orDump fun w' hok hrely _ => ?_
  cases hacc : l.acc.writable with
  | false => exact Or.inl ⟨by simp [exec, hacc], rfl⟩
  | true =>
    obtain ⟨v, l', w'', τ', hx, hl, hmove, hf⟩ := h hacc w' hok hrely
    exact Or.inr ⟨v, l', w'', τ', hx, hl.symm, hmove, hf⟩

end Rules

section Reading

variable {f : ℤ → DbProg α}

theorem guarded_readptr {x : ℕ} (hi : w.Holds p (head i)) (hx : x ∈ head i :: w.lists.nodes i)
    (ht : w.Timely p)
    (h : ∀ l' w', w'.Ok → Rely p w w' → Guarded p op (f (w'.image.next x : ℕ)) Q l' w' τ) :
    Guarded p op (dbReadptr x >>= f) Q l w τ := by
  rw [dbReadptr, Prog.bind_assoc]
  refine guarded_seek fun w₁ _ h₁ => ?_
  rw [Prog.bind_assoc]
  refine guarded_read fun hr w₂ ok₂ h₂ => ?_
  have h₁₂ := h₁.trans h₂
  have hi₂ : w₂.Holds p (head i) := h₁₂.holds.mpr hi
  have hx₂ : x ∈ head i :: w₂.lists.nodes i := by rwa [h₁₂.nodes i hi]
  obtain ⟨v, c, hc, hv⟩ := ok₂.inv.hasPtr hx₂
  have hptr : w₂.real.HasPtr x v :=
    ⟨c, (ok₂.cellAt_real (h₁₂.timely ht) (.inl ⟨i, hi₂, hx₂⟩)).trans hc, hv⟩
  refine ⟨_, _, τ, exec_readptr (p := l.setPos .idx x) hr hptr rfl, .stay ok₂, ?_⟩
  rw [Prog.bind_assoc, dumpIf_neg (by simp [length_ptrField]), Prog.ret_bind, atol_field]
  have hnext : w₂.image.next x = v := Image.HasPtr.next_eq ⟨c, hc, hv⟩
  have hf := h ((l.setPos .idx x).setPos .idx (x + ptrSz)) w₂ ok₂ h₁₂
  rw [hnext] at hf
  exact hf

/-- The text of a record is read after its head, and may have changed in between. -/
theorem guarded_readidx {f : ℤ × DB → DbProg α} {offset : ℤ} (hat : ReadsAt l offset o)
    (hrec : ∀ w', w'.Ok → Rely p w w' →
      (∃ r, w'.image.RecAt o r ∧ w'.real.RecAt o r) ∨ offset = 0 ∧ o = w'.image.idxBytes.length)
    (hend : ∀ l' w', w'.Ok → Rely p w w' → l'.idxpos = o → offset = 0 →
      o = w'.image.idxBytes.length → Guarded p op (f (-1, { b with idxoff := o })) Q l' w' τ)
    (h : ∀ l' w₁ w₂ r₁ r₂, w₁.Ok → Rely p w w₁ → w₁.image.RecAt o r₁ → w₂.Ok → Rely p w₁ w₂ →
      w₂.image.RecAt o r₂ → l'.idxpos = o + r₂.bytes.length →
      Guarded p op (f (r₁.ptr, { b.load o r₂ with ptrval := r₁.ptr })) Q l' w₂ τ) :
    Guarded p op (dbReadidx b offset >>= f) Q l w τ := by
  rw [dbReadidx, Prog.bind_assoc]
  refine guarded_orDump fun w₀ ok₀ h₀ _ =>
    Or.inr ⟨o, l.setPos .idx o, w₀, τ, exec_seekAt hat, rfl, .stay ok₀, ?_⟩
  rw [Prog.bind_assoc]
  refine guarded_read fun hr w₁ ok₁ h₁ => ?_
  rcases hrec w₁ ok₁ (h₀.trans h₁) with ⟨r₁, ho₁, hreal₁⟩ | ⟨hoff, ho⟩
  · refine ⟨_, _, τ, exec_readhead (p := l.setPos .idx o) hr hreal₁ rfl, .stay ok₁, ?_⟩
    have hge := r₁.text_ge
    have hle := r₁.text_le
    rw [if_neg (by simp [r₁.length_head]), r₁.take_head, r₁.drop_head, atol_field, atol_field]
    simp only [Int.toNat_natCast]
    rw [dumpIf_neg (by omega), Prog.ret_bind, Prog.bind_assoc]
    refine guarded_read fun hr' w₂ ok₂ h₂ => ?_
    obtain ⟨r, ho, -, -, htext, -⟩ := h₂.kept ho₁
    rcases hrec w₂ ok₂ ((h₀.trans h₁).trans h₂) with ⟨r₂, ho₂, hreal₂⟩ | ⟨-, he⟩
    · obtain rfl : r₂ = r := ho₂.unique ho
      have hx := exec_readtext (p := (l.setPos .idx o).setPos .idx (o + (ptrSz + idxlenSz))) hr'
        hreal₂ rfl
      rw [htext] at hx
      refine ⟨_, _, τ, hx, .stay ok₂, ?_⟩
      rw [dumpIf_neg (by simp [htext]), Prog.ret_bind, dbParseidx_text _ r₂ (ok₂.clean ho₂),
        Prog.ret_bind, Prog.pure_eq, Prog.ret_bind]
      have hf := h ((((l.setPos .idx o).setPos .idx (o + (ptrSz + idxlenSz)))).setPos .idx
        (o + r₂.bytes.length)) w₁ w₂ r₁ r₂ ok₁ (h₀.trans h₁) ho₁ ok₂ h₂ ho₂ rfl
      rw [DB.load, htext] at hf
      exact hf
    · exact absurd he (Image.cellAt_ne_end ho)
  · have hx := exec_readend (p := l.setPos .idx o) (I := w₁.real) hr
      (ho.trans ok₁.length_idx_real.symm) (ptrSz + idxlenSz)
    refine ⟨_, _, τ, hx, .stay ok₁, ?_⟩
    rw [if_pos (by simp), if_pos ⟨rfl, hoff⟩, Prog.pure_eq, Prog.ret_bind]
    exact hend _ w₁ ok₁ (h₀.trans h₁) rfl hoff ho

theorem guarded_readidx_list {f : ℤ × DB → DbProg α} {l₀ m : List ℕ} (hi : w.Holds p (head i))
    (hl : w.lists.nodes i = l₀ ++ o :: m) (h0 : o ≠ 0) (ht : w.Timely p)
    (h : ∀ l' w' r, w'.Ok → Rely p w w' → w'.image.RecAt o r → (r.ptr : ℕ) = m.headD 0 →
      Guarded p op (f (r.ptr, b.load o r)) Q l' w' τ) :
    Guarded p op (dbReadidx b o >>= f) Q l w τ := by
  have hmem : o ∈ w.lists.nodes i := by simp [hl]
  refine guarded_readidx (.inl ⟨rfl, h0⟩) (fun w' ok' h' => Or.inl ?_)
    (fun _ _ _ _ _ hoff _ => absurd hoff (by exact_mod_cast h0))
    fun l' w₁ w₂ r₁ r₂ ok₁ h₁ ho₁ ok₂ h₂ ho₂ _ => ?_
  · have hmem' : o ∈ w'.lists.nodes i := by rwa [h'.nodes i hi]
    obtain ⟨r, hr⟩ := ok'.inv.filed.rec_node hmem'
    refine ⟨r, hr, (ok'.cellAt_real (h'.timely ht) ?_).trans hr⟩
    exact .inl ⟨i, h'.holds.mpr hi, List.mem_cons_of_mem _ hmem'⟩
  · have hi₁ : w₁.Holds p (head i) := h₁.holds.mpr hi
    have hn₁ := h₁.nodes i hi
    obtain rfl : r₁ = r₂ := by
      refine Image.RecAt.unique (I := w₁.image) ho₁ ((h₂.recAt hi₁ ?_).mp ho₂)
      rwa [hn₁]
    have hlink := ok₂.inv.linked i
    rw [h₂.nodes i hi₁, hn₁, hl] at hlink
    have hnext : (r₁.ptr : ℕ) = m.headD 0 := by
      rw [← ho₂.next]
      exact hlink.suffix.next_headD
    exact h l' w₂ r₁ ok₂ (h₁.trans h₂) ho₂ hnext

/-- A walk along a list that the process has locked, to a record with the property `F` or to the
end. `K` is what the process knows of the world, and `P` what the handle is at the node to which
the walk has come. -/
theorem guarded_search {found : DB → Prop} [DecidablePred found] {past : ℤ → DB → DB}
    {F : Rec → Prop} {K : World Pid → Prop} {P : ℕ → DB → Prop} {f : ℤ × ℤ × DB → DbProg α}
    {l₀ rest : List ℕ} {fuel : ℕ}
    (hF : ∀ (b : DB) o r, found (b.load o r) ↔ F r)
    (hP : ∀ o r a b, P a b → P o (past o (b.load o r)))
    (hK : ∀ w w', K w → Rely p w w' → K w') (hholds : ∀ w, K w → w.Holds p (head i) ∧ w.Timely p)
    (hit : ∀ l' w' b' l₀ o m r, w'.Ok → K w' → w'.lists.nodes i = l₀ ++ o :: m →
      w'.image.RecAt o r → F r → o ≠ 0 → P (l₀.getLastD (head i)) b' →
      Guarded p op (f ((l₀.getLastD (head i) : ℕ), o, b'.load o r)) Q l' w' τ)
    (miss : ∀ l' w' b' a s, w'.Ok → K w' →
      (∀ x ∈ w'.lists.nodes i, ∀ r, w'.image.RecAt x r → ¬ F r) → P a b' →
      Guarded p op (f (s, 0, b')) Q l' w' τ)
    (ok : w.Ok) (hk : K w) (hl : w.lists.nodes i = l₀ ++ rest)
    (hpass : ∀ x ∈ l₀, ∀ r, w.image.RecAt x r → ¬ F r) (hb : P (l₀.getLastD (head i)) b) :
    Guarded p op (search found past fuel b (l₀.getLastD (head i) : ℕ) (rest.headD 0 : ℕ) >>= f) Q l w
      τ := by
  induction fuel generalizing w l b l₀ rest with
  | zero => trivial
  | succ fuel ih =>
    cases rest with
    | nil =>
      refine miss l w b _ _ ok hk ?_ hb
      rwa [hl, List.append_nil]
    | cons o m =>
      have h0 : o ≠ 0 := ok.inv.node_pos (i := i) (by simp [hl])
      obtain ⟨hi, ht⟩ := hholds w hk
      rw [List.headD_cons, search, if_pos (by exact_mod_cast h0), Prog.bind_assoc]
      refine guarded_readidx_list hi hl h0 ht fun l' w' r ok' h' ho hptr => ?_
      have hk' := hK w w' hk h'
      have hl' : w'.lists.nodes i = l₀ ++ o :: m := (h'.nodes i hi).trans hl
      dsimp only
      by_cases hr : F r
      · rw [if_pos ((hF b o r).mpr hr)]
        exact hit l' w' b l₀ o m r ok' hk' hl' ho hr h0 hb
      · rw [if_neg (mt (hF b o r).mp hr), hptr]
        have hpass' : ∀ x ∈ l₀ ++ [o], ∀ q, w'.image.RecAt x q → ¬ F q := by
          intro x hx q hq
          rcases List.mem_append.mp hx with hx | hx
          · refine hpass x hx q ((h'.recAt hi ?_).mp hq)
            rw [hl]
            exact List.mem_append_left _ hx
          · obtain rfl : x = o := by simpa using hx
            exact ho.unique hq ▸ hr
        have hih := ih (l := l') ok' hk' (by simpa using hl') hpass' (by simpa using hP o r _ b hb)
        rwa [List.getLastD_concat] at hih

theorem guarded_readdat {f : List Byte × DB → DbProg α}
    (hblk : ∀ w', w'.Ok → Rely p w w' →
      ∃ d, w'.image.blkAt b.datoff = some d ∧ b.datlen = d.1.length + 1)
    (h : ∀ l' w' d, l'.idxpos = l.idxpos → w'.Ok → Rely p w w' →
      w'.image.blkAt b.datoff = some d →
      ∃ τ', Moves p op w' τ w' τ' ∧ Guarded p op (f (d.1, { b with datbuf := d.1 })) Q l' w' τ') :
    Guarded p op (dbReaddat b >>= f) Q l w τ := by
  rw [dbReaddat, Prog.bind_assoc]
  refine guarded_seek fun w₁ ok₁ h₁ => ?_
  rw [Prog.bind_assoc]
  refine guarded_read fun hr w₂ ok₂ h₂ => ?_
  obtain ⟨d, hd, hlen⟩ := hblk w₂ ok₂ (h₁.trans h₂)
  have hx := exec_readblk (p := l.setPos .dat b.datoff) (I := w₂.real) hr (blkAt_real.trans hd) rfl
  rw [← hlen] at hx
  obtain ⟨τ', hmove, hf⟩ := h ((l.setPos .dat b.datoff).setPos .dat (b.datoff + b.datlen)) w₂ d rfl
    ok₂ (h₁.trans h₂) hd
  refine ⟨_, _, τ', hx, hmove, ?_⟩
  rw [dumpIf_neg (by simp [blkBytes, hlen]), Prog.ret_bind, dumpIf_neg (by simp [blkBytes]),
    Prog.ret_bind, blkBytes, List.dropLast_concat, cstr_eq d.2]
  exact hf

end Reading

section Writing

theorem guarded_writeptr {f : Unit → DbProg α} {x n : ℕ}
    (h : ∀ w' (u : Ptr), w'.Ok → Rely p w w' → (u : ℕ) = n → ∃ w'' τ', Moves p op w' τ w'' τ' ∧
      w''.real = w'.real.setPtr x u ∧ w''.locks = w'.locks ∧ (∃ v, w'.real.HasPtr x v) ∧
      ∀ l', Guarded p op (f ()) Q l' w'' τ') :
    Guarded p op (dbWriteptr x n >>= f) Q l w τ := by
  rw [dbWriteptr, Prog.bind_assoc]
  refine guarded_dumpIf fun hn => ?_
  rw [Prog.bind_assoc]
  refine guarded_seek fun w₁ _ h₁ => ?_
  rw [Prog.bind_assoc]
  refine guarded_write fun hw w₂ ok₂ h₂ => ?_
  obtain ⟨w'', τ', hmove, hreal, hlocks, ⟨v, hv⟩, hf⟩ :=
    h w₂ ⟨n, by omega⟩ ok₂ (h₁.trans h₂) rfl
  have hx := exec_writeptr (p := l.setPos .idx x) hw hv rfl ⟨n, by omega⟩
  rw [← hreal] at hx
  rw [Int.toNat_natCast, List.take_of_length_le (length_ptrField ⟨n, by omega⟩).le]
  refine ⟨_, _, w'', τ', hx, hlocks, hmove, ?_⟩
  rw [dumpIf_neg (by simp), Prog.ret_bind]
  exact hf _

theorem guarded_writedat_set {f : DB → DbProg α} {d : CStr}
    (h : ∀ w', w'.Ok → Rely p w w' → ∃ d₀ w'' τ', w'.image.blkAt a = some d₀ ∧
      d.1.length = d₀.1.length ∧ Moves p op w' τ w'' τ' ∧ w''.real = w'.real.putBlk a d ∧
      w''.locks = w'.locks ∧
      ∀ l', Guarded p op (f { b with datoff := a, datlen := d.1.length + 1 }) Q l' w'' τ') :
    Guarded p op (dbWritedat b d.1 a .set >>= f) Q l w τ := by
  rw [dbWritedat, onEnd_set, Prog.ret_bind, Prog.bind_assoc]
  refine guarded_seek fun w₁ _ h₁ => ?_
  dsimp only
  rw [← blkBytes, Prog.bind_assoc]
  refine guarded_write fun hw w₂ ok₂ h₂ => ?_
  obtain ⟨d₀, w'', τ', hd₀, hlen, hmove, hreal, hlocks, hf⟩ := h w₂ ok₂ (h₁.trans h₂)
  have hx := exec_writeblk (p := l.setPos .dat a) (I := w₂.real) hw (blkAt_real.trans hd₀) hlen rfl
  rw [← hreal] at hx
  refine ⟨_, _, w'', τ', hx, hlocks, hmove, ?_⟩
  rw [dumpIf_neg (by simp), Prog.ret_bind, onEnd_set, Prog.ret_bind]
  exact hf _

theorem guarded_writeidx_set {f : DB → DbProg α} {q : Rec} (hoff : b.datoff = q.datoff)
    (hlen : b.datlen = q.datlen)
    (h : ∀ w', w'.Ok → Rely p w w' → ∃ r w'' τ', w'.real.RecAt o r ∧
      q.text.length = r.text.length ∧ Moves p op w' τ w'' τ' ∧
      w''.real = w'.real.putCell o (.record q) ∧ w''.locks = w'.locks ∧
      ∀ l', Guarded p op (f (b.wrote o q)) Q l' w'' τ') :
    Guarded p op (dbWriteidx b q.key.1 o .set q.ptr >>= f) Q l w τ := by
  have hlt := q.ptr.isLt
  have hge := q.text_ge
  have hle := q.text_le
  have ht : idxText q.key b.datoff b.datlen = q.text := by rw [hoff, hlen]; rfl
  rw [dbWriteidx, dumpIf_neg (by omega), Prog.ret_bind]
  dsimp only
  rw [ht, dumpIf_neg (by omega), Prog.ret_bind, onEnd_set, Prog.ret_bind, Prog.bind_assoc]
  refine guarded_seek fun w₁ _ h₁ => ?_
  rw [Int.toNat_natCast, writeidx_bytes, Prog.bind_assoc]
  refine guarded_write fun hw w₂ ok₂ h₂ => ?_
  obtain ⟨r, w'', τ', ho, htext, hmove, hreal, hlocks, hf⟩ := h w₂ ok₂ (h₁.trans h₂)
  have hx := exec_writerec (p := l.setPos .idx o) hw ho htext rfl
  rw [← hreal] at hx
  refine ⟨_, _, w'', τ', hx, hlocks, hmove, ?_⟩
  rw [dumpIf_neg (by simp [q.length_bytes]), Prog.ret_bind, onEnd_set, Prog.ret_bind]
  exact hf _

end Writing

end Somenote.Db
