import Mathlib.Logic.Relation
import Somenote.Db.Session

/-! # Reachable databases

A database is created and then used by processes, each with a handle of its own in any
state. A call may return or end its process; the next call finds the files as they are.
-/

namespace Somenote.Db

/-- A call that opens the database keeps its contents. -/
def Op.Opens : Op → Prop
  | reopen oflag => oflag.Keeps
  | _ => True

/-- A call, however it ends, that takes the files from `f` to `f'`. -/
inductive Calls (P : CStr → Prop) (f f' : Files) : Prop
  | call {fuel : ℕ} {b : DB} {p p' : Fds} {op : Op} {out : Out Err (Res × DB)}
      (hf : ptrMax < fuel) (hop : op.Stores P) (hopen : op.Opens)
      (hrun : (op.call fuel b).run exec (p, f) = (out, p', f'))

/-- Calls that store keys with the property `P` only. -/
abbrev Reaches (P : CStr → Prop) : Files → Files → Prop := Relation.ReflTransGen (Calls P)

/-- The files of a database that was created and then used. -/
def Reachable (P : CStr → Prop) (f : Files) : Prop :=
  ∃ s out p f₀, (dbOpen .create).run exec s = (out, p, f₀) ∧ Reaches P f₀ f

/-- The files of a database whose records have blank keys or keys with the property `P`. -/
def Valid (P : CStr → Prop) (f : Files) : Prop :=
  ∃ I L X Y M, f = Image.files I ∧ Inv I L X Y M ∧
    ∀ {o r}, I.RecAt o r → IsBlank r.key ∨ P r.key

variable {P : CStr → Prop} {I I' : Image} {L : Lists} {X Y : Set ℕ} {M : Map} {f f' : Files}
  {p : Fds} {fuel : ℕ} {b : DB} {op : Op} {k d : CStr} {flag : ℤ} {out : Out Err (ℤ × DB)}

namespace Inv

theorem keys (h : Inv I L X Y M) (hrec : ∀ {o r}, I.RecAt o r → IsBlank r.key ∨ P r.key) :
    M.Keys fun k => IsBlank k ∨ P k := by
  intro k hk
  obtain ⟨d, hd⟩ := Option.ne_none_iff_exists'.mp hk
  obtain ⟨j, o, r, -, hr, rfl, -⟩ := (h.maps k d).mp hd
  exact hrec hr

theorem records (h : Inv I L X Y M) (hk : M.Keys fun k => IsBlank k ∨ P k)
    (hY : ∀ {o r}, o ∈ Y → I.RecAt o r → IsBlank r.key ∨ P r.key) {o : ℕ} {r : Rec}
    (ho : I.RecAt o r) : IsBlank r.key ∨ P r.key := by
  obtain ⟨d, hd, -⟩ := h.stock.blk ho
  rcases (h.filed.isRec_iff o).mp ⟨r, ho⟩ with ⟨j, hj⟩ | hfree | hout
  · exact hk r.key (by simp [h.present hj ho hd])
  · exact Or.inl (h.filed.free_blank hfree ho)
  · exact hY hout ho

end Inv

theorem Image.Keeps.records (h : I.Keeps I' Y)
    (hrec : ∀ {o r}, I.RecAt o r → IsBlank r.key ∨ P r.key) {o : ℕ} {r : Rec} (ho : o ∈ Y)
    (hr : I'.RecAt o r) : IsBlank r.key ∨ P r.key :=
  hrec ((h o ho).symm.trans hr)

theorem Refused.valid {e : Err} (hr : Refused I k d e I') (h : Inv I L X Y M) (hP : P k)
    (hrec : ∀ {o r}, I.RecAt o r → IsBlank r.key ∨ P r.key) : Valid P I'.files := by
  obtain ⟨X', Y', h', hY'⟩ := hr.inv h
  refine ⟨I', L, X', Y', M, rfl, h', fun ho => h'.records (h.keys hrec) (fun {o r} hy hor => ?_) ho⟩
  rcases hY' o hy with ⟨-, hc⟩ | ⟨q, hq, rfl⟩
  · exact hrec (hc.symm.trans hor)
  · exact Or.inr (hor.unique hq ▸ hP)

theorem StoreEnd.valid (hend : StoreEnd I L X Y M k d flag out I') (h : Inv I L X Y M) (hP : P k)
    (hrec : ∀ {o r}, I.RecAt o r → IsBlank r.key ∨ P r.key) : Valid P I'.files := by
  cases hend with
  | @done _ _ L' rc M' hspec h' hY =>
    have hk := (h.keys hrec).store (Or.inr hP) d flag
    rw [hspec] at hk
    exact ⟨I', L', X, Y, M', rfl, h', h'.records hk (hY.records hrec)⟩
  | datlen _ => exact ⟨_, _, _, _, _, rfl, h, hrec⟩
  | sep _ _ => exact ⟨_, _, _, _, _, rfl, h, hrec⟩
  | absent _ _ _ href => exact href.valid h hP hrec
  | present _ _ _ _ _ _ _ _ _ h₁ hY href =>
    have hk := (h.keys hrec).update (k := k) (v := none) fun hn => absurd rfl hn
    exact href.valid h₁ hP (h₁.records hk (hY.records hrec))

/-- A call leaves a valid database, however it ends. -/
theorem Valid.call (h : Valid P f) (hf : ptrMax < fuel) (hop : op.Stores P) (hopen : op.Opens) :
    Valid P ((op.call fuel b).run exec (p, f)).2.2 := by
  obtain ⟨I, L, X, Y, M, rfl, h, hrec⟩ := h
  have hsame : Valid P I.files := ⟨I, L, X, Y, M, rfl, h, hrec⟩
  cases op with
  | fetch k =>
    cases hr : p.acc.readable with
    | false =>
      obtain ⟨e, p', hrun, -⟩ := fetch_denied fuel b I.files k.1 hr
      rwa [Op.call, Prog.run_bind_dump hrun]
    | true =>
      obtain ⟨out, p', hrun, -⟩ := fetch_spec (b := b) h hf hr k
      rw [Op.call, Prog.run_bind, hrun]
      cases out <;> exact hsame
  | delete k =>
    by_cases hrw : p.acc.writable = false ∨ p.acc.readable = false
    · obtain ⟨e, p', hrun, -⟩ := delete_denied fuel b I.files hrw k.1
      rwa [Op.call, Prog.run_bind_dump hrun]
    · obtain ⟨hw, hr⟩ : p.acc.writable = true ∧ p.acc.readable = true := by simpa using hrw
      obtain ⟨out, p', I', hrun, -, ⟨b', L', rfl, h', hY⟩ | ⟨rfl, rfl, -⟩⟩ :=
        delete_spec (b := b) h hf hr hw k
      · rw [Op.call, Prog.run_bind_ok hrun]
        exact ⟨I', L', X, Y, _, rfl, h', h'.records ((h.keys hrec).delete k) (hY.records hrec)⟩
      · rwa [Op.call, Prog.run_bind_dump hrun]
  | store k d flag =>
    by_cases hrw : p.acc.writable = false ∨ p.acc.readable = false
    · obtain ⟨out, p', hrun, -⟩ := store_denied fuel b I.files hrw M k d flag
      rw [Op.call, Prog.run_bind, hrun]
      cases out <;> exact hsame
    · obtain ⟨hw, hr⟩ : p.acc.writable = true ∧ p.acc.readable = true := by simpa using hrw
      obtain ⟨out, p', I', hrun, -, hend⟩ := store_spec (b := b) h hf hr hw k d flag
      have h' : Valid P I'.files := hend.valid h hop hrec
      rw [Op.call, Prog.run_bind, hrun]
      cases out <;> exact h'
  | reopen oflag =>
    rw [Op.call, Prog.run_bind_ok run_close, Prog.run_bind_ok (run_reopen hopen)]
    exact hsame

theorem Valid.reaches (h : Valid P f) (hr : Reaches P f f') : Valid P f' := by
  induction hr with
  | refl => exact h
  | tail _ hc ih =>
    cases hc with
    | @call fuel b p p' op out hf hop hopen hrun =>
      have h' := ih.call (b := b) (p := p) hf hop hopen
      rwa [hrun] at h'

theorem Reachable.valid (h : Reachable P f) : Valid P f := by
  obtain ⟨s, out, p, f₀, hrun, hr⟩ := h
  rw [run_create, Prod.mk.injEq, Prod.mk.injEq] at hrun
  obtain ⟨-, -, rfl⟩ := hrun
  have hfresh : Valid P Image.fresh.files :=
    ⟨_, _, _, _, _, rfl, inv_fresh, fun ho => absurd ho not_recAt_fresh⟩
  exact hfresh.reaches hr

theorem session_reaches (hf : ptrMax < fuel) {ops : List Op}
    (hops : ∀ op ∈ ops, op.Stores P ∧ op.Opens) (b : DB) (s : Fds × Files) :
    Reaches P s.2 ((session fuel b ops).run exec s).2.2 := by
  induction ops generalizing b s with
  | nil => exact .refl
  | cons op ops ih =>
    obtain ⟨hop, hopen⟩ := hops op (by simp)
    rcases hrun : (op.call fuel b).run exec s with ⟨out, t⟩
    have hstep : Calls P s.2 t.2 := .call hf hop hopen hrun
    rw [session, Prog.run_bind, hrun]
    cases out with
    | ok x =>
      dsimp only
      rw [Prog.run_map]
      exact (ih (fun op ho => hops op (List.mem_cons_of_mem _ ho)) x.2 t).head hstep
    | dump e => exact .single hstep
    | spin => exact .single hstep

theorem newSession_reachable (hf : ptrMax < fuel) {ops : List Op}
    (hops : ∀ op ∈ ops, op.Stores P ∧ op.Opens) (s : Fds × Files) :
    Reachable P ((newSession fuel ops).run exec s).2.2 := by
  refine ⟨s, _, _, _, run_create, ?_⟩
  rw [newSession, Prog.run_bind_ok run_create]
  exact session_reaches hf hops _ (Fds.opened .rdwr, Image.fresh.files)

end Somenote.Db
