import Somenote.Db.Updating

/-! # Operations among other processes

Each operation on a key takes effect at one moment while it has the chain of the key locked. A
fetch reads the data there, a store or deletion writes there, and a call that changes nothing
takes effect when it leaves the chain.
-/

namespace Somenote.Db

open World

variable {Pid : Type} [DecidableEq Pid] {α : Type} {p : Pid} {w w' : World Pid} {k d : CStr}
  {n fuel : ℕ} {flag : ℤ} {j : Fin nhashDef} {t : LockType} {op : Req} {l : Fds}
  {τ : Option Ans} {b : DB} {Q : α → Fds → World Pid → Option Ans → Prop} {e : Err} {res : Ans}

section Effects

variable {M : Map}
  (hflag : ¬ (flag ≠ Flag.dbInsert ∧ flag ≠ Flag.dbReplace ∧ flag ≠ Flag.dbStore))

theorem effect_fetch : (Req.fetch n k).Effect M (.data (M.fetch k)) M := ⟨rfl, rfl⟩

theorem effect_delete : (Req.delete n k).Effect M (.rc (M.delete k).1) (M.delete k).2 := ⟨rfl, rfl⟩

theorem effect_store :
    (Req.store n k d flag).Effect M (.rc (M.store k d flag).1) (M.store k d flag).2 := ⟨rfl, rfl⟩

theorem effect_fetch_none (h : M k = none) : (Req.fetch n k).Effect M (.data none) M := by
  have heff : (Req.fetch n k).Effect M (.data (M.fetch k)) M := effect_fetch
  rwa [Map.fetch, h] at heff

theorem effect_delete_none (h : M k = none) : (Req.delete n k).Effect M (.rc (-1)) M := by
  have heff : (Req.delete n k).Effect M _ _ := effect_delete
  rwa [Map.delete_none h] at heff

theorem effect_delete_some (h : M k = some d) :
    (Req.delete n k).Effect M (.rc 0) (Function.update M k none) := by
  have heff : (Req.delete n k).Effect M _ _ := effect_delete
  rwa [Map.delete_some h] at heff

include hflag

theorem effect_insert_some (hins : flag = Flag.dbInsert) (h : M k ≠ none) :
    (Req.store n k d flag).Effect M (.rc 1) M := by
  obtain ⟨d₀, h⟩ := Option.ne_none_iff_exists'.mp h
  have heff : (Req.store n k d flag).Effect M _ _ := effect_store
  rwa [Map.store_some hflag h, if_pos hins] at heff

theorem effect_replace_none (hrep : flag = Flag.dbReplace) (h : M k = none) :
    (Req.store n k d flag).Effect M (.rc (-1)) M := by
  have heff : (Req.store n k d flag).Effect M _ _ := effect_store
  rwa [Map.store_none hflag h, if_pos hrep] at heff

theorem effect_store_some (hins : flag ≠ Flag.dbInsert) (h : M k ≠ none) :
    (Req.store n k d flag).Effect M (.rc 0) (Function.update M k (some d)) := by
  obtain ⟨d₀, h⟩ := Option.ne_none_iff_exists'.mp h
  have heff : (Req.store n k d flag).Effect M _ _ := effect_store
  rwa [Map.store_some hflag h, if_neg hins] at heff

theorem effect_store_none (hrep : flag ≠ Flag.dbReplace) (h : M k = none) :
    (Req.store n k d flag).Effect M (.rc 0) (Function.update M k (some d)) := by
  have heff : (Req.store n k d flag).Effect M _ _ := effect_store
  rwa [Map.store_none hflag h, if_neg hrep] at heff

end Effects

section Leave

theorem guarded_leave_done {f : Unit → DbProg α} (hin : Inside p w j t)
    (h : ∀ w', w'.Ok → Outside p w' → Guarded p op (f ()) Q l w' τ) :
    Guarded p op (orDump (.unlck .idx (slot j) 1) e >>= f) Q l w τ := by
  apply guarded_leave
  intro w₁ ok₁ h₁
  exact ⟨w₁, τ, .stay ok₁, rfl, rfl, hin.rely h₁, fun w₂ ok₂ hout _ => h w₂ ok₂ hout⟩

/-- A call that changes nothing takes effect when it leaves the chain of its key. -/
theorem guarded_leave_same {f : Unit → DbProg α} {v : Option CStr} (hin : Inside p w (dbHash k.1) t)
    (hv : w.chained k = v) (heff : ∀ M : Map, M k = v → op.Effect M res M)
    (h : ∀ w', w'.Ok → Outside p w' → Guarded p op (f ()) Q l w' (some res)) :
    Guarded p op (orDump (.unlck .idx (slot (dbHash k.1)) 1) e >>= f) Q l w none := by
  apply guarded_leave
  intro w₁ ok₁ h₁
  have hin₁ := hin.rely h₁
  have hM : w₁.map k = v := by rw [hin₁.agree k rfl, h₁.chained k hin.holds, hv]
  refine ⟨w₁, some res, ok₁.takes (heff _ hM), rfl, rfl, hin₁, fun w₂ ok₂ hout _ => h w₂ ok₂ hout⟩

end Leave

section Keys

theorem guarded_fetch {f : Option (List Byte) × DB → DbProg α} (hout : Outside p w)
    (h : ∀ v l' w' b', w'.Ok → Outside p w' →
      Guarded p (.fetch n k) (f (v, b')) Q l' w' (some (.data v))) :
    Guarded p (.fetch n k) (dbFetch fuel b k.1 >>= f) Q l w none := by
  rw [dbFetch, Prog.bind_assoc]
  apply guarded_find hout
  · intro l₁ w₁ b₁ l₀ o m r ok₁ hin₁ hl ho hk hc _
    have hmem : o ∈ w₁.lists.chain (dbHash k.1) := by simp [hl]
    have hrec : ∀ {w' : World Pid}, Rely p w₁ w' → w'.image.RecAt o r := fun h' =>
      (h'.recAt (i := some (dbHash k.1)) hin₁.holds hmem).mpr ho
    dsimp only
    rw [if_neg (by decide), Prog.bind_assoc, Prog.bind_assoc]
    apply guarded_readdat
    · intro w₂ ok₂ h₂
      exact ok₂.inv.stock.blk (hrec h₂)
    · intro l₂ w₂ d _ ok₂ h₂ hd
      have hin₂ := hin₁.rely h₂
      have hmem₂ : o ∈ w₂.lists.chain (dbHash k.1) := by
        rw [h₂.chain hin₁.holds]
        exact hmem
      obtain ⟨-, hM⟩ := hin₂.found ok₂ hmem₂ (hrec h₂) hk hd
      refine ⟨some (.data (some d.1)), ok₂.takes ⟨?_, rfl⟩, ?_⟩
      · rw [Map.fetch, hM]
        rfl
      · rw [Prog.pure_eq, Prog.ret_bind, Prog.bind_assoc]
        change Guarded p _ (orDump (.unlck .idx b₁.chainoff 1) .fetchUnLock >>= _) Q l₂ w₂ _
        rw [hc]
        apply guarded_leave_done hin₂
        intro w₃ ok₃ hout₃
        exact h (some d.1) l₂ w₃ _ ok₃ hout₃
  · intro l₁ w₁ b₁ ok₁ hin₁ hM hc
    dsimp only
    rw [if_pos (by decide), Prog.bind_assoc, Prog.pure_eq, Prog.ret_bind, Prog.bind_assoc, hc]
    apply guarded_leave_same hin₁ hM fun _ => effect_fetch_none
    intro w₃ ok₃ hout₃
    exact h none l₁ w₃ _ ok₃ hout₃

theorem guarded_delete {f : ℤ × DB → DbProg α} (hout : Outside p w)
    (h : ∀ rc l' w' b', w'.Ok → Outside p w' →
      Guarded p (.delete n k) (f (rc, b')) Q l' w' (some (.rc rc))) :
    Guarded p (.delete n k) (dbDelete fuel b k.1 >>= f) Q l w none := by
  rw [dbDelete, Prog.bind_assoc]
  apply guarded_find hout
  · intro l₁ w₁ b₁ l₀ o m r ok₁ hin₁ hl ho hk hc hpt
    have hmem : o ∈ w₁.lists.chain (dbHash k.1) := by simp [hl]
    obtain ⟨d, hd, -⟩ := ok₁.inv.stock.blk ho
    obtain ⟨-, hM⟩ := hin₁.found ok₁ hmem ho hk hd
    dsimp only
    rw [if_pos rfl, Prog.bind_assoc, Prog.bind_assoc]
    apply guarded_dodelete hin₁ hl ho hk hpt
    intro l₂ w₂ b₂ ok₂ hp₂ hl₂ hh₂ hc₂
    rw [Prog.pure_eq, Prog.ret_bind, Prog.bind_assoc]
    change Guarded p _ (orDump (.unlck .idx b₂.chainoff 1) .deleteUnLock >>= _) Q l₂ w₂ none
    rw [hc₂, hc]
    apply guarded_leave (t := .wr)
    intro w₃ ok₃ h₃
    have hp₃ := hp₂.rely h₃
    have hh₃ := h₃.hand.trans hh₂
    have ok₃' : (w₃.forget k).Ok := forget_ok hp₃.writes ok₃ hh₃ hp₃.chained
    have hM₃ : w₃.map k = some d := hp₃.map.trans hM
    have hin₃ : Inside p (w₃.forget k) (dbHash k.1) .wr := by
      refine hp₃.inside (h₃.locks.trans hl₂) ?_ rfl rfl ?_ ?_
      · exact hh₃
      · intro k' hne
        exact ⟨Function.update_of_ne hne .., rfl⟩
      · exact (Function.update_self ..).trans hp₃.chained.symm
    refine ⟨w₃.forget k, some (.rc 0), ?_, rfl, rfl, hin₃, ?_⟩
    · exact (forget_change hp₃.writes).takes ok₃ ok₃' (effect_delete_some hM₃)
    · intro w₄ ok₄ hout₄ _
      exact h 0 l₂ w₄ _ ok₄ hout₄
  · intro l₁ w₁ b₁ ok₁ hin₁ hM hc
    dsimp only
    rw [if_neg (by decide), Prog.bind_assoc, Prog.pure_eq, Prog.ret_bind, Prog.bind_assoc, hc]
    apply guarded_leave_same hin₁ hM fun _ => effect_delete_none
    intro w₃ ok₃ hout₃
    exact h (-1) l₁ w₃ _ ok₃ hout₃

theorem guarded_store {f : ℤ × DB → DbProg α} (hout : Outside p w) (hs : SEP ∉ k.1)
    (hflag : flag = Flag.dbInsert ∨ flag = Flag.dbReplace ∨ flag = Flag.dbStore)
    (h : ∀ rc l' w' b', w'.Ok → Outside p w' →
      Guarded p (.store n k d flag) (f (rc, b')) Q l' w' (some (.rc rc))) :
    Guarded p (.store n k d flag) (dbStore fuel b k.1 d.1 flag >>= f) Q l w none := by
  have hvalid : ¬ (flag ≠ Flag.dbInsert ∧ flag ≠ Flag.dbReplace ∧ flag ≠ Flag.dbStore) := by
    rintro ⟨h₁, h₂, h₃⟩
    rcases hflag with hf | hf | hf
    · exact h₁ hf
    · exact h₂ hf
    · exact h₃ hf
  rw [dbStore, if_neg hvalid]
  dsimp only
  rw [Prog.bind_assoc]
  apply guarded_dumpIf
  intro hd
  rw [Prog.bind_assoc]
  apply guarded_find hout
  · intro l₁ w₁ b₁ l₀ o m r ok₁ hin₁ hl ho hk hc hpt
    have hmem : o ∈ w₁.lists.chain (dbHash k.1) := by simp [hl]
    obtain ⟨d₀, hd₀, -⟩ := ok₁.inv.stock.blk ho
    obtain ⟨hM, -⟩ := hin₁.found ok₁ hmem ho hk hd₀
    dsimp only
    rw [if_neg (by decide), Prog.bind_assoc]
    by_cases hins : flag = Flag.dbInsert
    · rw [if_pos hins, Prog.pure_eq, Prog.ret_bind, Prog.bind_assoc]
      change Guarded p _ (orDump (.unlck .idx b₁.chainoff 1) .storeUnLock >>= _) Q l₁ w₁ none
      rw [hc]
      have heff : ∀ M : Map, M k = some d₀ → (Req.store n k d flag).Effect M (.rc 1) M :=
        fun M hk => effect_insert_some hvalid hins (by simp [hk])
      apply guarded_leave_same hin₁ hM heff
      intro w₂ ok₂ hout₂
      exact h 1 l₁ w₂ _ ok₂ hout₂
    · rw [if_neg hins, Prog.bind_assoc]
      apply guarded_storePresent ok₁ hin₁ hl ho hk hc hpt (by omega) hs fun _ =>
        effect_store_some hvalid hins
      intro l₂ w₂ b₂ ok₂ hin₂ hc₂
      rw [Prog.pure_eq, Prog.ret_bind, Prog.bind_assoc]
      dsimp only
      rw [hc₂, hc]
      apply guarded_leave_done hin₂
      intro w₃ ok₃ hout₃
      exact h 0 l₂ w₃ _ ok₃ hout₃
  · intro l₁ w₁ b₁ ok₁ hin₁ hM hc
    dsimp only
    rw [if_pos (by decide), Prog.bind_assoc]
    by_cases hrep : flag = Flag.dbReplace
    · rw [if_pos hrep, Prog.pure_eq, Prog.ret_bind, Prog.bind_assoc]
      dsimp only
      rw [hc]
      apply guarded_leave_same hin₁ hM fun _ => effect_replace_none hvalid hrep
      intro w₂ ok₂ hout₂
      exact h (-1) l₁ w₂ _ ok₂ hout₂
    · rw [if_neg hrep, Prog.bind_assoc]
      apply guarded_storeAbsent hin₁ hM (by omega) hs hc fun _ => effect_store_none hvalid hrep
      intro l₂ w₂ b₂ ok₂ hin₂ hc₂
      rw [Prog.pure_eq, Prog.ret_bind, Prog.bind_assoc]
      dsimp only
      rw [hc₂, hc]
      apply guarded_leave_done hin₂
      intro w₃ ok₃ hout₃
      exact h 0 l₂ w₃ _ ok₃ hout₃

end Keys

end Somenote.Db
