import Somenote.Db.Scan
import Somenote.Db.Sections

/-! # Scans among other processes

A scan has only the free list locked while it reads records that other processes write. No record
is being deleted meanwhile, so that a record with a key has the data of the key in the
map, whether it is on its chain or still in the hands of a store.
-/

namespace Somenote.Db

open World

variable {Pid : Type} {p : Pid} {I : Image} {w w' w'' : World Pid} {o : ℕ} {r : Rec}

section Bounds

theorem Image.Shape.bound_start (h : I.Shape) : I.Bound idxStart := by
  obtain ⟨recs, hb⟩ := h.behind
  cases recs with
  | nil => exact Or.inl hb.end_eq
  | cons r recs => exact Or.inr ⟨r, hb.recAt⟩

theorem Image.Shape.bound_next (h : I.Shape) (ho : I.RecAt o r) : I.Bound (o + r.bytes.length) := by
  obtain ⟨recs, hb⟩ := h.behind
  obtain ⟨pre, rest, -, hrest⟩ := hb.of_recAt ho
  rw [ho.endOf] at hrest
  cases rest with
  | nil => exact Or.inl hrest.end_eq
  | cons q rest => exact Or.inr ⟨q, hrest.recAt⟩

end Bounds

namespace World

/-- The offsets at which records start stay such offsets. -/
def Extends (w w' : World Pid) : Prop := ∀ n, w.image.Bound n → w'.image.Bound n

theorem Rely.extends (h : Rely p w w') : w.Extends w' := h.bound

theorem Extends.trans (h : w.Extends w') (h' : w'.Extends w'') : w.Extends w'' := fun n hn =>
  h' n (h n hn)

/-- The process has the free list locked for reading. -/
structure Scanning (p : Pid) (w : World Pid) : Prop where
  locks : w.locks p = Locking.none.add .idx freeOff 1 (some .rd)
  hand : w.hand p = .empty
  timely : w.Timely p

theorem Scanning.rely (h : Scanning p w) (hr : Rely p w w') : Scanning p w' :=
  ⟨hr.locks.trans h.locks, hr.hand.trans h.hand, hr.timely h.timely⟩

theorem Scanning.holds (h : Scanning p w) : w.Holds p freeOff := by
  rw [Holds, h.locks, Locking.add_in (Locking.inRange_one.mpr rfl)]
  exact Option.some_ne_none _

theorem Scanning.real_eq (h : Scanning p w) (ok : w.Ok) : w.real = w.image := by
  rw [real, ok.late_none h.holds h.timely]
  rfl

theorem Scanning.shown (h : Scanning p w) (ok : w.Ok) (ho : w.image.RecAt o r)
    (hb : ¬ IsBlank r.key) : w.image.blkAt r.datoff = w.map r.key := by
  refine (ok.shown ho hb).resolve_left ?_
  rintro ⟨q, hq⟩
  by_cases hqp : q = p
  · subst hqp
    rw [h.hand] at hq
    cases hq
  · exact ok.not_writes (Ne.symm hqp) h.holds (ok.dying hq).1

end World

variable [DecidableEq Pid] {α : Type} {op : Req} {l : Fds} {τ : Option Ans} {b : DB} {n fuel : ℕ}
  {Q : α → Fds → World Pid → Option Ans → Prop}

theorem guarded_rewind {f : DB → DbProg α}
    (h : ∀ l' w' b', w'.Ok → Rely p w w' → l'.idxpos = idxStart →
      Guarded p op (f b') Q l' w' τ) :
    Guarded p op (dbRewind b >>= f) Q l w τ := by
  rw [dbRewind, Prog.bind_assoc]
  apply guarded_seek
  intro w' ok' h'
  exact h _ w' _ ok' h' rfl

theorem guarded_nextrecLoop {f : Bool × DB → DbProg α} (ok : w.Ok) (hs : Scanning p w)
    (hpos : w.image.Bound l.idxpos)
    (hit : ∀ l' w' (b' : DB) o r, w'.Ok → Scanning p w' → w.Extends w' →
      w'.image.Bound l'.idxpos → w'.image.RecAt o r → ¬ IsBlank r.key → b'.idxbuf = r.key.1 →
      b'.datoff = r.datoff → b'.datlen = r.datlen → Guarded p op (f (true, b')) Q l' w' τ)
    (miss : ∀ l' w' b', w'.Ok → Scanning p w' → w.Extends w' → w'.image.Bound l'.idxpos →
      Guarded p op (f (false, b')) Q l' w' τ) :
    Guarded p op (nextrecLoop fuel b >>= f) Q l w τ := by
  induction fuel generalizing w l b with
  | zero => trivial
  | succ fuel ih =>
    rw [nextrecLoop, Prog.bind_assoc]
    apply guarded_readidx (o := l.idxpos) (Or.inr ⟨rfl, rfl⟩)
    · intro w' ok' h'
      rcases h'.bound _ hpos with hend | ⟨r, hr⟩
      · exact Or.inr ⟨rfl, hend⟩
      · refine Or.inl ⟨r, hr, ?_⟩
        rw [(hs.rely h').real_eq ok']
        exact hr
    · intro l' w' ok' h' hl' _ hend
      dsimp only
      rw [if_pos (by decide), Prog.pure_eq, Prog.ret_bind]
      refine miss l' w' _ ok' (hs.rely h') h'.extends ?_
      rw [hl']
      exact Or.inl hend
    · intro l' w₁ w₂ r₁ r₂ ok₁ h₁ ho₁ ok₂ h₂ ho₂ hl'
      have h' := h₁.trans h₂
      have hs₂ := hs.rely h'
      have hpos₂ : w₂.image.Bound l'.idxpos := by
        rw [hl']
        exact ok₂.inv.shape.bound_next ho₂
      dsimp only
      rw [if_neg (by omega)]
      have hall : (b.load l.idxpos r₂).idxbuf.all (· == SPACE) = true ↔ IsBlank r₂.key :=
        isBlank_iff.symm
      by_cases hb : IsBlank r₂.key
      · rw [if_pos (hall.mpr hb)]
        apply ih ok₂ hs₂ hpos₂
        · intro l₃ w₃ b₃ o r ok₃ hs₃ he₃
          exact hit l₃ w₃ b₃ o r ok₃ hs₃ (h'.extends.trans he₃)
        · intro l₃ w₃ b₃ ok₃ hs₃ he₃
          exact miss l₃ w₃ b₃ ok₃ hs₃ (h'.extends.trans he₃)
      · rw [if_neg (mt hall.mp hb), Prog.pure_eq, Prog.ret_bind]
        exact hit l' w₂ _ _ r₂ ok₂ hs₂ h'.extends hpos₂ ho₂ hb rfl rfl rfl

theorem guarded_endscan {f : Unit → DbProg α} {e : Err} {τ' : Option Ans} (hs : Scanning p w)
    (hmove : ∀ w', w'.Ok → Rely p w w' → Moves p op w' τ w' τ')
    (h : ∀ w', w'.Ok → Outside p w' → w.Extends w' → Guarded p op (f ()) Q l w' τ') :
    Guarded p op (orDump (.unlck .idx freeOff 1) e >>= f) Q l w τ := by
  apply guarded_unlock
  intro w₁ ok₁ h₁
  have hs₁ := hs.rely h₁
  have hok : (w₁.lock p .idx freeOff 1 none).Ok := by
    apply unlock_ok ok₁ _ hs₁.timely
    · intro _ k hk
      exact absurd hk slot_notInFree
    · intro _ _ _ _ _ _
      exact slot_notInFree
    · intro o ho
      rw [hs₁.hand] at ho
      cases ho
  have hout : Outside p (w₁.lock p .idx freeOff 1 none) := by
    refine ⟨?_, hs₁.hand, hs₁.timely⟩
    rw [lock_self, hs₁.locks]
    exact Locking.add_clear fun _ _ => rfl
  exact ⟨w₁, τ', hmove w₁ ok₁ h₁, rfl, rfl, hok, h _ hok hout h₁.extends⟩

theorem guarded_nextrec {f : Option (List Byte × List Byte) × DB → DbProg α} (hout : Outside p w)
    (hpos : w.image.Bound l.idxpos)
    (h : ∀ v l' w' b', w'.Ok → Outside p w' → w.Extends w' → w'.image.Bound l'.idxpos →
      Guarded p (.nextrec n) (f (v, b')) Q l' w' (some (.pair v))) :
    Guarded p (.nextrec n) (dbNextrec fuel b >>= f) Q l w none := by
  rw [dbNextrec, Prog.bind_assoc]
  apply guarded_lock
  · intro x _
    rw [hout.locks]
    rfl
  intro w₁ ok₁ h₁ hgrant
  have hout₁ := hout.rely h₁
  have ok₁' : (w₁.lock p .idx freeOff 1 (some .rd)).Ok := by
    apply lock_ok ok₁ hgrant
    intro x _
    rw [hout₁.locks]
    rfl
  have hs₁ : Scanning p (w₁.lock p .idx freeOff 1 (some .rd)) := by
    refine ⟨?_, hout₁.hand, hout₁.timely⟩
    rw [lock_self, hout₁.locks]
  rw [Prog.bind_assoc]
  apply guarded_nextrecLoop ok₁' hs₁ (h₁.bound _ hpos)
  · intro l₂ w₂ b₂ o r ok₂ hs₂ he₂ hpos₂ ho₂ hb hbuf hoff hlen
    have he : w.Extends w₂ := h₁.extends.trans he₂
    -- the record keeps its key, and its data is the data of the key
    have hrec : ∀ w', w'.Ok → Rely p w₂ w' → ∃ d, w'.image.blkAt b₂.datoff = some d ∧
        b₂.datlen = d.1.length + 1 ∧ w'.map r.key = some d := by
      intro w' ok' h'
      obtain ⟨r', ho', hoff', hlen', -, hkey'⟩ := h'.kept ho₂
      have hkey : r'.key = r.key := hkey' hs₂.holds hb
      obtain ⟨d, hd, hdl⟩ := ok'.inv.stock.blk ho'
      have hshown := (hs₂.rely h').shown ok' ho' (hkey ▸ hb)
      refine ⟨d, ?_, ?_, ?_⟩
      · rw [hoff, ← hoff', hd]
      · rw [hlen, ← hlen', hdl]
      · rw [← hkey, ← hshown, hd]
    dsimp only
    rw [if_pos rfl, Prog.bind_assoc, Prog.bind_assoc]
    apply guarded_readdat
    · intro w₃ ok₃ h₃
      obtain ⟨d, hd, hdl, -⟩ := hrec w₃ ok₃ h₃
      exact ⟨d, hd, hdl⟩
    · intro l₃ w₃ d hl₃ ok₃ h₃ hd
      obtain ⟨d', hd', -, hM⟩ := hrec w₃ ok₃ h₃
      obtain rfl : d' = d := Option.some_injective _ (hd'.symm.trans hd)
      refine ⟨some (.pair (some (b₂.idxbuf, d'.1))), ok₃.takes ⟨Or.inr ⟨r.key, d', ?_, hM⟩, rfl⟩, ?_⟩
      · rw [hbuf]
      · rw [Prog.pure_eq, Prog.ret_bind, Prog.bind_assoc]
        apply guarded_endscan (hs₂.rely h₃) fun w₄ ok₄ _ => .stay ok₄
        intro w₄ ok₄ hout₄ he₄
        apply h _ l₃ w₄ _ ok₄ hout₄ ((he.trans h₃.extends).trans he₄)
        rw [hl₃]
        exact he₄ _ (h₃.bound _ hpos₂)
  · intro l₂ w₂ b₂ ok₂ hs₂ he₂ hpos₂
    dsimp only
    rw [if_neg (by decide), Prog.bind_assoc, Prog.pure_eq, Prog.ret_bind, Prog.bind_assoc]
    have heff : ∀ M : Map, (Req.nextrec n).Effect M (.pair none) M := fun M => ⟨Or.inl rfl, rfl⟩
    apply guarded_endscan hs₂ fun w₃ ok₃ _ => ok₃.takes (heff _)
    intro w₃ ok₃ hout₃ he₃
    exact h _ l₂ w₃ _ ok₃ hout₃ ((h₁.extends.trans he₂).trans he₃) (he₃ _ hpos₂)

end Somenote.Db
