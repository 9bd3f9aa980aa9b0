import Mathlib.Algebra.Ring.Int.Defs
import Somenote.Cvm.Source

/-! # The progress of a copy

`rate` loads a log into `result` and looks for its last percentage. It walks back from the percent
sign to a blank.
-/

namespace Somenote.Cvm

open Scan Search Text

section Source

/-- The loop that loads the log, with the bytes that are stored. At the end of the file `fgetc`
returns `EOF`, and it is stored too. -/
def loadLoop : List Byte → List Byte → Except Fault (List Byte)
  | [], m => if m.length < resultlen then pure (m ++ [255]) else throw .overflow
  | c :: f, m => if m.length < resultlen then loadLoop f (m ++ [c]) else throw .overflow

/-- The string in `result` behind the load. -/
def load (content : List Byte) : Except Fault (List Byte) := do
  let m ← loadLoop content []
  if m.length < resultlen then pure (cstr m) else throw .overflow

/-- The loop from the place `p` back to a blank. -/
def walkBack (s : List Byte) : ℕ → Except Fault ℕ
  | 0 => if s[0]? = some 32 then pure 0 else throw .segv
  | p + 1 => if s[p + 1]? = some 32 then pure (p + 1) else walkBack s p

/-- `p -= 2` and the loop behind it. -/
def walkBack2 (s : List Byte) (p : ℕ) : Except Fault ℕ :=
  if p < 2 then throw .segv else walkBack s (p - 2)

/-- The number in `r` behind `sscanf`. It stays as it is when there is none. -/
def scanR (s : List Byte) (r : ℤ) : Except Fault ℤ :=
  match scanInt s with
  | none => pure r
  | some v => if -2147483648 ≤ v ∧ v < 2147483648 then pure v else throw .range

/-- The percentage of `rsync`. -/
def percent (result : List Byte) (r : ℤ) : Except Fault ℤ :=
  match lastIdxOf 37 result with
  | none => pure 0
  | some p => do
    let p ← walkBack result p
    scanR (result.drop p) r

/-- The second search of a migration, in the text that is cut off at the last percentage. -/
def percentCut (result : List Byte) (r : ℤ) : Except Fault ℤ :=
  match lastIdxOf 37 result with
  | none => pure 99
  | some p => do
    let p ← walkBack2 result p
    let r ← scanR (result.drop p) r
    if r = 100 then pure 100 else pure 99

/-- The percentage of a migration. A last one of 100 is cut off and the one in front of it is
read. -/
def percent2 (result : List Byte) (r : ℤ) : Except Fault ℤ :=
  match lastIdxOf 37 result with
  | none => pure 0
  | some p => do
    let p ← walkBack2 result p
    let r ← scanR (result.drop p) r
    if r ≠ 100 then pure r else percentCut (result.take p) r

/-- `rate`, on the content of the log. The number `r` has no value before it is read. -/
def rate (content : List Byte) (type : ℕ) (r : ℤ) : Except Fault ℤ :=
  if type = 0 then do
    let result ← load content
    if (search (encode "total size is") result).isSome then pure 100 else percent result r
  else if type = 1 then do
    let result ← load content
    if (search (encode "total size is") result).isSome then pure 100 else percent2 result r
  else throw .noValue

end Source

section Load

theorem loadLoop_eq (content m : List Byte) : loadLoop content m =
    if m.length + content.length < resultlen then .ok (m ++ content ++ [255])
    else .error .overflow := by
  induction content generalizing m with
  | nil => simp [loadLoop, pure, Except.pure, throw, throwThe, MonadExceptOf.throw]
  | cons c f ih =>
    rw [loadLoop, ih]
    simp only [List.length_append, List.length_cons, List.length_nil, List.append_assoc,
      List.cons_append, List.nil_append]
    split
    · congr 1
      rw [eq_iff_iff]
      omega
    · rw [if_neg (by omega)]
      rfl

/-- The string that a log leaves. -/
def loaded (content : List Byte) : List Byte := cstr (content ++ [255])

/-- The log has room with the two bytes that are stored behind it. -/
def Loads (content : List Byte) : Prop := content.length + 2 ≤ resultlen

instance (content : List Byte) : Decidable (Loads content) := inferInstanceAs (Decidable (_ ≤ _))

theorem load_eq (content : List Byte) : load content =
    if Loads content then .ok (loaded content) else .error .overflow := by
  rw [load, loadLoop_eq]
  by_cases h : content.length < resultlen
  · rw [if_pos (by simpa using h)]
    simp only [bind, Except.bind, List.nil_append, List.length_append, List.length_singleton]
    by_cases hloads : Loads content
    · rw [if_pos hloads, if_pos (Nat.lt_of_succ_le hloads)]
      rfl
    · rw [if_neg hloads, if_neg fun hlt => hloads (Nat.succ_le_of_lt hlt)]
      rfl
  · have hloads : ¬ Loads content := fun hloads => h (Nat.lt_of_lt_of_le (by omega) hloads)
    rw [if_neg (by simpa using h), if_neg hloads]
    rfl

end Load

section Walk

variable {s x y z : List Byte} {p : ℕ}

theorem walkBack_eq (hp : p < s.length) : walkBack s p =
    (lastIdxOf 32 (s.take (p + 1))).elim (.error .segv) .ok := by
  induction p with
  | zero =>
    obtain ⟨c, t, rfl⟩ := List.exists_cons_of_length_pos hp
    by_cases hc : c = 32
    · simp [walkBack, lastIdxOf, hc]
      rfl
    · simp [walkBack, lastIdxOf, hc]
      rfl
  | succ p ih =>
    rw [walkBack, List.take_succ_eq_append_getElem hp, lastIdxOf_concat,
      List.getElem?_eq_getElem hp]
    by_cases hc : s[p + 1] = 32
    · have hlen : (s.take (p + 1)).length = p + 1 := by simp; omega
      rw [if_pos (by rw [hc]), if_pos hc, hlen]
      rfl
    · rw [if_neg (by simpa using hc), if_neg hc]
      exact ih (by omega)

theorem walkBack_blank (hy : 32 ∉ y) (t : List Byte) :
    walkBack (x ++ 32 :: (y ++ t)) (x.length + y.length) = .ok x.length := by
  have htake : (x ++ 32 :: (y ++ t)).take (x.length + y.length + 1) = x ++ 32 :: y := by
    have hsplit : x ++ 32 :: (y ++ t) = (x ++ 32 :: y) ++ t := by simp
    rw [hsplit]
    exact List.take_left' (by simp [Nat.add_assoc])
  have hlen : x.length + y.length < (x ++ 32 :: (y ++ t)).length := by
    simp only [List.length_append, List.length_cons]
    omega
  rw [walkBack_eq hlen, htake, lastIdxOf_append_cons hy]
  rfl

theorem walkBack_ok {b : ℕ} (hp : p < s.length) (h : walkBack s p = .ok b) :
    ∃ x y, s.take (p + 1) = x ++ 32 :: y ∧ 32 ∉ y ∧ x.length = b := by
  rw [walkBack_eq hp] at h
  cases hl : lastIdxOf 32 (s.take (p + 1)) with
  | none =>
    rw [hl] at h
    cases h
  | some i =>
    rw [hl] at h
    obtain rfl := Except.ok.inj h
    exact lastIdxOf_eq_some hl

end Walk

section Percent

variable {s x t : List Byte} {r : ℤ}

/-- The last percent sign of a text, and the last blank that stands in front of it and of `skip`
other bytes. The text is cut at the blank. -/
def Cut (skip : ℕ) (s x t : List Byte) : Prop :=
  ∃ y v z, v.length = skip ∧ t = 32 :: (y ++ (v ++ 37 :: z)) ∧ s = x ++ t ∧ 32 ∉ y ∧ 37 ∉ z

theorem walkBack_iff {p b : ℕ} (hp : lastIdxOf 37 s = some p) :
    walkBack s p = .ok b ↔ ∃ x t, Cut 0 s x t ∧ x.length = b := by
  constructor
  · intro hb
    obtain ⟨u, z, rfl, hz, rfl⟩ := lastIdxOf_eq_some hp
    obtain ⟨x, y, htake, hy, rfl⟩ := walkBack_ok (by simp) hb
    have htake : u ++ [37] = x ++ 32 :: y := by
      rw [← htake, List.take_append, List.take_of_length_le (Nat.le_succ _)]
      simp
    -- The walk starts at the sign, which is no blank.
    rcases List.eq_nil_or_concat y with rfl | ⟨y, d, rfl⟩
    · have hlast := (List.append_inj' htake rfl).2
      simp at hlast
    · rw [List.concat_eq_append, ← List.cons_append, ← List.append_assoc] at htake
      obtain ⟨rfl, hd⟩ := List.append_inj' htake rfl
      refine ⟨x, 32 :: (y ++ 37 :: z), ⟨y, [], z, rfl, rfl, by simp, ?_, hz⟩, rfl⟩
      exact fun hm => hy (by simp [hm])
  · rintro ⟨x, t, ⟨y, v, z, hv, rfl, rfl, hy, hz⟩, rfl⟩
    obtain rfl := List.length_eq_zero_iff.mp hv
    have hsplit : x ++ 32 :: (y ++ ([] ++ 37 :: z)) = (x ++ 32 :: y) ++ 37 :: z := by simp
    rw [hsplit, lastIdxOf_append_cons hz] at hp
    obtain rfl := Option.some.inj hp
    have hwalk := walkBack_blank (x := x) (y := y ++ [37]) (by simp [hy]) z
    simpa using hwalk

theorem walkBack2_iff {p b : ℕ} (hp : lastIdxOf 37 s = some p) :
    walkBack2 s p = .ok b ↔ ∃ x t, Cut 1 s x t ∧ x.length = b := by
  constructor
  · intro hb
    obtain ⟨u, z, rfl, hz, rfl⟩ := lastIdxOf_eq_some hp
    rw [walkBack2] at hb
    split at hb
    · cases hb
    · next hlen =>
      obtain ⟨x, y, htake, hy, rfl⟩ := walkBack_ok (by simp; omega) hb
      rcases List.eq_nil_or_concat u with rfl | ⟨u, c, rfl⟩
      · exact absurd Nat.two_pos hlen
      · have hu : u = x ++ 32 :: y := by
          rw [← htake, List.concat_eq_append, List.append_assoc, List.take_left']
          simp only [List.length_append, List.length_singleton, List.concat_eq_append] at hlen ⊢
          omega
        subst hu
        exact ⟨x, 32 :: (y ++ ([c] ++ 37 :: z)), ⟨y, [c], z, rfl, rfl, by simp, hy, hz⟩, rfl⟩
  · rintro ⟨x, t, ⟨y, v, z, hv, rfl, rfl, hy, hz⟩, rfl⟩
    obtain ⟨c, rfl⟩ := List.length_eq_one_iff.mp hv
    have hsplit : x ++ 32 :: (y ++ ([c] ++ 37 :: z)) = (x ++ 32 :: (y ++ [c])) ++ 37 :: z := by simp
    have hp' : p = x.length + y.length + 2 := by
      rw [hsplit, lastIdxOf_append_cons hz] at hp
      obtain rfl := Option.some.inj hp
      simp
      omega
    rw [walkBack2, if_neg (by omega), hp', Nat.add_sub_cancel]
    exact walkBack_blank hy _

theorem Cut.drop {k : ℕ} (h : Cut k s x t) : s.drop x.length = t := by
  obtain ⟨y, v, z, -, -, rfl, -, -⟩ := h
  exact List.drop_left

theorem Cut.take {k : ℕ} (h : Cut k s x t) : s.take x.length = x := by
  obtain ⟨y, v, z, -, -, rfl, -, -⟩ := h
  exact List.take_left

theorem bind_eq_ok {m : Except Fault ℕ} {g : ℕ → Except Fault ℤ} {k : ℕ} {v : ℤ}
    (hm : ∀ b, m = .ok b ↔ ∃ x t, Cut k s x t ∧ x.length = b) :
    (m >>= g) = .ok v ↔ ∃ x t, Cut k s x t ∧ g x.length = .ok v := by
  constructor
  · intro hv
    cases m with
    | error e => cases hv
    | ok b =>
      obtain ⟨x, t, hcut, rfl⟩ := (hm b).mp rfl
      exact ⟨x, t, hcut, hv⟩
  · rintro ⟨x, t, hcut, hv⟩
    rw [(hm _).mpr ⟨x, t, hcut, rfl⟩]
    exact hv

/-- A value that `rate` may return. -/
def Within (v : ℤ) : Prop := 0 ≤ v ∧ v ≤ 100

/-- The number at the front of a text. Without one the variable keeps its value. -/
def number (t : List Byte) (r : ℤ) : ℤ := (scanInt t).getD r

/-- A number that is in the text is an `int`. -/
def IsInt (t : List Byte) : Prop := ∀ v ∈ scanInt t, -2147483648 ≤ v ∧ v < 2147483648

theorem scanR_iff {v : ℤ} : scanR t r = .ok v ↔ IsInt t ∧ number t r = v := by
  rw [scanR, IsInt, number]
  cases scanInt t with
  | none => simp [pure, Except.pure]
  | some w =>
    by_cases hw : -2147483648 ≤ w ∧ w < 2147483648
    · simp [hw, pure, Except.pure]
    · simp only [hw, if_false, Option.mem_def, Option.some.injEq, forall_eq', false_and, iff_false]
      exact nofun

theorem isInt_of_within (h : Within (number t r)) : IsInt t := by
  intro v hv
  rw [number, Option.mem_def.mp hv, Option.getD_some] at h
  obtain ⟨hle, hge⟩ := h
  omega

theorem lastIdxOf_mem {p : ℕ} (h : lastIdxOf 37 s = some p) : 37 ∈ s := by
  obtain ⟨x, z, rfl, -, -⟩ := lastIdxOf_eq_some h
  simp

theorem percent_iff : (∃ v, percent s r = .ok v ∧ Within v) ↔
    37 ∉ s ∨ ∃ x t, Cut 0 s x t ∧ Within (number t r) := by
  rw [percent]
  cases hp : lastIdxOf 37 s with
  | none => simp [lastIdxOf_eq_none.mp hp, pure, Except.pure, Within]
  | some p =>
    simp only [bind_eq_ok fun b => walkBack_iff hp, scanR_iff, lastIdxOf_mem hp, not_true_eq_false,
      false_or]
    constructor
    · rintro ⟨v, ⟨x, t, hcut, hv⟩, hwithin⟩
      rw [hcut.drop] at hv
      obtain ⟨-, rfl⟩ := hv
      exact ⟨x, t, hcut, hwithin⟩
    · rintro ⟨x, t, hcut, hwithin⟩
      refine ⟨number t r, ⟨x, t, hcut, ?_⟩, hwithin⟩
      rw [hcut.drop]
      exact ⟨isInt_of_within hwithin, rfl⟩

/-- The second search ends, and it finds 99 or 100. -/
theorem percentCut_iff : (∃ v, percentCut s r = .ok v ∧ Within v) ↔
    37 ∉ s ∨ ∃ x t, Cut 1 s x t ∧ IsInt t := by
  rw [percentCut]
  cases hp : lastIdxOf 37 s with
  | none => simp [lastIdxOf_eq_none.mp hp, pure, Except.pure, Within]
  | some p =>
    simp only [bind_eq_ok fun b => walkBack2_iff hp, lastIdxOf_mem hp, not_true_eq_false, false_or]
    constructor
    · rintro ⟨v, ⟨x, t, hcut, hv⟩, -⟩
      rw [hcut.drop] at hv
      cases hr : scanR t r with
      | error e => simp [hr, bind, Except.bind] at hv
      | ok w => exact ⟨x, t, hcut, (scanR_iff.mp hr).1⟩
    · rintro ⟨x, t, hcut, hint⟩
      have hr : scanR t r = .ok (number t r) := scanR_iff.mpr ⟨hint, rfl⟩
      by_cases h : number t r = 100
      · exact ⟨100, ⟨x, t, hcut, by simp [hcut.drop, hr, bind, Except.bind, h, pure, Except.pure]⟩,
          by simp [Within]⟩
      · exact ⟨99, ⟨x, t, hcut, by simp [hcut.drop, hr, bind, Except.bind, h, pure, Except.pure]⟩,
          by simp [Within]⟩

theorem percent2_iff : (∃ v, percent2 s r = .ok v ∧ Within v) ↔
    37 ∉ s ∨ ∃ x t, Cut 1 s x t ∧ Within (number t r) ∧
      (number t r = 100 → 37 ∉ x ∨ ∃ x' t', Cut 1 x x' t' ∧ IsInt t') := by
  rw [percent2]
  cases hp : lastIdxOf 37 s with
  | none => simp [lastIdxOf_eq_none.mp hp, pure, Except.pure, Within]
  | some p =>
    simp only [bind_eq_ok fun b => walkBack2_iff hp, lastIdxOf_mem hp, not_true_eq_false, false_or]
    constructor
    · rintro ⟨v, ⟨x, t, hcut, hv⟩, hwithin⟩
      rw [hcut.drop, hcut.take] at hv
      cases hr : scanR t r with
      | error e => simp [hr, bind, Except.bind] at hv
      | ok w =>
        obtain ⟨-, rfl⟩ := scanR_iff.mp hr
        by_cases h : number t r = 100
        · simp only [hr, bind, Except.bind, h, ne_eq, not_true_eq_false, if_false] at hv
          exact ⟨x, t, hcut, by simp [h, Within], fun _ => percentCut_iff.mp ⟨v, hv, hwithin⟩⟩
        · simp only [hr, bind, Except.bind, ne_eq, h, not_false_eq_true, if_true, pure, Except.pure,
            Except.ok.injEq] at hv
          exact ⟨x, t, hcut, hv ▸ hwithin, fun h' => absurd h' h⟩
    · rintro ⟨x, t, hcut, hwithin, hagain⟩
      have hr : scanR t r = .ok (number t r) := scanR_iff.mpr ⟨isInt_of_within hwithin, rfl⟩
      by_cases h : number t r = 100
      · obtain ⟨v, hv, hwithin'⟩ := percentCut_iff (r := 100) |>.mpr (hagain h)
        exact ⟨v, ⟨x, t, hcut, by simp [hcut.drop, hcut.take, hr, bind, Except.bind, h, hv]⟩,
          hwithin'⟩
      · exact ⟨_, ⟨x, t, hcut, by simp [hcut.drop, hr, bind, Except.bind, h, pure, Except.pure]⟩,
          hwithin⟩

end Percent

section Bounds

/-- The log of `rsync`, as `rate` has it in `result`. It is finished, or has no percentage, or a
blank stands in front of the last one, with a percentage behind it. -/
def CopyLog (s : List Byte) (r : ℤ) : Prop :=
  encode "total size is" <:+: s ∨ 37 ∉ s ∨ ∃ x t, Cut 0 s x t ∧ Within (number t r)

/-- The log of a migration. When the last percentage is 100, the text in front of it has none, or a
blank stands in front of the last one of these, with no number behind it that is too large. -/
def MigrationLog (s : List Byte) (r : ℤ) : Prop :=
  encode "total size is" <:+: s ∨ 37 ∉ s ∨ ∃ x t, Cut 1 s x t ∧ Within (number t r) ∧
    (number t r = 100 → 37 ∉ x ∨ ∃ x' t', Cut 1 x x' t' ∧ IsInt t')

/-- `rate` stays inside of `result`, and its value is a percentage. -/
def InBounds (content : List Byte) (type : ℕ) (r : ℤ) : Prop :=
  ∃ v, rate content type r = .ok v ∧ Within v

/-- The log is loaded, and is finished or searched. -/
theorem loaded_iff {content : List Byte} {f : List Byte → Except Fault ℤ} :
    (∃ v, (load content >>= fun result =>
      if (search (encode "total size is") result).isSome then pure 100 else f result) = .ok v ∧
        Within v) ↔
    Loads content ∧ (encode "total size is" <:+: loaded content ∨
      ∃ v, f (loaded content) = .ok v ∧ Within v) := by
  rw [load_eq]
  by_cases hloads : Loads content
  · by_cases hdone : encode "total size is" <:+: loaded content
    · simp [hloads, search_isSome.mpr hdone, hdone, bind, Except.bind, pure, Except.pure, Within]
    · have hsearch : ¬ (search (encode "total size is") (loaded content)).isSome :=
        mt search_isSome.mp hdone
      simp [hloads, hsearch, hdone, bind, Except.bind]
  · simp [hloads, bind, Except.bind]

/-- `rate` stays in bounds if and only if the log has room, and is one of these. -/
theorem rate_iff (content : List Byte) (r : ℤ) :
    (InBounds content 0 r ↔ Loads content ∧ CopyLog (loaded content) r) ∧
      (InBounds content 1 r ↔ Loads content ∧ MigrationLog (loaded content) r) := by
  constructor
  · rw [CopyLog, ← percent_iff]
    exact loaded_iff
  · rw [MigrationLog, ← percent2_iff]
    exact loaded_iff

/-- A log whose percent sign has no blank in front of it, and one that has no room. -/
theorem percent_unbounded :
    ¬ InBounds (encode "%") 0 0 ∧ ¬ InBounds (List.replicate 65535 32) 1 0 := by
  constructor
  · rintro ⟨v, hv, -⟩
    have hfault : rate (encode "%") 0 0 = .error .segv := by decide
    rw [hfault] at hv
    cases hv
  · intro h
    obtain ⟨hloads, -⟩ := loaded_iff.mp h
    rw [Loads, List.length_replicate] at hloads
    exact absurd hloads (by decide)

end Bounds

end Somenote.Cvm
