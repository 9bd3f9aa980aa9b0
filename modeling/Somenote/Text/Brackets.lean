import Mathlib.Algebra.Order.Group.Int
import Mathlib.Data.List.Infix
import Somenote.Text.Comments

/-! # Brackets

`1-24-checkgrammer.c` knows one quote only, since its test for the other one is a second test for
a slash, and it only counts a byte directly behind a slash.
-/

namespace Somenote.Text

namespace Checkgrammer

inductive Kind | brace | brack | paren
  deriving DecidableEq, Repr

/-- One for an opening bracket and minus one for a closing bracket of the kind. -/
def Kind.weight : Kind → Byte → ℤ
  | brace, c => if c = 123 then 1 else if c = 125 then -1 else 0
  | brack, c => if c = 91 then 1 else if c = 93 then -1 else 0
  | paren, c => if c = 40 then 1 else if c = 41 then -1 else 0

/-- No prefix has more closing than opening brackets of a kind, and the totals are equal. -/
def Balanced (R : Reading) (input : List Byte) : Prop :=
  ∀ κ : Kind, (∀ p, p <+: input → 0 ≤ R.weigh κ.weight .text p) ∧ R.weigh κ.weight .text input = 0

/-- How the program reads its input. -/
def reading : Reading where
  quotes c := c = doubleQuote
  plain _ := true

def Counts.of (n : Counts) : Kind → ℤ
  | .brace => n.brace
  | .brack => n.brack
  | .paren => n.paren

/-- The check behind a turn: the counters, and what it prints. -/
def checked (n : Counts) : Counts × List Byte :=
  if n.brace < 0 then ({ n with brace := 0 }, encode "unbalanced braces 1 \n")
  else if n.brack < 0 then ({ n with brack := 0 }, encode "unbalanced bracks 1 \n")
  else if n.paren < 0 then ({ n with paren := 0 }, encode "unbalanced paren 1 \n")
  else (n, [])

/-- What the check behind the loop prints. -/
def leftover (n : Counts) : List Byte :=
  (if n.brace > 0 then encode "unbalanced braces \n" else []) ++
    (if n.brack > 0 then encode "unbalanced bracks \n" else []) ++
    (if n.paren > 0 then encode "unbalanced paren \n" else [])

/-- A turn of the loop on a byte that is counted. -/
def turn (c : Byte) (n : Counts) : Counts × List Byte := checked (search (some c) n)

/-- A byte that is read in the mode `m`. -/
def count (m : Mode) (c : Byte) (n : Counts) : Counts × List Byte :=
  if m.outside then turn c n else (n, [])

/-- The counters behind a text, and what is printed until then. -/
def tally : Counts → Mode → List Byte → Counts × List Byte
  | n, _, [] => (n, [])
  | n, m, c :: s =>
    let x := count m c n
    let y := tally x.1 (reading.next m c) s
    (y.1, x.2 ++ y.2)

/-- The counters are `int`s and not negative. -/
def Counts.Small (n : Counts) : Prop := ∀ κ, 0 ≤ n.of κ ∧ n.of κ < 2 ^ 31

variable {κ : Kind} {m m' : Mode} {c : Byte} {n : Counts} {s p r out : List Byte}
  {o : Out Empty Unit × Stdio} {k l : ℕ}

theorem run_checkRight :
    (checkRight n).run sem ⟨s, out⟩ = (.ok (checked n).1, ⟨s, out ++ (checked n).2⟩) := by
  simp only [checkRight, checked]
  split_ifs <;> simp [printf, sem]

theorem run_checkLeft :
    (checkLeft n).run sem ⟨s, out⟩ = (.ok (), ⟨s, out ++ leftover n⟩) := by
  simp only [checkLeft, leftover]
  split_ifs <;> simp [printf, sem]

section Turn

theorem checked_of_nonneg (h : ∀ κ, 0 ≤ n.of κ) : checked n = (n, []) := by
  have hbrace := h .brace
  have hbrack := h .brack
  have hparen := h .paren
  simp only [Counts.of] at hbrace hbrack hparen
  rw [checked, if_neg (not_lt.mpr hbrace), if_neg (not_lt.mpr hbrack), if_neg (not_lt.mpr hparen)]

theorem checked_eq_nil : (checked n).2 = [] ↔ ∀ κ, 0 ≤ n.of κ := by
  constructor
  · intro h
    unfold checked at h
    split_ifs at h
    · exact absurd (show encode "unbalanced braces 1 \n" = [] from h) (by decide)
    · exact absurd (show encode "unbalanced bracks 1 \n" = [] from h) (by decide)
    · exact absurd (show encode "unbalanced paren 1 \n" = [] from h) (by decide)
    · intro κ
      cases κ <;> simp only [Counts.of] <;> omega
  · intro h
    rw [checked_of_nonneg h]

theorem search_of (hn : n.Small) : (search (some c) n).of κ = toInt (n.of κ + κ.weight c) := by
  have hkeep : ∀ κ, toInt (n.of κ) = n.of κ := fun κ =>
    toInt_eq (by have := (hn κ).1; omega) (hn κ).2
  have hbrace := hkeep .brace
  have hbrack := hkeep .brack
  have hparen := hkeep .paren
  simp only [Counts.of] at hbrace hbrack hparen
  simp only [search, Option.some.injEq]
  split_ifs with h1 h2 h3 h4 h5 h6
  all_goals cases κ
  all_goals simp_all [Counts.of, Kind.weight, Int.sub_eq_add_neg]

theorem toInt_nonneg_iff {x : ℤ} (hl : -1 ≤ x) (hu : x ≤ 2 ^ 31) :
    0 ≤ toInt x ↔ 0 ≤ x ∧ x < 2 ^ 31 := by
  rcases hu.lt_or_eq with hlt | rfl
  · rw [toInt_eq (by omega) hlt]
    exact (and_iff_left hlt).symm
  · decide

theorem weight_bounds : -1 ≤ κ.weight c ∧ κ.weight c ≤ 1 := by
  cases κ <;> simp only [Kind.weight] <;> split_ifs <;> decide

theorem weight_unique (c : Byte) : ∃ κ₀ : Kind, ∀ κ ≠ κ₀, κ.weight c = 0 := by
  by_cases hbrace : c = 123 ∨ c = 125
  · refine ⟨.brace, fun κ hκ => ?_⟩
    rcases hbrace with rfl | rfl <;> cases κ <;> first | exact absurd rfl hκ | rfl
  by_cases hbrack : c = 91 ∨ c = 93
  · refine ⟨.brack, fun κ hκ => ?_⟩
    rcases hbrack with rfl | rfl <;> cases κ <;> first | exact absurd rfl hκ | rfl
  rw [not_or] at hbrace hbrack
  refine ⟨.paren, fun κ hκ => ?_⟩
  cases κ with
  | brace => rw [Kind.weight, if_neg hbrace.1, if_neg hbrace.2]
  | brack => rw [Kind.weight, if_neg hbrack.1, if_neg hbrack.2]
  | paren => exact absurd rfl hκ

theorem turn_eq_nil (hn : n.Small) :
    (turn c n).2 = [] ↔ ∀ κ, 0 ≤ n.of κ + κ.weight c ∧ n.of κ + κ.weight c < 2 ^ 31 := by
  rw [turn, checked_eq_nil]
  refine forall_congr' fun κ => ?_
  have hsmall := hn κ
  have hweight := weight_bounds (κ := κ) (c := c)
  rw [search_of hn, toInt_nonneg_iff (by omega) (by omega)]

theorem turn_of (hn : n.Small) (h : (turn c n).2 = []) :
    (turn c n).1.of κ = n.of κ + κ.weight c := by
  have hκ := (turn_eq_nil hn).mp h κ
  rw [turn, checked_of_nonneg (checked_eq_nil.mp h), search_of hn,
    toInt_eq (le_trans (by decide) hκ.1) hκ.2]

/-- With one negative counter at most, the check sets it to zero. -/
theorem checked_of {κ₀ : Kind} (h : ∀ κ ≠ κ₀, 0 ≤ n.of κ) :
    (checked n).1.of κ = max (n.of κ) 0 := by
  have hbrace : κ₀ ≠ .brace → 0 ≤ n.brace := fun hne => h .brace hne.symm
  have hbrack : κ₀ ≠ .brack → 0 ≤ n.brack := fun hne => h .brack hne.symm
  have hparen : κ₀ ≠ .paren → 0 ≤ n.paren := fun hne => h .paren hne.symm
  simp only [checked]
  cases κ₀ <;> simp at hbrace hbrack hparen <;> split_ifs <;> cases κ <;>
    simp only [Counts.of] <;> omega

theorem turn_small (hn : n.Small) : (turn c n).1.Small := by
  obtain ⟨κ₀, h₀⟩ := weight_unique c
  have hsearch : ∀ κ ≠ κ₀, 0 ≤ (search (some c) n).of κ := by
    intro κ hκ
    have hsmall := hn κ
    rw [search_of hn, h₀ κ hκ, Int.add_zero, toInt_eq (by omega) hsmall.2]
    exact hsmall.1
  intro κ
  have hlt : (search (some c) n).of κ < 2 ^ 31 := by
    rw [search_of hn]
    exact toInt_lt _
  rw [turn, checked_of hsearch]
  omega

theorem turn_of_search (hn : n.Small) (h : search (some c) n = n) : turn c n = (n, []) := by
  rw [turn, h, checked_of_nonneg fun κ => (hn κ).1]

end Turn

section Tally

theorem count_small (hn : n.Small) : (count m c n).1.Small := by
  rw [count]
  split
  · exact turn_small hn
  · exact hn

theorem count_eq_nil (hn : n.Small) : (count m c n).2 = [] ↔ ∀ κ : Kind,
    0 ≤ n.of κ + (if m.outside then κ.weight c else 0) ∧
      n.of κ + (if m.outside then κ.weight c else 0) < 2 ^ 31 := by
  rw [count]
  split
  · exact turn_eq_nil hn
  · exact iff_of_true rfl fun κ => by simpa using hn κ

theorem count_of (hn : n.Small) (h : (count m c n).2 = []) :
    (count m c n).1.of κ = n.of κ + if m.outside then κ.weight c else 0 := by
  unfold count at h ⊢
  split_ifs at h ⊢
  · exact turn_of hn h
  · exact (Int.add_zero _).symm

theorem tally_eq_nil (hn : n.Small) :
    (tally n m s).2 = [] ↔ ∀ κ p, p <+: s →
      0 ≤ n.of κ + reading.weigh (Kind.weight κ) m p ∧
        n.of κ + reading.weigh (Kind.weight κ) m p < 2 ^ 31 := by
  induction s generalizing n m with
  | nil =>
    refine iff_of_true rfl fun κ p hp => ?_
    rw [List.prefix_nil.mp hp, Reading.weigh, Int.add_zero]
    exact hn κ
  | cons c s ih =>
    rw [tally, List.append_eq_nil_iff, ih (count_small hn), count_eq_nil hn]
    constructor
    · rintro ⟨hc, hs⟩ κ p hp
      rcases List.prefix_cons_iff.mp hp with rfl | ⟨q, rfl, hq⟩
      · rw [Reading.weigh, Int.add_zero]
        exact hn κ
      · have hκ := hs κ q hq
        rwa [count_of hn ((count_eq_nil hn).mpr hc), Int.add_assoc] at hκ
    · intro h
      have hc : ∀ κ : Kind, 0 ≤ n.of κ + (if m.outside then κ.weight c else 0) ∧
          n.of κ + (if m.outside then κ.weight c else 0) < 2 ^ 31 := by
        intro κ
        have hκ := h κ [c] (List.prefix_append [c] s)
        rwa [Reading.weigh, Reading.weigh, Int.add_zero] at hκ
      refine ⟨hc, fun κ p hp => ?_⟩
      rw [count_of hn ((count_eq_nil hn).mpr hc), Int.add_assoc]
      exact h κ (c :: p) (List.cons_prefix_cons.mpr ⟨rfl, hp⟩)

theorem tally_of (hn : n.Small) (h : (tally n m s).2 = []) :
    (tally n m s).1.of κ = n.of κ + reading.weigh κ.weight m s := by
  induction s generalizing n m with
  | nil => exact (Int.add_zero _).symm
  | cons c s ih =>
    obtain ⟨hc, hs⟩ := List.append_eq_nil_iff.mp h
    rw [tally, ih (count_small hn) hs, count_of hn hc, Int.add_assoc, Reading.weigh]

theorem tally_cons_of_eq (h : count m c n = (n, [])) :
    tally n m (c :: s) = tally n (reading.next m c) s := by
  rw [tally, h]
  rfl

theorem count_inside (hm : m.outside = false) : count m c n = (n, []) := by
  rw [count, hm]
  rfl

theorem tally_leave (hm : m.outside = false) (h : reading.leave m s = some (p, r)) :
    tally n m s = tally n .text r := by
  refine Reading.leave_induct (P := fun m s _ r => tally n m s = tally n .text r) ?_ ?_ hm h
  · intro m c s hm hnext
    rw [tally_cons_of_eq (count_inside hm), hnext]
  · intro m c s p r hm _ ih
    rw [tally_cons_of_eq (count_inside hm), ih]

theorem tally_of_leave_eq_none (hm : m.outside = false) (h : reading.leave m s = none) :
    tally n m s = (n, []) := by
  refine Reading.leave_none_induct (P := fun m s => tally n m s = (n, [])) ?_ ?_ hm h
  · exact fun _ _ => rfl
  · intro m c s hm ih
    rw [tally_cons_of_eq (count_inside hm), ih]

end Tally

section Run

/-- The outcome of the loop with the input `s` left, read in the mode `m`. -/
def Judged (m : Mode) (s out : List Byte) (n : Counts) (o : Out Empty Unit × Stdio) : Prop :=
  if (reading.final m s).outside then
    o = (.ok (), ⟨[], out ++ (tally n m s).2 ++ leftover (tally n m s).1⟩)
  else o = (.spin, ⟨[], out ++ (tally n m s).2⟩)

theorem Judged.pass (hc : count m c n = (n, [])) (hnext : reading.next m c = m')
    (h : Judged m' s out n o) : Judged m (c :: s) out n o := by
  rw [Judged, Reading.final_cons, tally_cons_of_eq hc, hnext]
  exact h

theorem Judged.turn (hm : m.outside = true) (hnext : reading.next m c = m')
    (h : Judged m' s (out ++ (turn c n).2) (turn c n).1 o) : Judged m (c :: s) out n o := by
  have hc : count m c n = Checkgrammer.turn c n := by rw [count, if_pos hm]
  rw [Judged, Reading.final_cons, tally, hc, hnext, ← List.append_assoc out]
  exact h

theorem Judged.leave (hm : m.outside = false) (hl : reading.leave m s = some (p, r))
    (h : Judged .text r out n o) : Judged m s out n o := by
  rw [Judged, Reading.final_leave hm hl, tally_leave hm hl]
  exact h

theorem judged_of_leave_eq_none (hm : m.outside = false) (hl : reading.leave m s = none)
    (h : o = (.spin, ⟨[], out⟩)) : Judged m s out n o := by
  rw [Judged, Reading.final_of_leave_eq_none hm hl, tally_of_leave_eq_none hm hl]
  simpa using h

/-- The loop is right on the texts that are shorter. -/
def Upto (l : ℕ) : Prop :=
  ∀ s out n k, s.length < l → n.Small → s.length + 2 ≤ k →
    Judged .text s out n ((loop k n).run sem ⟨s, out⟩)

theorem Upto.mono (h : Upto l) (hl : k ≤ l) : Upto k :=
  fun s out n _ hs => h s out n _ (lt_of_lt_of_le hs hl)

theorem run_pass (hn : n.Small) :
    (checkRight n >>= loop k).run sem ⟨s, out⟩ = (loop k n).run sem ⟨s, out⟩ := by
  rw [Prog.run_bind_ok run_checkRight, checked_of_nonneg fun κ => (hn κ).1, List.append_nil]

theorem run_skip {skip : Scanner Unit} (hup : Upto s.length) (hn : n.Small)
    (hk : s.length + 2 ≤ k) (hm : m.outside = false)
    (hrun : match reading.leave m s with
      | some x => skip.run sem ⟨s, out⟩ = (.ok (), ⟨x.2, out⟩)
      | none => skip.run sem ⟨s, out⟩ = (.spin, ⟨[], out⟩)) :
    Judged m s out n
      ((skip >>= fun _ => pure n >>= fun n => checkRight n >>= loop k).run sem ⟨s, out⟩) := by
  rcases hl : reading.leave m s with _ | ⟨p, r⟩
  · rw [hl] at hrun
    exact judged_of_leave_eq_none hm hl (by rw [Prog.run_bind, hrun])
  · rw [hl] at hrun
    have hlen := Reading.length_leave hm hl
    rw [Prog.run_bind_ok hrun, Prog.pure_eq, Prog.ret_bind, run_pass hn]
    exact Judged.leave hm hl (hup r out n k hlen hn (by omega))

/-- A turn on a byte that is counted. -/
theorem run_turn (hup : Upto (s.length + 1)) (hn : n.Small) (hk : s.length + 2 ≤ k)
    (hm : m.outside = true) (hnext : reading.next m c = .text) :
    Judged m (c :: s) out n
      ((pure (search (some c) n) >>= fun n => checkRight n >>= loop k).run sem ⟨s, out⟩) := by
  rw [Prog.pure_eq, Prog.ret_bind, Prog.run_bind_ok run_checkRight]
  exact Judged.turn hm hnext (hup s _ _ k (Nat.lt_succ_self _) (turn_small hn) hk)

theorem run_end (hm : m.outside = true) :
    Judged m [] out n ((loop (k + 1) n).run sem ⟨[], out⟩) := by
  rw [loop, run_getchar_nil, if_neg (by simp), run_checkLeft]
  simp [Judged, tally, hm]

theorem skip_comment (hk : s.length ≤ k) : match reading.leave .comment s with
    | some x => (inComment k).run sem ⟨s, out⟩ = (.ok (), ⟨x.2, out⟩)
    | none => (inComment k).run sem ⟨s, out⟩ = (.spin, ⟨[], out⟩) := by
  rw [run_inComment (R := reading) hk]
  cases reading.leave .comment s <;> rfl

theorem skip_quote (hk : s.length < k) : match reading.leave (.literal c) s with
    | some x => (inQuote k (some c)).run sem ⟨s, out⟩ = (.ok (), ⟨x.2, out⟩)
    | none => (inQuote k (some c)).run sem ⟨s, out⟩ = (.spin, ⟨[], out⟩) := by
  have hrun : Quoted (fun _ => []) out (reading.leave (.literal c) s)
      ((inQuote k (some c)).run sem ⟨s, out⟩) :=
    run_quoteLoop (fun _ _ _ => by simp) hk
  rcases hl : reading.leave (.literal c) s with _ | x <;> rw [hl] at hrun
  · obtain ⟨t, hrun, ht⟩ := hrun
    rw [hrun, ht fun _ => rfl, List.append_nil]
  · rw [Quoted] at hrun
    rw [hrun]
    simp

theorem upto (l : ℕ) : Upto l := by
  induction l with
  | zero => exact fun s _ _ _ hs => absurd hs (Nat.not_lt_zero _)
  | succ l ih =>
    intro s out n k hs hn hk
    obtain ⟨k, rfl⟩ := Nat.exists_eq_add_of_le' (le_trans (Nat.le_add_left 1 _) hk)
    rcases s with _ | ⟨c, s⟩
    · exact run_end rfl
    rw [List.length_cons] at hs hk
    rw [loop, run_getchar_cons, if_pos (by simp), scan]
    rcases eq_or_ne c slash with rfl | hslash
    · have hcount : count .text slash n = (n, []) := turn_of_search hn rfl
      have hnext : reading.next .text slash = .slash := rfl
      rw [if_pos rfl, Prog.bind_assoc]
      refine Judged.pass hcount hnext ?_
      rcases s with _ | ⟨d, s⟩
      · obtain ⟨k, rfl⟩ := Nat.exists_eq_add_of_le' (show 1 ≤ k by omega)
        rw [run_getchar_nil, if_neg (by simp), Prog.pure_eq, Prog.ret_bind]
        exact (run_pass hn).symm ▸ run_end rfl
      rw [List.length_cons] at hs hk
      rw [run_getchar_cons]
      rcases eq_or_ne d star with rfl | hstar
      · have hcount' : count .slash star n = (n, []) := turn_of_search hn rfl
        have hnext' : reading.next .slash star = .comment := rfl
        rw [if_pos rfl, Prog.bind_assoc]
        exact Judged.pass hcount' hnext' (run_skip (ih.mono (by omega)) hn (by omega) rfl
          (skip_comment (by omega)))
      · rw [if_neg (by simpa using hstar)]
        exact run_turn (ih.mono (by omega)) hn (by omega) rfl
          (by simp [Reading.next, hstar, reading])
    by_cases hquote : c = doubleQuote
    · subst hquote
      have hcount : count .text doubleQuote n = (n, []) := turn_of_search hn rfl
      have hnext : reading.next .text doubleQuote = .literal doubleQuote := rfl
      rw [if_neg (by simpa using hslash), if_pos (by simp), Prog.bind_assoc]
      exact Judged.pass hcount hnext (run_skip (ih.mono (by omega)) hn (by omega) rfl
        (skip_quote (by omega)))
    · rw [if_neg (by simpa using hslash), if_neg (by simpa using ⟨hslash, hquote⟩)]
      exact run_turn (ih.mono (by omega)) hn (by omega) rfl
        (Reading.start_of_ne hslash (by simpa [reading] using hquote))

theorem small_zero : Counts.Small ⟨0, 0, 0⟩ := fun κ => by cases κ <;> decide

theorem of_zero : Counts.of ⟨0, 0, 0⟩ κ = 0 := by cases κ <;> rfl

/-- The counters and the messages at the end of the input. -/
def verdict (input : List Byte) : Counts × List Byte := tally ⟨0, 0, 0⟩ .text input

theorem run_main {input : List Byte} (hterm : reading.Terminated input)
    (hk : input.length + 2 ≤ k) : (main k).run sem ⟨input, []⟩ =
      (.ok (), ⟨[], (verdict input).2 ++ leftover (verdict input).1⟩) := by
  have hrun := upto _ input [] _ k (Nat.lt_succ_self _) small_zero hk
  unfold Judged at hrun
  unfold Reading.Terminated at hterm
  rwa [if_pos hterm] at hrun

theorem run_main_spin {input : List Byte} (hterm : ¬ reading.Terminated input)
    (hk : input.length + 2 ≤ k) :
    (main k).run sem ⟨input, []⟩ = (.spin, ⟨[], (verdict input).2⟩) := by
  have hrun := upto _ input [] _ k (Nat.lt_succ_self _) small_zero hk
  unfold Judged at hrun
  unfold Reading.Terminated at hterm
  rwa [if_neg hterm] at hrun

theorem ends_iff {input : List Byte} : Ends main input ↔ reading.Terminated input := by
  refine ends_iff_of fun k hk => ?_
  split_ifs with hterm
  · rw [run_main hterm hk]
  · rw [run_main_spin hterm hk]

end Run

/-- With enough fuel, nothing is printed. -/
def Silent (input : List Byte) : Prop :=
  ∃ N, ∀ k, N ≤ k → ((main k).run sem ⟨input, []⟩).2.stdout = []

/-- The brackets that the program counts stay in the range of its counters, and none is left at
the end if the program gets there. -/
def Passes (input : List Byte) : Prop :=
  (∀ (κ : Kind) p, p <+: input →
      0 ≤ reading.weigh κ.weight .text p ∧ reading.weigh κ.weight .text p < 2 ^ 31) ∧
    (reading.Terminated input → ∀ κ : Kind, reading.weigh κ.weight .text input = 0)

theorem leftover_eq_nil (hn : ∀ κ, 0 ≤ n.of κ) : leftover n = [] ↔ ∀ κ, n.of κ = 0 := by
  have hwarn : ∀ (x : ℤ) (t : List Byte), 0 ≤ x → t ≠ [] →
      ((if x > 0 then t else []) = [] ↔ x = 0) := by
    intro x t hx ht
    split_ifs with hpos
    · exact iff_of_false ht (by omega)
    · exact iff_of_true rfl (by omega)
  rw [leftover, List.append_eq_nil_iff, List.append_eq_nil_iff,
    hwarn n.brace _ (hn .brace) (by decide), hwarn n.brack _ (hn .brack) (by decide),
    hwarn n.paren _ (hn .paren) (by decide)]
  constructor
  · rintro ⟨⟨hbrace, hbrack⟩, hparen⟩ κ
    cases κ with
    | brace => exact hbrace
    | brack => exact hbrack
    | paren => exact hparen
  · exact fun h => ⟨⟨h .brace, h .brack⟩, h .paren⟩

theorem stdout_main {input : List Byte} (hk : input.length + 2 ≤ k) :
    ((main k).run sem ⟨input, []⟩).2.stdout = [] ↔ Passes input := by
  have hnil : (verdict input).2 = [] ↔ ∀ (κ : Kind) p, p <+: input →
      0 ≤ reading.weigh κ.weight .text p ∧ reading.weigh κ.weight .text p < 2 ^ 31 := by
    simpa only [verdict, of_zero, Int.zero_add] using
      tally_eq_nil (m := .text) (s := input) small_zero
  have hof : (verdict input).2 = [] →
      ∀ κ, (verdict input).1.of κ = reading.weigh κ.weight .text input := by
    intro h κ
    rw [verdict, tally_of small_zero h, of_zero, Int.zero_add]
  rw [Passes, ← hnil]
  by_cases hterm : reading.Terminated input
  · rw [run_main hterm hk, List.append_eq_nil_iff, forall_prop_of_true hterm]
    refine and_congr_right fun h => ?_
    rw [leftover_eq_nil, forall_congr' fun κ => by rw [hof h κ]]
    intro κ
    rw [hof h κ]
    exact (hnil.mp h κ input (List.prefix_refl _)).1
  · rw [run_main_spin hterm hk]
    exact (and_iff_left fun h => absurd h hterm).symm

theorem silent_iff {input : List Byte} : Silent input ↔ Passes input := by
  constructor
  · rintro ⟨N, hN⟩
    exact (stdout_main (le_max_right N _)).mp (hN _ (le_max_left N (input.length + 2)))
  · intro h
    exact ⟨input.length + 2, fun k hk => (stdout_main hk).mpr h⟩

end Checkgrammer

end Somenote.Text
