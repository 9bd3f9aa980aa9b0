import Somenote.Text.Source

/-! # The shared loops of the scanners

The loop over a comment and the loop over a literal stop where a reading of the text leaves the
comment or the literal. When it is not left, they spin at the end of the input.
-/

namespace Somenote.Text

variable {α : Type} {R : Reading} {f : Chr → Scanner α} {g : Unit → Scanner α} {n : ℕ} {c d : Chr}
  {b q : Byte} {s out : List Byte}

@[simp] theorem run_getchar_cons :
    (getchar >>= f).run sem ⟨b :: s, out⟩ = (f (some b)).run sem ⟨s, out⟩ := rfl

@[simp] theorem run_getchar_nil :
    (getchar >>= f).run sem ⟨[], out⟩ = (f none).run sem ⟨[], out⟩ := rfl

@[simp] theorem run_putchar_bind :
    (putchar c >>= g).run sem ⟨s, out⟩ = (g ()).run sem ⟨s, out ++ [written c]⟩ := rfl

@[simp] theorem run_putchar :
    (putchar c).run sem ⟨s, out⟩ = (.ok (), ⟨s, out ++ [written c]⟩) := rfl

/-- With enough fuel, the program ends. -/
def Ends (main : ℕ → Scanner Unit) (input : List Byte) : Prop :=
  ∃ N, ∀ k, N ≤ k → ((main k).run sem ⟨input, []⟩).1 = .ok ()

theorem ends_iff_of {main : ℕ → Scanner Unit} {input : List Byte} {P : Prop} [Decidable P]
    (h : ∀ k, input.length + 2 ≤ k →
      ((main k).run sem ⟨input, []⟩).1 = if P then .ok () else .spin) : Ends main input ↔ P := by
  constructor
  · rintro ⟨N, hN⟩
    by_contra hP
    have hspin := h _ (le_max_right N (input.length + 2))
    rw [hN _ (le_max_left N (input.length + 2)), if_neg hP] at hspin
    cases hspin
  · intro hP
    exact ⟨input.length + 2, fun k hk => by rw [h k hk, if_pos hP]⟩

/-- With enough fuel, the program ends and its output is `out`. -/
def Outputs (main : ℕ → Scanner Unit) (input out : List Byte) : Prop :=
  ∃ N, ∀ k, N ≤ k → ∃ rest, (main k).run sem ⟨input, []⟩ = (.ok (), ⟨rest, out⟩)

/-- The mode behind a character of a comment. -/
def commentMode (c : Chr) : Mode := if c = some star then .star else .comment

theorem next_commentMode :
    R.next (commentMode c) b =
      if c = some star ∧ b = slash then .text else commentMode (some b) := by
  rcases eq_or_ne c (some star) with rfl | hc
  · simp [commentMode, Reading.next]
  · simp [commentMode, Reading.next, hc]

theorem commentMode_ne_text : commentMode c ≠ .text := by
  rw [commentMode]
  split <;> exact Mode.noConfusion

/-- At the end of the input, the loop over a comment never ends. -/
theorem run_commentLoop_none :
    (commentLoop n c none).run sem ⟨[], out⟩ = (.spin, ⟨[], out⟩) := by
  induction n generalizing c with
  | zero => rfl
  | succ n ih =>
    rw [commentLoop, if_pos (Or.inr (Option.some_ne_none slash).symm), run_getchar_nil]
    exact ih

theorem run_commentLoop (hn : s.length ≤ n) :
    (getchar >>= commentLoop n c).run sem ⟨s, out⟩ =
      match R.leave (commentMode c) s with
      | some x => (.ok (), ⟨x.2, out⟩)
      | none => (.spin, ⟨[], out⟩) := by
  induction s generalizing n c with
  | nil => exact run_commentLoop_none
  | cons b s ih =>
    obtain ⟨n, rfl⟩ := Nat.exists_eq_add_of_le' (le_trans (Nat.le_add_left 1 _) hn)
    rw [run_getchar_cons, commentLoop]
    by_cases h : c = some star ∧ b = slash
    · obtain ⟨rfl, rfl⟩ := h
      rw [Reading.leave_cons_text (by rw [next_commentMode]; simp)]
      simp
    · have hnext : R.next (commentMode c) b = commentMode (some b) := by
        rw [next_commentMode, if_neg h]
      have hgo : c ≠ some star ∨ some b ≠ some slash := by
        rw [← not_and_or, Option.some_inj]
        exact h
      rw [if_pos hgo, ih (Nat.le_of_succ_le_succ hn),
        Reading.leave_cons (by rw [hnext]; exact commentMode_ne_text), hnext]
      cases R.leave (commentMode (some b)) s <;> rfl

theorem run_inComment (hn : s.length ≤ n) :
    (inComment n).run sem ⟨s, out⟩ =
      match R.leave .comment s with
      | some x => (.ok (), ⟨x.2, out⟩)
      | none => (.spin, ⟨[], out⟩) := by
  rw [inComment]
  cases s with
  | nil => exact run_commentLoop_none
  | cons b s =>
    have hnext : R.next .comment b = commentMode (some b) := by simp [Reading.next, commentMode]
    rw [run_getchar_cons, run_commentLoop (le_trans (Nat.le_succ _) hn),
      Reading.leave_cons (by rw [hnext]; exact commentMode_ne_text), hnext]
    cases R.leave (commentMode (some b)) s <;> rfl

section Quote

variable {echo : Chr → Scanner Unit} {w : Chr → List Byte}

/-- The outcome of the loop over a literal that is left as `x`: the literal is echoed and the rest
of the input is still to be read, or the loop spins, and nothing is echoed if no character is. -/
def Quoted (w : Chr → List Byte) (out : List Byte) (x : Option (List Byte × List Byte))
    (o : Out Empty Unit × Stdio) : Prop :=
  match x with
  | some x => o = (.ok (), ⟨x.2, out ++ x.1.flatMap fun b => w (some b)⟩)
  | none => ∃ t, o = (.spin, ⟨[], out ++ t⟩) ∧ ((∀ d, w d = []) → t = [])

theorem Quoted.cons {x : Option (List Byte × List Byte)} {o : Out Empty Unit × Stdio}
    (h : Quoted w (out ++ w (some b)) x o) :
    Quoted w out (x.map fun x => (b :: x.1, x.2)) o := by
  cases x with
  | some x =>
    rw [Quoted] at h
    rw [h, List.append_assoc]
    rfl
  | none =>
    obtain ⟨t, rfl, ht⟩ := h
    refine ⟨w (some b) ++ t, by rw [List.append_assoc], fun hw => ?_⟩
    rw [hw, ht hw]
    rfl

variable (hecho : ∀ d s out, (echo d).run sem ⟨s, out⟩ = (.ok (), ⟨s, out ++ w d⟩))
include hecho

theorem run_quoteLoop_nil :
    Quoted w out none ((quoteLoop echo n (some q)).run sem ⟨[], out⟩) := by
  induction n generalizing out with
  | zero => exact ⟨[], by simp [quoteLoop], fun _ => rfl⟩
  | succ n ih =>
    obtain ⟨t, hrun, ht⟩ : Quoted w (out ++ w none) none
        ((quoteLoop echo n (some q)).run sem ⟨[], out ++ w none⟩) := ih
    refine ⟨w none ++ t, ?_, fun hw => by rw [hw, ht hw]; rfl⟩
    rw [quoteLoop, run_getchar_nil, if_pos (by simp), Prog.run_bind_ok (hecho _ _ _),
      if_neg (by simp), hrun, List.append_assoc]

theorem run_quoteLoop (hn : s.length < n) :
    Quoted w out (R.leave (.literal q) s) ((quoteLoop echo n (some q)).run sem ⟨s, out⟩) := by
  induction n generalizing s out with
  | zero => omega
  | succ n ih =>
    rcases s with _ | ⟨b, s⟩
    · exact run_quoteLoop_nil hecho
    have hs : s.length < n := Nat.lt_of_succ_lt_succ hn
    rw [quoteLoop, run_getchar_cons]
    rcases eq_or_ne b q with rfl | hb
    · rw [Reading.leave_cons_text (by simp [Reading.next])]
      simp [hecho, Quoted]
    rw [if_pos (by simpa using hb), Prog.run_bind_ok (hecho _ _ _)]
    rcases eq_or_ne b backslash with rfl | hesc
    · -- The character behind a backslash is taken as it is.
      have hnext : R.next (.literal q) backslash = .escape q := by simp [Reading.next, hb]
      rw [if_pos rfl, Reading.leave_cons (by rw [hnext]; exact Mode.noConfusion), hnext]
      apply Quoted.cons
      rcases s with _ | ⟨e, s⟩
      · obtain ⟨t, hrun, ht⟩ : Quoted w (out ++ w (some backslash) ++ w none) none
            ((quoteLoop echo n (some q)).run sem ⟨[], out ++ w (some backslash) ++ w none⟩) :=
          run_quoteLoop_nil hecho
        rw [run_getchar_nil, Prog.run_bind_ok (hecho _ _ _), hrun, List.append_assoc]
        exact ⟨w none ++ t, rfl, fun hw => by rw [hw, ht hw]; rfl⟩
      · rw [run_getchar_cons, Prog.run_bind_ok (hecho _ _ _), Reading.leave_cons Mode.noConfusion]
        exact Quoted.cons (ih (Nat.lt_of_succ_lt hs))
    · have hnext : R.next (.literal q) b = .literal q := by simp [Reading.next, hb, hesc]
      rw [if_neg (by simpa using hesc), Reading.leave_cons (by rw [hnext]; exact Mode.noConfusion),
        hnext]
      exact Quoted.cons (ih hs)

end Quote

end Somenote.Text
