import Somenote.Text.Scanners

/-! # The text without its comments

`1-23-rcomment.c` reads a byte directly behind a slash as it is, so that it misses a literal
there. Behind a slash at the end of the input it writes `EOF`.
-/

namespace Somenote.Text.Rcomment

/-- How the program reads its input. -/
def reading : Reading where
  quotes c := c = quote || c = doubleQuote
  plain c := c ≠ slash

/-- What the program writes behind its input. -/
def tail (m : Mode) : List Byte := if m = .slash then [255] else []

/-- The outcome of the program with the input `s` left, read in the mode `m`. -/
def Removed (m : Mode) (s out : List Byte) (o : Out Empty Unit × Stdio) : Prop :=
  if (reading.final m s).outside then
    o = (.ok (), ⟨[], out ++ reading.kept m s ++ tail (reading.final m s)⟩)
  else o.1 = .spin

variable {m m' : Mode} {c : Byte} {s p r w out : List Byte} {o : Out Empty Unit × Stdio} {n k : ℕ}

theorem Removed.cons (hnext : reading.next m c = m') (hput : reading.put m c = w)
    (h : Removed m' s (out ++ w) o) : Removed m (c :: s) out o := by
  rw [Removed, Reading.final_cons, Reading.kept, hnext, hput, ← List.append_assoc out]
  exact h

theorem Removed.leave (hm : m.outside = false) (hl : reading.leave m s = some (p, r))
    (h : Removed .text r (out ++ if m.commented then [] else p) o) : Removed m s out o := by
  rw [Removed, Reading.final_leave hm hl, Reading.kept_leave hm hl, ← List.append_assoc out]
  exact h

theorem removed_of_leave_eq_none (hm : m.outside = false) (hl : reading.leave m s = none)
    (h : o.1 = .spin) : Removed m s out o := by
  rw [Removed, Reading.final_of_leave_eq_none hm hl]
  exact h

/-- The program is right on the texts that are shorter. -/
def Upto (l : ℕ) : Prop :=
  ∀ s out k, s.length < l → s.length + 2 ≤ k → Removed .text s out ((main k).run sem ⟨s, out⟩)

theorem run_comment (hup : Upto s.length) (hn : s.length ≤ n) (hk : s.length + 2 ≤ k) :
    Removed .comment s out ((inComment n >>= fun _ => main k).run sem ⟨s, out⟩) := by
  rcases hl : reading.leave .comment s with _ | ⟨p, r⟩
  · have hrun : (inComment n).run sem ⟨s, out⟩ = (.spin, ⟨[], out⟩) := by
      rw [run_inComment (R := reading) hn, hl]
    exact removed_of_leave_eq_none rfl hl (by rw [Prog.run_bind, hrun])
  · have hrun : (inComment n).run sem ⟨s, out⟩ = (.ok (), ⟨r, out⟩) := by
      rw [run_inComment (R := reading) hn, hl]
    have hlen := Reading.length_leave rfl hl
    rw [Prog.run_bind_ok hrun]
    exact Removed.leave rfl hl (by simpa [Mode.commented] using hup r out k hlen (by omega))

theorem run_quote (hup : Upto s.length) (hn : s.length < n) (hk : s.length + 2 ≤ k) :
    Removed (.literal c) s (out ++ [c])
      ((echoQuote n (some c) >>= fun _ => main k).run sem ⟨s, out⟩) := by
  have hrun : Quoted (fun d => [written d]) (out ++ [c]) (reading.leave (.literal c) s)
      ((echoQuote n (some c)).run sem ⟨s, out⟩) := run_quoteLoop (fun _ _ _ => rfl) hn
  rcases hl : reading.leave (.literal c) s with _ | ⟨p, r⟩
  · rw [hl] at hrun
    obtain ⟨t, hrun, -⟩ := hrun
    exact removed_of_leave_eq_none rfl hl (by rw [Prog.run_bind, hrun])
  · rw [hl] at hrun
    have hlen := Reading.length_leave rfl hl
    rw [Prog.run_bind_ok hrun]
    refine Removed.leave rfl hl ?_
    have hp : (p.flatMap fun b => [written (some b)]) = p := List.flatMap_singleton' p
    rw [hp]
    exact hup r _ k hlen (by omega)

theorem Upto.mono {l l' : ℕ} (h : Upto l) (hl : l' ≤ l) : Upto l' :=
  fun s out k hs hk => h s out k (lt_of_lt_of_le hs hl) hk

theorem run_slash (hup : Upto s.length) (hn : s.length + 2 ≤ n) (hk : s.length + 2 ≤ k) :
    Removed .slash s out ((rcomment n (some slash) >>= fun _ => main k).run sem ⟨s, out⟩) := by
  induction s generalizing n out with
  | nil =>
    obtain ⟨n, rfl⟩ := Nat.exists_eq_add_of_le' (le_trans (Nat.le_add_left 1 _) hn)
    obtain ⟨k, rfl⟩ := Nat.exists_eq_add_of_le' (le_trans (Nat.le_add_left 1 _) hk)
    rw [rcomment, if_pos rfl, Prog.bind_assoc, run_getchar_nil, if_neg (by simp),
      if_neg (by simp), Prog.bind_assoc, run_putchar_bind, run_putchar_bind, main, run_getchar_nil]
    simp [Removed, Reading.kept, Mode.outside, Mode.held, tail, written]
  | cons d s ih =>
    obtain ⟨n, rfl⟩ := Nat.exists_eq_add_of_le' (le_trans (Nat.le_add_left 1 _) hn)
    have hlen : (d :: s).length = s.length + 1 := rfl
    rw [hlen] at hn hk hup
    have hup' : Upto s.length := hup.mono (Nat.le_succ _)
    rw [rcomment, if_pos rfl, Prog.bind_assoc, run_getchar_cons]
    rcases eq_or_ne d star with rfl | hstar
    · rw [if_pos rfl]
      refine Removed.cons (w := []) rfl rfl ?_
      rw [List.append_nil]
      exact run_comment hup' (by omega) (by omega)
    rcases eq_or_ne d slash with rfl | hslash
    · rw [if_neg (by decide), if_pos rfl, Prog.bind_assoc, run_putchar_bind]
      exact Removed.cons rfl rfl (ih hup' (by omega) (by omega))
    · have hnext : reading.next .slash d = .text := by simp [Reading.next, reading, hstar, hslash]
      have hput : reading.put .slash d = [slash, d] := Reading.put_text hnext rfl
      rw [if_neg (by simpa using hstar), if_neg (by simpa using hslash), Prog.bind_assoc,
        run_putchar_bind, run_putchar_bind, List.append_assoc]
      exact Removed.cons hnext hput (hup s _ k (Nat.lt_succ_self _) (by omega))

theorem upto (l : ℕ) : Upto l := by
  induction l with
  | zero => exact fun s _ _ hs => absurd hs (Nat.not_lt_zero _)
  | succ l ih =>
    intro s out k hs hk
    obtain ⟨k, rfl⟩ := Nat.exists_eq_add_of_le' (le_trans (Nat.le_add_left 1 _) hk)
    rcases s with _ | ⟨c, s⟩
    · simp [Removed, Reading.kept, main, Mode.outside, Mode.held, tail]
    have hlen : (c :: s).length = s.length + 1 := rfl
    rw [hlen] at hs hk
    have hup : Upto s.length := ih.mono (by omega)
    rw [main, run_getchar_cons, if_pos (by simp)]
    rcases eq_or_ne c slash with rfl | hslash
    · refine Removed.cons (w := []) rfl rfl ?_
      rw [List.append_nil]
      exact run_slash hup (by omega) (by omega)
    obtain ⟨n, rfl⟩ := Nat.exists_eq_add_of_le' (show 1 ≤ k by omega)
    by_cases hquote : c = quote ∨ c = doubleQuote
    · have hnext : reading.next .text c = .literal c :=
        Reading.start_of_quotes hslash (by simpa [reading] using hquote)
      refine Removed.cons hnext (Reading.put_literal hnext rfl) ?_
      rw [rcomment, if_neg (by simpa using hslash), if_pos (by simpa using hquote)]
      exact run_quote hup (by omega) (by omega)
    · have hnext : reading.next .text c = .text :=
        Reading.start_of_ne hslash (by simpa [reading] using hquote)
      refine Removed.cons hnext (Reading.put_text hnext rfl) ?_
      rw [rcomment, if_neg (by simpa using hslash), if_neg (by simpa using hquote),
        run_putchar_bind]
      exact ih s _ _ (by omega) (by omega)

theorem run_main (hterm : reading.Terminated s) (hk : s.length + 2 ≤ k) :
    (main k).run sem ⟨s, []⟩ =
      (.ok (), ⟨[], reading.kept .text s ++ tail (reading.final .text s)⟩) := by
  have hrun := upto _ s [] k (Nat.lt_succ_self _) hk
  unfold Removed at hrun
  unfold Reading.Terminated at hterm
  rwa [if_pos hterm] at hrun

theorem run_main_spin (hterm : ¬ reading.Terminated s) (hk : s.length + 2 ≤ k) :
    ((main k).run sem ⟨s, []⟩).1 = .spin := by
  have hrun := upto _ s [] k (Nat.lt_succ_self _) hk
  unfold Removed at hrun
  unfold Reading.Terminated at hterm
  rwa [if_neg hterm] at hrun

theorem ends_iff {input : List Byte} : Ends main input ↔ reading.Terminated input := by
  refine ends_iff_of fun k hk => ?_
  split_ifs with hterm
  · rw [run_main hterm hk]
  · exact run_main_spin hterm hk

theorem outputs_iff {input : List Byte} :
    Outputs main input out ↔ reading.Terminated input ∧
      reading.kept .text input ++ tail (reading.final .text input) = out := by
  constructor
  · rintro ⟨N, hN⟩
    obtain ⟨rest, hend⟩ := hN _ (le_max_left N (input.length + 2))
    have hterm : reading.Terminated input := by
      by_contra hterm
      have hspin := run_main_spin hterm (le_max_right N (input.length + 2))
      rw [hend] at hspin
      cases hspin
    rw [run_main hterm (le_max_right N (input.length + 2))] at hend
    cases hend
    exact ⟨hterm, rfl⟩
  · rintro ⟨hterm, rfl⟩
    exact ⟨input.length + 2, fun k hk => ⟨[], run_main hterm hk⟩⟩

/-- No quote opens a literal directly behind a slash. -/
def Spaced (input : List Byte) : Prop :=
  ∀ p c s, input = p ++ c :: s → standard.final .text p = .slash → standard.quotes c = false

theorem next_eq_standard (h : m = .slash → standard.quotes c = false) :
    standard.next m c = reading.next m c := by
  cases m with
  | slash =>
    have hquotes : reading.quotes c = false := h rfl
    rcases eq_or_ne c star with rfl | hstar
    · rfl
    rcases eq_or_ne c slash with rfl | hslash
    · rfl
    simp [Reading.next, hstar, hslash, Reading.start, h rfl, reading]
  | _ => rfl

/-- The program takes the comments out and leaves the rest as it is if its own reading comes to
the same text. With no literal behind a slash, that is so unless a slash ends the input. -/
theorem removal_iff (input : List Byte) (hterm : standard.Terminated input) :
    (Outputs main input (standard.kept .text input) ↔
      reading.Terminated input ∧
        reading.kept .text input ++ tail (reading.final .text input) =
          standard.kept .text input) ∧
    (Spaced input →
      (Outputs main input (standard.kept .text input) ↔
        standard.final .text input ≠ .slash)) := by
  constructor
  · exact outputs_iff
  intro hspaced
  obtain ⟨hfinal, hkept⟩ : standard.final .text input = reading.final .text input ∧
      standard.kept .text input = reading.kept .text input :=
    Reading.agree fun p c s hs => next_eq_standard (hspaced p c s hs)
  have hreading : reading.Terminated input := by
    rw [Reading.Terminated, ← hfinal]
    exact hterm
  rw [outputs_iff, ← hkept, ← hfinal, and_iff_right hreading, List.append_right_eq_self, tail]
  constructor
  · intro h hslash
    rw [if_pos hslash] at h
    cases h
  · exact fun h => if_neg h

/-- A literal behind a slash, with a comment in it. -/
theorem removal_sample :
    standard.Terminated (encode "a/\"/* b */\"") ∧
      (Outputs main (encode "a/\"/* b */\"") (standard.kept .text (encode "a/\"/* b */\"")) ↔
        reading.Terminated (encode "a/\"/* b */\"") ∧
          reading.kept .text (encode "a/\"/* b */\"") ++
              tail (reading.final .text (encode "a/\"/* b */\"")) =
            standard.kept .text (encode "a/\"/* b */\"")) :=
  ⟨by decide, (removal_iff _ (by decide)).1⟩

/-- Behind a slash at the end of the input, `EOF` is written. -/
theorem removal_slash :
    ¬ ∀ input, standard.Terminated input → Outputs main input (standard.kept .text input) := by
  intro hall
  have hout := (outputs_iff.mp (hall [slash] (by decide))).2
  exact absurd hout (by decide)

end Somenote.Text.Rcomment
