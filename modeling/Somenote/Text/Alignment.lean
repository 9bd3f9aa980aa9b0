import Somenote.Text.Brackets

/-! # The two readings

`1-24-checkgrammer.c` reads a text in the mode it is to be read in as long as no byte leads it off.
Then it is silent on the balanced texts only. Both scanners end where their own reading does.
-/

namespace Somenote.Text

namespace Checkgrammer

variable {κ : Kind} {m m' : Mode} {c : Byte} {s : List Byte}

section Aligned

/-- The byte leads the program's mode `m'` off the mode `m`: a literal opens directly behind a
slash, a comment opens at a slash that the program took for the byte behind a slash, or a
character literal holds a bracket, a double quote or a slash. -/
def Slip (m m' : Mode) (c : Byte) : Prop :=
  match m, m' with
  | .slash, .slash => c = doubleQuote
  | .slash, .text => c = star
  | .literal _, .text => c = slash ∨ c = doubleQuote ∨ ∃ κ : Kind, κ.weight c ≠ 0
  | .escape _, .text => c = slash ∨ c = doubleQuote ∨ ∃ κ : Kind, κ.weight c ≠ 0
  | _, _ => False

/-- No byte leads the program off. -/
def Aligned (input : List Byte) : Prop :=
  ∀ p c s, input = p ++ c :: s → ¬ Slip (standard.final .text p) (reading.final .text p) c

/-- The program reads a text in the mode it is to be read in, or it takes the second of two
slashes or a character literal for plain text. -/
inductive Along : Mode → Mode → Prop
  | same {m : Mode} (hlit : m ≠ .literal quote) (hesc : m ≠ .escape quote) : Along m m
  | slash : Along .slash .text
  | literal : Along (.literal quote) .text
  | escape : Along (.escape quote) .text

theorem start_text (hslash : c ≠ Text.slash) (hdouble : c ≠ doubleQuote) :
    reading.start c = .text :=
  Reading.start_of_ne hslash (by simpa [reading] using hdouble)

theorem Along.start : Along (standard.start c) (reading.start c) := by
  rcases eq_or_ne c Text.slash with rfl | hslash
  · exact .same (by decide) (by decide)
  rcases eq_or_ne c doubleQuote with rfl | hdouble
  · exact .same (by decide) (by decide)
  rw [start_text hslash hdouble]
  rcases eq_or_ne c quote with rfl | hquote
  · exact .literal
  · rw [Reading.start_of_ne hslash (by simp [standard, hquote, hdouble])]
    exact .same Mode.noConfusion Mode.noConfusion

theorem Along.next (h : Along m m') (hslip : ¬ Slip m m' c) :
    Along (standard.next m c) (reading.next m' c) := by
  cases h with
  | slash =>
    have hstar : c ≠ star := hslip
    have hnext : standard.next .slash c = standard.start c := by
      simp [Reading.next, hstar, standard]
    rw [hnext]
    exact .start
  | literal =>
    obtain ⟨hslash, hrest⟩ := not_or.mp hslip
    have hnext : reading.next .text c = .text := start_text hslash (not_or.mp hrest).1
    rw [hnext, Reading.next]
    split_ifs
    · exact .same Mode.noConfusion Mode.noConfusion
    · exact .escape
    · exact .literal
  | escape =>
    obtain ⟨hslash, hrest⟩ := not_or.mp hslip
    have hnext : reading.next .text c = .text := start_text hslash (not_or.mp hrest).1
    rw [hnext]
    exact .literal
  | same hlit hesc =>
    cases m with
    | text => exact .start
    | slash =>
      have hdouble : c ≠ doubleQuote := hslip
      rcases eq_or_ne c star with rfl | hstar
      · exact .same (by decide) (by decide)
      have hnext : reading.next .slash c = .text := by simp [Reading.next, hstar, reading]
      have hnext' : standard.next .slash c = standard.start c := by
        simp [Reading.next, hstar, standard]
      rw [hnext, hnext']
      rcases eq_or_ne c Text.slash with rfl | hslash
      · exact .slash
      · exact start_text hslash hdouble ▸ .start
    | comment =>
      simp only [Reading.next]
      split <;> exact .same Mode.noConfusion Mode.noConfusion
    | star =>
      simp only [Reading.next]
      split_ifs <;> exact .same Mode.noConfusion Mode.noConfusion
    | literal q =>
      have hq : q ≠ quote := fun h => hlit (by rw [h])
      simp only [Reading.next]
      split_ifs
      · exact .same Mode.noConfusion Mode.noConfusion
      · exact .same Mode.noConfusion fun h => hq (Mode.escape.inj h)
      · exact .same (fun h => hq (Mode.literal.inj h)) Mode.noConfusion
    | escape q =>
      have hq : q ≠ quote := fun h => hesc (by rw [h])
      exact .same (fun h => hq (Mode.literal.inj h)) Mode.noConfusion

/-- The program counts the brackets that are to be counted. -/
theorem Along.weigh (h : Along m m') (hslip : ¬ Slip m m' c) :
    (if m.outside then κ.weight c else 0) = if m'.outside then κ.weight c else 0 := by
  have hlit : (∀ κ : Kind, κ.weight c = 0) → (0 : ℤ) = κ.weight c := fun h => (h κ).symm
  cases h with
  | same => rfl
  | slash => rfl
  | literal =>
    have hw : ∀ κ : Kind, κ.weight c = 0 := by
      simpa using (not_or.mp (not_or.mp hslip).2).2
    exact hlit hw
  | escape =>
    have hw : ∀ κ : Kind, κ.weight c = 0 := by
      simpa using (not_or.mp (not_or.mp hslip).2).2
    exact hlit hw

theorem Along.outside (h : Along m m') (hm : m.outside = true) : m'.outside = true := by
  cases h with
  | same => exact hm
  | _ => rfl

theorem along_read (h : Along m m') (hslip : ∀ p c r, s = p ++ c :: r →
    ¬ Slip (standard.final m p) (reading.final m' p) c) :
    Along (standard.final m s) (reading.final m' s) ∧
      ∀ (κ : Kind) p, p <+: s →
        standard.weigh κ.weight m p = reading.weigh κ.weight m' p := by
  induction s generalizing m m' with
  | nil =>
    refine ⟨h, fun κ p hp => ?_⟩
    rw [List.prefix_nil.mp hp]
    rfl
  | cons c s ih =>
    have hc : ¬ Slip m m' c := hslip [] c s rfl
    obtain ⟨hfinal, hweigh⟩ := ih (h.next hc) fun p b r hs =>
      hslip (c :: p) b r (by rw [hs]; rfl)
    refine ⟨hfinal, fun κ p hp => ?_⟩
    rcases List.prefix_cons_iff.mp hp with rfl | ⟨q, rfl, hq⟩
    · rfl
    · rw [Reading.weigh, Reading.weigh, h.weigh hc, hweigh κ q hq]

end Aligned

/-- Fewer than `2 ^ 31` brackets of a kind are open at a time. -/
def Shallow (R : Reading) (input : List Byte) : Prop :=
  ∀ (κ : Kind) p, p <+: input → R.weigh κ.weight .text p < 2 ^ 31

theorem passes_iff_of_aligned {input : List Byte} (hterm : standard.Terminated input)
    (hal : Aligned input) : Passes input ↔ Balanced standard input ∧ Shallow standard input := by
  obtain ⟨hfinal, hweigh⟩ := along_read (.same (by decide) (by decide)) hal
  have hreading : reading.Terminated input := hfinal.outside hterm
  rw [Passes, forall_prop_of_true hreading]
  constructor
  · rintro ⟨hrange, hzero⟩
    refine ⟨fun κ => ⟨fun p hp => ?_, ?_⟩, fun κ p hp => ?_⟩
    · exact hweigh κ p hp ▸ (hrange κ p hp).1
    · exact hweigh κ input (List.prefix_refl _) ▸ hzero κ
    · exact hweigh κ p hp ▸ (hrange κ p hp).2
  · rintro ⟨hbal, hshallow⟩
    constructor
    · intro κ p hp
      exact hweigh κ p hp ▸ ⟨(hbal κ).1 p hp, hshallow κ p hp⟩
    · intro κ
      exact hweigh κ input (List.prefix_refl _) ▸ (hbal κ).2

/-- The program is silent on the texts whose brackets, as its own reading counts them, pass. Where no
byte leads it off, these are the balanced texts but for the range of the counters. -/
theorem silent_iff_balanced (input : List Byte) (hterm : standard.Terminated input) :
    (Silent input ↔ Passes input) ∧
      (Aligned input → ((Silent input ↔ Balanced standard input) ↔
        (Balanced standard input → Shallow standard input))) := by
  refine ⟨silent_iff, fun hal => ?_⟩
  rw [silent_iff, passes_iff_of_aligned hterm hal]
  exact and_iff_left_iff_imp

/-- A bracket behind two slashes. -/
theorem silent_sample :
    standard.Terminated (encode "//(/* ) */)") ∧
      (Silent (encode "//(/* ) */)") ↔ Passes (encode "//(/* ) */)")) :=
  ⟨by decide, (silent_iff_balanced _ (by decide)).1⟩

/-- A bracket in a character literal. -/
theorem silent_literal : ¬ ∀ input, standard.Terminated input →
    (Silent input ↔ Balanced standard input) := by
  intro hall
  have hbal : Balanced standard (encode "'('") := by
    intro κ
    have hinits : ∀ p ∈ (encode "'('").inits, 0 ≤ standard.weigh κ.weight .text p := by
      cases κ <;> decide
    exact ⟨fun p hp => hinits p ((List.mem_inits p _).mpr hp), by cases κ <;> decide⟩
  have hpass := silent_iff.mp ((hall _ (by decide)).mpr hbal)
  exact absurd (hpass.2 (by decide) .paren) (by decide)

end Checkgrammer

/-- Each program ends on the texts whose comments and literals end as it reads them. -/
theorem scanners_end_iff (input : List Byte) :
    Ends Rcomment.main input ∧ Ends Checkgrammer.main input ↔
      Rcomment.reading.Terminated input ∧ Checkgrammer.reading.Terminated input := by
  rw [Rcomment.ends_iff, Checkgrammer.ends_iff]

/-- A comment that is not closed. -/
theorem scanners_spin : ¬ ∀ input, Ends Rcomment.main input ∧ Ends Checkgrammer.main input := by
  intro hall
  exact absurd (Rcomment.ends_iff.mp (hall [slash, star]).1) (by decide)

end Somenote.Text
