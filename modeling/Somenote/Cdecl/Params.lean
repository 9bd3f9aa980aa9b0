import Somenote.Cdecl.Lexemes
import Somenote.Cdecl.Source

/-! # Parameter lists

Both readers skip a parameter list up to its first closing parenthesis. This is the matching one
exactly when no parameter has parentheses of its own.
-/

namespace Somenote.Cdecl

inductive Balanced : List Char → Prop
  | nil : Balanced []
  | char {c s} (hl : c ≠ '(') (hr : c ≠ ')') (hs : Balanced s) : Balanced (c :: s)
  | nest {s t} (hs : Balanced s) (ht : Balanced t) : Balanced ('(' :: s ++ ')' :: t)

variable {l : Lexicon} {f : Format} {p q rest w : List Char} {ws : List (List Char)}
  {m m' x : Reader}

theorem Balanced.mem_iff (h : Balanced p) : '(' ∈ p ↔ ')' ∈ p := by
  induction h with
  | nil => simp
  | char hl hr _ ih => simp [hl.symm, hr.symm, ih]
  | nest => simp

/-- The loop that skips a parameter list. -/
abbrev skip (l : Lexicon) : ℕ → Reader → Option Reader :=
  loop (fun m => m.this.type ≠ ')'.toNat) (gettoken l)

theorem rparen_ends_word : ∀ d ∈ (')' :: rest).head?, d.isAlphanum = false ∧ d ≠ eof := by
  rintro d ⟨⟩
  exact ⟨by decide, by decide⟩

/-- The reader at a closing parenthesis, with `rest` behind it. -/
def Reader.closed (l : Lexicon) (rest : List Char) (m : Reader) : Reader :=
  { m with this := ⟨')'.toNat, l.punct ')'⟩, stdin := rest }

theorem gettoken_rparen (hin : m.stdin = q ++ ')' :: rest) (hq : lexemes q = []) :
    gettoken l m = some (m.closed l rest) := by
  obtain ⟨n, rfl⟩ := lexemes_nil hq
  rw [gettoken, hin, dropWhile_blanks n (by decide)]
  rfl

theorem tokenOf_type_ne (hq : lexemes q = w :: ws) (hp : ')' ∉ q) :
    (l.tokenOf w).type ≠ ')'.toNat := by
  obtain ⟨c, cs, rfl, hc⟩ := head_mem_of_lexemes hq
  rw [Lexicon.tokenOf]
  split
  · rw [classifyString]
    split
    · simp [Tag.qualifier]
    · split <;> simp [Tag.type, Tag.identifier]
  · intro heq
    exact hp (Char.toNat_inj.mp heq ▸ hc)

theorem loops_skip (hin : m.stdin = q ++ ')' :: rest) (hq : ')' ∉ q)
    (hthis : m.this.type ≠ ')'.toNat) (hshort : ∀ w ∈ lexemes q, w.length < maxTokenLen) :
    Loops (fun m : Reader => m.this.type ≠ ')'.toNat) (fun _ => gettoken l) m
      (m.closed l rest) := by
  generalize hws : lexemes q = ws at hshort
  induction ws generalizing q m with
  | nil =>
    apply Loops.turn (by simpa using hthis) (.const (gettoken_rparen hin hws))
    exact .done (by simp [Reader.closed])
  | cons w ws ih =>
    obtain ⟨q', hsuf, hq', hget⟩ :=
      gettoken_append (l := l) hin rparen_ends_word hws (hshort w (List.mem_cons_self ..))
    apply Loops.turn (by simpa using hthis) (.const hget)
    have hp : ')' ∉ q' := fun hmem => hq (hsuf.mem hmem)
    exact ih (m := { m with this := l.tokenOf w, stdin := q' ++ ')' :: rest }) rfl hp
      (tokenOf_type_ne hws hq) hq' fun w hw => hshort w (List.mem_cons_of_mem _ hw)

theorem skip_long (n : ℕ) (hin : m.stdin = q ++ ')' :: rest) (hq : ')' ∉ q)
    (hthis : m.this.type ≠ ')'.toNat) (hlong : ∃ w ∈ lexemes q, maxTokenLen ≤ w.length) :
    skip l n m = none := by
  induction n generalizing q m with
  | zero => rfl
  | succ n ih =>
    obtain ⟨w, hw, hlen⟩ := hlong
    rw [skip, loop, if_pos (by simpa using hthis)]
    cases hws : lexemes q with
    | nil =>
      rw [hws] at hw
      cases hw
    | cons v ws =>
      by_cases hv : v.length < maxTokenLen
      · obtain ⟨q', hsuf, hq', hget⟩ := gettoken_append (l := l) hin rparen_ends_word hws hv
        rw [hget]
        apply ih (m := { m with this := l.tokenOf v, stdin := q' ++ ')' :: rest }) rfl
        · exact fun hmem => hq (hsuf.mem hmem)
        · exact tokenOf_type_ne hws hq
        · rw [hws] at hw
          rcases List.mem_cons.mp hw with rfl | hw
          · exact absurd hv (Nat.not_lt.mpr hlen)
          · exact ⟨w, hq'.symm ▸ hw, hlen⟩
      · rw [gettoken_long hin rparen_ends_word hws (Nat.not_lt.mp hv)]
        rfl

/-- What is done at a parameter list depends on where its loop ends only. -/
theorem yields_functionArgs_iff (h : Loops (fun m : Reader => m.this.type ≠ ')'.toNat)
    (fun _ => gettoken l) m m') : Yields (fun n => functionArgs l f n m) x ↔
      (gettoken l m').map (fun m => m.print f.function) = some x := by
  have hskip := h.yields
  have hargs : ∀ y, (gettoken l m').map (fun m => m.print f.function) = some y →
      Yields (fun n => functionArgs l f n m) y := by
    intro y hy
    rw [Option.map_eq_bind] at hy
    exact hskip.bind (g := fun _ m => gettoken l m >>= fun m => some (m.print f.function)) (.const hy)
  constructor
  · intro hx
    obtain ⟨N, hN⟩ := hskip
    obtain ⟨M, hM⟩ := hx
    have h₁ := hN (max N M) (le_max_left N M)
    have h₂ := hM (max N M) (le_max_right N M)
    dsimp only at h₁ h₂
    rw [functionArgs, h₁] at h₂
    rw [Option.map_eq_bind]
    exact h₂
  · exact hargs x

/-- The loop ends at the first closing parenthesis, if all words in front of it fit. -/
theorem skip_first {r : List Char} (hm' : Yields (fun n => skip l n m) m')
    (hthis : m.this.type ≠ ')'.toNat) (hin : m.stdin = q ++ ')' :: r) (hq : ')' ∉ q) :
    m'.stdin = r ∧ ∀ w ∈ lexemes q, w.length < maxTokenLen := by
  by_cases hshort : ∀ w ∈ lexemes q, w.length < maxTokenLen
  · rw [hm'.unique (loops_skip hin hq hthis hshort).yields]
    exact ⟨rfl, hshort⟩
  · obtain ⟨N, hN⟩ := hm'
    have hlong : ∃ w ∈ lexemes q, maxTokenLen ≤ w.length := by simpa using hshort
    cases (skip_long N hin hq hthis hlong).symm.trans (hN N le_rfl)

theorem rparen_ne (hthis : m.this.type = '('.toNat) : m.this.type ≠ ')'.toNat := by
  rw [hthis]
  decide

/-- A list in balanced parentheses is skipped whole, and read like an empty one, if and only if
it has no parentheses of its own and all of its words fit their tokens. -/
theorem params_skipped_iff (l : Lexicon) (f : Format) (hp : Balanced p)
    (hthis : m.this.type = '('.toNat) (hin : m.stdin = p ++ ')' :: rest) :
    (∃ m', Yields (fun n => skip l n m) m' ∧ m'.stdin = rest ∧
      ∀ x, Yields (fun n => functionArgs l f n m) x ↔
        Yields (fun n => functionArgs l f n { m with stdin := ')' :: rest }) x) ↔
    '(' ∉ p ∧ ∀ w ∈ lexemes p, w.length < maxTokenLen := by
  have hne := rparen_ne hthis
  constructor
  · rintro ⟨m', hm', hrest, -⟩
    have hr : ')' ∉ p := by
      intro hr
      obtain ⟨q, r, rfl, hq⟩ := List.eq_append_cons_of_mem hr
      rw [List.append_assoc, List.cons_append] at hin
      have hlen := congrArg List.length ((skip_first hm' hne hin hq).1.symm.trans hrest)
      simp only [List.length_append, List.length_cons] at hlen
      omega
    exact ⟨fun hl => hr (hp.mem_iff.mp hl), (skip_first hm' hne hin hr).2⟩
  · rintro ⟨hl, hshort⟩
    have hr : ')' ∉ p := fun hr => hl (hp.mem_iff.mpr hr)
    have hloop := loops_skip (l := l) hin hr hne hshort
    refine ⟨m.closed l rest, hloop.yields, rfl, fun x => ?_⟩
    have hempty : Loops (fun m : Reader => m.this.type ≠ ')'.toNat) (fun _ => gettoken l)
        { m with stdin := ')' :: rest } (m.closed l rest) :=
      loops_skip (q := []) (m := { m with stdin := ')' :: rest }) rfl List.not_mem_nil hne
        fun w hw => absurd hw List.not_mem_nil
    rw [yields_functionArgs_iff hloop, yields_functionArgs_iff hempty]

/-- A reader in front of the parameter list `text`. -/
def Reader.entering (text : List Char) : Reader :=
  { Reader.init text with this := ⟨'('.toNat, ['(']⟩ }

theorem params_skipped_int : ∃ m', Yields (fun n => skip Machine.lexicon n
    (.entering ['i', 'n', 't', ')', ';'])) m' ∧ m'.stdin = [';'] := by
  have hp : Balanced ['i', 'n', 't'] :=
    .char (by decide) (by decide) (.char (by decide) (by decide)
      (.char (by decide) (by decide) .nil))
  obtain ⟨m', hm', hrest, -⟩ := (params_skipped_iff (m := .entering ['i', 'n', 't', ')', ';'])
    Machine.lexicon Machine.format hp rfl rfl).mpr ⟨by decide, by decide⟩
  exact ⟨m', hm', hrest⟩

/-- A parameter `g()` ends the list at its own parenthesis. -/
theorem not_params_skipped : ¬ ∀ (p rest : List Char) (m : Reader), Balanced p →
    m.this.type = '('.toNat → m.stdin = p ++ ')' :: rest →
    ∃ m', Yields (fun n => skip Machine.lexicon n m) m' ∧ m'.stdin = rest := by
  intro h
  have hp : Balanced ['g', '(', ')'] := .char (by decide) (by decide) (.nest .nil .nil)
  obtain ⟨m', hm', hrest⟩ := h _ [';'] (.entering ['g', '(', ')', ')', ';']) hp rfl rfl
  have hfirst := (skip_first hm' (rparen_ne rfl) (q := ['g', '(']) rfl (by decide)).1
  rw [hrest] at hfirst
  cases hfirst

end Somenote.Cdecl
