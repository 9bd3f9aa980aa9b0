import Mathlib.Data.List.Basic
import Somenote.Cdecl.Precedence

/-! # The two readers agree

The recursive reader says the precedence rule too. It never returns before the stack is empty,
so that a turn of its loop at a parenthesis is the last one. Up to blanks, its words are those
of the state machine.
-/

namespace Somenote.Cdecl

namespace Descent

variable {rest out : List Char} {x y : Lexeme} {ls : List Lexeme} {stack : List Token}
  {m r : Reader} {t : Token}

theorem lexicon_common : lexicon.Common := by
  apply common_of_keywords
  · intro k hk
    simp only [lexicon, List.mem_cons, List.not_mem_nil, or_false] at hk
    rcases hk with rfl | rfl <;> simp
  · rfl

theorem lexicon_knows {q : Qual} (hq : q ≠ .static) : lexicon.Knows q := by
  cases q with
  | static => exact absurd rfl hq
  | _ => rfl

/-- A call of `deal_with_declarator`. -/
abbrev Deals (m r : Reader) : Prop := Yields (fun n => dealWithDeclarator n m) r

/-- The loop in `deal_with_declarator`. -/
abbrev Drains (m r : Reader) : Prop :=
  Loops (fun m => m.stack ≠ []) (fun n => drain (dealWithDeclarator n)) m r

theorem drains_pop (ts : List Token) (ht : ∀ t ∈ ts, t.type ≠ '('.toNat)
    (h : Stands lexicon rest ls (ts ++ stack) out m) :
    ∃ m', Stands lexicon rest ls stack (out ++ ts.flatMap fun t => format.keyword t.string) m' ∧
      ∀ r, Drains m' r → Drains m r := by
  induction ts generalizing m out with
  | nil => exact ⟨m, by simpa using h, fun _ => id⟩
  | cons t ts ih =>
    have hne := ht t (List.mem_cons_self ..)
    obtain ⟨m', hm', hdrains⟩ := ih (fun u hu => ht u (List.mem_cons_of_mem t hu))
      ((h.print (format.keyword t.string)).withStack (ts ++ stack))
    refine ⟨m', by simpa using hm', fun r hr => .turn ?_ (.of_eq fun n => ?_) (hdrains r hr)⟩
    · rw [h.stack]
      rfl
    · rw [drain, h.stack]
      exact if_neg hne

theorem drains_pointers (hstack : ∃ t ∈ m.stack, t.type ≠ '*'.toNat) (hr : Drains m r) :
    ∃ m', dealWithPointers m = some m' ∧ Drains m' r := by
  generalize hs : m.stack = stack at hstack
  induction stack generalizing m with
  | nil =>
    obtain ⟨t, ht, -⟩ := hstack
    cases ht
  | cons t stack ih =>
    by_cases ht : t.type = '*'.toNat
    · have hbody : ∀ n, drain (dealWithDeclarator n) m =
          some { m.print (format.keyword t.string) with stack } := by
        intro n
        rw [drain, hs]
        exact if_neg (by rw [ht]; decide)
      have hdrains : Drains { m.print (format.keyword t.string) with stack } r := by
        cases hr with
        | done hdone => simp [hs] at hdone
        | turn _ hb hdrains =>
          rwa [hb.unique (.of_eq hbody)] at hdrains
      have hrest : ∃ t ∈ stack, t.type ≠ '*'.toNat := by
        obtain ⟨u, hu, hne⟩ := hstack
        rcases List.mem_cons.mp hu with rfl | hu
        · exact absurd ht hne
        · exact ⟨u, hu, hne⟩
      obtain ⟨m', hpointers, hm'⟩ := ih hdrains rfl hrest
      refine ⟨m', ?_, hm'⟩
      have hpop : popPointers (t :: stack) m.stdout = popPointers stack (m.stdout ++ t.string) :=
        if_pos ht
      rw [dealWithPointers, hs, hpop]
      exact hpointers
    · refine ⟨m, ?_, hr⟩
      have hpop : popPointers (t :: stack) m.stdout = some (t :: stack, m.stdout) := if_neg ht
      rw [dealWithPointers, hs, hpop, ← hs]
      rfl

theorem deals_suffix (s : Suffix) (h : Stands lexicon rest (s.lexemes ++ y :: ls) stack out m)
    (hy : y ≠ .lbracket) (hy' : y ≠ .lparen) (hstack : ∃ t ∈ stack, t.type ≠ '*'.toNat)
    {P : Reader → Prop}
    (hr : ∀ m', Stands lexicon rest (y :: ls) stack (out ++ s.words format) m' →
      ∃ r, Drains m' r ∧ P r) : ∃ r, Deals m r ∧ P r := by
  have hsuffix : ∃ m', Stands lexicon rest (y :: ls) stack (out ++ s.words format) m' ∧
      Yields (fun n => dealWithSuffix n m) m' := by
    simp only [dealWithSuffix]
    cases s with
    | arrays bounds =>
      cases bounds with
      | nil =>
        have hy₁ : m.this.type ≠ '['.toNat := Stands.type_ne h hy (by decide)
        have hy₂ : m.this.type ≠ '('.toNat := Stands.type_ne h hy' (by decide)
        exact ⟨m, by simpa [Suffix.lexemes, Suffix.words] using h,
          .of_eq fun n => (if_neg hy₁).trans (if_neg hy₂)⟩
      | cons b bounds =>
        have hthis : m.this.type = '['.toNat := by
          cases b <;> exact congrArg Token.type h.this
        obtain ⟨m', hyields, hm'⟩ := yields_arraySuffixes (f := format) lexicon_common h hy
        refine ⟨m', hm', ?_⟩
        simp only [if_pos hthis]
        exact hyields
    | params ps =>
      have hthis : m.this.type = '('.toNat := congrArg Token.type h.this
      have hnot : m.this.type ≠ '['.toNat := by
        rw [hthis]
        decide
      have hparams : Stands lexicon rest (.lparen :: ps.map Subtype.val ++ .rparen :: y :: ls)
          stack out m := by
        simpa [Suffix.lexemes] using h
      obtain ⟨m', hyields, hm'⟩ := yields_functionArgs (f := format) hparams (by simp)
      refine ⟨m', hm', ?_⟩
      simp only [if_neg hnot, if_pos hthis]
      exact hyields
  obtain ⟨m₁, hm₁, hyields⟩ := hsuffix
  obtain ⟨r, hdrains, hP⟩ := hr m₁ hm₁
  obtain ⟨m₂, hpointers, hdrains⟩ := drains_pointers (by rwa [hm₁.stack]) hdrains
  refine ⟨r, .succ ?_, hP⟩
  simp only [dealWithDeclarator]
  have hrest : Yields (fun n => dealWithPointers m₁ >>= fun m =>
      loop (fun m => m.stack ≠ []) (drain (dealWithDeclarator n)) n m) r := by
    rw [hpointers]
    exact hdrains.yields
  exact hyields.bind (g := fun n m => dealWithPointers m >>= fun m =>
    loop (fun m => m.stack ≠ []) (drain (dealWithDeclarator n)) n m) hrest

/-- A call at what follows a name says the declarator, and goes on with the loop. -/
theorem deals_declarator (d : Declarator) (hq : ∀ q ∈ d.quals, lexicon.Knows q)
    (h : Stands lexicon rest (d.back ++ y :: ls) ((d.front.map lexicon.token).reverse ++ stack)
      out m) (hy : y ≠ .lbracket) (hy' : y ≠ .lparen)
    (hstack : ∃ t ∈ stack, t.type ≠ '*'.toNat) {P : Reader → Prop} (hP : ∀ r, P r → r.stack = [])
    (hr : ∀ m', Stands lexicon rest (y :: ls) stack (out ++ d.words format) m' →
      ∃ r, Drains m' r ∧ P r) : ∃ r, Deals m r ∧ P r := by
  induction d generalizing y ls stack out m with
  | ident x s => exact deals_suffix s h hy hy' hstack hr
  | group d s ih =>
    have hinner : Stands lexicon rest (d.back ++ .rparen :: (s.lexemes ++ y :: ls))
        ((d.front.map lexicon.token).reverse ++ lexicon.token .lparen :: stack) out m := by
      simpa [Declarator.front, Declarator.back] using h
    refine ih hq hinner (by simp [Lexeme.rparen, Lexeme.lbracket])
      (by simp [Lexeme.rparen, Lexeme.lparen])
      ⟨_, List.mem_cons_self .., by decide⟩ fun m₁ hm₁ => ?_
    obtain ⟨m₂, hget, hm₂⟩ := (hm₁.withStack stack).next (by simp)
    obtain ⟨r, hdeals, hPr⟩ := deals_suffix s hm₂ hy hy' hstack
      fun m' hm' => hr m' (by simpa [Declarator.words] using hm')
    have hdone : Drains r r := .done (by simp [hP r hPr])
    refine ⟨r, .turn ?_ ?_ hdone, hPr⟩
    · rw [hm₁.stack]
      rfl
    · have hbody : ∀ n, drain (dealWithDeclarator n) m₁ = dealWithDeclarator n m₂ := by
        intro n
        have htop : (lexicon.token .lparen).type = '('.toNat := rfl
        rw [drain, hm₁.stack]
        dsimp only
        rw [if_pos htop, hget]
        rfl
      simp only [hbody]
      exact hdeals
  | ptr quals d ih =>
    have hpop : ∀ t ∈ quals.reverse.map (fun q => lexicon.token q.lexeme) ++ [lexicon.token .star],
        t.type ≠ '('.toNat := by
      intro t ht
      rcases List.mem_append.mp ht with ht | ht
      · obtain ⟨q, hmem, rfl⟩ := List.mem_map.mp ht
        rw [qual_type (hq q (List.mem_append_left _ (List.mem_reverse.mp hmem)))]
        decide
      · rw [List.mem_singleton.mp ht]
        decide
    have hwords : (quals.reverse.map (fun q => lexicon.token q.lexeme) ++
        [lexicon.token .star]).flatMap (fun t => format.keyword t.string) =
        quals.reverse.flatMap (fun q => format.keyword q.text) ++ format.pointer := by
      have hsaid : ∀ q ∈ quals.reverse, format.keyword (lexicon.token q.lexeme).string =
          format.keyword q.text := by
        intro q hmem
        rw [hq q (List.mem_append_left _ (List.mem_reverse.mp hmem))]
      rw [List.flatMap_append, List.flatMap_map, List.flatMap_congr hsaid]
      rfl
    have hinner : Stands lexicon rest (d.back ++ y :: ls) ((d.front.map lexicon.token).reverse ++
        (quals.reverse.map (fun q => lexicon.token q.lexeme) ++ [lexicon.token .star] ++ stack))
        out m := by
      simpa [Declarator.front, Declarator.back, Function.comp_def] using h
    refine ih (fun q hmem => hq q (List.mem_append_right _ hmem)) hinner hy hy' ?_
      fun m₁ hm₁ => ?_
    · obtain ⟨t, ht, hne⟩ := hstack
      exact ⟨t, List.mem_append_right _ ht, hne⟩
    · obtain ⟨m₂, hm₂, hdrains⟩ := drains_pop _ hpop hm₁
      rw [hwords] at hm₂
      obtain ⟨r, hr, hPr⟩ := hr m₂ (by simpa [Declarator.words] using hm₂)
      exact ⟨r, hdrains r hr, hPr⟩

theorem spec_type {s : Spec} (hs : ∀ q, s = .qual q → lexicon.Knows q) :
    (lexicon.token s.lexeme).type = Tag.type ∨ (lexicon.token s.lexeme).type = Tag.qualifier := by
  cases s with
  | type w => exact Or.inl (congrArg Token.type (lexicon_common.type w.1.1 w.2))
  | qual q => exact Or.inr (qual_type (hs q rfl))

theorem drains_specs {specs : List Spec} (hq : ∀ q, Spec.qual q ∈ specs → lexicon.Knows q)
    (h : Stands lexicon rest ls (specs.map fun s => lexicon.token s.lexeme) out m) :
    ∃ r, Drains m r ∧ r.stack = [] ∧
      r.stdout = out ++ specs.flatMap fun s => format.keyword s.text := by
  have hknows : ∀ s ∈ specs, ∀ q, s = .qual q → lexicon.Knows q := by
    rintro s hs q rfl
    exact hq q hs
  have hpop : ∀ t ∈ specs.map (fun s => lexicon.token s.lexeme), t.type ≠ '('.toNat := by
    intro t ht
    obtain ⟨s, hs, rfl⟩ := List.mem_map.mp ht
    rcases spec_type (hknows s hs) with ht | ht <;> rw [ht] <;> decide
  rw [← List.append_nil (specs.map _)] at h
  obtain ⟨r, hr, hdrains⟩ := drains_pop _ hpop h
  refine ⟨r, hdrains r (.done (by simp [hr.stack])), hr.stack, ?_⟩
  have hsaid : ∀ s ∈ specs, format.keyword (lexicon.token s.lexeme).string =
      format.keyword s.text := by
    intro s hs
    rw [token_spec_string lexicon_common (hknows s hs)]
  rw [hr.stdout, List.flatMap_map, List.flatMap_congr hsaid]

variable {d : Declaration} {text : List Char}

/-- The recursive reader says the precedence rule too. -/
theorem main_said (hq : ¬ d.Mentions .static) (h : Spells rest d.lexemes text)
    (hlen : d.front.length ≤ maxTokens) :
    ∃ m, Yields (main text) m ∧ m.stack = [] ∧ m.stdout = d.words format := by
  have hknows : ∀ q, d.Mentions q → lexicon.Knows q := by
    intro q hmem
    refine lexicon_knows ?_
    rintro rfl
    exact hq hmem
  have hspecs : ∀ q, Spec.qual q ∈ d.specs.reverse → lexicon.Knows q := fun q hmem =>
    hknows q (Or.inl (List.mem_reverse.mp hmem))
  obtain ⟨m₁, hread, hm₁⟩ := yields_readName lexicon_common hknows h hlen
  have hstack : ∃ t ∈ d.specs.reverse.map (fun s => lexicon.token s.lexeme),
      t.type ≠ '*'.toNat := by
    obtain ⟨w, hw⟩ := d.typed
    refine ⟨_, List.mem_map_of_mem (List.mem_reverse.mpr hw), ?_⟩
    rcases spec_type (s := .type w) (fun q heq => by cases heq) with ht | ht <;> rw [ht] <;> decide
  obtain ⟨m₂, hdeals, hempty, hout⟩ := deals_declarator d.declarator
    (fun q hmem => hknows q (Or.inr hmem)) hm₁
    (by simp [Lexeme.semicolon, Lexeme.lbracket]) (by simp [Lexeme.semicolon, Lexeme.lparen])
    hstack (fun _ => And.left) fun m' hm' => drains_specs hspecs hm'
  refine ⟨m₂.print "\n".toList, ?_, hempty, ?_⟩
  · exact hread.bind (g := fun n m => dealWithDeclarator n m >>= fun m => some (m.print "\n".toList))
      (hdeals.bind (g := fun _ m => some (m.print "\n".toList)) (.const rfl))
  · rw [Reader.print, hout, Declaration.words]

end Descent

section Blanks

/-- A text without its blanks. -/
def squeeze (s : List Char) : List Char := s.filter (· ≠ ' ')

variable {s t : List Char}

@[simp] theorem squeeze_append : squeeze (s ++ t) = squeeze s ++ squeeze t := List.filter_append ..

theorem squeeze_flatMap {α : Type} {g h : α → List Char} (xs : List α)
    (heq : ∀ x, squeeze (g x) = squeeze (h x)) :
    squeeze (xs.flatMap g) = squeeze (xs.flatMap h) := by
  induction xs with
  | nil => rfl
  | cons x xs ih => rw [List.flatMap_cons, List.flatMap_cons, squeeze_append, squeeze_append, heq, ih]

/-- Two formats that differ in blanks. -/
structure Alike (f g : Format) : Prop where
  array : squeeze f.array = squeeze g.array
  upTo : ∀ s, squeeze (f.upTo s) = squeeze (g.upTo s)
  of : squeeze f.of = squeeze g.of
  function : squeeze f.function = squeeze g.function
  pointer : squeeze f.pointer = squeeze g.pointer
  keyword : ∀ s, squeeze (f.keyword s) = squeeze (g.keyword s)

variable {f g : Format}

theorem squeeze_blank (s : List Char) : squeeze (s ++ " ".toList) = squeeze s := by
  simp [squeeze]

theorem alike : Alike Machine.format Descent.format where
  array := by decide
  upTo s := squeeze_blank ("0..".toList ++ s)
  of := by decide
  function := by decide
  pointer := by decide
  keyword s := squeeze_blank s

namespace Alike

theorem suffix (h : Alike f g) (s : Suffix) : squeeze (s.words f) = squeeze (s.words g) := by
  cases s with
  | arrays bounds =>
    refine squeeze_flatMap bounds fun b => ?_
    cases b with
    | none => simp [boundWords, h.array, h.of]
    | some b => simp [boundWords, h.array, h.upTo, h.of]
  | params ps => exact h.function

theorem declarator (h : Alike f g) (d : Declarator) :
    squeeze (d.words f) = squeeze (d.words g) := by
  induction d with
  | ident x s => exact h.suffix s
  | group d s ih => simp [Declarator.words, ih, h.suffix]
  | ptr quals d ih =>
    have hquals := squeeze_flatMap quals.reverse fun q : Qual => h.keyword q.text
    simp [Declarator.words, ih, hquals, h.pointer]

theorem declaration (h : Alike f g) (d : Declaration) :
    squeeze (d.words f) = squeeze (d.words g) := by
  have hspecs := squeeze_flatMap d.specs.reverse fun s : Spec => h.keyword s.text
  simp only [Declaration.words, squeeze_append, h.declarator, hspecs]

end Alike

end Blanks

/-- On every declaration without `static` whose front fits the stack, both readers stop, and
print the same text but for blanks. -/
theorem readers_agree {d : Declaration} {rest text : List Char} (hq : ¬ d.Mentions .static)
    (h : Spells rest d.lexemes text) (hlen : d.front.length ≤ maxTokens) :
    ∃ m m', Yields (Machine.main text) m ∧ Yields (Descent.main text) m' ∧
      squeeze m.stdout = squeeze m'.stdout := by
  obtain ⟨m, hloops, -, hout⟩ := Machine.loops_main h hlen
  obtain ⟨m', hm', -, hout'⟩ := Descent.main_said hq h hlen
  exact ⟨m, m', Machine.yields_main hloops, hm', by rw [hout, hout', alike.declaration]⟩

theorem readers_agree_sample : ∃ m m',
    Yields (Machine.main (Machine.next.lexemes.flatMap fun x => ' ' :: x.text)) m ∧
      Yields (Descent.main (Machine.next.lexemes.flatMap fun x => ' ' :: x.text)) m' ∧
      squeeze m.stdout = squeeze m'.stdout := by
  refine readers_agree ?_ (spells_blanks _) (by decide)
  simp [Declaration.Mentions, Machine.next, Declarator.quals]

end Somenote.Cdecl
