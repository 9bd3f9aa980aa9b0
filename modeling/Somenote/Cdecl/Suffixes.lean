import Somenote.Cdecl.Cursor

/-! # Reading a suffix

What the readers do at the arrays or the parameter list behind a name or a group.
-/

namespace Somenote.Cdecl

variable {l : Lexicon} {f : Format} {rest s : List Char} {x y : Lexeme} {ls : List Lexeme}
  {stack : List Token} {out : List Char} {m : Reader}

/-- What the two lexicons share. -/
structure Lexicon.Common (l : Lexicon) : Prop where
  name : ∀ s, s ∉ typeWords → s ∉ ["const".toList, "static".toList, "volatile".toList] →
    classifyString l s = ⟨Tag.identifier, s⟩
  type : ∀ s ∈ typeWords, classifyString l s = ⟨Tag.type, s⟩
  bracket : l.punct ']' = [']']

theorem common_of_keywords (hq : ∀ k ∈ l.qualifiers, k.1 ∈ ["const".toList, "static".toList,
    "volatile".toList]) (hb : l.punct ']' = [']']) : l.Common where
  name s ht hk := by
    have hlookup : l.qualifiers.lookup s = none := by
      rw [List.lookup_eq_none_iff]
      intro k hmem
      apply bne_iff_ne.mpr
      rintro rfl
      exact hk (hq k hmem)
    rw [classifyString, hlookup]
    exact if_neg ht
  type s hs := by
    have hlookup : l.qualifiers.lookup s = none := by
      rw [List.lookup_eq_none_iff]
      intro k hmem
      apply bne_iff_ne.mpr
      rintro rfl
      -- no type is a qualifier
      have hno : ∀ t ∈ typeWords, t ∉ ["const".toList, "static".toList, "volatile".toList] := by
        simp [typeWords]
      exact hno k.1 hs (hq k hmem)
    rw [classifyString, hlookup]
    exact if_pos hs
  bracket := hb

theorem classifyString_type_le (s : List Char) : (classifyString l s).type ≤ 2 := by
  unfold classifyString
  split
  · exact (by decide : Tag.qualifier ≤ 2)
  · split
    · exact le_rfl
    · exact Nat.zero_le 2

theorem token_type_ne {c : Punct} (hx : x ≠ .punct c) (hc : 2 < c.1.toNat) :
    (l.token x).type ≠ c.1.toNat := by
  cases x with
  | word w =>
    have hle := classifyString_type_le (l := l) w.1
    intro heq
    rw [Lexicon.token] at heq
    omega
  | punct d =>
    intro heq
    have hchar : d.1 = c.1 := Char.toNat_inj.mp heq
    exact hx (congrArg Lexeme.punct (Subtype.ext hchar))

theorem Stands.type_ne {c : Punct} (h : Stands l rest (x :: ls) stack out m) (hx : x ≠ .punct c)
    (hc : 2 < c.1.toNat) : m.this.type ≠ c.1.toNat := by
  rw [h.this]
  exact token_type_ne hx hc

theorem isDigit_bound (hl : l.Common) (b : Bound) :
    classifyString l b.1.1 = ⟨Tag.identifier, b.1.1⟩ ∧ (classifyString l b.1.1).isDigit = true := by
  obtain ⟨⟨b, hne, hw⟩, hb⟩ := b
  obtain ⟨c, cs, rfl⟩ := List.exists_cons_of_ne_nil hne
  have hc : c.isDigit = true := hb c (List.mem_cons_self ..)
  have hname : classifyString l (c :: cs) = ⟨Tag.identifier, c :: cs⟩ := by
    -- no keyword starts with a digit
    refine hl.name _ (fun hm => ?_) fun hm => ?_
    · have hno : ∀ k ∈ typeWords, ∀ d ∈ k.head?, d.isDigit = false := by simp [typeWords]
      exact absurd hc (by simp [hno _ hm c rfl])
    · have hno : ∀ k ∈ ["const".toList, "static".toList, "volatile".toList],
          ∀ d ∈ k.head?, d.isDigit = false := by simp
      exact absurd hc (by simp [hno _ hm c rfl])
  refine ⟨hname, ?_⟩
  rw [hname]
  simpa [Token.isDigit] using hc

theorem arraySuffix_bound (hl : l.Common) (b : Option Bound)
    (h : Stands l rest (boundLexemes b ++ ls) stack out m) (hls : ls ≠ []) :
    ∃ m', arraySuffix l f m = some m' ∧ Stands l rest ls stack (out ++ boundWords f b) m' := by
  have hclosed : (l.token .rbracket).isDigit = false := by
    change (l.punct ']').head?.any Char.isDigit = false
    rw [hl.bracket]
    decide
  cases b with
  | none =>
    obtain ⟨m₁, hget₁, hm₁⟩ := (h.print f.array).next (by simp)
    obtain ⟨m₂, hget₂, hm₂⟩ := hm₁.next (by simp [hls])
    refine ⟨m₂.print f.of, ?_, ?_⟩
    · unfold arraySuffix
      simp [hget₁, hm₁.this, hclosed, hget₂]
    · simpa [boundWords] using hm₂.print f.of
  | some b =>
    obtain ⟨hclass, hdigit⟩ := isDigit_bound hl b
    obtain ⟨m₁, hget₁, hm₁⟩ := (h.print f.array).next (by simp)
    have hthis : m₁.this = classifyString l b.1.1 := hm₁.this
    obtain ⟨m₂, hget₂, hm₂⟩ := (hm₁.print (f.upTo (lastIndex b.1.1))).next (by simp)
    obtain ⟨m₃, hget₃, hm₃⟩ := hm₂.next (by simp [hls])
    refine ⟨m₃.print f.of, ?_, ?_⟩
    · have hstring : m₁.this.string = b.1.1 := by rw [hthis, hclass]
      rw [← hthis] at hdigit
      unfold arraySuffix
      simp [hget₁, hdigit, hstring, hget₂, hget₃]
    · simpa [boundWords] using hm₃.print f.of

theorem yields_arraySuffixes (hl : l.Common) {bounds : List (Option Bound)}
    (h : Stands l rest (bounds.flatMap boundLexemes ++ y :: ls) stack out m)
    (hy : y ≠ .lbracket) :
    ∃ m', Yields (fun n => arraySuffixes l f n m) m' ∧
      Stands l rest (y :: ls) stack (out ++ bounds.flatMap (boundWords f)) m' := by
  have hloops : ∃ m', Loops (fun m : Reader => m.this.type = '['.toNat)
      (fun _ => arraySuffix l f) m m' ∧
      Stands l rest (y :: ls) stack (out ++ bounds.flatMap (boundWords f)) m' := by
    induction bounds generalizing m out with
    | nil =>
      refine ⟨m, .done ?_, by simpa using h⟩
      exact decide_eq_false (h.type_ne hy (by decide))
    | cons b bounds ih =>
      rw [List.flatMap_cons, List.append_assoc] at h
      have hopen : m.this.type = '['.toNat := by
        cases b <;> exact congrArg Token.type h.this
      obtain ⟨m₁, hturn, hm₁⟩ := arraySuffix_bound (f := f) hl b h (by simp)
      obtain ⟨m₂, hloop, hm₂⟩ := ih hm₁
      exact ⟨m₂, .turn (decide_eq_true hopen) (.const hturn) hloop, by simpa using hm₂⟩
  obtain ⟨m', hloop, hm'⟩ := hloops
  exact ⟨m', hloop.yields, hm'⟩

theorem yields_functionArgs {ps : List Param}
    (h : Stands l rest (.lparen :: ps.map Subtype.val ++ .rparen :: ls) stack out m)
    (hls : ls ≠ []) :
    ∃ m', Yields (fun n => functionArgs l f n m) m' ∧
      Stands l rest ls stack (out ++ f.function) m' := by
  have hloops : ∀ (xs : List Lexeme) (m : Reader), (∀ x ∈ xs, x ≠ .rparen) →
      Stands l rest (xs ++ .rparen :: ls) stack out m →
      ∃ m', Loops (fun m : Reader => m.this.type ≠ ')'.toNat) (fun _ => gettoken l) m m' ∧
        Stands l rest (.rparen :: ls) stack out m' := by
    intro xs
    induction xs with
    | nil =>
      intro m _ h
      refine ⟨m, .done ?_, h⟩
      rw [h.this]
      rfl
    | cons x xs ih =>
      intro m hxs h
      have hne : m.this.type ≠ ')'.toNat := h.type_ne (hxs x (List.mem_cons_self ..)) (by decide)
      obtain ⟨m₁, hget, hm₁⟩ := h.next (by simp)
      obtain ⟨m₂, hloop, hm₂⟩ := ih m₁ (fun z hz => hxs z (List.mem_cons_of_mem x hz)) hm₁
      exact ⟨m₂, .turn (decide_eq_true hne) (.const hget) hloop, hm₂⟩
  have hps : ∀ x ∈ Lexeme.lparen :: ps.map Subtype.val, x ≠ .rparen := by
    intro x hx
    rcases List.mem_cons.mp hx with rfl | hx
    · simp [Lexeme.lparen, Lexeme.rparen]
    · obtain ⟨p, -, rfl⟩ := List.mem_map.mp hx
      exact p.2.2
  obtain ⟨m₁, hloop, hm₁⟩ := hloops _ m hps h
  obtain ⟨m₂, hget, hm₂⟩ := hm₁.next hls
  refine ⟨m₂.print f.function, ?_, hm₂.print f.function⟩
  refine hloop.yields.bind (g := fun _ m => do
    let m ← gettoken l m
    some (m.print f.function)) (.const ?_)
  rw [hget]
  rfl

/-- The lexicon takes a keyword for a qualifier. -/
def Lexicon.Knows (l : Lexicon) (q : Qual) : Prop :=
  l.token q.lexeme = ⟨Tag.qualifier, q.text⟩

theorem token_spec_string (hl : l.Common) {s : Spec} (hs : ∀ q, s = .qual q → l.Knows q) :
    (l.token s.lexeme).string = s.text := by
  cases s with
  | type w => exact congrArg Token.string (hl.type w.1.1 w.2)
  | qual q => exact congrArg Token.string (hs q rfl)

theorem qual_type {q : Qual} (hq : l.Knows q) : (l.token q.lexeme).type = Tag.qualifier :=
  congrArg Token.type hq

theorem token_front_type {d : Declarator} (hq : ∀ q ∈ d.quals, l.Knows q) :
    ∀ z ∈ d.front, (l.token z).type ≠ Tag.identifier := by
  induction d with
  | ident x s => exact fun z hz => absurd hz List.not_mem_nil
  | group d s ih =>
    intro z hz
    rcases List.mem_cons.mp hz with rfl | hz
    · exact fun heq => absurd heq (by decide : '('.toNat ≠ 0)
    · exact ih hq z hz
  | ptr quals d ih =>
    intro z hz
    rcases List.mem_append.mp hz with hz | hz
    · rcases List.mem_cons.mp hz with rfl | hz
      · exact fun heq => absurd heq (by decide : '*'.toNat ≠ 0)
      · obtain ⟨q, hmem, rfl⟩ := List.mem_map.mp hz
        rw [qual_type (hq q (List.mem_append_left _ hmem))]
        exact Nat.one_ne_zero
    · exact ih (fun q hmem => hq q (List.mem_append_right _ hmem)) z hz

/-- A reader that has read the name stands behind it, with the front on its stack. -/
theorem yields_readName {d : Declaration} {text : List Char} (hl : l.Common)
    (hq : ∀ q, d.Mentions q → l.Knows q) (h : Spells rest d.lexemes text)
    (hlen : d.front.length ≤ maxTokens) :
    ∃ m, Yields (fun n => readToFirstIdentifier l n (.init text)) m ∧
      Stands l rest (d.declarator.back ++ [.semicolon])
        ((d.declarator.front.map l.token).reverse ++ d.specs.reverse.map fun s => l.token s.lexeme)
        (d.declarator.name.1.1 ++ " is ".toList) m := by
  have hname : l.token (.word d.declarator.name.1) = ⟨Tag.identifier, d.declarator.name.1.1⟩ :=
    hl.name _ d.declarator.name.2.1 d.declarator.name.2.2
  have hspells : Spells rest (d.front ++ .word d.declarator.name.1 ::
      (d.declarator.back ++ [.semicolon])) text := by
    simpa [Declaration.lexemes, Declaration.front, d.declarator.lexemes_eq] using h
  have hfront : ∀ z ∈ d.front, (l.token z).type ≠ Tag.identifier := by
    intro z hz
    rcases List.mem_append.mp hz with hz | hz
    · obtain ⟨s, hs, rfl⟩ := List.mem_map.mp hz
      cases s with
      | type w =>
        have htype : (l.token (Spec.type w).lexeme).type = Tag.type :=
          congrArg Token.type (hl.type w.1.1 w.2)
        rw [htype]
        decide
      | qual q =>
        have htype : (l.token (Spec.qual q).lexeme).type = Tag.qualifier :=
          qual_type (hq q (Or.inl hs))
        rw [htype]
        decide
    · exact token_front_type (fun q hmem => hq q (Or.inr hmem)) z hz
  obtain ⟨m, hread, hm⟩ := yields_readToFirstIdentifier (l := l) hspells (by simp) hfront
    (by rw [hname]) hlen
  rw [hname] at hm
  exact ⟨m, hread, by simpa [Declaration.front, Function.comp_def] using hm⟩

end Somenote.Cdecl
