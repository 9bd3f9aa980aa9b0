import Somenote.Cdecl.Source
import Somenote.Cdecl.Suffixes

/-! # The state machine says the precedence rule

The states hand a declarator on to each other, one level of parentheses at a time: from the
name or a closed group to `get_lparen` with the tokens in front of it on the stack.
-/

namespace Somenote.Cdecl.Machine

variable {rest out : List Char} {x y : Lexeme} {ls : List Lexeme} {stack : List Token} {m : Reader}

theorem lexicon_common : lexicon.Common :=
  common_of_keywords (by simp [lexicon]) rfl

theorem lexicon_knows (q : Qual) : lexicon.Knows q := by
  cases q <;> rfl

/-- The machine stops. -/
abbrev Ends : Option State × Reader → Option State × Reader → Prop :=
  Loops (fun x => x.1.isSome) hop

/-- The machine comes from one configuration to the other. -/
def Leads (a b : Option State × Reader) : Prop := ∀ t, Ends b t → Ends a t

theorem Leads.trans {a b c : Option State × Reader} (h : Leads a b) (h' : Leads b c) : Leads a c :=
  fun t ht => h t (h' t ht)

theorem leads_of_hop {s : State} {b : Option State × Reader}
    (h : Yields (fun n => hop n (some s, m)) b) : Leads (some s, m) b :=
  fun _ ht => .turn rfl h ht

theorem leads_getLparen {b : Option State × Reader} (h : getLparen m = some b) :
    Leads (some .getLparen, m) b :=
  leads_of_hop (.of_eq fun _ => h)

theorem leads_getPtrPart {b : Option State × Reader} (h : getPtrPart m = some b) :
    Leads (some .getPtrPart, m) b :=
  leads_of_hop (.of_eq fun _ => h)

theorem leads_getArray {bounds : List (Option Bound)} {nextstate : State}
    (h : Stands lexicon rest (bounds.flatMap boundLexemes ++ y :: ls) stack out m)
    (hy : y ≠ .lbracket)
    (hn : nextstate = if m.this.type = '['.toNat then State.getLparen else .getParams) :
    ∃ m', Stands lexicon rest (y :: ls) stack (out ++ bounds.flatMap (boundWords format)) m' ∧
      Leads (some .getArray, m) (some nextstate, m') := by
  obtain ⟨m', hyields, hm'⟩ := yields_arraySuffixes (f := format) lexicon_common h hy
  refine ⟨m', hm', leads_of_hop ?_⟩
  rw [hn]
  exact hyields.bind (g := fun _ m' => some
    (some (if m.this.type = '['.toNat then State.getLparen else .getParams), m')) (.const rfl)

theorem leads_suffix (s : Suffix)
    (h : Stands lexicon rest (s.lexemes ++ y :: ls) stack out m) (hy : y ≠ .lbracket)
    (hy' : y ≠ .lparen) :
    ∃ m', Stands lexicon rest (y :: ls) stack (out ++ s.words format) m' ∧
      Leads (some .getArray, m) (some .getLparen, m') := by
  cases s with
  | arrays bounds =>
    cases bounds with
    | nil =>
      have hthis : m.this.type ≠ '['.toNat := Stands.type_ne h hy (by decide)
      obtain ⟨m₁, hm₁, hleads⟩ := leads_getArray h hy (if_neg hthis).symm
      have hthis₁ : m₁.this.type ≠ '('.toNat := hm₁.type_ne hy' (by decide)
      exact ⟨m₁, hm₁, hleads.trans (leads_of_hop (.of_eq fun _ => if_neg hthis₁))⟩
    | cons b bounds =>
      have hthis : m.this.type = '['.toNat := by
        cases b <;> exact congrArg Token.type h.this
      exact leads_getArray h hy (if_pos hthis).symm
  | params ps =>
    have hthis : m.this.type = '('.toNat := congrArg Token.type h.this
    have hnot : m.this.type ≠ '['.toNat := by
      rw [hthis]
      decide
    have harrays : Stands lexicon rest (([] : List (Option Bound)).flatMap boundLexemes ++
        .lparen :: (ps.map Subtype.val ++ .rparen :: y :: ls)) stack out m := by
      simpa [Suffix.lexemes] using h
    obtain ⟨m₁, hm₁, hleads⟩ := leads_getArray harrays
      (by simp [Lexeme.lparen, Lexeme.lbracket]) (if_neg hnot).symm
    rw [List.flatMap_nil, List.append_nil] at hm₁
    obtain ⟨m₂, hyields, hm₂⟩ := yields_functionArgs (f := format) hm₁ (by simp)
    refine ⟨m₂, hm₂, hleads.trans (leads_of_hop ?_)⟩
    have hthis₁ : m₁.this.type = '('.toNat := congrArg Token.type hm₁.this
    have hbind := hyields.bind (g := fun _ m => some (some State.getLparen, m)) (.const rfl)
    obtain ⟨N, hN⟩ := hbind
    refine ⟨N, fun n hn => ?_⟩
    exact (if_pos hthis₁).trans (hN n hn)

theorem leads_pop {t : Token} {s : List Char}
    (h : Stands lexicon rest ls (t :: stack) out m)
    (ht : t.type = '*'.toNat ∧ s = format.pointer ∨
      t.type = Tag.qualifier ∧ s = format.keyword t.string) :
    ∃ m', Stands lexicon rest ls stack (out ++ s) m' ∧
      Leads (some .getLparen, m) (some .getLparen, m') := by
  refine ⟨{ m.print s with stack }, (h.print s).withStack stack, ?_⟩
  have hparen : getLparen m = some (some .getPtrPart, m) := by
    have hne : t.type ≠ '('.toNat := by
      rcases ht with ⟨ht, -⟩ | ⟨ht, -⟩ <;> rw [ht] <;> decide
    rw [getLparen, h.stack]
    exact if_neg hne
  have hptr : getPtrPart m = some (some .getLparen, { m.print s with stack }) := by
    rcases ht with ⟨ht, rfl⟩ | ⟨ht, rfl⟩
    · rw [getPtrPart, h.stack]
      exact if_pos ht
    · have hne : t.type ≠ '*'.toNat := by
        rw [ht]
        decide
      rw [getPtrPart, h.stack]
      exact (if_neg hne).trans (if_pos ht)
  exact (leads_getLparen hparen).trans (leads_getPtrPart hptr)

theorem leads_quals (quals : List Qual)
    (h : Stands lexicon rest ls (quals.map (fun q => lexicon.token q.lexeme) ++ stack) out m) :
    ∃ m', Stands lexicon rest ls stack (out ++ quals.flatMap (fun q => format.keyword q.text)) m' ∧
      Leads (some .getLparen, m) (some .getLparen, m') := by
  induction quals generalizing m out with
  | nil => exact ⟨m, by simpa using h, fun _ => id⟩
  | cons q quals ih =>
    have hq : (lexicon.token q.lexeme).type = Tag.qualifier ∧
        format.keyword q.text = format.keyword (lexicon.token q.lexeme).string := by
      rw [lexicon_knows q]
      exact ⟨rfl, rfl⟩
    obtain ⟨m₁, hm₁, hleads₁⟩ := leads_pop h (Or.inr hq)
    obtain ⟨m₂, hm₂, hleads₂⟩ := ih hm₁
    exact ⟨m₂, by simpa using hm₂, hleads₁.trans hleads₂⟩

/-- A declarator has been said when the machine is at `get_lparen` with what was below it. -/
theorem leads_declarator (d : Declarator)
    (h : Stands lexicon rest (d.back ++ y :: ls) ((d.front.map lexicon.token).reverse ++ stack)
      out m) (hy : y ≠ .lbracket) (hy' : y ≠ .lparen) :
    ∃ m', Stands lexicon rest (y :: ls) stack (out ++ d.words format) m' ∧
      Leads (some .getArray, m) (some .getLparen, m') := by
  induction d generalizing y ls stack out m with
  | ident x s => exact leads_suffix s h hy hy'
  | group d s ih =>
    have hinner : Stands lexicon rest (d.back ++ .rparen :: (s.lexemes ++ y :: ls))
        ((d.front.map lexicon.token).reverse ++ lexicon.token .lparen :: stack) out m := by
      simpa [Declarator.front, Declarator.back] using h
    obtain ⟨m₁, hm₁, hleads₁⟩ := ih hinner
      (by simp [Lexeme.rparen, Lexeme.lbracket]) (by simp [Lexeme.rparen, Lexeme.lparen])
    -- the parenthesis below the group is popped, and the one behind it is passed
    obtain ⟨m₂, hget, hm₂⟩ := (hm₁.withStack stack).next (by simp)
    have hparen : getLparen m₁ = some (some .getArray, m₂) := by
      have htop : (lexicon.token .lparen).type = '('.toNat := rfl
      rw [getLparen, hm₁.stack]
      dsimp only
      rw [if_pos htop, hget]
      rfl
    obtain ⟨m₃, hm₃, hleads₃⟩ := leads_suffix s hm₂ hy hy'
    exact ⟨m₃, by simpa [Declarator.words] using hm₃,
      hleads₁.trans ((leads_getLparen hparen).trans hleads₃)⟩
  | ptr quals d ih =>
    have hinner : Stands lexicon rest (d.back ++ y :: ls) ((d.front.map lexicon.token).reverse ++
        (quals.reverse.map (fun q => lexicon.token q.lexeme) ++ lexicon.token .star :: stack))
        out m := by
      simpa [Declarator.front, Declarator.back, Function.comp_def] using h
    obtain ⟨m₁, hm₁, hleads₁⟩ := ih hinner hy hy'
    obtain ⟨m₂, hm₂, hleads₂⟩ := leads_quals _ hm₁
    obtain ⟨m₃, hm₃, hleads₃⟩ := leads_pop hm₂ (Or.inl ⟨rfl, rfl⟩)
    exact ⟨m₃, by simpa [Declarator.words] using hm₃, hleads₁.trans (hleads₂.trans hleads₃)⟩

/-- At the specifiers, the machine says the rest of the stack and stops. -/
theorem ends_specs (specs : List Spec)
    (h : Stands lexicon rest ls (specs.map (fun s => lexicon.token s.lexeme)) out m)
    (ht : ∃ w, Spec.type w ∈ specs) :
    ∃ m', Ends (some .getLparen, m) (none, m') ∧ m'.stack = [] ∧
      m'.stdout = out ++ specs.flatMap (fun s => format.keyword s.text) ++ "\n".toList := by
  induction specs generalizing m out with
  | nil =>
    obtain ⟨w, hw⟩ := ht
    cases hw
  | cons s specs ih =>
    cases s with
    | qual q =>
      obtain ⟨m₁, hm₁, hleads⟩ := leads_pop (t := lexicon.token q.lexeme)
        (s := format.keyword (Spec.qual q).text) h (Or.inr (by rw [lexicon_knows q]; exact ⟨rfl, rfl⟩))
      obtain ⟨w, hw⟩ := ht
      obtain ⟨m₂, hends, hstack, hout⟩ := ih hm₁ ⟨w, by simpa using hw⟩
      exact ⟨m₂, hleads _ hends, hstack, by simpa using hout⟩
    | type w =>
      have htype : (lexicon.token (Spec.type w).lexeme).type = Tag.type :=
        congrArg Token.type (lexicon_common.type w.1.1 w.2)
      have hparen : getLparen m = some (some .getPtrPart, m) := by
        rw [getLparen, h.stack]
        exact if_neg (by rw [htype]; decide)
      have hptr : getPtrPart m = some (some .getType, m) := by
        rw [getPtrPart, h.stack]
        exact (if_neg (by rw [htype]; decide)).trans (if_neg (by rw [htype]; decide))
      have htype : Leads (some .getType, m) _ := leads_of_hop (.of_eq fun _ => rfl)
      refine ⟨_, leads_getLparen hparen _ (leads_getPtrPart hptr _ (htype _ (.done rfl))), rfl, ?_⟩
      dsimp only
      rw [h.stack, h.stdout, List.flatMap_map]
      simp only [token_spec_string lexicon_common fun q _ => lexicon_knows q]

variable {d : Declaration} {text : List Char}

theorem loops_main (h : Spells rest d.lexemes text) (hlen : d.front.length ≤ maxTokens) :
    ∃ m, Ends (some .initial, .init text) (none, m) ∧ m.stack = [] ∧ m.stdout = d.words format := by
  obtain ⟨m₁, hread, hm₁⟩ := yields_readName lexicon_common (fun q _ => lexicon_knows q) h hlen
  obtain ⟨m₂, hm₂, hleads⟩ := leads_declarator d.declarator hm₁
    (by simp [Lexeme.semicolon, Lexeme.lbracket]) (by simp [Lexeme.semicolon, Lexeme.lparen])
  obtain ⟨w, hw⟩ := d.typed
  obtain ⟨m₃, hends, hstack, hout⟩ := ends_specs _ hm₂ ⟨w, List.mem_reverse.mpr hw⟩
  refine ⟨m₃, ?_, hstack, by rw [hout, Declaration.words]⟩
  have hinitial : Yields (fun n => hop n (some .initial, .init text)) (some .getArray, m₁) :=
    hread.bind (g := fun _ m => some (some State.getArray, m)) (.const rfl)
  exact Loops.turn rfl hinitial (hleads _ hends)

theorem yields_main (h : Ends (some .initial, .init text) (none, m)) : Yields (main text) m :=
  (Loops.yields h).bind (g := fun _ (x : Option State × Reader) => some x.2) (.const rfl)

/-- On every declaration whose front fits the stack, the state machine stops with an empty stack
and has printed the words of the precedence rule. -/
theorem machine_words (h : Spells rest d.lexemes text) (hlen : d.front.length ≤ maxTokens) :
    ∃ m, Yields (main text) m ∧ m.stack = [] ∧ m.stdout = d.words format := by
  obtain ⟨m, hloops, hstack, hout⟩ := loops_main h hlen
  exact ⟨m, yields_main hloops, hstack, hout⟩

/-- `char * const ( * next [ ] ) ( )`, for the test below. -/
def next : Declaration where
  specs := [.type ⟨⟨"char".toList, by simp [maxTokenLen]⟩, by simp [typeWords]⟩]
  declarator := .ptr [.const] (.group (.ptr [] (.ident
    ⟨⟨"next".toList, by simp [maxTokenLen]⟩, by simp [typeWords]⟩ (.arrays [none]))) (.params []))
  typed := ⟨_, List.mem_cons_self ..⟩

theorem machine_words_sample : ∃ m,
    Yields (main (next.lexemes.flatMap fun x => ' ' :: x.text)) m ∧ m.stack = [] ∧
      m.stdout = next.words format :=
  machine_words (spells_blanks _) (by decide)

example : next.words format =
    "next is array of pointer to function returning   read-only pointer to char \n".toList := by
  decide

end Somenote.Cdecl.Machine
