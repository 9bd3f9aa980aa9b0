import Somenote.Cdecl.Lexer

/-! # Declarations

The declarations that both readers accept, how they are spelled, and the words of the
precedence rule for them: what is behind a name is said from left to right, what is in front of
it from right to left, from the innermost parentheses outwards.
-/

namespace Somenote.Cdecl

/-- A word that fits a token. -/
abbrev Word := {w : List Char // w ≠ [] ∧ (∀ c ∈ w, c.isAlphanum = true) ∧ w.length < maxTokenLen}

/-- A character that is a token. -/
abbrev Punct := {c : Char // c ≠ ' ' ∧ c.isAlphanum = false}

inductive Lexeme
  | word (w : Word)
  | punct (c : Punct)

def Lexeme.text : Lexeme → List Char
  | word w => w.1
  | punct c => [c.1]

/-- What may stand behind a lexeme with no blank between them. Behind a word, the readers lose the
character that stands for the end of the input. -/
def Lexeme.Apart : Lexeme → List Char → Prop
  | word _, s => ∀ c ∈ s.head?, c.isAlphanum = false ∧ c ≠ eof
  | punct _, _ => True

/-- The text spells the lexemes and goes on with `rest`; blanks may stand between them, and do
between words. -/
inductive Spells (rest : List Char) : List Lexeme → List Char → Prop
  | nil : Spells rest [] rest
  | cons (n : ℕ) {l : Lexeme} {ls : List Lexeme} {s : List Char} (hl : l.Apart s)
      (h : Spells rest ls s) : Spells rest (l :: ls) (List.replicate n ' ' ++ l.text ++ s)

theorem spells_blanks (ls : List Lexeme) : Spells [] ls (ls.flatMap fun l => ' ' :: l.text) := by
  induction ls with
  | nil => exact .nil
  | cons l ls ih =>
    have hl : l.Apart (ls.flatMap fun l => ' ' :: l.text) := by
      cases l with
      | punct c => trivial
      | word w =>
        intro c hc
        cases ls with
        | nil => cases hc
        | cons l ls =>
          obtain rfl : ' ' = c := Option.some.inj hc
          decide
    simpa using ih.cons 1 hl

namespace Lexeme

def lparen : Lexeme := punct ⟨'(', by decide⟩

def rparen : Lexeme := punct ⟨')', by decide⟩

def lbracket : Lexeme := punct ⟨'[', by decide⟩

def rbracket : Lexeme := punct ⟨']', by decide⟩

def star : Lexeme := punct ⟨'*', by decide⟩

def semicolon : Lexeme := punct ⟨';', by decide⟩

end Lexeme

inductive Qual | const | static | volatile
  deriving DecidableEq, Repr

def Qual.word : Qual → Word
  | const => ⟨"const".toList, by simp [maxTokenLen]⟩
  | static => ⟨"static".toList, by simp [maxTokenLen]⟩
  | volatile => ⟨"volatile".toList, by simp [maxTokenLen]⟩

/-- What is said for a qualifier. -/
def Qual.text : Qual → List Char
  | const => " read-only".toList
  | static => " private ".toList
  | volatile => "volatile".toList

inductive Spec
  | type (w : {w : Word // w.1 ∈ typeWords})
  | qual (q : Qual)

def Spec.word : Spec → Word
  | type w => w.1
  | qual q => q.word

def Spec.text : Spec → List Char
  | type w => w.1.1
  | qual q => q.text

/-- A word that is no keyword. -/
abbrev Name :=
  {w : Word // w.1 ∉ typeWords ∧ w.1 ∉ ["const".toList, "static".toList, "volatile".toList]}

/-- A decimal bound of an array. -/
abbrev Bound := {w : Word // ∀ c ∈ w.1, c.isDigit = true}

/-- A lexeme of a parameter list. -/
abbrev Param := {l : Lexeme // l ≠ .lparen ∧ l ≠ .rparen}

inductive Suffix
  | arrays (bounds : List (Option Bound))
  | params (ps : List Param)

inductive Declarator
  | ident (x : Name) (s : Suffix)
  | group (d : Declarator) (s : Suffix)
  | ptr (quals : List Qual) (d : Declarator)

/-- A declaration has a type among its specifiers. -/
structure Declaration where
  specs : List Spec
  declarator : Declarator
  typed : ∃ w, Spec.type w ∈ specs

section Spelling

def boundLexemes : Option Bound → List Lexeme
  | none => [.lbracket, .rbracket]
  | some b => [.lbracket, .word b.1, .rbracket]

def Suffix.lexemes : Suffix → List Lexeme
  | arrays bounds => bounds.flatMap boundLexemes
  | params ps => .lparen :: ps.map Subtype.val ++ [.rparen]

def Qual.lexeme (q : Qual) : Lexeme := .word q.word

def Spec.lexeme (s : Spec) : Lexeme := .word s.word

namespace Declarator

def name : Declarator → Name
  | ident x _ => x
  | group d _ => d.name
  | ptr _ d => d.name

def lexemes : Declarator → List Lexeme
  | ident x s => .word x.1 :: s.lexemes
  | group d s => .lparen :: d.lexemes ++ .rparen :: s.lexemes
  | ptr quals d => .star :: quals.map Qual.lexeme ++ d.lexemes

/-- The lexemes in front of the identifier. -/
def front : Declarator → List Lexeme
  | ident _ _ => []
  | group d _ => .lparen :: d.front
  | ptr quals d => .star :: quals.map Qual.lexeme ++ d.front

/-- The lexemes behind the identifier. -/
def back : Declarator → List Lexeme
  | ident _ s => s.lexemes
  | group d s => d.back ++ .rparen :: s.lexemes
  | ptr _ d => d.back

def quals : Declarator → List Qual
  | ident _ _ => []
  | group d _ => d.quals
  | ptr quals d => quals ++ d.quals

theorem lexemes_eq (d : Declarator) : d.lexemes = d.front ++ .word d.name.1 :: d.back := by
  induction d with
  | ident x s => rfl
  | group d s ih => simp [lexemes, front, back, name, ih]
  | ptr quals d ih => simp [lexemes, front, back, name, ih]

end Declarator

namespace Declaration

def lexemes (d : Declaration) : List Lexeme :=
  d.specs.map Spec.lexeme ++ d.declarator.lexemes ++ [.semicolon]

/-- The lexemes in front of the identifier. -/
def front (d : Declaration) : List Lexeme := d.specs.map Spec.lexeme ++ d.declarator.front

/-- The qualifiers of a declaration, among its specifiers and behind its pointers. -/
def Mentions (d : Declaration) (q : Qual) : Prop := Spec.qual q ∈ d.specs ∨ q ∈ d.declarator.quals

end Declaration

end Spelling

section Words

variable (f : Format)

def boundWords : Option Bound → List Char
  | none => f.array ++ f.of
  | some b => f.array ++ f.upTo (lastIndex b.1.1) ++ f.of

def Suffix.words : Suffix → List Char
  | arrays bounds => bounds.flatMap (boundWords f)
  | params _ => f.function

/-- The suffix of a name or a group, then the pointers in front of it. -/
def Declarator.words : Declarator → List Char
  | ident _ s => s.words f
  | group d s => d.words ++ s.words f
  | ptr quals d => d.words ++ quals.reverse.flatMap (fun q => f.keyword q.text) ++ f.pointer

def Declaration.words (d : Declaration) : List Char :=
  d.declarator.name.1.1 ++ " is ".toList ++ d.declarator.words f ++
    d.specs.reverse.flatMap (fun s => f.keyword s.text) ++ "\n".toList

end Words

end Somenote.Cdecl
