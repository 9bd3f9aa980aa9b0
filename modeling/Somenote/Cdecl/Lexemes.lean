import Somenote.Cdecl.Cursor

/-! # The lexemes of any input

Every input is a list of words and other characters, with blanks between them. `gettoken` takes
the first of them, and fails on a word that does not fit its token. A byte 255 that ends a word is
lost, and is no lexeme.
-/

namespace Somenote.Cdecl

/-- The words of a text, of any length, and its other characters. The byte 255 that ends a word is
none of them. -/
def lexemes : List Char → List (List Char)
  | [] => []
  | c :: cs =>
    if c = ' ' then lexemes cs
    else if c.isAlphanum && cs.head?.any Char.isAlphanum then
      match lexemes cs with
      | [] => [[c]]
      | w :: ws => (c :: w) :: ws
    else if c.isAlphanum && cs.head? = some eof then [c] :: (lexemes cs).tail
    else [c] :: lexemes cs

variable {l : Lexicon} {c : Char} {q s cs w : List Char} {ws : List (List Char)} {m : Reader}

theorem lexemes_blank : lexemes (' ' :: cs) = lexemes cs := if_pos rfl

theorem lexemes_punct (hb : c ≠ ' ') (hc : c.isAlphanum = false) :
    lexemes (c :: cs) = [c] :: lexemes cs := by
  simp [lexemes, hb, hc]

theorem lexemes_eof : lexemes (eof :: cs) = [eof] :: lexemes cs :=
  lexemes_punct (by decide) (by decide)

theorem lexemes_word (hc : c.isAlphanum = true) : lexemes (c :: cs) =
    (c :: cs.takeWhile Char.isAlphanum) :: lexemes (ungetc (cs.dropWhile Char.isAlphanum)) := by
  have hb : c ≠ ' ' := by
    rintro rfl
    exact absurd hc (by decide)
  induction cs generalizing c with
  | nil => simp [lexemes, hb, ungetc]
  | cons d cs ih =>
    rw [lexemes, if_neg hb]
    by_cases hd : d.isAlphanum = true
    · have hdb : d ≠ ' ' := by
        rintro rfl
        exact absurd hd (by decide)
      simp [hc, hd, ih hd hdb]
    · by_cases he : d = eof
      · subst he
        simp [hc, hd, lexemes_eof, ungetc]
      · simp [hd, he, ungetc]

example : lexemes ['f', eof, '('] = [['f'], ['(']] := by decide

theorem lexemes_cons (h : lexemes q = w :: ws) : ∃ n c cs, q = List.replicate n ' ' ++ c :: cs ∧
    c ≠ ' ' ∧ (c.isAlphanum = true ∧ w = c :: cs.takeWhile Char.isAlphanum ∧
      ws = lexemes (ungetc (cs.dropWhile Char.isAlphanum)) ∨
      c.isAlphanum = false ∧ w = [c] ∧ ws = lexemes cs) := by
  induction q with
  | nil => cases h
  | cons c cs ih =>
    by_cases hb : c = ' '
    · subst hb
      rw [lexemes_blank] at h
      obtain ⟨n, d, ds, rfl, hrest⟩ := ih h
      exact ⟨n + 1, d, ds, rfl, hrest⟩
    · refine ⟨0, c, cs, rfl, hb, ?_⟩
      cases hc : c.isAlphanum with
      | true =>
        rw [lexemes_word hc] at h
        obtain ⟨rfl, rfl⟩ := List.cons.inj h
        exact Or.inl ⟨rfl, rfl, rfl⟩
      | false =>
        rw [lexemes_punct hb hc] at h
        obtain ⟨rfl, rfl⟩ := List.cons.inj h
        exact Or.inr ⟨rfl, rfl, rfl⟩

theorem head_mem_of_lexemes (h : lexemes q = w :: ws) : ∃ c cs, w = c :: cs ∧ c ∈ q := by
  obtain ⟨n, c, cs, rfl, -, ⟨-, rfl, -⟩ | ⟨-, rfl, -⟩⟩ := lexemes_cons h
  · exact ⟨c, _, rfl, by simp⟩
  · exact ⟨c, [], rfl, by simp⟩

theorem lexemes_nil (h : lexemes q = []) : ∃ n, q = List.replicate n ' ' := by
  induction q with
  | nil => exact ⟨0, rfl⟩
  | cons c cs ih =>
    by_cases hb : c = ' '
    · subst hb
      rw [lexemes_blank] at h
      obtain ⟨n, rfl⟩ := ih h
      exact ⟨n + 1, rfl⟩
    · cases hc : c.isAlphanum with
      | true =>
        rw [lexemes_word hc] at h
        cases h
      | false =>
        rw [lexemes_punct hb hc] at h
        cases h

/-- The token of a lexeme. The empty text stands for the end of the input. -/
def Lexicon.tokenOf (l : Lexicon) : List Char → Token
  | [] => ⟨eof.toNat, [eof]⟩
  | c :: cs => if c.isAlphanum then classifyString l (c :: cs) else ⟨c.toNat, l.punct c⟩

theorem ungetc_suffix : ungetc s <:+ s := by
  rw [ungetc]
  split
  · exact List.tail_suffix s
  · exact List.suffix_rfl

theorem ungetc_append (hs : ∀ d ∈ s.head?, d ≠ eof) : ungetc (cs ++ s) = ungetc cs ++ s := by
  cases cs with
  | nil =>
    rw [List.nil_append]
    exact if_neg fun he => hs eof he rfl
  | cons c cs => by_cases hc : c = eof <;> simp [ungetc, hc]

theorem split_word (hs : ∀ d ∈ s.head?, d.isAlphanum = false) :
    (cs ++ s).takeWhile Char.isAlphanum = cs.takeWhile Char.isAlphanum ∧
      (cs ++ s).dropWhile Char.isAlphanum = cs.dropWhile Char.isAlphanum ++ s := by
  induction cs with
  | nil =>
    cases s with
    | nil => exact ⟨rfl, rfl⟩
    | cons d s =>
      have hd : d.isAlphanum = false := hs d rfl
      simp [hd]
  | cons d cs ih =>
    cases hd : d.isAlphanum with
    | true => simpa [hd] using ih
    | false => simp [hd]

section Append

variable (hin : m.stdin = q ++ s) (hs : ∀ d ∈ s.head?, d.isAlphanum = false ∧ d ≠ eof)
include hin hs

/-- `gettoken` takes the first lexeme of what is in front of `s`. -/
theorem gettoken_append (hq : lexemes q = w :: ws) (hw : w.length < maxTokenLen) :
    ∃ q', q' <:+ q ∧ lexemes q' = ws ∧
      gettoken l m = some { m with this := l.tokenOf w, stdin := q' ++ s } := by
  obtain ⟨n, c, cs, rfl, hb, ⟨hc, rfl, rfl⟩ | ⟨hc, rfl, rfl⟩⟩ := lexemes_cons hq
  · have hsplit := @split_word s cs fun d hd => (hs d hd).1
    refine ⟨ungetc (cs.dropWhile Char.isAlphanum), ?_, rfl, ?_⟩
    · exact ((ungetc_suffix.trans (List.dropWhile_suffix _)).trans (List.suffix_cons ..)).trans
        (List.suffix_append ..)
    · rw [gettoken, hin, List.append_assoc, List.cons_append, dropWhile_blanks n hb]
      dsimp only
      rw [if_pos hc, hsplit.1, hsplit.2, ungetc_append fun d hd => (hs d hd).2, if_pos hw]
      simp [Lexicon.tokenOf, hc]
  · refine ⟨cs, (List.suffix_cons ..).trans (List.suffix_append ..), rfl, ?_⟩
    rw [gettoken, hin, List.append_assoc, List.cons_append, dropWhile_blanks n hb]
    simp [hc, Lexicon.tokenOf]

theorem gettoken_long (hq : lexemes q = w :: ws) (hw : maxTokenLen ≤ w.length) :
    gettoken l m = none := by
  obtain ⟨n, c, cs, rfl, hb, ⟨hc, rfl, rfl⟩ | ⟨hc, rfl, rfl⟩⟩ := lexemes_cons hq
  · rw [gettoken, hin, List.append_assoc, List.cons_append, dropWhile_blanks n hb]
    dsimp only
    rw [if_pos hc, (split_word fun d hd => (hs d hd).1).1, if_neg (Nat.not_lt.mpr hw)]
  · simp [maxTokenLen] at hw

end Append

end Somenote.Cdecl
