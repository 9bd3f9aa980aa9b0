import Mathlib.Data.List.TakeWhile
import Somenote.Cdecl.Grammar

/-! # The cursor of a reader

A reader has the token of a lexeme at hand, and its input spells those behind it. `gettoken`
moves it to the next one, and the loops that the readers share move it over what they read.
-/

namespace Somenote.Cdecl

variable {l : Lexicon} {rest s : List Char} {x : Lexeme} {ls : List Lexeme}
  {stack : List Token} {out : List Char} {m : Reader}

def Lexicon.token (l : Lexicon) : Lexeme → Token
  | .word w => classifyString l w.1
  | .punct c => ⟨c.1.toNat, l.punct c.1⟩

/-- The lexemes `ls`, a stack and an output of a reader. -/
structure Stands (l : Lexicon) (rest : List Char) (ls : List Lexeme) (stack : List Token)
    (out : List Char) (m : Reader) : Prop where
  stack : m.stack = stack
  stdout : m.stdout = out
  cursor : ∃ x xs, ls = x :: xs ∧ m.this = l.token x ∧ Spells rest xs m.stdin

theorem dropWhile_blanks (n : ℕ) {c : Char} (hc : c ≠ ' ') :
    (List.replicate n ' ' ++ c :: s).dropWhile (· = ' ') = c :: s := by
  induction n with
  | zero => simp [hc]
  | succ n ih => simpa [List.replicate_succ] using ih

theorem blank_not_alphanum {c : Char} (hc : c.isAlphanum = true) : c ≠ ' ' := by
  rintro rfl
  exact absurd hc (by decide)

theorem gettoken_spells (h : Spells rest (x :: ls) m.stdin) :
    ∃ s, gettoken l m = some { m with this := l.token x, stdin := s } ∧ Spells rest ls s := by
  generalize hin : m.stdin = text at h
  cases h with
  | @cons n _ _ s hx h =>
    refine ⟨s, ?_, h⟩
    cases x with
    | punct c =>
      have hc := c.2.2
      rw [gettoken, hin, List.append_assoc, Lexeme.text, List.singleton_append,
        dropWhile_blanks n c.2.1]
      simp [hc, Lexicon.token]
    | word w =>
      obtain ⟨w, hne, hw, hlen⟩ := w
      obtain ⟨c, cs, rfl⟩ := List.exists_cons_of_ne_nil hne
      have hc : c.isAlphanum = true := hw c (List.mem_cons_self ..)
      have hcs : ∀ d ∈ cs, d.isAlphanum = true := fun d hd => hw d (List.mem_cons_of_mem c hd)
      -- the word ends where the lexeme does
      have hstop : s.takeWhile Char.isAlphanum = [] ∧ s.dropWhile Char.isAlphanum = s := by
        cases s with
        | nil => exact ⟨rfl, rfl⟩
        | cons d s =>
          have hd : d.isAlphanum = false := (hx d rfl).1
          simp [hd]
      have hback : ungetc s = s := if_neg fun he => (hx eof he).2 rfl
      have htake : (cs ++ s).takeWhile Char.isAlphanum = cs := by
        rw [List.takeWhile_append_of_pos hcs, hstop.1, List.append_nil]
      have hdrop : (cs ++ s).dropWhile Char.isAlphanum = s := by
        rw [List.dropWhile_append_of_pos hcs, hstop.2]
      rw [gettoken, hin, List.append_assoc, Lexeme.text, List.cons_append,
        dropWhile_blanks n (blank_not_alphanum hc)]
      simp only [hc, htake, hdrop, hback, if_true]
      rw [if_pos hlen]
      rfl

namespace Stands

theorem this (h : Stands l rest (x :: ls) stack out m) : m.this = l.token x := by
  obtain ⟨x', xs, heq, hthis, -⟩ := h.cursor
  obtain ⟨rfl, rfl⟩ := List.cons.inj heq
  exact hthis

theorem spells (h : Stands l rest (x :: ls) stack out m) : Spells rest ls m.stdin := by
  obtain ⟨x', xs, heq, -, hs⟩ := h.cursor
  obtain ⟨rfl, rfl⟩ := List.cons.inj heq
  exact hs

theorem print (h : Stands l rest ls stack out m) (s : List Char) :
    Stands l rest ls stack (out ++ s) (m.print s) :=
  ⟨h.stack, congrArg (fun o => o ++ s) h.stdout, h.cursor⟩

theorem withStack (h : Stands l rest ls stack out m) (stack' : List Token) :
    Stands l rest ls stack' out { m with stack := stack' } :=
  ⟨rfl, h.stdout, h.cursor⟩

end Stands

theorem stands_start (h : Spells rest ls m.stdin) (hls : ls ≠ []) :
    ∃ m', gettoken l m = some m' ∧ Stands l rest ls m.stack m.stdout m' := by
  obtain ⟨y, ys, rfl⟩ := List.exists_cons_of_ne_nil hls
  obtain ⟨s, hget, hs⟩ := gettoken_spells (l := l) h
  exact ⟨_, hget, rfl, rfl, y, ys, rfl, rfl, hs⟩

theorem Stands.next (h : Stands l rest (x :: ls) stack out m) (hls : ls ≠ []) :
    ∃ m', gettoken l m = some m' ∧ Stands l rest ls stack out m' := by
  obtain ⟨m', hget, hm'⟩ := stands_start (l := l) h.spells hls
  rw [h.stack, h.stdout] at hm'
  exact ⟨m', hget, hm'⟩

/-- The loop that pushes the lexemes in front of the identifier. -/
theorem loops_front {front : List Lexeme} (h : Stands l rest (front ++ x :: ls) stack out m)
    (hfront : ∀ y ∈ front, (l.token y).type ≠ Tag.identifier)
    (hx : (l.token x).type = Tag.identifier) (hlen : stack.length + front.length ≤ maxTokens) :
    ∃ m', Loops (fun m : Reader => m.this.type ≠ Tag.identifier)
        (fun _ m => m.push >>= gettoken l) m m' ∧
      Stands l rest (x :: ls) ((front.map l.token).reverse ++ stack) out m' := by
  induction front generalizing m stack with
  | nil => exact ⟨m, .done (by simp [h.this, hx]), by simpa using h⟩
  | cons y front ih =>
    have hy := hfront y (List.mem_cons_self ..)
    simp only [List.length_cons] at hlen
    have hpush : m.push = some { m with stack := m.this :: m.stack } := by
      rw [Reader.push, if_pos (by rw [h.stack]; omega)]
    obtain ⟨m', hget, hm'⟩ := (h.withStack (m.this :: m.stack)).next (by simp)
    obtain ⟨m'', hloop, hm''⟩ := ih hm' (fun z hz => hfront z (List.mem_cons_of_mem y hz))
      (by rw [List.length_cons, h.stack]; omega)
    refine ⟨m'', .turn (by simpa [h.this] using hy) (.const ?_) hloop, ?_⟩
    · rw [hpush]
      exact hget
    · rw [h.this, h.stack] at hm''
      simpa using hm''

theorem yields_readToFirstIdentifier {front : List Lexeme} {text : List Char}
    (h : Spells rest (front ++ x :: ls) text) (hls : ls ≠ [])
    (hfront : ∀ z ∈ front, (l.token z).type ≠ Tag.identifier)
    (hx : (l.token x).type = Tag.identifier) (hlen : front.length ≤ maxTokens) :
    ∃ m, Yields (fun n => readToFirstIdentifier l n (.init text)) m ∧
      Stands l rest ls (front.map l.token).reverse ((l.token x).string ++ " is ".toList) m := by
  obtain ⟨m₁, hget, hm₁⟩ := stands_start (l := l) (m := .init text) h (by simp)
  rw [Reader.init] at hm₁
  obtain ⟨m₂, hloop, hm₂⟩ := loops_front hm₁ hfront hx (by simpa using hlen)
  rw [List.append_nil] at hm₂
  obtain ⟨m₃, hget', hm₃⟩ := (hm₂.print (m₂.this.string ++ " is ".toList)).next hls
  refine ⟨m₃, ?_, by simpa [hm₂.this] using hm₃⟩
  have hyields := hloop.yields.bind
    (g := fun _ m => gettoken l (m.print (m.this.string ++ " is ".toList)))
    (.const hget')
  unfold readToFirstIdentifier
  rw [hget]
  exact hyields

end Somenote.Cdecl
