import Somenote.Bytes.Decimal

/-! # Comments and literals

A text of C is read byte by byte. The reader stands in the plain text, in a comment or in a
literal. A reading says which bytes quote a literal, and which bytes directly behind a slash are
taken as they are.
-/

namespace Somenote.Text

abbrev slash : Byte := 47

abbrev star : Byte := 42

abbrev backslash : Byte := 92

abbrev quote : Byte := 39

abbrev doubleQuote : Byte := 34

/-- Where the reader stands. In the modes `slash` and `star` the last byte was a slash of the
plain text or a star of a comment, in `escape` it was a backslash of a literal. -/
inductive Mode
  | text | slash | comment | star
  | literal (q : Byte)
  | escape (q : Byte)
  deriving DecidableEq, Repr

namespace Mode

/-- Outside of comments and literals. -/
def outside : Mode → Bool
  | text => true
  | slash => true
  | _ => false

/-- Inside of a comment. -/
def commented : Mode → Bool
  | comment => true
  | star => true
  | _ => false

/-- The slash that waits for the next byte. -/
def held : Mode → List Byte
  | slash => [Text.slash]
  | _ => []

end Mode

structure Reading where
  quotes : Byte → Bool
  plain : Byte → Bool

/-- The reading of C: both quotes, and no byte is plain because of the slash in front. -/
def standard : Reading where
  quotes c := c = quote || c = doubleQuote
  plain _ := false

namespace Reading

variable (R : Reading)

def start (c : Byte) : Mode :=
  if c = slash then .slash else if R.quotes c then .literal c else .text

def next : Mode → Byte → Mode
  | .text, c => R.start c
  | .slash, c => if c = star then .comment else if R.plain c then .text else R.start c
  | .comment, c => if c = star then .star else .comment
  | .star, c => if c = slash then .text else if c = star then .star else .comment
  | .literal q, c => if c = q then .text else if c = backslash then .escape q else .literal q
  | .escape q, _ => .literal q

/-- Where the reader stands behind a text. -/
def final (m : Mode) (s : List Byte) : Mode := s.foldl R.next m

/-- Each comment and each literal of the text ends. -/
def Terminated (s : List Byte) : Prop := (R.final .text s).outside = true

instance (s : List Byte) : Decidable (R.Terminated s) := inferInstanceAs (Decidable (_ = true))

/-- What a byte adds to the text without its comments. -/
def put (m : Mode) (c : Byte) : List Byte :=
  if m.commented ∨ R.next m c = .comment then []
  else if R.next m c = .slash then m.held
  else m.held ++ [c]

/-- The text without its comments. -/
def kept : Mode → List Byte → List Byte
  | m, [] => m.held
  | m, c :: s => R.put m c ++ kept (R.next m c) s

/-- The weight of the bytes that are read outside of comments and literals. -/
def weigh (w : Byte → ℤ) : Mode → List Byte → ℤ
  | _, [] => 0
  | m, c :: s => (if m.outside then w c else 0) + weigh w (R.next m c) s

/-- The bytes up to the first one that leads back into the plain text, and the rest. -/
def leave : Mode → List Byte → Option (List Byte × List Byte)
  | _, [] => none
  | m, c :: s =>
    if R.next m c = .text then some ([c], s)
    else (leave (R.next m c) s).map fun x => (c :: x.1, x.2)

variable {R} {m : Mode} {c q : Byte} {s p r : List Byte}

@[simp] theorem final_nil : R.final m [] = m := rfl

@[simp] theorem final_cons : R.final m (c :: s) = R.final (R.next m c) s := rfl

theorem start_of_ne (hc : c ≠ slash) (hq : R.quotes c = false) : R.start c = .text := by
  rw [start, if_neg hc, hq]
  rfl

theorem start_of_quotes (hc : c ≠ slash) (hq : R.quotes c = true) : R.start c = .literal c := by
  rw [start, if_neg hc, if_pos hq]

theorem next_inside (hm : m.outside = false) (hn : R.next m c ≠ .text) :
    (R.next m c).outside = false ∧ (R.next m c).commented = m.commented := by
  cases m with
  | text => cases hm
  | slash => cases hm
  | comment => simp only [next]; split <;> exact ⟨rfl, rfl⟩
  | star =>
    simp only [next] at hn ⊢
    split_ifs at hn ⊢
    · exact absurd rfl hn
    · exact ⟨rfl, rfl⟩
    · exact ⟨rfl, rfl⟩
  | literal q =>
    simp only [next] at hn ⊢
    split_ifs at hn ⊢
    · exact absurd rfl hn
    · exact ⟨rfl, rfl⟩
    · exact ⟨rfl, rfl⟩
  | escape q => exact ⟨rfl, rfl⟩

theorem leave_cons_text (h : R.next m c = .text) : R.leave m (c :: s) = some ([c], s) := by
  rw [leave, if_pos h]

theorem leave_cons (h : R.next m c ≠ .text) :
    R.leave m (c :: s) = (R.leave (R.next m c) s).map fun x => (c :: x.1, x.2) := by
  rw [leave, if_neg h]

/-- What holds behind each byte up to the first one that leads back into the text. -/
theorem leave_induct {P : Mode → List Byte → List Byte → List Byte → Prop}
    (hlast : ∀ m c s, m.outside = false → R.next m c = .text → P m (c :: s) [c] s)
    (hcons : ∀ m c s p r, m.outside = false → R.next m c ≠ .text →
      P (R.next m c) s p r → P m (c :: s) (c :: p) r)
    (hm : m.outside = false) (h : R.leave m s = some (p, r)) : P m s p r := by
  induction s generalizing m p with
  | nil => cases h
  | cons c s ih =>
    by_cases hn : R.next m c = .text
    · rw [leave_cons_text hn] at h
      cases h
      exact hlast _ _ _ hm hn
    · rw [leave_cons hn] at h
      obtain ⟨⟨p', r'⟩, h', heq⟩ := Option.map_eq_some_iff.mp h
      cases heq
      exact hcons m c s p' r' hm hn (ih (next_inside hm hn).1 h')

/-- What holds at the end, and in front of each byte that does not lead back into the text. -/
theorem leave_none_induct {P : Mode → List Byte → Prop} (hnil : ∀ m, m.outside = false → P m [])
    (hcons : ∀ m c s, m.outside = false → P (R.next m c) s → P m (c :: s))
    (hm : m.outside = false) (h : R.leave m s = none) : P m s := by
  induction s generalizing m with
  | nil => exact hnil m hm
  | cons c s ih =>
    by_cases hn : R.next m c = .text
    · rw [leave_cons_text hn] at h
      cases h
    · rw [leave_cons hn] at h
      exact hcons m c s hm (ih (next_inside hm hn).1 (Option.map_eq_none_iff.mp h))

theorem length_leave (hm : m.outside = false) (h : R.leave m s = some (p, r)) :
    r.length < s.length := by
  refine leave_induct (P := fun _ s _ r => r.length < s.length) ?_ ?_ hm h
  · exact fun _ _ s _ _ => Nat.lt_succ_self _
  · exact fun _ _ _ _ _ _ _ ih => Nat.lt_succ_of_lt ih

theorem final_leave (hm : m.outside = false) (h : R.leave m s = some (p, r)) :
    R.final m s = R.final .text r := by
  refine leave_induct (P := fun m s _ r => R.final m s = R.final .text r) ?_ ?_ hm h
  · intro m c s _ hn
    rw [final_cons, hn]
  · exact fun _ _ _ _ _ _ _ ih => ih

theorem final_of_leave_eq_none (hm : m.outside = false) (h : R.leave m s = none) :
    (R.final m s).outside = false := by
  refine leave_none_induct (P := fun m s => (R.final m s).outside = false) ?_ ?_ hm h
  · exact fun _ hm => hm
  · exact fun _ _ _ _ ih => ih

theorem put_text (h : R.next m c = .text) (hm : m.commented = false) :
    R.put m c = m.held ++ [c] := by
  rw [put, h, hm]
  simp

theorem put_literal (h : R.next m c = .literal q) (hm : m.commented = false) :
    R.put m c = m.held ++ [c] := by
  rw [put, h, hm]
  simp

theorem put_inside (hm : m.outside = false) :
    R.put m c = if m.commented then [] else [c] := by
  cases m with
  | text => cases hm
  | slash => cases hm
  | comment => rfl
  | star => rfl
  | literal q =>
    change R.put (.literal q) c = [c]
    rw [put, next]
    split_ifs <;> simp_all [Mode.commented, Mode.held]
  | escape q => rfl

theorem kept_leave (hm : m.outside = false) (h : R.leave m s = some (p, r)) :
    R.kept m s = (if m.commented then [] else p) ++ R.kept .text r := by
  refine leave_induct (P := fun m s p r =>
    R.kept m s = (if m.commented then [] else p) ++ R.kept .text r) ?_ ?_ hm h
  · intro m c s hm hn
    rw [kept, hn, put_inside hm]
  · intro m c s p r hm hn ih
    rw [kept, put_inside hm, ih, (next_inside hm hn).2]
    split <;> rfl

/-- Two readings that take each byte of a text the same way. -/
theorem agree {R' : Reading}
    (h : ∀ p c r, s = p ++ c :: r → R.next (R.final m p) c = R'.next (R.final m p) c) :
    R.final m s = R'.final m s ∧ R.kept m s = R'.kept m s := by
  induction s generalizing m with
  | nil => exact ⟨rfl, rfl⟩
  | cons c s ih =>
    have hnext : R.next m c = R'.next m c := h [] c s rfl
    obtain ⟨hfinal, hkept⟩ := ih (m := R.next m c) fun p b r hs => h (c :: p) b r (by rw [hs]; rfl)
    have hput : R.put m c = R'.put m c := by rw [put, put, hnext]
    constructor
    · rw [final_cons, final_cons, ← hnext, hfinal]
    · rw [kept, kept, hput, ← hnext, hkept]

end Reading

end Somenote.Text
