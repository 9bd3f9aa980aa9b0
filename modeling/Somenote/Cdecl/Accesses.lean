import Somenote.Cdecl.Stops

/-! # The bounds of the arrays

The indices at which the state machine accesses its stack and writes the text of a token. A turn
of the machine fails exactly when one of its accesses is out of bounds.
-/

namespace Somenote.Cdecl

namespace Machine

/-- An access to `stack`, or a character written into `this.string`. -/
inductive Access
  | stack (i : ℤ)
  | string (i : ℕ)
  deriving DecidableEq, Repr

def Access.Inside : Access → Prop
  | stack i => 0 ≤ i ∧ i < maxTokens
  | string i => i < maxTokenLen

def top (m : Reader) : ℤ := (m.stack.length : ℤ) - 1

/-- `gettoken` writes each character of a word, and the one behind it. -/
def gettokenAccesses (m : Reader) : List Access :=
  match m.stdin.dropWhile (· = ' ') with
  | [] => [.string 0, .string 1]
  | c :: cs =>
    if c.isAlphanum then
      (List.range ((cs.takeWhile Char.isAlphanum).length + 2)).map .string
    else [.string 0, .string 1]

/-- The accesses behind a step, unless it failed. -/
def behind (x : Option Reader) (f : Reader → List Access) : List Access := x.elim [] f

def arraySuffixAccesses (m : Reader) : List Access :=
  gettokenAccesses m ++ behind (gettoken lexicon (m.print format.array)) fun m =>
    if m.this.isDigit then
      gettokenAccesses m ++
        behind (gettoken lexicon (m.print (format.upTo (lastIndex m.this.string)))) gettokenAccesses
    else gettokenAccesses m

def getLparenAccesses (m : Reader) : List Access :=
  match m.stack with
  | [] => []
  | t :: stack =>
    if t.type = '('.toNat then
      [.stack (top m), .stack (top m)] ++ gettokenAccesses { m with stack }
    else [.stack (top m)]

/-- The accesses of a turn. -/
def accesses : Config → List Access
  | (.state .initial, m) => gettokenAccesses m
  | (.front, m) =>
    if m.this.type ≠ Tag.identifier then .stack (top m + 1) :: behind m.push gettokenAccesses
    else gettokenAccesses m
  | (.state .getArray, _) => []
  | (.arrays _, m) => if m.this.type = '['.toNat then arraySuffixAccesses m else []
  | (.state .getParams, _) => []
  | (.args, m) => gettokenAccesses m
  | (.state .getLparen, m) => getLparenAccesses m
  | (.state .getPtrPart, m) => [.stack (top m)]
  | (.state .getType, m) => (List.range m.stack.length).map fun i : ℕ => .stack i

variable {l : Lexicon} {m m' : Reader} {c : Config} {as bs : List Access}

/-- Some access is out of bounds. -/
def Outside (as : List Access) : Prop := ∃ a ∈ as, ¬ a.Inside

theorem outside_append : Outside (as ++ bs) ↔ Outside as ∨ Outside bs := by
  simp only [Outside, List.mem_append, or_and_right, exists_or]

theorem gettoken_eq_none : gettoken l m = none ↔ Outside (gettokenAccesses m) := by
  have hpunct : ¬ Outside [.string 0, .string 1] := by
    rintro ⟨a, ha, hout⟩
    simp only [List.mem_cons, List.not_mem_nil, or_false] at ha
    rcases ha with rfl | rfl <;> exact hout (by simp [Access.Inside, maxTokenLen])
  rw [gettoken, gettokenAccesses]
  cases m.stdin.dropWhile (· = ' ') with
  | nil => simpa using hpunct
  | cons c cs =>
    dsimp only
    by_cases hc : c.isAlphanum = true
    · rw [if_pos hc, if_pos hc, List.length_cons]
      constructor
      · intro h
        split at h
        · cases h
        · rename_i hlen
          refine ⟨.string ((cs.takeWhile Char.isAlphanum).length + 1), ?_, hlen⟩
          simp
      · rintro ⟨a, ha, hout⟩
        obtain ⟨i, hi, rfl⟩ := List.mem_map.mp ha
        rw [List.mem_range] at hi
        apply if_neg
        intro hlen
        exact hout (show i < maxTokenLen by omega)
    · rw [if_neg hc, if_neg hc]
      simpa using hpunct

theorem bind_eq_none {x : Option Reader} {f : Reader → Option Reader} {g : Reader → List Access}
    (hx : x = none ↔ Outside as) (hf : ∀ m, f m = none ↔ Outside (g m)) :
    x >>= f = none ↔ Outside (as ++ behind x g) := by
  rw [outside_append, ← hx]
  cases x with
  | none => simp
  | some m => simpa [behind] using hf m

theorem arraySuffix_eq_none :
    arraySuffix lexicon format m = none ↔ Outside (arraySuffixAccesses m) := by
  have hlast : ∀ m, (gettoken lexicon m >>= fun m => some (m.print format.of)) = none ↔
      Outside (gettokenAccesses m) := by
    intro m
    rw [← gettoken_eq_none (l := lexicon)]
    cases gettoken lexicon m <;> simp
  apply bind_eq_none (gettoken_eq_none (m := m.print format.array))
  intro m₁
  split
  · exact bind_eq_none (gettoken_eq_none (m := m₁.print _)) hlast
  · exact hlast m₁

theorem go_eq_fault {pc : Pc} {x : Option Reader} : go pc x = .fault ↔ x = none := by
  cases x <;> simp [go]

theorem goState_eq_fault {x : Option (Option State × Reader)} :
    goState x = .fault ↔ x = none := by
  obtain _ | ⟨_ | s, m⟩ := x <;> simp [goState]

theorem outside_nil : ¬ Outside [] := by
  rintro ⟨a, ha, -⟩
  cases ha

theorem outside_cons {a : Access} : Outside (a :: as) ↔ ¬ a.Inside ∨ Outside as := by
  simp [Outside]

theorem inside_top (h : m.stack.length ≤ maxTokens) :
    (Access.stack (top m)).Inside ↔ m.stack ≠ [] := by
  unfold Access.Inside top
  cases hs : m.stack with
  | nil => simp
  | cons t stack =>
    rw [hs, List.length_cons] at h
    rw [List.length_cons]
    simp only [ne_eq, reduceCtorEq, not_false_eq_true, iff_true]
    omega

theorem push_eq_none (h : m.stack.length ≤ maxTokens) :
    m.push = none ↔ ¬ (Access.stack (top m + 1)).Inside := by
  have hmax : (maxTokens : ℤ) = 100 := rfl
  rw [Reader.push]
  unfold Access.Inside top
  split
  · simp only [reduceCtorEq, false_iff, not_not]
    omega
  · simp only [true_iff]
    omega

theorem getLparen_eq_none (h : m.stack.length ≤ maxTokens) :
    getLparen m = none ↔ Outside (getLparenAccesses m) := by
  have htop := inside_top h
  cases hs : m.stack with
  | nil =>
    have hbody : getLparen m = some (some .getPtrPart, m) := by rw [getLparen, hs]
    have hacc : getLparenAccesses m = [] := by rw [getLparenAccesses, hs]
    rw [hbody, hacc]
    exact iff_of_false (Option.some_ne_none _) outside_nil
  | cons t stack =>
    have hin : (Access.stack (top m)).Inside := htop.mpr (by simp [hs])
    by_cases ht : t.type = '('.toNat
    · have hbody : getLparen m = gettoken lexicon { m with stack } >>=
          fun m => some (some .getArray, m) := by
        rw [getLparen, hs]
        exact if_pos ht
      have hacc : getLparenAccesses m = [.stack (top m), .stack (top m)] ++
          gettokenAccesses { m with stack } := by
        rw [getLparenAccesses, hs]
        exact if_pos ht
      rw [hbody, hacc, outside_append, ← gettoken_eq_none (l := lexicon), outside_cons,
        outside_cons]
      cases gettoken lexicon { m with stack } with
      | none => exact iff_of_true rfl (Or.inr rfl)
      | some m' => simp [hin, outside_nil]
    · have hbody : getLparen m = some (some .getPtrPart, m) := by
        rw [getLparen, hs]
        exact if_neg ht
      have hacc : getLparenAccesses m = [.stack (top m)] := by
        rw [getLparenAccesses, hs]
        exact if_neg ht
      rw [hbody, hacc, outside_cons]
      exact iff_of_false (Option.some_ne_none _) fun hout => hout.elim (absurd hin) outside_nil

theorem getPtrPart_eq_none : getPtrPart m = none ↔ m.stack = [] := by
  constructor
  · intro hnone
    cases hs : m.stack with
    | nil => rfl
    | cons t stack =>
      by_cases hstar : t.type = '*'.toNat
      · have hbody : getPtrPart m =
            some (some .getLparen, { m.print format.pointer with stack }) := by
          rw [getPtrPart, hs]
          exact if_pos hstar
        cases hbody.symm.trans hnone
      · by_cases hq : t.type = Tag.qualifier
        · have hbody : getPtrPart m =
              some (some .getLparen, { m.print (format.keyword t.string) with stack }) := by
            rw [getPtrPart, hs]
            exact (if_neg hstar).trans (if_pos hq)
          cases hbody.symm.trans hnone
        · have hbody : getPtrPart m = some (some .getType, m) := by
            rw [getPtrPart, hs]
            exact (if_neg hstar).trans (if_neg hq)
          cases hbody.symm.trans hnone
  · intro hs
    rw [getPtrPart, hs]

/-- A turn fails if and only if it makes an access out of bounds. -/
theorem turn_eq_fault (h : c.2.stack.length ≤ maxTokens) :
    turn c = .fault ↔ Outside (accesses c) := by
  obtain ⟨pc, m⟩ := c
  cases pc with
  | front =>
    by_cases hthis : m.this.type ≠ Tag.identifier
    · rw [turn, accesses, if_pos hthis, if_pos hthis, go_eq_fault, outside_cons, ← push_eq_none h]
      cases m.push with
      | none => exact iff_of_true rfl (Or.inl rfl)
      | some m₁ => simpa [behind] using gettoken_eq_none (m := m₁)
    · rw [turn, accesses, if_neg hthis, if_neg hthis, go_eq_fault]
      exact gettoken_eq_none (m := m.print _)
  | arrays s =>
    by_cases hthis : m.this.type = '['.toNat
    · rw [turn, accesses, if_pos hthis, if_pos hthis, go_eq_fault]
      exact arraySuffix_eq_none
    · rw [turn, accesses, if_neg hthis, if_neg hthis]
      exact iff_of_false (by simp) outside_nil
  | args =>
    rw [turn, accesses, ← gettoken_eq_none (l := lexicon)]
    by_cases hthis : m.this.type ≠ ')'.toNat
    · rw [if_pos hthis]
      exact go_eq_fault
    · rw [if_neg hthis, go_eq_fault, Option.map_eq_none_iff]
  | state s =>
    cases s with
    | initial =>
      rw [turn, accesses, go_eq_fault]
      exact gettoken_eq_none
    | getArray => exact iff_of_false (by simp [turn]) outside_nil
    | getParams =>
      rw [turn, accesses]
      by_cases hthis : m.this.type = '('.toNat
      · rw [if_pos hthis]
        exact iff_of_false (by simp) outside_nil
      · rw [if_neg hthis]
        exact iff_of_false (by simp) outside_nil
    | getLparen =>
      rw [turn, accesses, goState_eq_fault]
      exact getLparen_eq_none h
    | getPtrPart =>
      rw [turn, accesses, goState_eq_fault, getPtrPart_eq_none, outside_cons, inside_top h]
      simp [outside_nil]
    | getType =>
      have hin : ¬ Outside (accesses (.state .getType, m)) := by
        rintro ⟨a, ha, hout⟩
        obtain ⟨i, hi, rfl⟩ := List.mem_map.mp ha
        rw [List.mem_range] at hi
        apply hout
        constructor
        · exact Int.natCast_nonneg i
        · exact Int.ofNat_lt.mpr (lt_of_lt_of_le hi h)
      exact iff_of_false (by simp [turn, goState, getType]) hin

theorem gettoken_stack (h : gettoken l m = some m') : m'.stack = m.stack := by
  rw [gettoken] at h
  split at h
  · cases h
    rfl
  · split at h
    · dsimp only at h
      split at h
      · cases h
        rfl
      · cases h
    · cases h
      rfl

theorem arraySuffix_stack (h : arraySuffix lexicon format m = some m') : m'.stack = m.stack := by
  obtain ⟨m₁, h₁, h⟩ := Option.bind_eq_some_iff.mp h
  have hfirst : m₁.stack = m.stack := gettoken_stack (m := m.print _) h₁
  dsimp only at h
  split at h
  · obtain ⟨m₂, h₂, h⟩ := Option.bind_eq_some_iff.mp h
    obtain ⟨m₃, h₃, h⟩ := Option.bind_eq_some_iff.mp h
    cases h
    have hsecond : m₂.stack = m₁.stack := gettoken_stack (m := m₁.print _) h₂
    exact ((gettoken_stack h₃).trans hsecond).trans hfirst
  · obtain ⟨_, ⟨rfl⟩, h⟩ := Option.bind_eq_some_iff.mp h
    obtain ⟨m₃, h₃, h⟩ := Option.bind_eq_some_iff.mp h
    cases h
    exact (gettoken_stack h₃).trans hfirst

theorem getLparen_stack {x : Option State} (h : getLparen m = some (x, m')) :
    m'.stack.length ≤ m.stack.length := by
  rw [getLparen] at h
  cases hs : m.stack with
  | nil =>
    rw [hs] at h
    cases h
    rw [hs]
  | cons t stack =>
    rw [hs] at h
    dsimp only at h
    split at h
    · obtain ⟨m₁, hget, heq⟩ := Option.bind_eq_some_iff.mp h
      cases heq
      rw [gettoken_stack hget]
      exact Nat.le_succ _
    · cases h
      rw [hs]

theorem getPtrPart_stack {x : Option State} (h : getPtrPart m = some (x, m')) :
    m'.stack.length ≤ m.stack.length := by
  rw [getPtrPart] at h
  cases hs : m.stack with
  | nil =>
    rw [hs] at h
    cases h
  | cons t stack =>
    rw [hs] at h
    dsimp only at h
    split at h
    · cases h
      exact Nat.le_succ _
    · split at h
      · cases h
        exact Nat.le_succ _
      · cases h
        rw [hs]

theorem turn_stack {c' : Config} (h : c.2.stack.length ≤ maxTokens) (ht : turn c = .next c') :
    c'.2.stack.length ≤ maxTokens := by
  obtain ⟨pc, m⟩ := c
  have hkeep : c'.2.stack = m.stack → c'.2.stack.length ≤ maxTokens := fun hs => hs ▸ h
  cases pc with
  | front =>
    rw [turn] at ht
    split at ht
    · obtain ⟨m', hm', rfl⟩ := next_of_go ht
      obtain ⟨m₁, hpush, hget⟩ := Option.bind_eq_some_iff.mp hm'
      rw [Reader.push] at hpush
      split at hpush
      · cases hpush
        rw [gettoken_stack hget, List.length_cons]
        omega
      · cases hpush
    · obtain ⟨m', hm', rfl⟩ := next_of_go ht
      exact hkeep (gettoken_stack (m := m.print _) hm')
  | arrays s =>
    rw [turn] at ht
    split at ht
    · obtain ⟨m', hm', rfl⟩ := next_of_go ht
      exact hkeep (arraySuffix_stack hm')
    · cases ht
      exact h
  | args =>
    rw [turn] at ht
    split at ht
    · obtain ⟨m', hm', rfl⟩ := next_of_go ht
      exact hkeep (gettoken_stack hm')
    · obtain ⟨m', hm', rfl⟩ := next_of_go ht
      obtain ⟨m₁, hget, rfl⟩ := Option.map_eq_some_iff.mp hm'
      have hstack : m₁.stack = m.stack := gettoken_stack hget
      exact hkeep hstack
  | state s =>
    cases s with
    | initial =>
      obtain ⟨m', hm', rfl⟩ := next_of_go ht
      exact hkeep (gettoken_stack hm')
    | getArray =>
      cases ht
      exact h
    | getParams =>
      rw [turn] at ht
      split at ht <;> (cases ht; exact h)
    | getLparen =>
      obtain ⟨s', m', hm', rfl⟩ := next_of_goState ht
      exact (getLparen_stack hm').trans h
    | getPtrPart =>
      obtain ⟨s', m', hm', rfl⟩ := next_of_goState ht
      exact (getPtrPart_stack hm').trans h
    | getType => cases ht

/-- No turn fails if and only if every access of every run is inside of its array. -/
theorem not_faults_iff {stdin : List Char} : ¬ Turn.Faults turn (start stdin) ↔
    ∀ c, Turn.Leads turn (start stdin) c → ∀ a ∈ accesses c, a.Inside := by
  have hlen : ∀ c, Turn.Leads turn (start stdin) c → c.2.stack.length ≤ maxTokens := by
    intro c hc
    exact hc.inv (Nat.zero_le _) fun _ _ => turn_stack
  rw [Turn.faults_iff]
  push Not
  refine forall_congr' fun c => forall_congr' fun hc => ?_
  rw [ne_eq, turn_eq_fault (hlen c hc), Outside]
  push Not
  rfl

/-- Every access is inside of its array if and only if the reader ends, or skips a parameter list
that is not closed: there is an identifier behind at most `maxTokens` lexemes, and either one of
these is neither a parenthesis nor a pointer nor a qualifier and what is read fits its tokens, or
all lexemes fit. -/
theorem accesses_inside_iff (stdin : List Char) :
    (∀ c, Turn.Leads turn (start stdin) c → ∀ a ∈ accesses c, a.Inside) ↔
    ∃ front name back, lexemes stdin = front ++ name :: back ∧
      (∀ x ∈ front, kind x ≠ Tag.identifier) ∧ kind name = Tag.identifier ∧
      front.length ≤ maxTokens ∧
      ((∃ x ∈ front, ¬ Passed x) ∧ (∃ k, suffixesLen (parens front.reverse) back = some k ∧
        ∀ w ∈ (lexemes stdin).take (front.length + 2 + k), w.length < maxTokenLen) ∨
      suffixesLen (parens front.reverse) back = none ∧
        ∀ w ∈ lexemes stdin, w.length < maxTokenLen) := by
  rw [← not_faults_iff]
  constructor
  · intro hsafe
    by_cases h : ∃ front name back, lexemes stdin = front ++ name :: back ∧
        (∀ x ∈ front, kind x ≠ Tag.identifier) ∧ kind name = Tag.identifier ∧
        front.length ≤ maxTokens
    · obtain ⟨front, name, back, hsplit, hfront, hname, hlen⟩ := h
      have hv := verdict_start hsplit hfront hname hlen
      refine ⟨front, name, back, hsplit, hfront, hname, hlen, ?_⟩
      cases hk : suffixesLen (parens front.reverse) back with
      | none =>
        rw [hk] at hv
        exact Or.inr ⟨rfl, clear_all.mp (not_not.mp fun hn => hsafe (hv.2 hn))⟩
      | some k =>
        rw [hk] at hv
        have hboth := not_not.mp fun hn => hsafe (hv.2 hn)
        exact Or.inl ⟨hboth.2, k, rfl, hboth.1⟩
    · exact absurd (faults_start h) hsafe
  · rintro ⟨front, name, back, hsplit, hfront, hname, hlen, ⟨htyped, k, hk, hfit⟩ | ⟨hk, hall⟩⟩
    · have hv := verdict_start hsplit hfront hname hlen
      rw [hk] at hv
      obtain ⟨r, hr⟩ := hv.1 hfit htyped
      exact hr.not_faults
    · have hv := verdict_start hsplit hfront hname hlen
      rw [hk] at hv
      exact (hv.1 (clear_all.mpr hall)).not_faults

/-- With no type in front of the name `x`, the reader looks below its stack. -/
theorem not_accesses_inside : ¬ ∀ stdin c, Turn.Leads turn (start stdin) c →
    ∀ a ∈ accesses c, a.Inside := by
  intro h
  have hsafe := not_faults_iff.mpr (h ['x'])
  have hsplit : lexemes ['x'] = [] ++ ['x'] :: [] := rfl
  have hv := verdict_start hsplit (by simp) (by decide) (Nat.zero_le _)
  have hlen : suffixesLen (parens [].reverse) [] = some 0 := by decide
  rw [hlen] at hv
  apply hsafe (hv.2 _)
  rintro ⟨-, w, hw, -⟩
  cases hw

end Machine

end Somenote.Cdecl
