import Mathlib.Tactic.Common
import Somenote.Cdecl.Lexemes
import Somenote.Cdecl.Turns

/-! # Where the state machine stops

The state machine on any input, which it reads lexeme by lexeme. It ends behind a declaration,
skips for ever when a parameter list is not closed, and leaves the bounds of an array on all
other inputs.
-/

namespace Somenote.Cdecl

namespace Machine

/-- The type of the token of a lexeme. -/
def kind (w : List Char) : ℕ := (lexicon.tokenOf w).type

/-- The lexeme stands in front of a name and is taken from the stack one by one. -/
def Passed (w : List Char) : Prop :=
  kind w = '('.toNat ∨ kind w = '*'.toNat ∨ kind w = Tag.qualifier

instance (w : List Char) : Decidable (Passed w) := inferInstanceAs (Decidable (_ ∨ _))

/-- The number of lexemes of the arrays that a text starts with. -/
def arraysLen : List (List Char) → ℕ
  | [] => 0
  | w :: ls =>
    if kind w = '['.toNat then
      if (lexicon.tokenOf (ls.headD [])).isDigit then 3 + arraysLen (ls.drop 2)
      else 2 + arraysLen (ls.drop 1)
    else 0
termination_by ls => ls.length
decreasing_by all_goals simp only [List.length_drop, List.length_cons]; omega

/-- The number of lexemes of the arrays or the parameter list that a text starts with. There is
none when a parameter list is not closed. -/
def suffixLen (ls : List (List Char)) : Option ℕ :=
  if kind (ls.headD []) = '['.toNat then some (arraysLen ls)
  else if kind (ls.headD []) = '('.toNat then
    (ls.findIdx? fun w => kind w = ')'.toNat).map (· + 1)
  else some 0

/-- The number of lexemes of a suffix, and of `g` further ones with a lexeme in front of each. -/
def suffixesLen : ℕ → List (List Char) → Option ℕ
  | 0, ls => suffixLen ls
  | g + 1, ls => do
    let k ← suffixLen ls
    let j ← suffixesLen g (ls.drop (k + 1))
    some (k + (1 + j))

/-- The number of parentheses that are taken from the stack `ws`. -/
def parens : List (List Char) → ℕ
  | [] => 0
  | w :: ws => if Passed w then (if kind w = '('.toNat then 1 else 0) + parens ws else 0

def Fits (w : List Char) : Prop := w.length < maxTokenLen

/-- The next `k` lexemes behind the one at hand fit their tokens. -/
def Clear (k : ℕ) (ls : List (List Char)) : Prop := ∀ w ∈ ls.tail.take k, Fits w

/-- The reader is at the first of the lexemes `ls`. -/
structure At (ls : List (List Char)) (m : Reader) : Prop where
  this : m.this = lexicon.tokenOf (ls.headD [])
  stdin : lexemes m.stdin = ls.tail

variable {ls ws : List (List Char)} {m : Reader} {j k g : ℕ} {w : List Char}

section Clear

theorem clear_zero : Clear 0 ls := by
  intro w hw
  cases hw

theorem clear_succ : Clear (k + 1) ls ↔ Fits (ls.tail.headD []) ∧ Clear k ls.tail := by
  unfold Clear
  cases ls.tail with
  | nil => simp [Fits, maxTokenLen]
  | cons w ls => simp

theorem clear_add : Clear (j + k) ls ↔ Clear j ls ∧ Clear k (ls.drop j) := by
  induction j generalizing ls with
  | zero => simp [clear_zero]
  | succ j ih =>
    rw [Nat.succ_add, clear_succ, clear_succ, ih, and_assoc, List.drop_tail]

theorem Clear.mono (h : Clear k ls) (hj : j ≤ k) : Clear j ls :=
  fun w hw => h w (List.take_subset_take_left _ hj hw)

theorem clear_all : Clear ls.length ls ↔ ∀ w ∈ ls.tail, Fits w := by
  rw [Clear, List.take_of_length_le]
  simp

theorem clear_of_all (h : Clear ls.length ls) : Clear k ls :=
  fun w hw => clear_all.mp h w (List.mem_of_mem_take hw)

theorem clear_drop_all (h : Clear ls.length ls) : Clear (ls.drop j).length (ls.drop j) := by
  apply clear_all.mpr
  rw [List.tail_drop, ← List.drop_tail]
  exact fun w hw => clear_all.mp h w (List.mem_of_mem_drop hw)

end Clear

/-- A step of the program that reads `k` lexemes, if they fit their tokens. -/
structure Moves (k : ℕ) (ls : List (List Char)) (m : Reader) (x : Option Reader) : Prop where
  clear : Clear k ls → ∃ m', x = some m' ∧ At (ls.drop k) m' ∧ m'.stack = m.stack
  none : ¬ Clear k ls → x = none

theorem At.print (h : At ls m) (s : List Char) : At ls (m.print s) := ⟨h.this, h.stdin⟩

theorem moves_gettoken (h : lexemes m.stdin = ls.tail) : Moves 1 ls m (gettoken lexicon m) := by
  have hclear : Clear 1 ls ↔ Fits (ls.tail.headD []) := by
    rw [clear_succ]
    exact and_iff_left clear_zero
  cases htail : ls.tail with
  | nil =>
    have hfit : Clear 1 ls := by simp [hclear, htail, Fits, maxTokenLen]
    obtain ⟨n, hn⟩ := lexemes_nil (h.trans htail)
    have hget : gettoken lexicon m = some { m with this := ⟨eof.toNat, [eof]⟩, stdin := [] } := by
      have hblank : (List.replicate n ' ').dropWhile (· = ' ') = [] := by simp
      rw [gettoken, hn, hblank]
    constructor
    · intro _
      refine ⟨_, hget, ⟨?_, ?_⟩, rfl⟩
      · rw [List.drop_one, htail]
        rfl
      · rw [List.drop_one, htail]
        rfl
    · intro hn
      exact absurd hfit hn
  | cons w ws =>
    rw [htail, List.headD_cons] at hclear
    have hin := (List.append_nil m.stdin).symm
    constructor
    · intro hfit
      obtain ⟨q, -, hq, hget⟩ := gettoken_append (l := lexicon) hin (by simp) (h.trans htail)
        (hclear.mp hfit)
      refine ⟨_, hget, ⟨?_, ?_⟩, rfl⟩
      · rw [List.drop_one, htail]
        rfl
      · rw [List.drop_one, htail]
        simpa using hq
    · intro hfit
      exact gettoken_long hin (by simp) (h.trans htail) (Nat.not_lt.mp fun hw => hfit (hclear.mpr hw))

theorem Moves.bind {x : Option Reader} {f : Reader → Option Reader} (hx : Moves j ls m x)
    (hf : ∀ m', At (ls.drop j) m' → m'.stack = m.stack → Moves k (ls.drop j) m (f m')) :
    Moves (j + k) ls m (x >>= f) where
  clear h := by
    obtain ⟨hj, hk⟩ := clear_add.mp h
    obtain ⟨m', rfl, hat, hstack⟩ := hx.clear hj
    rw [← List.drop_drop]
    exact (hf m' hat hstack).clear hk
  none h := by
    by_cases hj : Clear j ls
    · obtain ⟨m', rfl, hat, hstack⟩ := hx.clear hj
      exact (hf m' hat hstack).none fun hk => h (clear_add.mpr ⟨hj, hk⟩)
    · rw [hx.none hj]
      rfl

theorem Moves.congr {x : Option Reader} {m' : Reader} (h : Moves k ls m x)
    (hm : m.stack = m'.stack) : Moves k ls m' x :=
  ⟨fun hk => hm ▸ h.clear hk, h.none⟩

theorem Moves.of_at {m' : Reader} (h : At ls m') (hm : m'.stack = m.stack) :
    Moves 0 ls m (some m') :=
  ⟨fun _ => ⟨m', rfl, h, hm⟩, fun hn => absurd clear_zero hn⟩

theorem At.gettoken (h : At ls m) : Moves 1 ls m (gettoken lexicon m) := moves_gettoken h.stdin

theorem At.arraySuffix (h : At ls m) :
    Moves (if (lexicon.tokenOf (ls.tail.headD [])).isDigit then 3 else 2) ls m
      (arraySuffix lexicon format m) := by
  have hfirst : Moves 1 ls m (Cdecl.gettoken lexicon (m.print format.array)) :=
    ((h.print format.array).gettoken).congr rfl
  have hlast : ∀ k m', At (ls.drop k) m' → m'.stack = m.stack → Moves 1 (ls.drop k) m
      (Cdecl.gettoken lexicon m' >>= fun m => some (m.print format.of)) := by
    intro k m' hat hstack
    apply (hat.gettoken.congr hstack).bind (k := 0)
    intro m'' hat' hstack'
    exact .of_at (hat'.print format.of) hstack'
  split
  · rename_i hdigit
    apply hfirst.bind (k := 2)
    intro m₁ hat₁ hstack₁
    have hthis : m₁.this.isDigit = true := by
      rw [hat₁.this, List.drop_one]
      exact hdigit
    rw [if_pos hthis]
    have hsecond : Moves 1 (ls.drop 1) m (Cdecl.gettoken lexicon
        (m₁.print (format.upTo (lastIndex m₁.this.string)))) :=
      ((hat₁.print _).gettoken).congr hstack₁
    apply hsecond.bind (k := 1)
    intro m₂ hat₂ hstack₂
    rw [List.drop_drop] at hat₂ ⊢
    exact hlast 2 m₂ hat₂ hstack₂
  · rename_i hdigit
    apply hfirst.bind (k := 1)
    intro m₁ hat₁ hstack₁
    have hthis : ¬ m₁.this.isDigit = true := by
      rw [hat₁.this, List.drop_one]
      exact hdigit
    rw [if_neg hthis]
    exact hlast 1 m₁ hat₁ hstack₁

/-! ## Verdicts -/

/-- How the run from `c` comes out, with the lexemes `ls` in front of the reader. It reads the
given number of them, and then ends if the declaration has a type; or it reads all of them. -/
def Verdict (c : Config) (typed : Prop) (ls : List (List Char)) : Option ℕ → Prop
  | some k => (Clear k ls → typed → ∃ r, Turn.Ends turn c r) ∧
      (¬ (Clear k ls ∧ typed) → Turn.Faults turn c)
  | none => (Clear ls.length ls → Turn.Spins turn c) ∧
      (¬ Clear ls.length ls → Turn.Faults turn c)

variable {c c' : Config} {typed typed' : Prop} {o : Option ℕ}

namespace Verdict

theorem of_leads (h : Turn.Leads turn c c') (hv : Verdict c' typed ls o) :
    Verdict c typed ls o := by
  cases o with
  | some k =>
    constructor
    · intro hk ht
      obtain ⟨r, hr⟩ := hv.1 hk ht
      exact ⟨r, h.ends hr⟩
    · intro hn
      exact h.faults (hv.2 hn)
  | none => exact ⟨fun hk => h.spins (hv.1 hk), fun hn => h.faults (hv.2 hn)⟩

theorem congr (h : typed ↔ typed') (hv : Verdict c typed ls o) : Verdict c typed' ls o := by
  rwa [← propext h]

theorem move (hclear : Clear j ls → Verdict c typed (ls.drop j) o)
    (hnot : ¬ Clear j ls → Turn.Faults turn c) : Verdict c typed ls (o.map (j + ·)) := by
  by_cases hj : Clear j ls
  · have hv := hclear hj
    cases o with
    | some k =>
      constructor
      · intro hk
        exact hv.1 (clear_add.mp hk).2
      · intro hn
        apply hv.2
        rintro ⟨hk, ht⟩
        exact hn ⟨clear_add.mpr ⟨hj, hk⟩, ht⟩
    | none =>
      constructor
      · intro hall
        exact hv.1 (clear_drop_all hall)
      · intro hn
        apply hv.2
        intro hall
        have hboth := clear_add.mpr ⟨hj, hall⟩
        rw [List.length_drop] at hboth
        exact hn (hboth.mono (by omega))
  · cases o with
    | some k => exact ⟨fun hk => absurd (clear_add.mp hk).1 hj, fun _ => hnot hj⟩
    | none => exact ⟨fun hall => absurd (clear_of_all hall) hj, fun _ => hnot hj⟩

theorem go (pc : Pc) {x : Option Reader} (hturn : turn c = Machine.go pc x) (hx : Moves j ls m x)
    (hv : ∀ m', At (ls.drop j) m' → m'.stack = m.stack → Verdict (pc, m') typed (ls.drop j) o) :
    Verdict c typed ls (o.map (j + ·)) := by
  apply move
  · intro hj
    obtain ⟨m', rfl, hat, hstack⟩ := hx.clear hj
    exact (hv m' hat hstack).of_leads (.next hturn (.refl _))
  · intro hj
    rw [hx.none hj] at hturn
    exact .now hturn

end Verdict

theorem map_map_add (o : Option ℕ) (j k : ℕ) :
    (o.map (k + ·)).map (j + ·) = o.map (j + k + ·) := by
  cases o <;> simp [Nat.add_assoc]

theorem map_zero_add (o : Option ℕ) : o.map (0 + ·) = o := by
  cases o <;> simp

theorem verdict_arrays (s : State) (h : At ls m)
    (hv : ∀ m', At (ls.drop (arraysLen ls)) m' → m'.stack = m.stack →
      Verdict (.state (if kind (ls.headD []) = '['.toNat then .getLparen else s), m') typed
        (ls.drop (arraysLen ls)) o) :
    Verdict (.arrays s, m) typed ls (o.map (arraysLen ls + ·)) := by
  induction hn : ls.length using Nat.strong_induction_on generalizing ls m s with
  | _ n ih =>
    subst hn
    by_cases hkind : kind (ls.headD []) = '['.toNat
    · obtain ⟨w, ls, rfl⟩ : ∃ w ls', ls = w :: ls' := by
        cases ls with
        | nil => cases hkind
        | cons w ls => exact ⟨w, ls, rfl⟩
      rw [List.headD_cons] at hkind
      -- one array, and those behind it
      have hone : ∀ j, 0 < j → Moves j (w :: ls) m (arraySuffix lexicon format m) →
          arraysLen (w :: ls) = j + arraysLen ((w :: ls).drop j) →
          Verdict (.arrays s, m) typed (w :: ls) (o.map (arraysLen (w :: ls) + ·)) := by
        intro j hj hmoves hlen
        rw [hlen, ← map_map_add]
        apply Verdict.go (.arrays .getLparen) _ hmoves
        · intro m' hat hstack
          apply ih _ _ .getLparen hat _ rfl
          · rw [List.length_drop, List.length_cons]
            omega
          · intro m'' hat' hstack'
            rw [List.drop_drop, ← hlen] at hat' ⊢
            have hv' := hv m'' hat' (hstack'.trans hstack)
            rw [List.headD_cons, if_pos hkind] at hv'
            rwa [ite_self]
        · rw [turn, h.this, List.headD_cons]
          exact if_pos hkind
      have hmoves := h.arraySuffix
      rw [List.tail_cons] at hmoves
      split at hmoves
      · rename_i hdigit
        apply hone 3 (by omega) hmoves
        rw [arraysLen, if_pos hkind, if_pos hdigit]
        rfl
      · rename_i hdigit
        apply hone 2 (by omega) hmoves
        rw [arraysLen, if_pos hkind, if_neg hdigit]
        rfl
    · have hlen : arraysLen ls = 0 := by
        cases ls with
        | nil => rw [arraysLen]
        | cons w ls =>
          rw [arraysLen]
          exact if_neg hkind
      rw [hlen, map_zero_add]
      have hv' := hv m (by rwa [hlen]) rfl
      rw [hlen, if_neg hkind] at hv'
      apply hv'.of_leads (.next _ (.refl _))
      rw [turn, h.this]
      exact if_neg hkind

theorem turn_args (h : At ls m) (hw : kind (ls.headD []) ≠ ')'.toNat) :
    turn (.args, m) = go .args (gettoken lexicon m) := by
  rw [turn, h.this]
  exact if_pos hw

theorem verdict_args (h : At ls m) (hk : (ls.findIdx? fun w => kind w = ')'.toNat) = some k)
    (hv : ∀ m', At (ls.drop (k + 1)) m' → m'.stack = m.stack →
      Verdict (.state .getLparen, m') typed (ls.drop (k + 1)) o) :
    Verdict (.args, m) typed ls (o.map (k + 1 + ·)) := by
  induction ls generalizing k m with
  | nil => cases hk
  | cons w ls ih =>
    rw [List.findIdx?_cons] at hk
    split at hk
    · rename_i hw
      cases hk
      apply Verdict.go (.state .getLparen) _ _ hv
      · exact (gettoken lexicon m).map fun m => m.print format.function
      · rw [turn, h.this]
        exact if_neg (not_not.mpr (of_decide_eq_true hw))
      · rw [Option.map_eq_bind]
        apply h.gettoken.bind (k := 0)
        intro m' hat hstack
        exact .of_at (hat.print _) hstack
    · rename_i hw
      obtain ⟨k, hk', rfl⟩ := Option.map_eq_some_iff.mp hk
      have hskip := turn_args h (by simpa using hw)
      rw [Nat.add_comm (k + 1) 1, ← map_map_add]
      apply Verdict.go _ hskip h.gettoken
      intro m' hat hstack
      apply ih hat hk'
      intro m'' hat' hstack'
      exact hv m'' hat' (hstack'.trans hstack)

/-- A parameter list that is not closed is skipped for ever. -/
theorem verdict_args_open (h : At ls m) (hk : (ls.findIdx? fun w => kind w = ')'.toNat) = none) :
    Verdict (.args, m) typed ls none := by
  induction ls generalizing m with
  | nil =>
    refine ⟨fun _ => ⟨fun c => ∃ m, c = (.args, m) ∧ At [] m, ⟨m, rfl, h⟩, ?_⟩, fun hn => ?_⟩
    · rintro _ ⟨m, rfl, h⟩
      have hfit : Clear 1 [] := by
        intro w hw
        cases hw
      obtain ⟨m', hm', hat, -⟩ := h.gettoken.clear hfit
      refine ⟨(.args, m'), ?_, m', rfl, hat⟩
      rw [turn_args h (by decide), hm']
      rfl
    · exact absurd clear_zero hn
  | cons w ls ih =>
    rw [List.findIdx?_cons] at hk
    split at hk
    · cases hk
    · rename_i hw
      have hskip := turn_args h (by simpa using hw)
      apply Verdict.go (o := none) _ hskip h.gettoken
      intro m' hat _
      exact ih hat (Option.map_eq_none_iff.mp hk)

theorem verdict_getArray {f : ℕ → Option ℕ} (h : At ls m)
    (hv : ∀ k m', suffixLen ls = some k → At (ls.drop k) m' → m'.stack = m.stack →
      Verdict (.state .getLparen, m') typed (ls.drop k) (f k)) :
    Verdict (.state .getArray, m) typed ls ((suffixLen ls).bind fun k => (f k).map (k + ·)) := by
  apply Verdict.of_leads (.next rfl (.refl _))
  by_cases hb : kind (ls.headD []) = '['.toNat
  · have hlen : suffixLen ls = some (arraysLen ls) := if_pos hb
    rw [hlen]
    apply verdict_arrays _ h
    intro m' hat hstack
    rw [if_pos hb]
    exact hv _ m' hlen hat hstack
  · have hturn : Turn.Leads turn (.arrays .getParams, m) (.state .getParams, m) := by
      apply Turn.Leads.next _ (.refl _)
      rw [turn, h.this]
      exact if_neg hb
    apply Verdict.of_leads hturn
    by_cases hp : kind (ls.headD []) = '('.toNat
    · have hargs : Turn.Leads turn (.state .getParams, m) (.args, m) := by
        apply Turn.Leads.next _ (.refl _)
        rw [turn, h.this]
        exact if_pos hp
      apply Verdict.of_leads hargs
      have hlen : suffixLen ls = (ls.findIdx? fun w => kind w = ')'.toNat).map (· + 1) :=
        (if_neg hb).trans (if_pos hp)
      cases hidx : ls.findIdx? fun w => kind w = ')'.toNat with
      | none =>
        rw [hidx] at hlen
        rw [hlen]
        exact verdict_args_open h hidx
      | some k =>
        rw [hidx] at hlen
        rw [hlen]
        apply verdict_args h hidx
        intro m' hat hstack
        exact hv _ m' hlen hat hstack
    · have hlen : suffixLen ls = some 0 := (if_neg hb).trans (if_neg hp)
      have hnext : Turn.Leads turn (.state .getParams, m) (.state .getLparen, m) := by
        apply Turn.Leads.next _ (.refl _)
        rw [turn, h.this]
        exact if_neg hp
      apply Verdict.of_leads hnext
      rw [hlen, Option.bind_some, map_zero_add]
      exact hv 0 m hlen h rfl

/-- The lexemes that are read while `g` parentheses are taken from the stack. -/
def restLen : ℕ → List (List Char) → Option ℕ
  | 0, _ => some 0
  | g + 1, ls => (suffixesLen g (ls.drop 1)).map (1 + ·)

theorem suffixesLen_eq (g : ℕ) : suffixesLen g ls =
    (suffixLen ls).bind fun k => (restLen g (ls.drop k)).map (k + ·) := by
  cases g with
  | zero =>
    rw [suffixesLen]
    cases suffixLen ls <;> rfl
  | succ g =>
    rw [suffixesLen]
    cases suffixLen ls with
    | none => rfl
    | some k =>
      simp only [restLen, List.drop_drop]
      cases hrest : suffixesLen g (ls.drop (k + 1)) with
      | none => simp [hrest]
      | some j => simp [hrest, Nat.add_assoc]

section Stack

variable (h : At ls m) (hstack : m.stack = (w :: ws).map lexicon.tokenOf)
include hstack

theorem turn_getLparen (hw : kind w ≠ '('.toNat) :
    turn (.state .getLparen, m) = .next (.state .getPtrPart, m) := by
  have hlparen : getLparen m = some (some .getPtrPart, m) := by
    rw [getLparen, hstack]
    exact if_neg hw
  rw [turn, hlparen]
  rfl

theorem leads_getPtrPart_pop (hw : kind w = '*'.toNat ∨ kind w = Tag.qualifier) : ∃ s : List Char,
    turn (.state .getPtrPart, m) =
      .next (.state .getLparen, { m.print s with stack := ws.map lexicon.tokenOf }) := by
  by_cases hstar : kind w = '*'.toNat
  · refine ⟨format.pointer, ?_⟩
    have hptr : getPtrPart m = some (some .getLparen,
        { m.print format.pointer with stack := ws.map lexicon.tokenOf }) := by
      rw [getPtrPart, hstack]
      exact if_pos hstar
    rw [turn, hptr]
    rfl
  · refine ⟨format.keyword (lexicon.tokenOf w).string, ?_⟩
    have hptr : getPtrPart m = some (some .getLparen,
        { m.print (format.keyword (lexicon.tokenOf w).string) with
          stack := ws.map lexicon.tokenOf }) := by
      rw [getPtrPart, hstack]
      exact (if_neg hstar).trans (if_pos (hw.resolve_left hstar))
    rw [turn, hptr]
    rfl

theorem ends_getPtrPart (hw : ¬ Passed w) : ∃ r, Turn.Ends turn (.state .getPtrPart, m) r := by
  have hptr : getPtrPart m = some (some .getType, m) := by
    rw [getPtrPart, hstack]
    exact (if_neg fun hs => hw (Or.inr (Or.inl hs))).trans
      (if_neg fun hq => hw (Or.inr (Or.inr hq)))
  refine ⟨_, .next (t := (.state .getType, m)) ?_ (.now rfl)⟩
  rw [turn, hptr]
  rfl

end Stack

/-- Behind a suffix, the stack is taken down to the first type on it. -/
theorem verdict_getLparen (h : At ls m) (hstack : m.stack = ws.map lexicon.tokenOf) :
    Verdict (.state .getLparen, m) (∃ w ∈ ws, ¬ Passed w) ls (restLen (parens ws) ls) := by
  induction ws generalizing ls m with
  | nil =>
    have hfault : Turn.Faults turn (.state .getLparen, m) := by
      have hlparen : getLparen m = some (some .getPtrPart, m) := by rw [getLparen, hstack]; rfl
      have hptr : getPtrPart m = none := by rw [getPtrPart, hstack]; rfl
      apply Turn.Faults.next (t := (.state .getPtrPart, m))
      · rw [turn, hlparen]
        rfl
      · apply Turn.Faults.now
        rw [turn, hptr]
        rfl
    constructor
    · rintro - ⟨w, hw, -⟩
      cases hw
    · exact fun _ => hfault
  | cons w ws ih =>
    by_cases hw : Passed w
    · have htyped : (∃ w' ∈ ws, ¬ Passed w') ↔ ∃ w' ∈ w :: ws, ¬ Passed w' := by simp [hw]
      apply Verdict.congr htyped
      rw [parens, if_pos hw]
      by_cases hparen : kind w = '('.toNat
      · rw [if_pos hparen, Nat.add_comm, restLen]
        have hpop : At ls { m with stack := ws.map lexicon.tokenOf } := ⟨h.this, h.stdin⟩
        have hlparen : turn (.state .getLparen, m) =
            go (.state .getArray) (gettoken lexicon { m with stack := ws.map lexicon.tokenOf }) := by
          have hbody : getLparen m = gettoken lexicon { m with stack := ws.map lexicon.tokenOf } >>=
              fun m => some (some .getArray, m) := by
            rw [getLparen, hstack]
            exact if_pos hparen
          rw [turn, hbody]
          cases gettoken lexicon { m with stack := ws.map lexicon.tokenOf } <;> rfl
        apply Verdict.go _ hlparen hpop.gettoken
        intro m' hat hstack'
        rw [suffixesLen_eq]
        apply verdict_getArray hat
        intro k m'' _ hat' hstack''
        exact ih hat' (hstack''.trans hstack')
      · rw [if_neg hparen, Nat.zero_add]
        obtain ⟨s, hturn⟩ := leads_getPtrPart_pop hstack (hw.resolve_left hparen)
        apply Verdict.of_leads
          (.next (turn_getLparen hstack hparen) (.next hturn (.refl _)))
        exact ih (m := { m.print s with stack := ws.map lexicon.tokenOf }) ⟨h.this, h.stdin⟩ rfl
    · rw [parens, if_neg hw, restLen]
      have hparen : kind w ≠ '('.toNat := fun hp => hw (Or.inl hp)
      constructor
      · intro _ _
        obtain ⟨r, hr⟩ := ends_getPtrPart hstack hw
        exact ⟨r, .next (turn_getLparen hstack hparen) hr⟩
      · intro hn
        exact absurd ⟨clear_zero, w, List.mem_cons_self .., hw⟩ hn

section Front

variable {front back : List (List Char)} {name : List Char}

/-- The lexemes in front of the first identifier are pushed. -/
theorem verdict_front (h : At (front ++ name :: back) m) (hstack : m.stack = ws.map lexicon.tokenOf)
    (hfront : ∀ x ∈ front, kind x ≠ Tag.identifier) (hname : kind name = Tag.identifier)
    (hlen : ws.length + front.length ≤ maxTokens)
    (hv : ∀ m', At back m' → m'.stack = (front.reverse ++ ws).map lexicon.tokenOf →
      Verdict (.state .getArray, m') typed back o) :
    Verdict (.front, m) typed (front ++ name :: back) (o.map (front.length + 1 + ·)) := by
  induction front generalizing m ws with
  | nil =>
    have hturn : turn (.front, m) = go (.state .getArray)
        (gettoken lexicon (m.print (m.this.string ++ " is ".toList))) := by
      apply if_neg
      rw [h.this]
      exact not_not.mpr hname
    apply Verdict.go _ hturn (h.print _).gettoken
    intro m' hat hstack'
    exact hv m' hat (hstack'.trans hstack)
  | cons x front ih =>
    have hx : kind x ≠ Tag.identifier := hfront x (List.mem_cons_self ..)
    rw [List.length_cons] at hlen
    have hpush : m.push = some { m with stack := (x :: ws).map lexicon.tokenOf } := by
      rw [Reader.push, if_pos (by rw [hstack, List.length_map]; omega), hstack, h.this]
      rfl
    have hat : At (x :: front ++ name :: back) { m with stack := (x :: ws).map lexicon.tokenOf } :=
      ⟨h.this, h.stdin⟩
    rw [List.length_cons, Nat.add_comm (front.length + 1) 1, ← map_map_add]
    apply Verdict.go .front _ hat.gettoken
    · intro m' hat' hstack'
      apply ih hat' hstack' (fun y hy => hfront y (List.mem_cons_of_mem x hy))
      · rw [List.length_cons]
        omega
      · intro m'' hat'' hstack''
        apply hv m'' hat''
        rw [hstack'', List.reverse_cons, List.append_assoc]
        rfl
    · rw [turn, h.this, hpush]
      exact if_pos hx

/-- With no identifier among the next lexemes, the stack overflows. -/
theorem faults_front {n : ℕ} (h : At ls m) (hn : n + m.stack.length = maxTokens)
    (hls : ∀ x ∈ ls.take (n + 1), kind x ≠ Tag.identifier) : Turn.Faults turn (.front, m) := by
  induction n generalizing ls m with
  | zero =>
    have hthis : m.this.type ≠ Tag.identifier := by
      rw [h.this]
      cases ls with
      | nil => decide
      | cons x ls => exact hls x (by simp)
    apply Turn.Faults.now
    rw [turn, if_pos hthis, Reader.push, if_neg (by omega)]
    rfl
  | succ n ih =>
    have hthis : m.this.type ≠ Tag.identifier := by
      rw [h.this]
      cases ls with
      | nil => decide
      | cons x ls => exact hls x (by simp)
    have hpush : m.push = some { m with stack := m.this :: m.stack } :=
      if_pos (by omega)
    have hturn : turn (.front, m) =
        go .front (gettoken lexicon { m with stack := m.this :: m.stack }) := by
      rw [turn, if_pos hthis, hpush]
      rfl
    have hmoves : Moves 1 ls { m with stack := m.this :: m.stack }
        (gettoken lexicon { m with stack := m.this :: m.stack }) :=
      moves_gettoken h.stdin
    by_cases hfit : Clear 1 ls
    · obtain ⟨m', hm', hat, hstack⟩ := hmoves.clear hfit
      rw [hm'] at hturn
      apply Turn.Faults.next hturn
      apply ih hat
      · rw [hstack, List.length_cons]
        omega
      · intro x hx
        apply hls x
        rw [List.drop_one] at hx
        cases ls with
        | nil => simp at hx
        | cons y ls => exact List.mem_cons_of_mem y hx
    · rw [hmoves.none hfit] at hturn
      exact .now hturn

/-- The start of the program, with an identifier behind at most `maxTokens` lexemes. -/
theorem verdict_start {stdin : List Char} (h : lexemes stdin = front ++ name :: back)
    (hfront : ∀ x ∈ front, kind x ≠ Tag.identifier) (hname : kind name = Tag.identifier)
    (hlen : front.length ≤ maxTokens) :
    Verdict (start stdin) (∃ w ∈ front, ¬ Passed w) ([] :: lexemes stdin)
      ((suffixesLen (parens front.reverse) back).map (front.length + 2 + ·)) := by
  have htyped : (∃ w ∈ front.reverse, ¬ Passed w) ↔ ∃ w ∈ front, ¬ Passed w := by simp
  apply Verdict.congr htyped
  rw [Nat.add_comm front.length 2, show 2 + front.length = 1 + (front.length + 1) by omega,
    ← map_map_add]
  have hmoves : Moves 1 ([] :: lexemes stdin) (.init stdin) (gettoken lexicon (.init stdin)) :=
    moves_gettoken rfl
  apply Verdict.go .front rfl hmoves
  intro m hat hstack
  rw [List.drop_one, List.tail_cons, h] at hat ⊢
  have hnil : m.stack = ([] : List (List Char)).map lexicon.tokenOf := hstack
  apply verdict_front hat hnil hfront hname (by simpa using hlen)
  intro m' hat' hstack'
  rw [suffixesLen_eq]
  apply verdict_getArray hat'
  intro k m'' _ hat'' hstack''
  apply verdict_getLparen hat''
  rw [hstack'', hstack', List.append_nil]

/-- No other input is read without a fault. -/
theorem faults_start {stdin : List Char} (h : ¬ ∃ front name back,
    lexemes stdin = front ++ name :: back ∧ (∀ x ∈ front, kind x ≠ Tag.identifier) ∧
      kind name = Tag.identifier ∧ front.length ≤ maxTokens) : Turn.Faults turn (start stdin) := by
  have hmoves : Moves 1 ([] :: lexemes stdin) (.init stdin) (gettoken lexicon (.init stdin)) :=
    moves_gettoken rfl
  have hturn : turn (start stdin) = go .front (gettoken lexicon (.init stdin)) := rfl
  by_cases hfit : Clear 1 ([] :: lexemes stdin)
  · obtain ⟨m, hm, hat, hstack⟩ := hmoves.clear hfit
    rw [hm] at hturn
    apply Turn.Faults.next hturn
    apply faults_front hat (n := maxTokens) (by rw [hstack]; rfl)
    intro x hx hident
    have hsome : (((lexemes stdin).take (maxTokens + 1)).find? fun x =>
        kind x = Tag.identifier).isSome :=
      List.find?_isSome.mpr ⟨x, hx, by simpa using hident⟩
    obtain ⟨name, hname⟩ := Option.isSome_iff_exists.mp hsome
    obtain ⟨hkind, front, back, htake, hfront⟩ := List.find?_eq_some_iff_append.mp hname
    apply h
    refine ⟨front, name, back ++ (lexemes stdin).drop (maxTokens + 1), ?_, ?_, ?_, ?_⟩
    · rw [← List.cons_append, ← List.append_assoc, ← htake, List.take_append_drop]
    · exact fun y hy => by simpa using hfront y hy
    · exact of_decide_eq_true hkind
    · have hlen := congrArg List.length htake
      simp only [List.length_take, List.length_append, List.length_cons] at hlen
      omega
  · rw [hmoves.none hfit] at hturn
    exact .now hturn

end Front

/-- The reader ends if and only if there is an identifier behind at most `maxTokens` lexemes, one
of these is neither a parenthesis nor a pointer nor a qualifier, every parameter list that is read
is closed, and what is read fits its tokens. -/
theorem main_ends_iff (stdin : List Char) : (∃ m, Yields (fun n => main stdin n) m) ↔
    ∃ front name back k, lexemes stdin = front ++ name :: back ∧
      (∀ x ∈ front, kind x ≠ Tag.identifier) ∧ kind name = Tag.identifier ∧
      front.length ≤ maxTokens ∧ (∃ x ∈ front, ¬ Passed x) ∧
      suffixesLen (parens front.reverse) back = some k ∧
      ∀ w ∈ (lexemes stdin).take (front.length + 2 + k), w.length < maxTokenLen := by
  simp only [main_iff_ends]
  constructor
  · rintro ⟨m, hm⟩
    by_cases h : ∃ front name back, lexemes stdin = front ++ name :: back ∧
        (∀ x ∈ front, kind x ≠ Tag.identifier) ∧ kind name = Tag.identifier ∧
        front.length ≤ maxTokens
    · obtain ⟨front, name, back, hsplit, hfront, hname, hlen⟩ := h
      have hv := verdict_start hsplit hfront hname hlen
      cases hk : suffixesLen (parens front.reverse) back with
      | none =>
        rw [hk] at hv
        by_cases hall : Clear ([] :: lexemes stdin).length ([] :: lexemes stdin)
        · exact absurd hm (hv.1 hall).not_ends
        · exact absurd (hv.2 hall) hm.not_faults
      | some k =>
        rw [hk] at hv
        have hboth := not_not.mp fun hn => hm.not_faults (hv.2 hn)
        exact ⟨front, name, back, k, hsplit, hfront, hname, hlen, hboth.2, hk, hboth.1⟩
    · exact absurd (faults_start h) hm.not_faults
  · rintro ⟨front, name, back, k, hsplit, hfront, hname, hlen, htyped, hk, hfit⟩
    have hv := verdict_start hsplit hfront hname hlen
    rw [hk] at hv
    exact hv.1 hfit htyped

/-- The parameter list of `f(` is not closed. -/
theorem not_main_ends : ¬ ∀ stdin, ∃ m, Yields (fun n => main stdin n) m := by
  intro h
  obtain ⟨m, hm⟩ := h ['f', '(']
  have hends := main_iff_ends.mp hm
  have hsplit : lexemes ['f', '('] = [] ++ ['f'] :: [['(']] := rfl
  have hv := verdict_start hsplit (by simp) (by decide) (Nat.zero_le _)
  have hopen : suffixesLen (parens [].reverse) [['(']] = none := by decide
  have hfit : ∀ w ∈ [['f'], ['(']], w.length < maxTokenLen := by decide
  rw [hopen] at hv
  exact (hv.1 (clear_all.mpr hfit)).not_ends hends

end Machine

end Somenote.Cdecl
