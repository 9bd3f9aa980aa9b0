import Somenote.Cdecl.Source
import Somenote.Program.Turns

/-! # The state machine turn by turn

A turn of the state machine is a turn of one of its loops, or a call of `nextstate` between them.
It fails when it accesses an array outside of its bounds.
-/

namespace Somenote.Cdecl

namespace Machine

/-- Where the program is: in front of a call of `nextstate`, or in a loop of such a call. In the
loop of `get_array` it has the next state. -/
inductive Pc
  | state (s : State)
  | front
  | arrays (nextstate : State)
  | args
  deriving DecidableEq, Repr

abbrev Config := Pc × Reader

/-- Go on at `pc`, unless the step failed. -/
def go (pc : Pc) : Option Reader → Turn Config Reader
  | some m => .next (pc, m)
  | none => .fault

/-- Go on with the next state. -/
def goState : Option (Option State × Reader) → Turn Config Reader
  | some (some s, m) => .next (.state s, m)
  | some (none, m) => .ended m
  | none => .fault

def turn : Config → Turn Config Reader
  | (.state .initial, m) => go .front (gettoken lexicon m)
  | (.front, m) =>
    if m.this.type ≠ Tag.identifier then go .front (m.push >>= gettoken lexicon)
    else go (.state .getArray) (gettoken lexicon (m.print (m.this.string ++ " is ".toList)))
  | (.state .getArray, m) => .next (.arrays .getParams, m)
  | (.arrays s, m) =>
    if m.this.type = '['.toNat then go (.arrays .getLparen) (arraySuffix lexicon format m)
    else .next (.state s, m)
  | (.state .getParams, m) =>
    if m.this.type = '('.toNat then .next (.args, m) else .next (.state .getLparen, m)
  | (.args, m) =>
    if m.this.type ≠ ')'.toNat then go .args (gettoken lexicon m)
    else go (.state .getLparen) ((gettoken lexicon m).map fun m => m.print format.function)
  | (.state .getLparen, m) => goState (getLparen m)
  | (.state .getPtrPart, m) => goState (getPtrPart m)
  | (.state .getType, m) => goState (getType m)

def start (stdin : List Char) : Config := (.state .initial, .init stdin)

/-! ## The turns of the program -/

variable {m m' : Reader} {s : State} {o : Option State} {n k : ℕ} {stdin : List Char}

theorem turns_loop {cond : Reader → Bool} {body : Reader → Option Reader} {pc : Pc}
    (hbody : ∀ m m', cond m = true → body m = some m' → turn (pc, m) = .next (pc, m'))
    (h : loop cond body n m = some m') : cond m' = false ∧ Turn.Leads turn (pc, m) (pc, m') := by
  induction n generalizing m with
  | zero => cases h
  | succ n ih =>
    rw [loop] at h
    split at h
    · obtain ⟨m₁, hm₁, h⟩ := Option.bind_eq_some_iff.mp h
      obtain ⟨hcond, hleads⟩ := ih h
      exact ⟨hcond, .next (hbody m m₁ ‹_› hm₁) hleads⟩
    · rename_i hcond
      cases h
      exact ⟨by simpa using hcond, .refl _⟩

theorem turns_initial (h : readToFirstIdentifier lexicon n m = some m') :
    Turn.Leads turn (.state .initial, m) (.state .getArray, m') := by
  obtain ⟨m₁, h₁, h⟩ := Option.bind_eq_some_iff.mp h
  obtain ⟨m₂, h₂, h₃⟩ := Option.bind_eq_some_iff.mp h
  have hfront : ∀ m m', decide (m.this.type ≠ Tag.identifier) = true →
      (m.push >>= gettoken lexicon) = some m' → turn (.front, m) = .next (.front, m') := by
    intro m m' hm hbody
    rw [turn, if_pos (of_decide_eq_true hm), hbody]
    rfl
  obtain ⟨hcond, hloop⟩ := turns_loop hfront h₂
  apply Turn.Leads.next (t := (.front, m₁)) (by rw [turn, h₁]; rfl)
  apply hloop.trans
  apply Turn.Leads.next _ (.refl _)
  rw [turn, if_neg (of_decide_eq_false hcond), h₃]
  rfl

theorem arraySuffixes_false (h : arraySuffixes lexicon format n m = some m')
    (hthis : m.this.type ≠ '['.toNat) : m' = m := by
  cases n with
  | zero => cases h
  | succ n =>
    rw [arraySuffixes, loop, if_neg (by simpa using hthis)] at h
    exact (Option.some.inj h).symm

theorem turns_arrays (h : arraySuffixes lexicon format n m = some m') :
    m'.this.type ≠ '['.toNat ∧ Turn.Leads turn (.arrays .getLparen, m) (.arrays .getLparen, m') := by
  have hbody : ∀ m m', decide (m.this.type = '['.toNat) = true →
      arraySuffix lexicon format m = some m' →
      turn (.arrays .getLparen, m) = .next (.arrays .getLparen, m') := by
    intro m m' hm hbody
    rw [turn, if_pos (of_decide_eq_true hm), hbody]
    rfl
  obtain ⟨hcond, hloop⟩ := turns_loop hbody h
  exact ⟨of_decide_eq_false hcond, hloop⟩

theorem turns_getArray (h : getArray n m = some (o, m')) :
    ∃ s, o = some s ∧ Turn.Leads turn (.state .getArray, m) (.state s, m') := by
  obtain ⟨m₁, h₁, heq⟩ := Option.bind_eq_some_iff.mp h
  cases heq
  refine ⟨_, rfl, .next rfl ?_⟩
  by_cases hthis : m.this.type = '['.toNat
  · rw [if_pos hthis]
    -- the first turn of the loop changes the next state
    cases n with
    | zero => cases h₁
    | succ n =>
      rw [arraySuffixes, loop, if_pos (by simpa using hthis)] at h₁
      obtain ⟨m₂, h₂, h₁⟩ := Option.bind_eq_some_iff.mp h₁
      obtain ⟨hnot, hleads⟩ := turns_arrays h₁
      apply Turn.Leads.next (t := (.arrays .getLparen, m₂))
      · rw [turn, if_pos hthis, h₂]
        rfl
      · apply hleads.trans
        apply Turn.Leads.next _ (.refl _)
        rw [turn, if_neg hnot]
  · obtain rfl := arraySuffixes_false h₁ hthis
    rw [if_neg hthis]
    apply Turn.Leads.next _ (.refl _)
    rw [turn, if_neg hthis]

theorem turns_getParams (h : getParams n m = some (o, m')) :
    ∃ s, o = some s ∧ Turn.Leads turn (.state .getParams, m) (.state s, m') := by
  rw [getParams] at h
  split at h
  · rename_i hthis
    obtain ⟨m₁, h₁, heq⟩ := Option.bind_eq_some_iff.mp h
    cases heq
    obtain ⟨m₂, h₂, h₁⟩ := Option.bind_eq_some_iff.mp h₁
    obtain ⟨m₃, h₃, heq⟩ := Option.bind_eq_some_iff.mp h₁
    cases heq
    have hbody : ∀ m m', decide (m.this.type ≠ ')'.toNat) = true →
        gettoken lexicon m = some m' → turn (.args, m) = .next (.args, m') := by
      intro m m' hm hbody
      rw [turn, if_pos (of_decide_eq_true hm), hbody]
      rfl
    obtain ⟨hcond, hloop⟩ := turns_loop hbody h₂
    refine ⟨_, rfl, .next (t := (.args, m)) ?_ (hloop.trans ?_)⟩
    · rw [turn, if_pos hthis]
    · apply Turn.Leads.next _ (.refl _)
      rw [turn, if_neg (of_decide_eq_false hcond), h₃]
      rfl
  · rename_i hthis
    cases h
    refine ⟨_, rfl, .next ?_ (.refl _)⟩
    rw [turn, if_neg hthis]

/-- A call of `nextstate` is a number of turns. -/
theorem turns_hop (h : hop n (some s, m) = some (o, m')) :
    (∀ s', o = some s' → Turn.Leads turn (.state s, m) (.state s', m')) ∧
      (o = none → Turn.Ends turn (.state s, m) m') := by
  have hstate : ∀ {x : Option (Option State × Reader)}, x = some (o, m') →
      turn (.state s, m) = goState x →
      (∀ s', o = some s' → Turn.Leads turn (.state s, m) (.state s', m')) ∧
        (o = none → Turn.Ends turn (.state s, m) m') := by
    rintro _ rfl hturn
    constructor
    · rintro s' rfl
      exact .next hturn (.refl _)
    · rintro rfl
      exact .now hturn
  have hleads : (∃ s', o = some s' ∧ Turn.Leads turn (.state s, m) (.state s', m')) →
      (∀ s', o = some s' → Turn.Leads turn (.state s, m) (.state s', m')) ∧
        (o = none → Turn.Ends turn (.state s, m) m') := by
    rintro ⟨s', rfl, hs'⟩
    constructor
    · rintro _ ⟨rfl⟩
      exact hs'
    · intro ho
      cases ho
  cases s with
  | initial =>
    obtain ⟨m₁, h₁, heq⟩ := Option.bind_eq_some_iff.mp h
    cases heq
    exact hleads ⟨_, rfl, turns_initial h₁⟩
  | getArray => exact hleads (turns_getArray h)
  | getParams => exact hleads (turns_getParams h)
  | getLparen => exact hstate h rfl
  | getPtrPart => exact hstate h rfl
  | getType => exact hstate h rfl

theorem ends_of_main (h : main stdin n = some m) : Turn.Ends turn (start stdin) m := by
  have hloop : ∀ k s m₁ x, loop (fun x => x.1.isSome) (hop n) k (some s, m₁) = some x →
      Turn.Ends turn (.state s, m₁) x.2 := by
    intro k
    induction k with
    | zero =>
      intro s m₁ x hx
      cases hx
    | succ k ih =>
      intro s m₁ x hx
      simp only [loop, Option.isSome_some, if_true] at hx
      obtain ⟨⟨o, m₂⟩, hhop, hx⟩ := Option.bind_eq_some_iff.mp hx
      obtain ⟨hnext, hend⟩ := turns_hop hhop
      cases o with
      | some s' => exact (hnext s' rfl).ends (ih s' m₂ x hx)
      | none =>
        have hdone : x = (none, m₂) := by
          cases k with
          | zero => cases hx
          | succ k =>
            rw [loop, if_neg (by simp)] at hx
            exact (Option.some.inj hx).symm
        rw [hdone]
        exact hend rfl
  obtain ⟨x, hx, heq⟩ := Option.bind_eq_some_iff.mp h
  cases heq
  exact hloop n .initial _ x hx

/-- The rest of the program at `pc`, as loops of the source. -/
def Finishes (r : Reader) : Config → Prop
  | (.state s, m) => Loops (fun x => x.1.isSome) hop (some s, m) (none, r)
  | (.front, m) => ∃ m₁ m₂, Loops (fun m : Reader => m.this.type ≠ Tag.identifier)
      (fun _ m => m.push >>= gettoken lexicon) m m₁ ∧
    gettoken lexicon (m₁.print (m₁.this.string ++ " is ".toList)) = some m₂ ∧
    Loops (fun x => x.1.isSome) hop (some .getArray, m₂) (none, r)
  | (.arrays s, m) => ∃ m₁, Loops (fun m : Reader => m.this.type = '['.toNat)
      (fun _ => arraySuffix lexicon format) m m₁ ∧
    Loops (fun x => x.1.isSome) hop
      (some (if m.this.type = '['.toNat then .getLparen else s), m₁) (none, r)
  | (.args, m) => ∃ m₁ m₂, Loops (fun m : Reader => m.this.type ≠ ')'.toNat)
      (fun _ => gettoken lexicon) m m₁ ∧ gettoken lexicon m₁ = some m₂ ∧
    Loops (fun x => x.1.isSome) hop (some .getLparen, m₂.print format.function) (none, r)

theorem next_of_go {pc : Pc} {x : Option Reader} {c : Config} (h : go pc x = .next c) :
    ∃ m, x = some m ∧ c = (pc, m) := by
  cases x with
  | none => cases h
  | some m =>
    cases h
    exact ⟨m, rfl, rfl⟩

theorem next_of_goState {x : Option (Option State × Reader)} {c : Config}
    (h : goState x = .next c) : ∃ s m, x = some (some s, m) ∧ c = (.state s, m) := by
  obtain _ | ⟨_ | s, m⟩ := x
  · cases h
  · cases h
  · cases h
    exact ⟨s, m, rfl, rfl⟩

theorem ended_of_goState {x : Option (Option State × Reader)} {r : Reader}
    (h : goState x = .ended r) : x = some (none, r) := by
  obtain _ | ⟨_ | s, m⟩ := x
  · cases h
  · cases h
    rfl
  · cases h

theorem not_ended_go {pc : Pc} {x : Option Reader} {r : Reader} : go pc x ≠ .ended r := by
  cases x <;> exact nofun

theorem finishes_ended {r : Reader} (h : turn (.state s, m) = .ended r) :
    Finishes r (.state s, m) := by
  have hstate : ∀ {x : Option (Option State × Reader)}, goState x = .ended r →
      (∀ n, hop n (some s, m) = x) → Finishes r (.state s, m) := by
    intro x hx hhop
    exact .turn rfl (.of_eq fun n => (hhop n).trans (ended_of_goState hx)) (.done rfl)
  cases s with
  | initial => exact absurd h not_ended_go
  | getArray => cases h
  | getParams =>
    rw [turn] at h
    split at h <;> cases h
  | getLparen => exact hstate h fun _ => rfl
  | getPtrPart => exact hstate h fun _ => rfl
  | getType => exact hstate (x := getType m) h fun _ => rfl

theorem finishes_next_loop {pc : Pc} {c' : Config} {r : Reader} (hpc : ∀ s, pc ≠ .state s)
    (h : turn (pc, m) = .next c') (ih : Finishes r c') : Finishes r (pc, m) := by
  cases pc with
  | front =>
    rw [turn] at h
    split at h
    · obtain ⟨m', hm', rfl⟩ := next_of_go h
      obtain ⟨m₁, m₂, hloop, hrest⟩ := ih
      exact ⟨m₁, m₂, .turn (decide_eq_true ‹_›) (.const hm') hloop, hrest⟩
    · obtain ⟨m', hm', rfl⟩ := next_of_go h
      exact ⟨m, m', .done (decide_eq_false ‹_›), hm', ih⟩
  | arrays s =>
    rw [turn] at h
    split at h
    · rename_i hthis
      obtain ⟨m', hm', rfl⟩ := next_of_go h
      obtain ⟨m₁, hloop, hrest⟩ := ih
      refine ⟨m₁, .turn (by simpa using hthis) (.const hm') hloop, ?_⟩
      rw [if_pos hthis]
      rwa [ite_self] at hrest
    · rename_i hthis
      cases h
      refine ⟨m, .done (by simpa using hthis), ?_⟩
      rw [if_neg hthis]
      exact ih
  | args =>
    rw [turn] at h
    split at h
    · obtain ⟨m', hm', rfl⟩ := next_of_go h
      obtain ⟨m₁, m₂, hloop, hrest⟩ := ih
      exact ⟨m₁, m₂, .turn (decide_eq_true ‹_›) (.const hm') hloop, hrest⟩
    · obtain ⟨m', hm', rfl⟩ := next_of_go h
      obtain ⟨m₂, hm₂, rfl⟩ := Option.map_eq_some_iff.mp hm'
      exact ⟨m, m₂, .done (decide_eq_false ‹_›), hm₂, ih⟩
  | state s => exact absurd rfl (hpc s)

theorem finishes_next_state {c' : Config} {r : Reader} (h : turn (.state s, m) = .next c')
    (ih : Finishes r c') : Finishes r (.state s, m) := by
  cases s with
  | initial =>
    obtain ⟨m', hm', rfl⟩ := next_of_go h
    obtain ⟨m₁, m₂, hloop, hget, hrest⟩ := ih
    have hread : Yields (fun n => readToFirstIdentifier lexicon n m) m₂ := by
      unfold readToFirstIdentifier
      rw [hm']
      exact hloop.yields.bind
        (g := fun _ m => gettoken lexicon (m.print (m.this.string ++ " is ".toList)))
        (.const hget)
    exact .turn rfl (hread.bind (g := fun _ m => some (some State.getArray, m)) (.const rfl)) hrest
  | getArray =>
    cases h
    obtain ⟨m₁, hloop, hrest⟩ := ih
    exact .turn rfl (hloop.yields.bind (g := fun _ m₁ => some
      (some (if m.this.type = '['.toNat then State.getLparen else .getParams), m₁))
      (.const rfl)) hrest
  | getParams =>
    rw [turn] at h
    split at h
    · rename_i hthis
      cases h
      obtain ⟨m₁, m₂, hloop, hget, hrest⟩ := ih
      have hargs : Yields (fun n => functionArgs lexicon format n m)
          (m₂.print format.function) := by
        refine hloop.yields.bind (g := fun _ m => gettoken lexicon m >>= fun m =>
          some (m.print format.function)) (.const ?_)
        rw [hget]
        rfl
      refine .turn rfl ?_ hrest
      simp only [hop, getParams, if_pos hthis]
      exact hargs.bind (g := fun _ m => some (some State.getLparen, m)) (.const rfl)
    · rename_i hthis
      cases h
      refine .turn rfl (.of_eq fun n => ?_) ih
      rw [hop, getParams, if_neg hthis]
  | getLparen =>
    obtain ⟨s', m', hs', rfl⟩ := next_of_goState h
    exact .turn rfl (.const hs') ih
  | getPtrPart =>
    obtain ⟨s', m', hs', rfl⟩ := next_of_goState h
    exact .turn rfl (.const hs') ih
  | getType => cases h

theorem finishes_of_ends {c : Config} {r : Reader} (h : Turn.Ends turn c r) : Finishes r c := by
  induction h with
  | @now c r h =>
    obtain ⟨pc, m⟩ := c
    cases pc with
    | state s => exact finishes_ended h
    | front | arrays | args =>
      rw [turn] at h
      split at h
      · exact absurd h not_ended_go
      · first | exact absurd h not_ended_go | cases h
  | @next c c' r h _ ih =>
    obtain ⟨pc, m⟩ := c
    cases pc with
    | state s => exact finishes_next_state h ih
    | front | arrays | args => exact finishes_next_loop (by simp) h ih

/-- The program returns if and only if its turns end, and does so in the same state. -/
theorem main_iff_ends : Yields (fun n => main stdin n) m ↔ Turn.Ends turn (start stdin) m := by
  constructor
  · rintro ⟨N, hN⟩
    exact ends_of_main (hN N le_rfl)
  · intro h
    have hloop : Loops (fun x => x.1.isSome) hop (some .initial, .init stdin) (none, m) :=
      finishes_of_ends h
    exact hloop.yields.bind (g := fun _ x => some x.2) (.const rfl)

end Machine

end Somenote.Cdecl
