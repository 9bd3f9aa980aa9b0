import Mathlib.Tactic.Common
import Somenote.Tellwait.Signals

/-! # Lost and found signals

The flag of a process is set exactly by the signals that it has not waited for. This fails when
a signal comes between the test of the flag and `sigsuspend`, which happens as soon as a wait
starts with its signal unblocked.
-/

namespace Somenote.Tellwait

namespace Party

theorem other_ne (p : Party) : p.other ≠ p := by
  cases p <;> decide

@[simp] theorem other_other (p : Party) : p.other.other = p := by
  cases p <;> rfl

theorem eq_other {p q : Party} (h : q ≠ p) : q = p.other := by
  cases p <;> cases q <;> first | rfl | exact absurd rfl h

end Party

namespace Signals

/-- The signal that a process waits for. -/
def signal : Party → Sig
  | .parent => .usr2
  | .child => .usr1

theorem tell_eq (p : Party) (s : World) : tell p s = kill s p.other (signal p.other) := by
  cases p <;> rfl

theorem of_guard {α : Type} {c : Prop} [Decidable c] {a b : α}
    (h : (if c then some a else none) = some b) : c ∧ b = a := by
  split at h
  · exact ⟨‹c›, (Option.some.inj h).symm⟩
  · cases h

namespace Proc

/-- What holds of a process that waits for `sig` and has been told `n` times. -/
structure Kept (sig : Sig) (n : ℕ) (x : Proc) : Prop where
  count : x.delivered + (x.pending sig).toNat = n
  foreign : ∀ sig', sig' ≠ sig → x.pending sig' = false
  flag : x.delivered = x.waited + (x.sigflag || decide (x.pc = .setmask)).toNat
  clear : x.pc = .suspend ∨ x.pc = .asleep ∨ x.pc = .setmask → x.sigflag = false
  set : x.pc = .reset → x.sigflag = true
  asleep : x.pc = .asleep → x.mask = zeromask
  ahead : n ≤ x.waited + 1

variable {x y : Proc} {sig sig' : Sig} {n : ℕ} {m : Move}

theorem kept_tellWait (mask : SigSet) : (tellWait mask).Kept sig 0 where
  count := rfl
  foreign _ _ := rfl
  flag := rfl
  clear _ := rfl
  set h := nomatch h
  asleep h := nomatch h
  ahead := Nat.zero_le 1

theorem Kept.kill (h : x.Kept sig n) (hn : n = x.waited) :
    Kept sig (n + 1) { x with pending := Function.update x.pending sig true } where
  count := by
    have hcount := h.count
    have hflag := h.flag
    dsimp only
    rw [Function.update_self, Bool.toNat_true]
    omega
  foreign sig' hsig := by
    dsimp only
    rw [Function.update_of_ne hsig]
    exact h.foreign sig' hsig
  flag := h.flag
  clear := h.clear
  set := h.set
  asleep := h.asleep
  ahead := Nat.succ_le_succ (Nat.le_of_eq hn)

theorem Kept.waited_le (h : x.Kept sig n) : x.waited ≤ n := by
  have hcount := h.count
  have hflag := h.flag
  omega

theorem Kept.asleep_le (h : x.Kept sig n) (hpc : x.pc = .asleep) : x.delivered ≤ x.waited := by
  have hflag := h.flag
  rw [h.clear (Or.inr (Or.inl hpc)), hpc] at hflag
  exact Nat.le_of_eq hflag

theorem Kept.behind (h : x.Kept sig n) (hp : x.pending sig = true) :
    x.delivered = x.waited ∧ x.sigflag = false ∧ x.pc ≠ .setmask := by
  have hcount := h.count
  have hflag := h.flag
  have hahead := h.ahead
  rw [hp, Bool.toNat_true] at hcount
  have hzero : (x.sigflag || decide (x.pc = .setmask)).toNat = 0 := by omega
  rw [Bool.toNat_eq_zero, Bool.or_eq_false_iff, decide_eq_false_iff_not] at hzero
  exact ⟨by omega, hzero⟩

theorem Kept.deliver (h : x.Kept sig n) (hp : x.pending sig' = true) (hpc : x.pc ≠ .suspend) :
    (x.deliver sig').Kept sig n := by
  obtain rfl : sig' = sig := by
    by_contra hsig
    rw [h.foreign sig' hsig] at hp
    cases hp
  obtain ⟨hwaited, hflag, hset⟩ := h.behind hp
  have hcount := h.count
  rw [hp, Bool.toNat_true] at hcount
  have hother : ∀ sig, sig ≠ sig' → Function.update x.pending sig' false sig = false := by
    intro sig hsig
    rw [Function.update_of_ne hsig]
    exact h.foreign sig hsig
  cases hx : x.pc with
  | suspend => exact absurd hx hpc
  | setmask => exact absurd hx hset
  | reset =>
    have := h.set hx
    rw [hflag] at this
    cases this
  | outside | test | asleep =>
    simp only [Proc.deliver, sigUsr, hx, reduceCtorEq, if_true, if_false]
    constructor
    · simpa using hcount
    · exact hother
    · simp [hwaited]
    · simp
    · simp
    · simp
    · exact h.ahead

theorem Kept.step (h : x.Kept sig n) (hs : x.step m = some y)
    (hm : ∀ sig, m = .deliver sig → x.pc ≠ .suspend) : y.Kept sig n := by
  have hflag := h.flag
  cases m with
  | wait =>
    obtain ⟨hpc, rfl⟩ := of_guard hs
    exact ⟨h.count, h.foreign, by simpa [hpc] using hflag, by simp, by simp, by simp,
      h.ahead⟩
  | test =>
    obtain ⟨hpc, rfl⟩ := of_guard hs
    by_cases hf : x.sigflag = false
    · exact ⟨h.count, h.foreign, by simpa [hpc, hf] using hflag, fun _ => hf, by simp [hf],
        by simp [hf], h.ahead⟩
    · rw [Bool.not_eq_false] at hf
      exact ⟨h.count, h.foreign, by simpa [hpc, hf] using hflag, by simp [hf], fun _ => hf,
        by simp [hf], h.ahead⟩
  | suspend =>
    obtain ⟨hpc, rfl⟩ := of_guard hs
    exact ⟨h.count, h.foreign, by simpa [hpc] using hflag, fun _ => h.clear (Or.inl hpc), by simp,
      fun _ => rfl, h.ahead⟩
  | reset =>
    obtain ⟨hpc, rfl⟩ := of_guard hs
    rw [h.set hpc] at hflag
    exact ⟨h.count, h.foreign, by simpa using hflag, by simp, by simp, by simp, h.ahead⟩
  | setmask =>
    obtain ⟨hpc, rfl⟩ := of_guard hs
    have hclear := h.clear (Or.inr (Or.inr hpc))
    rw [hpc, hclear] at hflag
    exact ⟨h.count, h.foreign, by simpa [hclear] using hflag, by simp, by simp, by simp,
      Nat.le_succ_of_le h.ahead⟩
  | deliver sig' =>
    obtain ⟨⟨hp, -⟩, rfl⟩ := of_guard hs
    exact h.deliver hp (hm sig' rfl)

/-- A move leaves what a process has told, and ends its wait or begins one or neither. -/
theorem step_waits (hs : x.step m = some y) : y.told = x.told ∧
    (y.waited = x.waited ∧ (y.pc ≠ .outside → x.pc ≠ .outside ∨ m = .wait) ∨
      x.pc ≠ .outside ∧ y.pc = .outside ∧ y.waited = x.waited + 1) := by
  cases m with
  | wait =>
    obtain ⟨hpc, rfl⟩ := of_guard hs
    exact ⟨rfl, Or.inl ⟨rfl, fun _ => Or.inr rfl⟩⟩
  | setmask =>
    obtain ⟨hpc, rfl⟩ := of_guard hs
    exact ⟨rfl, Or.inr ⟨by simp [hpc], rfl, rfl⟩⟩
  | deliver sig =>
    obtain ⟨-, rfl⟩ := of_guard hs
    by_cases hpc : x.pc = .asleep
    · simp [Proc.deliver, sigUsr, hpc]
    · simp [Proc.deliver, sigUsr, hpc]
  | test | suspend | reset =>
    obtain ⟨hpc, rfl⟩ := of_guard hs
    exact ⟨rfl, Or.inl ⟨rfl, fun _ => Or.inl (by simp [hpc])⟩⟩

end Proc

variable {s t : World} {a : Act} {p first : Party} {C : World → Act → Prop} {mask : SigSet}

theorem step_cases (hs : step s a = some t) :
    (∃ p, a = .tell p ∧ (s p).pc = .outside ∧
      t = kill (Function.update s p { s p with told := (s p).told + 1 }) p.other
        (signal p.other)) ∨
    ∃ p m y, a = .move p m ∧ (s p).step m = some y ∧ t = Function.update s p y := by
  cases a with
  | tell p =>
    obtain ⟨hpc, rfl⟩ := of_guard hs
    exact Or.inl ⟨p, rfl, hpc, tell_eq p _⟩
  | move p m =>
    obtain ⟨y, hy, rfl⟩ := Option.map_eq_some_iff.mp hs
    exact Or.inr ⟨p, m, y, rfl, hy, rfl⟩

theorem kill_self {x : Proc} {sig : Sig} : kill (Function.update s p x) p.other sig p = x := by
  rw [kill, Function.update_of_ne p.other_ne.symm, Function.update_self]

theorem kill_other {x : Proc} {sig : Sig} : kill (Function.update s p x) p.other sig p.other =
    { s p.other with pending := Function.update (s p.other).pending sig true } := by
  rw [kill, Function.update_self, Function.update_of_ne p.other_ne]

def World.Kept (s : World) : Prop := ∀ p, (s p).Kept (signal p) (s p.other).told

theorem World.Kept.step (h : s.Kept) (hs : step s a = some t) (hsp : Spaced s a)
    (hpr : Prompt s a) : t.Kept := by
  intro q
  rcases step_cases hs with ⟨p, rfl, -, rfl⟩ | ⟨p, m, y, rfl, hy, rfl⟩
  · by_cases hq : q = p
    · subst hq
      have hk := h q
      rw [kill_self, kill_other]
      exact ⟨hk.count, hk.foreign, hk.flag, hk.clear, hk.set, hk.asleep, hk.ahead⟩
    · obtain rfl := Party.eq_other hq
      have hk := h p.other
      rw [Party.other_other] at hk
      rw [kill_other, Party.other_other, kill_self]
      exact hk.kill hsp
  · by_cases hq : q = p
    · subst hq
      rw [Function.update_self, Function.update_of_ne q.other_ne]
      apply (h q).step hy
      rintro sig rfl
      exact hpr
    · obtain rfl := Party.eq_other hq
      have hk := h p.other
      rw [Party.other_other] at hk
      rw [Function.update_of_ne hq, Party.other_other, Function.update_self, (Proc.step_waits hy).1]
      exact hk

theorem Reach.kept (h : Reach mask (fun s a => Prompt s a ∧ Spaced s a) s) : s.Kept := by
  induction h with
  | initial => exact fun p => Proc.kept_tellWait mask
  | step _ hc hs ih => exact ih.step hs hc.2 hc.1

/-! ## Taking turns -/

namespace Proc

/-- A process that has told `k` times more than it has waited when it waits: it tells first if
`k` is 1, and waits first if `k` is 0. -/
structure InTurn (k : ℕ) (x : Proc) : Prop where
  turn : x.told + 1 = x.waited + k ∨ x.told = x.waited + k
  inside : x.pc ≠ .outside → x.told = x.waited + k

variable {x y : Proc} {m : Move} {k : ℕ}

theorem InTurn.step (h : x.InTurn k) (hs : x.step m = some y)
    (hm : m = .wait → x.told = x.waited + k) : y.InTurn k := by
  obtain ⟨htold, ⟨hwaited, hpc⟩ | ⟨hx, hy, hwaited⟩⟩ := step_waits hs
  · constructor
    · rw [htold, hwaited]
      exact h.turn
    · intro hy
      rw [htold, hwaited]
      exact (hpc hy).elim h.inside hm
  · constructor
    · have := h.inside hx
      omega
    · intro hy'
      exact absurd hy hy'

end Proc

/-- Where the two processes are that take turns. -/
structure Paired (first : Party) (s : World) : Prop where
  leads : (s first).InTurn 1
  trails : (s first.other).InTurn 0

theorem Paired.step (h : Paired first s) (hs : step s a = some t) (hc : Turns first s a) :
    Paired first t := by
  have hl := h.leads
  have ht := h.trails
  rcases step_cases hs with ⟨p, rfl, hpc, rfl⟩ | ⟨p, m, y, rfl, hy, rfl⟩
  · by_cases hp : p = first
    · subst hp
      have htold : (s p).told = (s p).waited := (if_pos rfl).mp hc
      constructor
      · rw [kill_self]
        exact ⟨Or.inr (congrArg (· + 1) htold), fun hn => absurd hpc hn⟩
      · rw [kill_other]
        exact ⟨ht.turn, ht.inside⟩
    · have htold : (s p).waited = (s p).told + 1 := (if_neg hp).mp hc
      obtain rfl := Party.eq_other hp
      constructor
      · have hk := @kill_other s first.other { s first.other with told := (s first.other).told + 1 }
          (signal first.other.other)
        rw [Party.other_other] at hk ⊢
        rw [hk]
        exact ⟨hl.turn, hl.inside⟩
      · rw [kill_self]
        exact ⟨Or.inr htold.symm, fun hn => absurd hpc hn⟩
  · by_cases hp : p = first
    · subst hp
      constructor
      · rw [Function.update_self]
        apply hl.step hy
        rintro rfl
        exact (if_pos rfl).mp hc
      · rw [Function.update_of_ne p.other_ne]
        exact ht
    · obtain rfl := Party.eq_other hp
      constructor
      · rw [Function.update_of_ne (Ne.symm hp)]
        exact hl
      · rw [Function.update_self]
        apply ht.step hy
        rintro rfl
        exact ((if_neg hp).mp hc).symm

/-- Who takes turns tells when the other one has waited for what was told before. -/
theorem Paired.spaced (h : Paired first s) (hk : s.Kept) (hc : Turns first s a) : Spaced s a := by
  cases a with
  | move p m => trivial
  | tell p =>
    have hl := h.leads.turn
    have ht := h.trails.turn
    have hfirst := (hk first).waited_le
    have hother := (hk first.other).waited_le
    rw [Party.other_other] at hother
    change (s p).told = (s p.other).waited
    by_cases hp : p = first
    · subst hp
      have htold : (s p).told = (s p).waited := (if_pos rfl).mp hc
      omega
    · have htold : (s p).waited = (s p).told + 1 := (if_neg hp).mp hc
      obtain rfl := Party.eq_other hp
      rw [Party.other_other]
      omega

theorem Reach.paired (h : Reach mask (fun s a => Prompt s a ∧ Turns first s a) s) :
    Reach mask (fun s a => Prompt s a ∧ Spaced s a) s ∧ Paired first s := by
  induction h with
  | initial =>
    exact ⟨.initial, ⟨Or.inl rfl, fun h => absurd rfl h⟩, ⟨Or.inr rfl, fun h => absurd rfl h⟩⟩
  | step _ hc hs ih =>
    obtain ⟨hr, hp⟩ := ih
    exact ⟨hr.step ⟨hc.1, hp.spaced hr.kept hc.2⟩ hs, hp.step hs hc.2⟩

/-- In every run in which no signal comes between a test and its `sigsuspend`, each wait that is
over had its tell, and nobody is asleep whose signal has come. -/
theorem wakes (h : Reach mask (fun s a => Prompt s a ∧ Turns first s a) s ∨
    Reach mask (fun s a => Prompt s a ∧ Spaced s a) s) (p : Party) :
    (s p).waited ≤ (s p.other).told ∧ ((s p).pc = .asleep → (s p).delivered ≤ (s p).waited) := by
  have hk : s.Kept := by
    rcases h with h | h
    · exact h.paired.1.kept
    · exact h.kept
  exact ⟨(hk p).waited_le, (hk p).asleep_le⟩

/-- The run of the acts `as`, each of which meets the condition `C`. -/
def run (C : World → Act → Prop) [∀ s a, Decidable (C s a)] : List Act → World → Option World
  | [], s => some s
  | a :: as, s => if C s a then step s a >>= run C as else none

theorem Reach.run [∀ s a, Decidable (C s a)] {as : List Act} (h : Reach mask C s)
    (hr : Signals.run C as s = some t) : Reach mask C t := by
  induction as generalizing s with
  | nil =>
    cases hr
    exact h
  | cons a as ih =>
    rw [Signals.run] at hr
    split at hr
    · obtain ⟨u, hu, hr⟩ := Option.bind_eq_some_iff.mp hr
      exact ih (h.step ‹C s a› hu) hr
    · cases hr

instance (first : Party) (s : World) : (a : Act) → Decidable (Turns first s a)
  | .tell p => inferInstanceAs (Decidable
    (if p = first then (s p).told = (s p).waited else (s p).waited = (s p).told + 1))
  | .move p .wait => inferInstanceAs (Decidable
    (if p = first then (s p).told = (s p).waited + 1 else (s p).waited = (s p).told))
  | .move _ .test | .move _ .suspend | .move _ .reset | .move _ .setmask | .move _ (.deliver _) =>
    isTrue trivial

instance (s : World) : (a : Act) → Decidable (Prompt s a)
  | .move p (.deliver _) => inferInstanceAs (Decidable ((s p).pc ≠ .suspend))
  | .move _ .test | .move _ .suspend | .move _ .reset | .move _ .setmask | .move _ .wait
  | .tell _ => isTrue trivial

/-- A wait of a process that is asleep when it is told. -/
def heard (p : Party) : List Act :=
  [.move p .wait, .move p .test, .move p .suspend, .tell p.other, .move p (.deliver (signal p)),
    .move p .test, .move p .reset, .move p .setmask]

theorem wakes_heard : ∃ s, Reach zeromask (fun s a => Prompt s a ∧ Turns .parent s a) s ∧
    (s .child).waited = 1 ∧ ∀ p, (s p).waited ≤ (s p.other).told ∧
      ((s p).pc = .asleep → (s p).delivered ≤ (s p).waited) := by
  have hrun : (run (fun s a => Prompt s a ∧ Turns .parent s a) (heard .child)
      (World.initial zeromask)).isSome := rfl
  have hr := Reach.initial.run (Option.eq_some_of_isSome hrun)
  exact ⟨_, hr, rfl, wakes (Or.inl hr)⟩

/-- In the second round the signal of the child comes between its test and `sigsuspend`. -/
def missed : List Act :=
  heard .child ++ heard .parent ++ [.move .child .wait, .move .child .test, .tell .parent,
    .move .child (.deliver .usr1), .move .child .suspend]

theorem not_wakes : ¬ ∀ (mask : SigSet) (first : Party) (s : World), Reach mask (Turns first) s →
    ∀ p, (s p).waited ≤ (s p.other).told ∧
      ((s p).pc = .asleep → (s p).delivered ≤ (s p).waited) := by
  intro h
  have hrun : (run (Turns .parent) missed (World.initial zeromask)).isSome := rfl
  have hr := Reach.initial.run (Option.eq_some_of_isSome hrun)
  have hchild := (h zeromask .parent _ hr .child).2 rfl
  exact absurd hchild (Nat.not_succ_le_self 1)

/-- A signal that comes between the test and `sigsuspend` is always missed. -/
theorem missed_of_deliver {u : World} {sig : Sig} (hk : s.Kept) (hpc : (s p).pc = .suspend)
    (hs : step s (.move p (.deliver sig)) = some t) (hu : step t (.move p .suspend) = some u) :
    (u p).pc = .asleep ∧ (u p).waited < (u p).delivered := by
  obtain ⟨x, hx, rfl⟩ := Option.map_eq_some_iff.mp hs
  obtain ⟨y, hy, rfl⟩ := Option.map_eq_some_iff.mp hu
  rw [Function.update_self] at hy ⊢
  obtain ⟨⟨hp, -⟩, rfl⟩ := of_guard hx
  obtain ⟨-, rfl⟩ := of_guard hy
  have hflag := (hk p).flag
  rw [(hk p).clear (Or.inl hpc), hpc] at hflag
  constructor
  · rfl
  · have hd : (s p).deliver sig = { (s p).sigUsr with
        pending := Function.update (s p).pending sig false, delivered := (s p).delivered + 1 } := by
      simp [Proc.deliver, Proc.sigUsr, hpc]
    rw [hd]
    exact Nat.lt_succ_of_le (Nat.le_of_eq hflag.symm)

/-! ## Blocked signals -/

/-- A process that goes back to `mask` behind a wait, and starts its waits with `sig` blocked. -/
structure Proc.Blocks (mask : SigSet) (sig : Sig) (x : Proc) : Prop where
  oldmask : x.oldmask = mask
  foreign : ∀ sig', sig' ≠ sig → x.pending sig' = false
  awake : mask sig = true ∨ x.waited = 0 → x.pc ≠ .asleep → x.mask sig = true
  asleep : mask sig = true ∨ x.waited = 0 → x.pc = .asleep → x.restore sig = true
  inside : x.pc ≠ .outside → mask sig = true ∨ x.waited = 0

namespace Proc.Blocks

variable {x y : Proc} {sig sig' : Sig} {m : Move}

theorem tellWait : (tellWait mask).Blocks mask sig where
  oldmask := rfl
  foreign _ _ := rfl
  awake _ _ := Bool.or_true _
  asleep _ h := nomatch h
  inside h := absurd rfl h

theorem deliver (h : x.Blocks mask sig) : (x.deliver sig').Blocks mask sig := by
  have hforeign : ∀ sig₁, sig₁ ≠ sig → Function.update x.pending sig' false sig₁ = false := by
    intro sig₁ hsig
    by_cases heq : sig₁ = sig'
    · subst heq
      exact Function.update_self ..
    · rw [Function.update_of_ne heq]
      exact h.foreign sig₁ hsig
  by_cases hpc : x.pc = .asleep
  · have hd : x.deliver sig' = { x with
        pc := .test, sigflag := true, mask := x.restore, delivered := x.delivered + 1,
        pending := Function.update x.pending sig' false } := by
      simp [Proc.deliver, sigUsr, hpc]
    rw [hd]
    exact ⟨h.oldmask, hforeign, fun hb _ => h.asleep hb hpc, by simp,
      fun _ => h.inside (by simp [hpc])⟩
  · have hd : x.deliver sig' = { x with
        sigflag := true, delivered := x.delivered + 1,
        pending := Function.update x.pending sig' false } := by
      simp [Proc.deliver, sigUsr, hpc]
    rw [hd]
    exact ⟨h.oldmask, hforeign, h.awake, h.asleep, h.inside⟩

theorem step (h : x.Blocks mask sig) (hs : x.step m = some y)
    (hm : m = .wait → mask sig = true ∨ x.waited = 0) : y.Blocks mask sig := by
  cases m with
  | wait =>
    obtain ⟨hpc, rfl⟩ := of_guard hs
    exact ⟨h.oldmask, h.foreign, fun hb _ => h.awake hb (by simp [hpc]), by simp, fun _ => hm rfl⟩
  | test =>
    obtain ⟨hpc, rfl⟩ := of_guard hs
    have hne : ¬ (if x.sigflag = false then Pc.suspend else Pc.reset) = .asleep := by
      split <;> simp
    exact ⟨h.oldmask, h.foreign, fun hb _ => h.awake hb (by simp [hpc]),
      fun _ he => absurd he hne, fun _ => h.inside (by simp [hpc])⟩
  | suspend =>
    obtain ⟨hpc, rfl⟩ := of_guard hs
    exact ⟨h.oldmask, h.foreign, fun _ hn => absurd rfl hn,
      fun hb _ => h.awake hb (by simp [hpc]), fun _ => h.inside (by simp [hpc])⟩
  | reset =>
    obtain ⟨hpc, rfl⟩ := of_guard hs
    exact ⟨h.oldmask, h.foreign, fun hb _ => h.awake hb (by simp [hpc]), by simp,
      fun _ => h.inside (by simp [hpc])⟩
  | setmask =>
    obtain ⟨hpc, rfl⟩ := of_guard hs
    constructor
    · exact h.oldmask
    · exact h.foreign
    · intro hb _
      dsimp only
      rw [h.oldmask]
      exact hb.resolve_right (Nat.succ_ne_zero _)
    · simp
    · simp
  | deliver sig' =>
    obtain ⟨-, rfl⟩ := of_guard hs
    exact h.deliver

theorem prompt (h : x.Blocks mask sig) (hp : x.pending sig' = true) (hn : x.mask sig' = false) :
    x.pc ≠ .suspend := by
  intro hpc
  obtain rfl : sig' = sig := by
    by_contra hsig
    rw [h.foreign sig' hsig] at hp
    cases hp
  rw [h.awake (h.inside (by simp [hpc])) (by simp [hpc])] at hn
  cases hn

end Proc.Blocks

theorem World.blocks_step (h : ∀ p, (s p).Blocks mask (signal p)) (hs : step s a = some t)
    (ha : ∀ p, a = .move p .wait → mask (signal p) = true ∨ (s p).waited = 0) (q : Party) :
    (t q).Blocks mask (signal q) := by
  have hq := h q
  rcases step_cases hs with ⟨p, rfl, -, rfl⟩ | ⟨p, m, y, rfl, hy, rfl⟩
  · by_cases hp : q = p
    · subst hp
      rw [kill_self]
      exact ⟨hq.oldmask, hq.foreign, hq.awake, hq.asleep, hq.inside⟩
    · obtain rfl := Party.eq_other hp
      rw [kill_other]
      refine ⟨hq.oldmask, fun sig' hsig => ?_, hq.awake, hq.asleep, hq.inside⟩
      dsimp only
      rw [Function.update_of_ne hsig]
      exact hq.foreign sig' hsig
  · by_cases hp : q = p
    · subst hp
      rw [Function.update_self]
      apply hq.step hy
      rintro rfl
      exact ha q rfl
    · rw [Function.update_of_ne hp]
      exact hq

/-- No signal comes in front of a `sigsuspend`, when all waits start with their signal blocked:
because it was blocked before `TELL_WAIT`, or because there is but one wait. -/
theorem Reach.prompt (h : Reach mask C s)
    (hC : ∀ s p, C s (.move p .wait) → mask (signal p) = true ∨ (s p).waited = 0) :
    Reach mask (fun s a => Prompt s a ∧ C s a) s ∧ ∀ p, (s p).Blocks mask (signal p) := by
  induction h with
  | initial => exact ⟨.initial, fun p => Proc.Blocks.tellWait⟩
  | @step s t a _ hc hs ih =>
    obtain ⟨hr, hb⟩ := ih
    have hwait : ∀ p, a = .move p .wait → mask (signal p) = true ∨ (s p).waited = 0 := by
      rintro p rfl
      exact hC s p hc
    constructor
    · apply hr.step _ hs
      constructor
      · cases a with
        | tell p => trivial
        | move p m =>
          cases m with
          | deliver sig =>
            obtain ⟨y, hy, -⟩ := Option.map_eq_some_iff.mp hs
            obtain ⟨⟨hp, hn⟩, -⟩ := of_guard hy
            exact (hb p).prompt hp hn
          | _ => trivial
      · exact hc
    · exact World.blocks_step hb hs hwait

end Signals

end Somenote.Tellwait
