import Somenote.Program.Machine

/-! # Operations that take effect at one moment

An object has a state, and says which results an operation may have and what it does to the
state. In a run of several processes each operation takes effect at one moment between its
start and its return. Whether it does is seen process by process: between two calls of a
process the others may change the system as the process can rely on, and each of its own
calls leaves the others what they rely on.
-/

namespace Somenote

variable {Pid Op Res H C : Type} {Reply : C → Type} {ε α L K A W : Type}

/-- The events of a run on an object with the state `a` at its start, the state behind them, and
for each process the operation it is in, with the result once the operation has taken effect. -/
inductive Linearized [DecidableEq Pid] (spec : Op → A → Res → A → Prop) (a : A) :
    List (Event Pid Op Res C) → A → (Pid → Option (Op × Option Res)) → Prop
  | nil : Linearized spec a [] a fun _ => none
  | inv {tr b t p op} (h : Linearized spec a tr b t) (ht : t p = none) :
    Linearized spec a (tr ++ [.inv p op]) b (Function.update t p (some (op, none)))
  | sys {tr b t p c} (h : Linearized spec a tr b t) : Linearized spec a (tr ++ [.sys p c]) b t
  | effect {tr b t p op res b'} (h : Linearized spec a tr b t) (ht : t p = some (op, none))
      (hb : spec op b res b') :
    Linearized spec a tr b' (Function.update t p (some (op, some res)))
  | ret {tr b t p op res} (h : Linearized spec a tr b t) (ht : t p = some (op, some res)) :
    Linearized spec a (tr ++ [.ret p op res]) b (Function.update t p none)

theorem snoc_cases {l l₁ l₂ : List α} {x y : α} (h : l ++ [x] = l₁ ++ y :: l₂) :
    l = l₁ ∧ x = y ∨ ∃ l₃, l = l₁ ++ y :: l₃ := by
  rcases List.eq_nil_or_concat l₂ with rfl | ⟨l₃, z, rfl⟩
  · obtain ⟨rfl, he⟩ := List.append_inj' h rfl
    exact Or.inl ⟨rfl, List.singleton_inj.mp he⟩
  · rw [List.concat_eq_append, ← List.cons_append, ← List.append_assoc] at h
    exact Or.inr ⟨l₃, (List.append_inj' h rfl).1⟩

/-- The process `p` neither starts nor ends an operation. -/
def Event.Leaves (p : Pid) : Event Pid Op Res C → Prop
  | inv q _ | ret q _ _ | die q => q ≠ p
  | sys _ _ => True

section Linearized

variable [DecidableEq Pid] {spec : Op → A → Res → A → Prop} {a b : A}
  {tr : List (Event Pid Op Res C)} {t : Pid → Option (Op × Option Res)} {p : Pid} {op : Op}
  {res : Res}

/-- An operation that has its result took effect at a moment since its start. -/
theorem Linearized.moment (h : Linearized spec a tr b t) (ht : t p = some (op, some res)) :
    ∃ u v b₁ b₂ t₁, tr = u ++ v ∧ (∀ e ∈ v, e.Leaves p) ∧ Linearized spec a u b₁ t₁ ∧
      t₁ p = some (op, none) ∧ spec op b₁ res b₂ := by
  induction h with
  | nil => cases ht
  | @inv tr b t q op' h htq ih =>
    have hq : q ≠ p := by
      rintro rfl
      rw [Function.update_self] at ht
      cases ht
    rw [Function.update_of_ne hq.symm] at ht
    obtain ⟨u, v, b₁, b₂, t₁, rfl, hv, hu⟩ := ih ht
    refine ⟨u, v ++ [.inv q op'], b₁, b₂, t₁, List.append_assoc .., ?_, hu⟩
    exact List.forall_mem_append.mpr ⟨hv, List.forall_mem_singleton.mpr hq⟩
  | @sys tr b t q c h ih =>
    obtain ⟨u, v, b₁, b₂, t₁, rfl, hv, hu⟩ := ih ht
    refine ⟨u, v ++ [.sys q c], b₁, b₂, t₁, List.append_assoc .., ?_, hu⟩
    exact List.forall_mem_append.mpr ⟨hv, List.forall_mem_singleton.mpr trivial⟩
  | @effect tr b t q op' res' b' h htq hb ih =>
    by_cases hq : q = p
    · subst hq
      rw [Function.update_self] at ht
      cases ht
      exact ⟨tr, [], b, b', t, (List.append_nil _).symm, by simp, h, htq, hb⟩
    · rw [Function.update_of_ne (Ne.symm hq)] at ht
      exact ih ht
  | @ret tr b t q op' res' h htq ih =>
    have hq : q ≠ p := by
      rintro rfl
      rw [Function.update_self] at ht
      cases ht
    rw [Function.update_of_ne hq.symm] at ht
    obtain ⟨u, v, b₁, b₂, t₁, rfl, hv, hu⟩ := ih ht
    refine ⟨u, v ++ [.ret q op' res'], b₁, b₂, t₁, List.append_assoc .., ?_, hu⟩
    exact List.forall_mem_append.mpr ⟨hv, List.forall_mem_singleton.mpr hq⟩

theorem Linearized.returned {tr₁ tr₂ : List (Event Pid Op Res C)}
    (h : Linearized spec a tr b t) (htr : tr = tr₁ ++ .ret p op res :: tr₂) :
    ∃ b₁ t₁, Linearized spec a tr₁ b₁ t₁ ∧ t₁ p = some (op, some res) := by
  induction h generalizing tr₂ with
  | nil => cases tr₁ <;> cases htr
  | inv h htq ih =>
    rcases snoc_cases htr with ⟨-, he⟩ | ⟨tr₃, htr⟩
    · cases he
    · exact ih htr
  | sys h ih =>
    rcases snoc_cases htr with ⟨-, he⟩ | ⟨tr₃, htr⟩
    · cases he
    · exact ih htr
  | effect h htq hb ih => exact ih htr
  | ret h htq ih =>
    rcases snoc_cases htr with ⟨rfl, he⟩ | ⟨tr₃, htr⟩
    · cases he
      exact ⟨_, _, h, htq⟩
    · exact ih htr

end Linearized

/-- Worlds extend the states of a system. `Rely p` says how a world may change while the
process `p` is between two calls. -/
structure Sharing (Pid Op Res A K W : Type) where
  shared : W → K
  obj : W → A
  Ok : W → Prop
  Rely : Pid → W → W → Prop
  spec : Op → A → Res → A → Prop
  refl : ∀ p w, Rely p w w
  trans : ∀ {p u v w}, Rely p u v → Rely p v w → Rely p u w

namespace Sharing

variable (S : Sharing Pid Op Res A K W)

/-- A step of the process `p` in the operation `op`, which may take effect in it. -/
structure Moves (p : Pid) (op : Op) (w : W) (τ : Option Res) (w' : W) (τ' : Option Res) :
    Prop where
  ok : S.Ok w'
  rely : ∀ q, q ≠ p → S.Rely q w w'
  effect : S.obj w' = S.obj w ∧ τ' = τ ∨
    τ = none ∧ ∃ res, τ' = some res ∧ S.spec op (S.obj w) res (S.obj w')

variable {S} {p : Pid} {op : Op} {w w' w'' : W} {τ τ' : Option Res}

theorem Moves.stay (hok : S.Ok w) : S.Moves p op w τ w τ :=
  ⟨hok, fun q _ => S.refl q w, Or.inl ⟨rfl, rfl⟩⟩

theorem Moves.behind (h : S.Moves p op w τ w' τ') (h' : S.Moves p op w' τ' w'' τ')
    (ho : S.obj w'' = S.obj w') : S.Moves p op w τ w'' τ' where
  ok := h'.ok
  rely q hq := S.trans (h.rely q hq) (h'.rely q hq)
  effect := by
    rw [ho]
    exact h.effect

end Sharing

namespace Prog

section

variable (S : Sharing Pid Op Res A K W) (sys : Kernel Pid C Reply L K) (p : Pid) (op : Op)

/-- The program of `p` runs in the worlds that `p` relies on, keeps what the others rely on, and
returns with `Q`. -/
def Safe (Q : α → L → W → Option Res → Prop) : Prog C Reply ε α → L → W → Option Res → Prop
  | ret a, l, w, τ => Q a l w τ
  | call c k, l, w, τ => ∀ w', S.Ok w' → S.Rely p w w' → sys.Ready p c l (S.shared w') →
      ∃ w'' τ', S.Moves p op w' τ w'' τ' ∧ S.shared w'' = (sys.exec p c l (S.shared w')).2.2 ∧
        Safe Q (k (sys.exec p c l (S.shared w')).1) (sys.exec p c l (S.shared w')).2.1 w'' τ'
  | _, _, _, _ => True

end

variable {S : Sharing Pid Op Res A K W} {sys : Kernel Pid C Reply L K} {p : Pid} {op : Op}
  {m : Prog C Reply ε α} {l : L} {w w' : W} {τ : Option Res}
  {Q : α → L → W → Option Res → Prop}

theorem Safe.rely (h : m.Safe S sys p op Q l w τ) (hr : S.Rely p w w')
    (hQ : ∀ a l, Q a l w τ → Q a l w' τ) : m.Safe S sys p op Q l w' τ := by
  cases m with
  | ret a => exact hQ a l h
  | call c k => exact fun u hu hru => h u hu (S.trans hr hru)
  | _ => trivial

end Prog

section Sound

variable (S : Sharing Pid Op Res A K W) (sys : Kernel Pid C Reply L K)
  (cli : Client Op Res H C Reply ε α L) (Idle : Pid → H → W → Prop)

/-- How an operation returns: with the result of its effect, and the process idle. -/
def Returns (p : Pid) (op : Op) (h : H) (a : α) (l : L) (w : W) (τ : Option Res) : Prop :=
  τ = some (cli.finish op h l a).1 ∧ Idle p (cli.finish op h l a).2 w

/-- The task of a process is at the point of its operation that the object knows. -/
def Task.Matches (p : Pid) (w : W) :
    Task Op H C Reply ε α L → Option (Op × Option Res) → Prop
  | idle h, t => t = none ∧ Idle p h w
  | busy op h l m, t =>
    ∃ τ, t = some (op, τ) ∧ m.Safe S sys p op (Returns cli Idle p op h) l w τ
  | gone, _ => False

variable {S sys cli Idle} {s t : Conf Pid Op H C Reply ε α L K} {w w' : W}
  {tr : List (Event Pid Op Res C)} {e : Event Pid Op Res C} {Allowed : Pid → Op → Prop}
  {p : Pid} {op : Op} {h : H}

theorem Task.Matches.rely {x : Task Op H C Reply ε α L} {y : Option (Op × Option Res)}
    (hx : x.Matches S sys cli Idle p w y) (hr : S.Rely p w w')
    (hidle : ∀ h, Idle p h w → Idle p h w') : x.Matches S sys cli Idle p w' y := by
  cases x with
  | idle h => exact ⟨hx.1, hidle h hx.2⟩
  | busy op h l m =>
    obtain ⟨τ, hy, hm⟩ := hx
    exact ⟨τ, hy, hm.rely hr fun a l hQ => ⟨hQ.1, hidle _ hQ.2⟩⟩
  | gone => exact hx

variable (S sys cli Idle) in
/-- A world behind the state of the machine, with what the object knows. -/
structure Follows (s : Conf Pid Op H C Reply ε α L K) (w : W)
    (t : Pid → Option (Op × Option Res)) : Prop where
  shared : S.shared w = s.shared
  ok : S.Ok w
  tasks : ∀ p, (s.tasks p).Matches S sys cli Idle p w (t p)

variable [DecidableEq Pid] {y : Pid → Option (Op × Option Res)}

theorem Follows.put (hf : Follows S sys cli Idle s w y) (hok : S.Ok w')
    (hr : ∀ q, q ≠ p → S.Rely q w w') (hidle : ∀ p h w w', S.Rely p w w' → Idle p h w → Idle p h w')
    {x : Task Op H C Reply ε α L} {z : Option (Op × Option Res)}
    (hx : x.Matches S sys cli Idle p w' z) :
    Follows S sys cli Idle (s.put p x (S.shared w')) w' (Function.update y p z) where
  shared := rfl
  ok := hok
  tasks q := by
    by_cases hq : q = p
    · subst hq
      rwa [Conf.put_self, Function.update_self]
    · rw [Conf.put_ne hq, Function.update_of_ne hq]
      exact (hf.tasks q).rely (hr q hq) fun h => hidle q h w w' (hr q hq)

theorem Linearized.moves {a : A} {τ τ' : Option Res}
    (hl : Linearized S.spec a tr (S.obj w) y) (hy : y p = some (op, τ))
    (hm : S.Moves p op w τ w' τ') :
    Linearized S.spec a tr (S.obj w') (Function.update y p (some (op, τ'))) := by
  rcases hm.effect with ⟨ho, rfl⟩ | ⟨rfl, res, rfl, hspec⟩
  · rwa [ho, ← hy, Function.update_eq_self]
  · exact hl.effect hy hspec

variable (hidle : ∀ p h w w', S.Rely p w w' → Idle p h w → Idle p h w')
  (hstart : ∀ p op h w, Allowed p op → cli.Can op h → S.Ok w → Idle p h w →
    ∃ w' τ, S.Moves p op w none w' τ ∧ S.shared w' = S.shared w ∧
      (cli.start op h).2.Safe S sys p op (Returns cli Idle p op h) (cli.start op h).1 w' τ)
include hidle hstart

theorem Step.follows {a : A} (hs : Step sys cli s e t) (hf : Follows S sys cli Idle s w y)
    (hl : Linearized S.spec a tr (S.obj w) y) (hall : ∀ p op, e = .inv p op → Allowed p op)
    (hlive : ∀ p, e ≠ .die p) :
    ∃ w' y', Linearized S.spec a (tr ++ [e]) (S.obj w') y' ∧ Follows S sys cli Idle t w' y' := by
  cases hs with
  | @inv p op h ht hc =>
    have hp := hf.tasks p
    rw [ht] at hp
    obtain ⟨w', τ, hmove, hshared, hsafe⟩ := hstart p op h w (hall p op rfl) hc hf.ok hp.2
    have hy : Function.update y p (some (op, none)) p = some (op, none) :=
      Function.update_self ..
    have hl' := (hl.inv hp.1).moves hy hmove
    rw [Function.update_idem] at hl'
    refine ⟨w', _, hl', ?_⟩
    rw [← hf.shared, ← hshared]
    exact hf.put hmove.ok hmove.rely hidle ⟨τ, rfl, hsafe⟩
  | @sys p op h l c k ht hr =>
    have hp := hf.tasks p
    rw [ht] at hp
    obtain ⟨τ, hy, hsafe⟩ := hp
    rw [← hf.shared] at hr ⊢
    obtain ⟨w', τ', hmove, hshared, hk⟩ := hsafe w hf.ok (S.refl p w) hr
    refine ⟨w', _, (hl.moves hy hmove).sys, ?_⟩
    rw [← hshared]
    exact hf.put hmove.ok hmove.rely hidle ⟨τ', rfl, hk⟩
  | @ret p op h l b ht =>
    have hp := hf.tasks p
    rw [ht] at hp
    obtain ⟨τ, hy, rfl, hq⟩ := hp
    refine ⟨w, _, hl.ret hy, ?_⟩
    rw [← hf.shared]
    exact hf.put hf.ok (fun q _ => S.refl q w) hidle ⟨rfl, hq⟩
  | die ht => exact absurd rfl (hlive _)

/-- In every run without an abort, each operation takes effect at one moment. -/
theorem Run.linearized (hrun : Run sys cli s tr t) (hf : Follows S sys cli Idle s w fun _ => none)
    (hall : ∀ p op, .inv p op ∈ tr → Allowed p op) (hlive : ∀ p, .die p ∉ tr) :
    ∃ w' y, Linearized S.spec (S.obj w) tr (S.obj w') y ∧ Follows S sys cli Idle t w' y := by
  induction hrun with
  | nil => exact ⟨w, _, .nil, hf⟩
  | snoc _ hs ih =>
    obtain ⟨w₁, y₁, hl, hf₁⟩ := ih (fun p op ho => hall p op (List.mem_append_left _ ho))
      fun p hp => hlive p (List.mem_append_left _ hp)
    refine hs.follows hidle hstart hf₁ hl (fun p op he => ?_) fun p he => ?_
    · exact hall p op (by simp [he])
    · exact hlive p (by simp [he])

end Sound

end Somenote
