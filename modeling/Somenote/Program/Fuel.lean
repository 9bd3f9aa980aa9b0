import Mathlib.Data.Nat.Basic

/-! # Fuel

Functions of the source that loop or recurse without a bound take an amount of fuel. What
they give with enough fuel is composed along their calls and their loops.
-/

namespace Somenote

variable {α β σ : Type} {f : ℕ → Option α} {a a' : α} {b : β}

/-- With enough fuel, the function gives `a`. -/
def Yields (f : ℕ → Option α) (a : α) : Prop := ∃ N, ∀ n, N ≤ n → f n = some a

namespace Yields

theorem of_eq (h : ∀ n, f n = some a) : Yields f a :=
  ⟨0, fun n _ => h n⟩

theorem const {x : Option α} (h : x = some a) : Yields (fun _ => x) a :=
  .of_eq fun _ => h

theorem bind {g : ℕ → α → Option β} (h : Yields f a) (h' : Yields (fun n => g n a) b) :
    Yields (fun n => f n >>= g n) b := by
  obtain ⟨N, hN⟩ := h
  obtain ⟨M, hM⟩ := h'
  refine ⟨max N M, fun n hn => ?_⟩
  have hf := hN n (le_trans (le_max_left N M) hn)
  have hg := hM n (le_trans (le_max_right N M) hn)
  dsimp only at hg ⊢
  rw [hf]
  exact hg

theorem succ (h : Yields (fun n => f (n + 1)) a) : Yields f a := by
  obtain ⟨N, hN⟩ := h
  refine ⟨N + 1, fun n hn => ?_⟩
  obtain ⟨m, rfl⟩ := Nat.exists_eq_add_of_le' (le_trans (Nat.le_add_left 1 N) hn)
  exact hN m (Nat.le_of_succ_le_succ hn)

theorem unique (h : Yields f a) (h' : Yields f a') : a = a' := by
  obtain ⟨N, hN⟩ := h
  obtain ⟨M, hM⟩ := h'
  have heq := (hN (max N M) (le_max_left N M)).symm.trans (hM (max N M) (le_max_right N M))
  exact Option.some.inj heq

end Yields

section Loop

/-- A `while` loop of at most `n` turns. -/
def loop (cond : σ → Bool) (body : σ → Option σ) : ℕ → σ → Option σ
  | 0, _ => none
  | n + 1, s => if cond s then body s >>= loop cond body n else some s

variable {cond : σ → Bool} {body : ℕ → σ → Option σ} {s s' t : σ}

/-- A loop that ends. Its body may need fuel of its own. -/
inductive Loops (cond : σ → Bool) (body : ℕ → σ → Option σ) : σ → σ → Prop
  | done {s : σ} (h : cond s = false) : Loops cond body s s
  | turn {s s' t : σ} (h : cond s = true) (hb : Yields (fun n => body n s) s')
      (ht : Loops cond body s' t) : Loops cond body s t

theorem Loops.yields (h : Loops cond body s t) : Yields (fun n => loop cond (body n) n s) t := by
  have hboth : ∃ N, ∀ n k, N ≤ n → N ≤ k → loop cond (body n) k s = some t := by
    induction h with
    | done h =>
      refine ⟨1, fun n k _ hk => ?_⟩
      obtain ⟨k, rfl⟩ := Nat.exists_eq_add_of_le' hk
      rw [loop, h]
      rfl
    | turn h hb _ ih =>
      obtain ⟨N, hN⟩ := hb
      obtain ⟨M, hM⟩ := ih
      refine ⟨max N M + 1, fun n k hn hk => ?_⟩
      have hNM := le_max_left N M
      have hMN := le_max_right N M
      obtain ⟨k, rfl⟩ := Nat.exists_eq_add_of_le' (le_trans (Nat.le_add_left 1 _) hk)
      have hn' := hN n (by omega)
      dsimp only at hn'
      rw [loop, if_pos h, hn']
      exact hM n k (by omega) (by omega)
  obtain ⟨N, hN⟩ := hboth
  exact ⟨N, fun n hn => hN n n hn hn⟩

end Loop

end Somenote
