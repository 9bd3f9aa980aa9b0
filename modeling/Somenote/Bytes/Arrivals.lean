import Mathlib.Data.Int.Notation
import Mathlib.Data.List.Basic
import Mathlib.Tactic.TypeStar

/-! # Input as a sequence of arrivals

What a source delivers is a sequence of items with ends and errors in between. A reader takes the
items up to a stop, a limit, an end or an error, and leaves the rest. How the source cuts the
sequence into pieces is not a part of it.
-/

namespace Somenote.Arrivals

inductive Arrival (α : Type*)
  | item (a : α)
  | eof
  | error (e : ℕ)
  deriving DecidableEq, Repr

variable {α : Type*}

/-- The items among the arrivals. -/
def items : List (Arrival α) → List α
  | [] => []
  | .item a :: s => a :: items s
  | _ :: s => items s

@[simp] theorem items_nil : items ([] : List (Arrival α)) = [] := rfl

@[simp] theorem items_item (a : α) (s : List (Arrival α)) : items (.item a :: s) = a :: items s :=
  rfl

@[simp] theorem items_append (s t : List (Arrival α)) : items (s ++ t) = items s ++ items t := by
  induction s with
  | nil => rfl
  | cons x s ih => cases x <;> simp [items, ih]

@[simp] theorem items_map (l : List α) : items (l.map .item) = l := by
  induction l with
  | nil => rfl
  | cons a l ih => rw [List.map_cons, items_item, ih]

/-- Why a reader has stopped. -/
inductive Ending
  | full | stop | eof | error
  deriving DecidableEq, Repr

/-- What a reader takes. -/
structure Taken (α : Type*) where
  ending : Ending
  items : List α
  rest : List (Arrival α)
  deriving DecidableEq, Repr

def Taken.cons (a : α) (t : Taken α) : Taken α := { t with items := a :: t.items }

/-- Takes at most `n` items. After the last arrival the source is at its end. -/
def take (stop : α → Bool) : ℕ → List (Arrival α) → Taken α
  | 0, s => ⟨.full, [], s⟩
  | _ + 1, [] => ⟨.eof, [], []⟩
  | _ + 1, .eof :: s => ⟨.eof, [], s⟩
  | _ + 1, .error _ :: s => ⟨.error, [], s⟩
  | n + 1, .item a :: s => if stop a then ⟨.stop, [a], s⟩ else (take stop n s).cons a

variable {stop : α → Bool} {n : ℕ} {s : List (Arrival α)}

@[simp] theorem take_zero : take stop 0 s = ⟨.full, [], s⟩ := by
  cases s <;> rfl

@[simp] theorem take_nil : take stop (n + 1) [] = ⟨.eof, [], []⟩ := rfl

@[simp] theorem take_eof : take stop (n + 1) (.eof :: s) = ⟨.eof, [], s⟩ := rfl

@[simp] theorem take_error {e : ℕ} : take stop (n + 1) (.error e :: s) = ⟨.error, [], s⟩ := rfl

theorem take_item {a : α} : take stop (n + 1) (.item a :: s) =
    if stop a then ⟨.stop, [a], s⟩ else (take stop n s).cons a := rfl

theorem take_piece {l : List α} (hl : ∀ a ∈ l, stop a = false) :
    take stop (l.length + n) (l.map .item ++ s) =
      { take stop n s with items := l ++ (take stop n s).items } := by
  induction l with
  | nil => simp
  | cons a l ih =>
    have ha := hl a List.mem_cons_self
    have hrest := ih fun b hb => hl b (List.mem_cons_of_mem _ hb)
    rw [List.length_cons, Nat.add_right_comm, List.map_cons, List.cons_append, take_item, hrest]
    simp [ha, Taken.cons]

/-- The items that are taken are the ones that are gone. -/
theorem take_used (stop : α → Bool) (n : ℕ) (s : List (Arrival α)) :
    ∃ used, s = used ++ (take stop n s).rest ∧ items used = (take stop n s).items := by
  induction n generalizing s with
  | zero => exact ⟨[], by simp⟩
  | succ n ih =>
    cases s with
    | nil => exact ⟨[], by simp⟩
    | cons x s =>
      cases x with
      | eof => exact ⟨[.eof], by simp [items]⟩
      | error e => exact ⟨[.error e], by simp [items]⟩
      | item a =>
        rw [take_item]
        split
        · exact ⟨[.item a], by simp⟩
        · obtain ⟨used, hs, hitems⟩ := ih s
          exact ⟨.item a :: used, by simpa [Taken.cons] using hs, by simp [Taken.cons, hitems]⟩

theorem take_length_le : (take stop n s).items.length ≤ n := by
  induction n generalizing s with
  | zero => simp
  | succ n ih =>
    cases s with
    | nil => simp
    | cons x s =>
      cases x with
      | eof => simp
      | error e => simp
      | item a =>
        rw [take_item]
        split
        · simp
        · simpa [Taken.cons] using ih

theorem take_stop_iff : (take stop n s).ending = .stop ↔
    ∃ a ∈ (take stop n s).items, stop a = true := by
  induction n generalizing s with
  | zero => simp
  | succ n ih =>
    cases s with
    | nil => simp
    | cons x s =>
      cases x with
      | eof => simp
      | error e => simp
      | item a =>
        rw [take_item]
        split
        · simp [*]
        · simp [Taken.cons, *]

/-- One call of a source that is asked for at most `n` items: its value and the items. -/
inductive Gives (n : ℕ) : List (Arrival α) → ℤ × List α → List (Arrival α) → Prop
  | piece {l : List α} {s : List (Arrival α)} (hne : l ≠ []) (hle : l.length ≤ n) :
      Gives n (l.map .item ++ s) (l.length, l) s
  | ended : Gives n [] (0, []) []
  | eof {s : List (Arrival α)} : Gives n (.eof :: s) (0, []) s
  | error {s : List (Arrival α)} {e : ℕ} : Gives n (.error e :: s) (-1, []) s

variable {t : List (Arrival α)} {r : ℤ × List α}

theorem Gives.of_neg (h : Gives n s r t) (hr : r.1 < 0) :
    r = (-1, []) ∧ ∃ e, s = .error e :: t := by
  cases h with
  | piece hne hle => exact absurd hr (Int.not_lt.mpr (Int.natCast_nonneg _))
  | ended => exact absurd hr (Int.lt_irrefl 0)
  | eof => exact absurd hr (Int.lt_irrefl 0)
  | error => exact ⟨rfl, _, rfl⟩

theorem Gives.of_zero (h : Gives n s r t) (hr : r.1 = 0) :
    r = (0, []) ∧ (s = [] ∧ t = [] ∨ s = .eof :: t) := by
  cases h with
  | piece hne hle => exact absurd (List.eq_nil_of_length_eq_zero (Int.ofNat_eq_zero.mp hr)) hne
  | ended => exact ⟨rfl, Or.inl ⟨rfl, rfl⟩⟩
  | eof => exact ⟨rfl, Or.inr rfl⟩
  | error => cases hr

theorem Gives.of_pos (h : Gives n s r t) (hr : 0 < r.1) :
    r.1 = r.2.length ∧ r.2 ≠ [] ∧ r.2.length ≤ n ∧ s = r.2.map .item ++ t := by
  cases h with
  | piece hne hle => exact ⟨rfl, hne, hle, rfl⟩
  | ended => exact absurd hr (Int.lt_irrefl 0)
  | eof => exact absurd hr (Int.lt_irrefl 0)
  | error => cases hr

/-! ### A call that is a part of a reader's work -/

theorem Gives.take_of_neg {m : ℕ} (h : Gives n s r t) (hr : r.1 < 0) (hm : 0 < m) :
    take stop m s = ⟨.error, [], t⟩ := by
  obtain ⟨-, e, rfl⟩ := h.of_neg hr
  obtain ⟨m, rfl⟩ := Nat.exists_eq_succ_of_ne_zero (Nat.ne_of_gt hm)
  rfl

theorem Gives.take_of_zero {m : ℕ} (h : Gives n s r t) (hr : r.1 = 0) (hm : 0 < m) :
    take stop m s = ⟨.eof, [], t⟩ := by
  obtain ⟨m, rfl⟩ := Nat.exists_eq_succ_of_ne_zero (Nat.ne_of_gt hm)
  rcases (h.of_zero hr).2 with ⟨rfl, rfl⟩ | rfl <;> rfl

theorem Gives.take_of_pos (h : Gives n s r t) (hr : 0 < r.1) :
    take (fun _ => false) n s =
      { take (fun _ => false) (n - r.1.toNat) t with
        items := r.2 ++ (take (fun _ => false) (n - r.1.toNat) t).items } := by
  obtain ⟨hlen, -, hle, rfl⟩ := h.of_pos hr
  obtain ⟨m, rfl⟩ := Nat.exists_eq_add_of_le hle
  rw [hlen, Int.toNat_natCast, Nat.add_sub_cancel_left]
  exact take_piece fun _ _ => rfl

theorem Gives.item_of_one (h : Gives 1 s r t) (hr : r.1 = 1) :
    ∃ a, r.2 = [a] ∧ s = .item a :: t := by
  obtain ⟨hlen, -, -, rfl⟩ := h.of_pos (by omega)
  obtain ⟨a, ha⟩ := List.length_eq_one_iff.mp (by omega : r.2.length = 1)
  exact ⟨a, ha, by rw [ha]; rfl⟩

end Somenote.Arrivals
