import Somenote.Cvm.Source

/-! # The names of a listing

`os_same` looks for a name and its newline in the listing of a directory. Behind a place where they
stand at the end of a longer name it goes on with the next newline.
-/

namespace Somenote.Cvm

open Lines Search

section Source

/-- `os_same` has this array for the name and its newline. -/
def tempLen : ℕ := 1024

/-- The loop of `os_same`, from the place `p` on: the place where the search has stopped, if it has
found one. -/
def sameLoop (result temp : List Byte) : ℕ → ℕ → Out Fault (Option ℕ)
  | 0, _ => .spin
  | fuel + 1, p =>
    match search temp (result.drop p) with
    | none => .ok none
    | some k =>
      if p + k = 0 then .ok (some (p + k))
      else if result[p + k - 1]? = some 10 then .ok (some (p + k))
      else match (result.drop (p + k)).idxOf? 10 with
        | none => .dump .segv
        | some j => sameLoop result temp fuel (p + k + j)

/-- `os_same` behind `getresult`, which leaves the string `result`. -/
def osSame (fuel : ℕ) (name result : List Byte) : Out Fault Bool :=
  let temp := name ++ [10]
  if ¬ Fits temp tempLen then .dump .overflow
  else if result = [] then .ok true
  else (sameLoop result temp fuel 0).map Option.isNone

end Source

/-- The output of `ls`: names, each with its newline, that have room in `result`. -/
structure Listing where
  names : List (List Byte)
  lines : ∀ l ∈ names, 10 ∉ l
  strings : ∀ l ∈ names, 0 ∉ l
  fits : Fits (unlines 10 names) resultlen

def Listing.text (l : Listing) : List Byte := unlines 10 l.names

/-- A string that is not empty, without a newline. -/
structure Name where
  text : List Byte
  nonempty : text ≠ []
  line : 10 ∉ text
  string : 0 ∉ text

variable {l : Listing} {n : Name}

/-- The name is a line of the text, from this place on. -/
def Exact (l : Listing) (n : Name) (i : ℕ) : Prop :=
  n.text ++ [10] <+: l.text.drop i ∧ Starts 10 l.text i

theorem idxOf?_append_cons {l : List Byte} {c : Byte} (h : c ∉ l) (t : List Byte) :
    (l ++ c :: t).idxOf? c = some l.length := by
  induction l with
  | nil => simp [List.idxOf?_cons]
  | cons d l ih =>
    have hd : d ≠ c := fun he => h (he ▸ List.mem_cons_self)
    simp [List.idxOf?_cons, hd, ih fun hm => h (List.mem_cons_of_mem _ hm)]

theorem not_exact_inside {i : ℕ} (h : n.text ++ [10] <+: l.text.drop i) {j : ℕ} (hj : i < j)
    (hj' : j ≤ i + n.text.length) : ¬ Exact l n j := by
  rintro ⟨-, hs⟩
  obtain ⟨t, ht⟩ := h
  have hnl := hs.resolve_left (by omega)
  have hget : l.text[j - 1]? = n.text[j - 1 - i]? := by
    have hdrop : l.text[j - 1]? = (l.text.drop i)[j - 1 - i]? := by
      rw [List.getElem?_drop, show i + (j - 1 - i) = j - 1 by omega]
    rw [hdrop, ← ht, List.append_assoc, List.getElem?_append_left (by omega)]
  rw [hget] at hnl
  exact n.line (List.mem_of_getElem? hnl)

/-- The loop finds the name where it is a line, if it is one from `p` on. -/
theorem sameLoop_spec (fuel p : ℕ) (hfuel : l.text.length < fuel + p) (hple : p ≤ l.text.length)
    (hp : ∀ i < p, ¬ Exact l n i) : ∃ r,
      sameLoop l.text (n.text ++ [10]) fuel p = .ok r ∧ (r = none ↔ ∀ i, ¬ Exact l n i) := by
  induction fuel generalizing p with
  | zero => omega
  | succ fuel ih =>
    rw [sameLoop]
    cases hk : search (n.text ++ [10]) (l.text.drop p) with
    | none =>
      refine ⟨none, rfl, iff_of_true rfl fun i hi => ?_⟩
      rcases Nat.lt_or_ge i p with hlt | hge
      · exact hp i hlt hi
      · obtain ⟨k, rfl⟩ := Nat.exists_eq_add_of_le hge
        exact search_eq_none hk k (by rw [List.drop_drop]; exact hi.1)
    | some k =>
      obtain ⟨hstands, hfirst⟩ := search_eq_some hk
      rw [List.drop_drop] at hstands
      dsimp only
      by_cases hs : Starts 10 l.text (p + k)
      · have hexact : Exact l n (p + k) := ⟨hstands, hs⟩
        refine ⟨some (p + k), ?_, iff_of_false (by simp) fun h => h _ hexact⟩
        rcases hs with h0 | hnl
        · rw [if_pos h0]
        · rw [if_pos hnl, ite_self]
      · obtain ⟨h0, hnl⟩ := not_or.mp hs
        obtain ⟨t, ht⟩ := id hstands
        have hnewline : (l.text.drop (p + k)).idxOf? 10 = some n.text.length := by
          rw [← ht, List.append_assoc]
          exact idxOf?_append_cons n.line _
        have hpos := List.length_pos_iff.mpr n.nonempty
        rw [if_neg h0, if_neg hnl, hnewline]
        have hlen := congrArg List.length ht
        simp only [List.length_append, List.length_singleton, List.length_drop] at hlen
        refine ih (p + k + n.text.length) (by omega) (by omega) fun i hi hi' => ?_
        rcases Nat.lt_or_ge i p with hlt | hge
        · exact hp i hlt hi'
        · obtain ⟨j, rfl⟩ := Nat.exists_eq_add_of_le hge
          rcases Nat.lt_trichotomy j k with hjk | rfl | hjk
          · exact hfirst j hjk (by rw [List.drop_drop]; exact hi'.1)
          · exact hs hi'.2
          · exact not_exact_inside hstands (by omega) (by omega) hi'

/-- What `os_same` returns, with enough fuel for its loop. -/
def Returns (n : Name) (l : Listing) (b : Bool) : Prop :=
  ∃ N, ∀ fuel, N ≤ fuel → osSame fuel n.text l.text = .ok b

theorem returns_of_fits (h : Fits (n.text ++ [10]) tempLen) :
    Returns n l (decide (n.text ∉ l.names)) := by
  have hmem : n.text ∈ l.names ↔ ∃ i, Exact l n i := mem_iff_starts l.lines n.line
  refine ⟨l.text.length + 1, fun fuel hfuel => ?_⟩
  by_cases hnil : l.text = []
  · have hnot : n.text ∉ l.names := by
      rw [hmem]
      rintro ⟨i, ⟨t, ht⟩, -⟩
      rw [hnil, List.drop_nil] at ht
      simp at ht
    simp [osSame, h, hnil, hnot]
  · obtain ⟨r, hr, hnone⟩ := sameLoop_spec (l := l) (n := n) fuel 0 (by omega) (by omega)
      fun i hi => absurd hi (Nat.not_lt_zero i)
    have hnames : r.isNone = decide (n.text ∉ l.names) := by
      rw [Bool.eq_iff_iff, Option.isNone_iff_eq_none, hnone, decide_eq_true_iff, hmem, not_exists]
    simp [osSame, h, hnil, hr, Out.map, hnames]

/-- `os_same` ends, and returns false for the names of the listing and for no others, if and only if
its array has room for the name and its newline. -/
theorem osSame_iff (n : Name) (l : Listing) :
    (∃ b, Returns n l b ∧ (b = false ↔ n.text ∈ l.names)) ↔ n.text.length + 2 ≤ tempLen := by
  have hfits : Fits (n.text ++ [10]) tempLen ↔ n.text.length + 2 ≤ tempLen := by
    simp only [Fits, List.length_append, List.length_singleton]
    omega
  rw [← hfits]
  constructor
  · rintro ⟨b, ⟨N, hN⟩, -⟩
    by_contra h
    have hret := hN N le_rfl
    simp [osSame, h] at hret
  · exact fun h => ⟨_, returns_of_fits h, by simp⟩

/-- A directory without a file. -/
def noFiles : Listing := ⟨[], by simp, by simp, by decide⟩

/-- A name of `k + 1` letters. -/
def letters (k : ℕ) : Name where
  text := List.replicate (k + 1) 97
  nonempty := by simp
  line := by simp
  string := by simp

theorem letters_overflow {k : ℕ} (hk : 1022 ≤ k) (fuel : ℕ) (l : Listing) :
    osSame fuel (letters k).text l.text = .dump .overflow := by
  have hlong : ¬ Fits ((letters k).text ++ [10]) tempLen := by
    simp only [Fits, letters, tempLen, List.length_append, List.length_replicate,
      List.length_singleton]
    omega
  simp [osSame, hlong]

/-- The name has room in an array of 1024 bytes, and its newline has not. -/
theorem letters_unchecked : ¬ ∃ b, Returns (letters 1022) noFiles b := by
  rintro ⟨b, N, hN⟩
  have hret := hN N le_rfl
  rw [letters_overflow le_rfl] at hret
  cases hret

end Somenote.Cvm
