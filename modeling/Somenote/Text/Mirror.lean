import Mathlib.Data.List.Induction
import Somenote.Program.Fuel
import Somenote.Text.Getline

/-! # Lines turned around

The function `reverse` turns the string of the array around, less a newline at its end. A call of
`getline` and one of `reverse` turn a line around whenever the index of `getline` happens to start
at 0, the line can be counted, and no NUL cuts it off.
-/

namespace Somenote.Text.Reverse

open Scan

variable {text u v w e x y z mid : List Byte} {s line : Line} {j : ℤ} {c : Byte}

section Swaps

theorem get_eq {i : ℤ} (hi : i = x.length) (h : s.chars = x ++ c :: y) : s.get i = some c := by
  rw [Line.get, if_pos (by omega), h, hi]
  simp

theorem put_mid {i : ℤ} {d : Byte} (hi : i = x.length) (h : s.chars = x ++ d :: y) (c : Byte) :
    ∃ s', s.put i c = some s' ∧ s'.chars = x ++ c :: y := by
  have hsize := s.size
  rw [h, List.length_append, List.length_cons] at hsize
  obtain ⟨s', d', y', hput, heq, h'⟩ := put_eq hi (by omega) h c
  obtain ⟨-, rfl⟩ := List.cons.inj heq
  exact ⟨s', hput, h'⟩

theorem lengthLoop_yields (h : s.chars = x ++ u ++ 0 :: y) (hu : 0 ∉ u) :
    Yields (fun n => lengthLoop n x.length s) ((x ++ u).length : ℤ) := by
  induction u generalizing x with
  | nil =>
    have hget : s.get x.length = some 0 := get_eq rfl (by simpa using h)
    exact Yields.succ (.of_eq fun n => by simp [lengthLoop, hget])
  | cons c u ih =>
    have hc : c ≠ 0 := fun he => hu (by simp [he])
    have hget : s.get x.length = some c := get_eq rfl (by simpa using h)
    have hrest := ih (x := x ++ [c]) (by simpa using h) fun hm => hu (List.mem_cons_of_mem _ hm)
    refine Yields.succ ?_
    simpa [lengthLoop, hget, hc] using hrest

/-- The loop of `reverse` turns around what is between its two indices. -/
theorem swapLoop_yields (h : s.chars = x ++ mid ++ z) :
    ∃ s', Yields (fun n => swapLoop n ((x ++ mid).length - 1) x.length s) s' ∧
      s'.chars = x ++ mid.reverse ++ z := by
  induction mid using List.bidirectionalRec generalizing x z s with
  | nil =>
    refine ⟨s, Yields.succ (.of_eq fun n => ?_), h⟩
    rw [List.append_nil, swapLoop, if_neg (by omega)]
  | singleton c =>
    refine ⟨s, Yields.succ (.of_eq fun n => ?_), h⟩
    rw [swapLoop, if_neg (by simp)]
  | cons_append a mid b ih =>
    have hlast : ((x ++ a :: (mid ++ [b])).length : ℤ) - 1 = (x ++ a :: mid).length := by
      simp only [List.length_append, List.length_cons, List.length_nil]
      omega
    have hlast' : ((x ++ a :: mid).length : ℤ) = (x ++ b :: mid).length := by simp
    have hlt : (x.length : ℤ) < (x ++ a :: mid).length := by
      rw [List.length_append, List.length_cons]
      omega
    have hget : s.get x.length = some a := get_eq rfl (by simpa using h)
    have hget' : s.get (x ++ a :: mid).length = some b := get_eq rfl (by simpa using h)
    obtain ⟨s₁, hput, h₁⟩ := put_mid (s := s) (x := x) rfl (by simpa using h) b
    obtain ⟨s₂, hput', h₂⟩ := put_mid (s := s₁) (x := x ++ b :: mid) hlast' (by simpa using h₁) a
    obtain ⟨s', hyields, h'⟩ := ih (x := x ++ [b]) (z := a :: z) (s := s₂) (by simpa using h₂)
    refine ⟨s', Yields.succ ?_, by simpa using h'⟩
    have hturn : ∀ n, swapLoop (n + 1) (x ++ a :: mid).length x.length s =
        swapLoop n ((x ++ a :: mid).length - 1) (x.length + 1) s₂ := by
      intro n
      rw [swapLoop, if_pos hlt]
      simp only [hget, hget', hput, hput', Option.bind_eq_bind, Option.bind_some]
    have hindex : ((x ++ [b] ++ mid).length : ℤ) = (x ++ a :: mid).length := by simp
    have hindex' : ((x ++ [b]).length : ℤ) = x.length + 1 := by simp
    rw [hindex, hindex'] at hyields
    rw [hlast]
    simpa only [hturn] using hyields

theorem reverse_start (h : s.chars = v ++ e ++ 0 :: y)
    (he : e = [newline] ∨ e = [] ∧ v ≠ [] ∧ newline ∉ v) :
    ∃ c, s.get ((v ++ e).length - 1) = some c ∧
      (if c = newline then ((v ++ e).length : ℤ) - 1 - 1 else (v ++ e).length - 1) =
        v.length - 1 := by
  rcases he with rfl | ⟨rfl, hne, hv⟩
  · refine ⟨newline, get_eq (x := v) (y := 0 :: y) (by simp) (by simpa using h), ?_⟩
    rw [if_pos rfl]
    simp
  · obtain ⟨v, d, rfl⟩ := List.eq_nil_or_concat v |>.resolve_left hne
    rw [List.concat_eq_append] at *
    have hd : d ≠ newline := fun he => hv (by simp [he])
    refine ⟨d, get_eq (x := v) (y := 0 :: y) (by simp) (by simpa using h), ?_⟩
    rw [if_neg hd, List.append_nil]

theorem reverse_yields (h : s.chars = v ++ e ++ 0 :: y) (hv : 0 ∉ v)
    (he : e = [newline] ∨ e = [] ∧ v ≠ [] ∧ newline ∉ v) :
    ∃ s', Yields (fun n => reverse n s) s' ∧ s'.chars = v.reverse ++ e ++ 0 :: y := by
  obtain ⟨c, hget, hstart⟩ := reverse_start h he
  have hnul : 0 ∉ v ++ e := by
    rcases he with rfl | ⟨rfl, -⟩
    · simpa using ⟨hv, by decide⟩
    · simpa using hv
  have hlength := lengthLoop_yields (show s.chars = [] ++ (v ++ e) ++ 0 :: y from h) hnul
  obtain ⟨s', hswap, h'⟩ :=
    swapLoop_yields (show s.chars = [] ++ v ++ (e ++ 0 :: y) by simpa using h)
  refine ⟨s', hlength.bind ?_, by simpa using h'⟩
  rw [List.nil_append] at *
  simp only [hget, Option.bind_eq_bind, Option.bind_some, hstart]
  exact hswap

theorem reverse_none (h : s.chars = 0 :: y) (n : ℕ) : reverse n s = none := by
  have hget : s.get 0 = some 0 := get_eq (x := []) rfl h
  have hfront : s.get (-1) = none := if_neg (by omega)
  cases n with
  | zero => rfl
  | succ n => simp [reverse, lengthLoop, hget, hfront]

end Swaps

section Calls

/-- A call of `getline` keeps the front of the next line, with its newline and a NUL, at the front
of the array, whatever was there; if the line has a character, `reverse` turns around what is kept
of it, and leaves the newline. -/
def Mirrors (j : ℤ) (text : List Byte) : Prop :=
  ∀ line, ∃ i text' line', getline MAXLINE j text line = some (i, text', line') ∧
    kept text ++ ending text ++ [0] <+: line'.chars ∧
    (0 < i → ∃ line'', Yields (fun n => reverse n line') line'' ∧
      (kept text).reverse ++ ending text ++ [0] <+: line''.chars)

/-- No NUL cuts off what is kept of the line, or there is nothing to turn around: it reads the same
backwards, and so does its string. -/
def Whole (w : List Byte) : Prop :=
  0 ∉ w ∨ cstr w ≠ [] ∧ (cstr w).reverse = cstr w ∧ w.reverse = w

/-- The index of `getline` starts at 0, and the next line can be counted and is whole. -/
def Fits (j : ℤ) (text : List Byte) : Prop :=
  j = 0 ∧ lineLength text ≤ INT_MAX ∧ Whole (kept text)

/-- When only the part in front of an `a` is turned around, all of the list is if and only if
nothing had to be. -/
theorem reverse_cut_iff {α : Type*} {a : α} {u v : List α} (hu : a ∉ u) :
    u.reverse ++ a :: v = (u ++ a :: v).reverse ↔
      u.reverse = u ∧ (u ++ a :: v).reverse = u ++ a :: v := by
  constructor
  · intro h
    rw [List.reverse_append] at h
    have hback : (a :: v).reverse ++ u = u ++ a :: v := by
      have hrev := congrArg List.reverse h
      simp only [List.reverse_append, List.reverse_reverse] at hrev
      exact hrev
    have hsuffix : u <:+ u ++ a :: v := ⟨(a :: v).reverse, hback⟩
    -- `u` is shorter than what follows it, whose first character it does not have
    rcases Nat.le_total (a :: v).length u.length with hle | hle
    · have hin := List.suffix_of_suffix_length_le (List.suffix_append u (a :: v)) hsuffix hle
      exact absurd (hin.subset List.mem_cons_self) hu
    · obtain ⟨t, ht⟩ := List.suffix_of_suffix_length_le hsuffix (List.suffix_append u (a :: v)) hle
      have hsame : t ++ u = t.reverse ++ u.reverse := by
        rw [← ht, List.reverse_append, List.append_assoc] at h
        exact List.append_cancel_left h
      have hpal : u.reverse = u := (List.append_inj hsame (by simp)).2.symm
      refine ⟨hpal, ?_⟩
      rw [List.reverse_append, ← h, hpal]
  · rintro ⟨hu, hw⟩
    rw [hw, hu]

theorem kept_ne_nil (h : text ≠ []) (hending : ending text = []) : kept text ≠ [] := by
  have hlen : lineLength text ≠ 0 := fun hzero => h (lineLength_eq_zero_iff.mp hzero)
  rw [lineLength, hending, List.append_nil] at hlen
  intro hkept
  have hmax : MAXLINE = 1000 := rfl
  have htake := congrArg List.length hkept
  rw [kept, List.length_take, List.length_nil] at htake
  omega

theorem reverse_cut (h : s.chars = kept text ++ ending text ++ 0 :: y)
    (hv : kept text = cstr (kept text) ++ 0 :: v) (hcut : cstr (kept text) ≠ []) :
    ∃ s', Yields (fun n => reverse n s) s' ∧
      s'.chars = ((cstr (kept text)).reverse ++ 0 :: v) ++ ending text ++ 0 :: y := by
  have hnl : newline ∉ cstr (kept text) := fun hm =>
    not_mem_kept text (hv ▸ List.mem_append_left _ hm)
  have hchars : s.chars = cstr (kept text) ++ [] ++ 0 :: (v ++ ending text ++ 0 :: y) := by
    rw [h]
    conv_lhs => rw [hv]
    simp
  obtain ⟨s', hyields, h'⟩ :=
    reverse_yields hchars (not_mem_cstr _) (Or.inr ⟨rfl, hcut, hnl⟩)
  exact ⟨s', hyields, by simp [h']⟩

/-- A call that fits, whatever the calls in front of it have left in the array. -/
theorem Fits.call (h : Fits j text) (line : Line) :
    ∃ line' y', getline MAXLINE j text line = some ((lineLength text : ℤ), rest text, line') ∧
      line'.chars = kept text ++ ending text ++ 0 :: y' ∧
      (text ≠ [] → ∃ line'' y'', Yields (fun n => reverse n line') line'' ∧
        line''.chars = (kept text).reverse ++ ending text ++ 0 :: y'') := by
  obtain ⟨rfl, hlen, hwhole⟩ := h
  obtain ⟨line', y', hcall, h'⟩ := getline_some hlen line
  refine ⟨line', y', hcall, h', fun hne => ?_⟩
  by_cases hnul : 0 ∈ kept text
  · obtain ⟨hcut, hstr, hpal⟩ := hwhole.resolve_left fun h0 => h0 hnul
    obtain ⟨v, hv⟩ := cstr_cut hnul
    obtain ⟨line'', hyields, h''⟩ := reverse_cut h' hv hcut
    rw [hv] at hpal
    rw [(reverse_cut_iff (not_mem_cstr _)).mpr ⟨hstr, hpal⟩, ← hv] at h''
    exact ⟨line'', y', hyields, h''⟩
  · have he : ending text = [newline] ∨
        ending text = [] ∧ kept text ≠ [] ∧ newline ∉ kept text := by
      rcases ending_cases text with hending | ⟨hending, -⟩
      · exact Or.inl hending
      · exact Or.inr ⟨hending, kept_ne_nil hne hending, not_mem_kept text⟩
    obtain ⟨line'', hyields, h''⟩ := reverse_yields h' hnul he
    exact ⟨line'', y', hyields, h''⟩

/-- An array that is filled with one character. -/
def blank (d : Byte) : Line := ⟨List.replicate MAXLINE d, List.length_replicate⟩

theorem Mirrors.front (h : Mirrors j text) (hj : j ≠ 0) (d : Byte) :
    (kept text ++ ending text ++ [0]).head? = some d := by
  obtain ⟨i, text', line', hcall, ⟨t, ht⟩, -⟩ := h (blank d)
  have hhead := getline_head? hj hcall
  rw [← ht, List.head?_append_of_ne_nil _ (by simp)] at hhead
  rw [hhead, blank, List.head?_replicate, if_neg (by decide)]

theorem Mirrors.start_eq (h : Mirrors j text) : j = 0 := by
  by_contra hj
  have hfront := (h.front hj 0).symm.trans (h.front hj 1)
  simp at hfront

theorem Mirrors.length_le (h : Mirrors 0 text) : lineLength text ≤ INT_MAX := by
  by_contra hgt
  obtain ⟨i, text', line', hcall, -⟩ := h (blank 0)
  rw [getline_none (by omega)] at hcall
  cases hcall

theorem Mirrors.whole (h : Mirrors 0 text) : Whole (kept text) := by
  by_cases hnul : 0 ∈ kept text
  · right
    have hne : text ≠ [] := by
      rintro rfl
      cases hnul
    have hpos : lineLength text ≠ 0 := fun hzero => hne (lineLength_eq_zero_iff.mp hzero)
    obtain ⟨line', y', hcall, h'⟩ := getline_some h.length_le (blank 0)
    obtain ⟨i, text', line₁, hcall₁, -, hreverse⟩ := h (blank 0)
    cases hcall.symm.trans hcall₁
    obtain ⟨line'', hyields, t, ht⟩ := hreverse (by omega)
    obtain ⟨v, hv⟩ := cstr_cut hnul
    have hcut : cstr (kept text) ≠ [] := by
      intro hnil
      rw [hnil, List.nil_append] at hv
      rw [hv, List.cons_append, List.cons_append] at h'
      obtain ⟨N, hN⟩ := hyields
      cases (reverse_none h' N).symm.trans (hN N le_rfl)
    obtain ⟨s', hyields', h''⟩ := reverse_cut h' hv hcut
    rw [hyields'.unique hyields] at h''
    have hlength : (kept text).reverse.length = ((cstr (kept text)).reverse ++ 0 :: v).length := by
      have := congrArg List.length hv
      simpa using this
    have hsame : (kept text).reverse = (cstr (kept text)).reverse ++ 0 :: v := by
      rw [h'', List.append_assoc, List.append_assoc, List.append_assoc] at ht
      exact (List.append_inj ht hlength).1
    obtain ⟨hstr, hpal⟩ := (reverse_cut_iff (not_mem_cstr _)).mp
      (hsame.symm.trans (congrArg List.reverse hv))
    rw [← hv] at hpal
    exact ⟨hcut, hstr, hpal⟩
  · exact Or.inl hnul

theorem mirrors_iff : Mirrors j text ↔ Fits j text := by
  constructor
  · intro h
    obtain rfl := h.start_eq
    exact ⟨rfl, h.length_le, h.whole⟩
  · intro h line
    obtain ⟨line', y', hcall, h', hreverse⟩ := h.call line
    refine ⟨_, _, line', hcall, ⟨y', by simp [h']⟩, fun hpos => ?_⟩
    have hne : text ≠ [] := by
      rintro rfl
      exact absurd hpos (by decide)
    obtain ⟨line'', y'', hyields, h''⟩ := hreverse hne
    exact ⟨line'', hyields, ⟨y'', by simp [h'']⟩⟩

end Calls

section Runs

theorem rest_length_lt (h : text ≠ []) : (rest text).length < text.length := by
  have hpos : lineLength text ≠ 0 := fun hzero => h (lineLength_eq_zero_iff.mp hzero)
  have hlength := congrArg List.length (body_append text)
  rw [lineLength] at hpos
  simp only [List.length_append] at hlength hpos
  omega

/-- The lines of a text, each one turned around in front of its newline, with their lengths. -/
def mirrored (text : List Byte) : List (ℤ × List Byte) :=
  if _ : text = [] then []
  else (lineLength text, cstr ((kept text).reverse ++ ending text)) :: mirrored (rest text)
termination_by text.length
decreasing_by exact rest_length_lt ‹_›

/-- Every call of a run fits, from call `k` on. -/
inductive AllFit (junk : ℕ → ℤ) : ℕ → List Byte → Prop
  | last {k : ℕ} (h : Fits (junk k) []) : AllFit junk k []
  | line {k : ℕ} {text : List Byte} (hne : text ≠ []) (h : Fits (junk k) text)
      (hrest : AllFit junk (k + 1) (rest text)) : AllFit junk k text

/-- What the calls of a run leave in the array does not matter to those that follow. -/
theorem mainLoop_yields {junk : ℕ → ℤ} {k : ℕ} (h : AllFit junk k text) (line : Line) :
    Yields (fun n => mainLoop junk n k text line) (mirrored text) := by
  induction h generalizing line with
  | last h =>
    obtain ⟨line', y', hcall, -⟩ := h.call line
    refine Yields.succ (.of_eq fun n => ?_)
    have hzero : lineLength [] = 0 := rfl
    rw [mainLoop, hcall, mirrored, dif_pos rfl, hzero]
    rfl
  | @line k text hne h _ ih =>
    obtain ⟨line', y', hcall, -, hreverse⟩ := h.call line
    obtain ⟨line'', y'', hyields, h''⟩ := hreverse hne
    have hpos : (0 : ℤ) < lineLength text := by
      have hzero : lineLength text ≠ 0 := fun hzero => hne (lineLength_eq_zero_iff.mp hzero)
      omega
    have hturn : ∀ n, mainLoop junk (n + 1) k text line = (reverse n line' >>= fun l =>
        mainLoop junk n (k + 1) (rest text) l >>= fun out =>
          some (((lineLength text : ℤ), cstr l.chars) :: out)) := by
      intro n
      rw [mainLoop, hcall]
      exact if_pos hpos
    refine Yields.succ ?_
    simp only [hturn]
    refine hyields.bind ?_
    have hout := (ih line'').bind (.of_eq fun n => rfl)
      (g := fun _ out => some (((lineLength text : ℤ), cstr line''.chars) :: out))
    rw [h'', cstr_append_nul] at hout
    rw [mirrored, dif_neg hne, h'', cstr_append_nul]
    exact hout

/-- A call turns a line around, whatever is in the array, if and only if the index of `getline`
starts at 0, the line can be counted, and no NUL is in the way. A run whose calls all are such ones
prints each line turned around. -/
theorem mirrors_iff_fits (j : ℤ) (text : List Byte) :
    (Mirrors j text ↔ Fits j text) ∧
      ∀ junk, AllFit junk 0 text → ∀ line,
        Yields (fun n => main junk n text line) (mirrored text) :=
  ⟨mirrors_iff, fun _ h line => mainLoop_yields h line⟩

/-- A line with a newline, and one without. -/
theorem mirrors_iff_fits_two : Yields (fun n => main (fun _ => 0) n [97, 98, 10, 99] (blank 7))
    (mirrored [97, 98, 10, 99]) := by
  have hlast : AllFit (fun _ => 0) 2 [] := .last ⟨rfl, by decide, Or.inl (by decide)⟩
  have hsecond : AllFit (fun _ => 0) 1 [99] :=
    .line (by decide) ⟨rfl, by decide, Or.inl (by decide)⟩ hlast
  have hfirst : AllFit (fun _ => 0) 0 [97, 98, 10, 99] :=
    .line (by decide) ⟨rfl, by decide, Or.inl (by decide)⟩ hsecond
  exact (mirrors_iff_fits 0 _).2 _ hfirst _

/-- A short line, and another value in the place of the index. -/
theorem not_mirrors_five : ¬ Mirrors 5 [97, 10] := fun h => absurd h.start_eq (by decide)

end Runs

end Somenote.Text.Reverse
