import Somenote.Text.Reverse

/-! # What `getline` leaves

The next line of a text, and the part of it that the array holds behind a call whose index starts
at 0. With another start, the front of the array is left as it was.
-/

namespace Somenote.Text.Reverse

variable {text : List Byte} {line line' : Line} {x y : List Byte} {i j lim : ℤ} {c : Byte}

section Lines

/-- The next line, less its newline. -/
def body (text : List Byte) : List Byte := text.takeWhile (· ≠ newline)

/-- The newline of the next line, if it has one. -/
def ending (text : List Byte) : List Byte := (text.dropWhile (· ≠ newline)).take 1

/-- The text behind the next line. -/
def rest (text : List Byte) : List Byte := (text.dropWhile (· ≠ newline)).drop 1

/-- The number of characters of the next line. -/
def lineLength (text : List Byte) : ℕ := (body text ++ ending text).length

/-- What the array has room for, less the newline. -/
def kept (text : List Byte) : List Byte := (body text).take (MAXLINE - 2)

theorem body_append (text : List Byte) : body text ++ (ending text ++ rest text) = text := by
  rw [body, ending, rest, List.take_append_drop, List.takeWhile_append_dropWhile]

theorem not_mem_body (text : List Byte) : newline ∉ body text := fun h => by
  simpa using List.mem_takeWhile_imp h

theorem not_mem_kept (text : List Byte) : newline ∉ kept text :=
  fun h => not_mem_body text (List.mem_of_mem_take h)

theorem length_kept_le (text : List Byte) : (kept text).length ≤ MAXLINE - 2 :=
  List.length_take_le ..

@[simp] theorem body_nil : body [] = [] := rfl

@[simp] theorem ending_nil : ending [] = [] := rfl

@[simp] theorem rest_nil : rest [] = [] := rfl

@[simp] theorem body_newline (text : List Byte) : body (newline :: text) = [] := by simp [body]

@[simp] theorem ending_newline (text : List Byte) : ending (newline :: text) = [newline] := by
  simp [ending]

@[simp] theorem rest_newline (text : List Byte) : rest (newline :: text) = text := by simp [rest]

@[simp] theorem body_cons (h : c ≠ newline) (text : List Byte) :
    body (c :: text) = c :: body text := by simp [body, h]

@[simp] theorem ending_cons (h : c ≠ newline) (text : List Byte) :
    ending (c :: text) = ending text := by simp [ending, h]

@[simp] theorem rest_cons (h : c ≠ newline) (text : List Byte) :
    rest (c :: text) = rest text := by simp [rest, h]

theorem ending_cases (text : List Byte) :
    ending text = [newline] ∨ ending text = [] ∧ rest text = [] := by
  induction text with
  | nil => exact Or.inr ⟨rfl, rfl⟩
  | cons c text ih =>
    by_cases hc : c = newline
    · subst hc
      exact Or.inl (ending_newline text)
    · simpa [hc] using ih

theorem lineLength_eq_zero_iff : lineLength text = 0 ↔ text = [] := by
  rw [lineLength, List.length_eq_zero_iff, List.append_eq_nil_iff]
  constructor
  · rintro ⟨hbody, hending⟩
    rcases ending_cases text with h | ⟨-, hrest⟩
    · rw [h] at hending
      cases hending
    · rw [← body_append text, hbody, hending, hrest]
      rfl
  · rintro rfl
    exact ⟨rfl, rfl⟩

end Lines

section Store

theorem put_eq (hj : j = x.length) (hx : x.length < MAXLINE) (h : line.chars = x ++ y) (c : Byte) :
    ∃ line' d y', line.put j c = some line' ∧ y = d :: y' ∧ line'.chars = x ++ c :: y' := by
  have hsize := line.size
  rw [h, List.length_append] at hsize
  obtain ⟨d, y', rfl⟩ : ∃ d y', y = d :: y' :=
    List.exists_cons_of_length_pos (by omega)
  refine ⟨⟨line.chars.set j.toNat c, by rw [List.length_set, line.size]⟩, d, y', ?_, rfl, ?_⟩
  · rw [Line.put, if_pos (by omega)]
  · simp [h, hj]

theorem put_head? (hj : j ≠ 0) (h : line.put j c = some line') :
    0 < j ∧ line'.chars.head? = line.chars.head? := by
  rw [Line.put] at h
  split at h
  · next hin =>
    obtain rfl := (Option.some.inj h).symm
    refine ⟨by omega, ?_⟩
    rw [List.head?_eq_getElem?, List.head?_eq_getElem?, List.getElem?_set_ne (by omega)]
  · cases h

theorem incr_eq {i : ℕ} (h : i < INT_MAX) : incr i = some ((i + 1 : ℕ) : ℤ) := by
  rw [incr, if_pos (by omega), Int.natCast_add, Int.natCast_one]

theorem incr_none {i : ℕ} (h : INT_MAX ≤ i) : incr i = none := by
  rw [incr, if_neg (by omega)]

end Store

section Loop

theorem keep_eq {i : ℕ} (hx : x.length = min i (MAXLINE - 2)) (h : line.chars = x ++ y) (c : Byte) :
    ∃ x' line' y', keep MAXLINE i x.length c line = some ((x'.length : ℤ), line') ∧
      x'.length = min (i + 1) (MAXLINE - 2) ∧ line'.chars = x' ++ y' ∧
      ∀ s, x' ++ s.take (MAXLINE - 2 - x'.length) =
        x ++ (c :: s).take (MAXLINE - 2 - x.length) := by
  by_cases hlt : i < MAXLINE - 2
  · obtain ⟨line', d, y', hput, rfl, h'⟩ := put_eq rfl (by omega) h c
    refine ⟨x ++ [c], line', y', ?_, by simp; omega, by simpa using h', fun s => ?_⟩
    · rw [keep, if_pos (by omega), hput]
      simp
    · obtain ⟨k, hk⟩ : ∃ k, MAXLINE - 2 - x.length = k + 1 := ⟨MAXLINE - 2 - x.length - 1, by omega⟩
      rw [hk, List.take_succ_cons, List.length_append, List.length_singleton,
        show MAXLINE - 2 - (x.length + 1) = k by omega, List.append_assoc, List.singleton_append]
  · refine ⟨x, line, y, ?_, by omega, h, fun s => ?_⟩
    · rw [keep, if_neg (by omega)]
    · rw [show MAXLINE - 2 - x.length = 0 by omega, List.take_zero, List.take_zero]

theorem getlineLoop_cons (hc : c ≠ newline) (i j : ℤ) (line : Line) :
    getlineLoop lim (c :: text) i j line =
      (keep lim i j c line).bind fun s => (incr i).bind fun i =>
        getlineLoop lim text i s.1 s.2 := by
  rw [getlineLoop, if_neg hc]
  rfl

/-- Behind `i` characters, the array holds those of them that fit. -/
theorem getlineLoop_some {i : ℕ} (hx : x.length = min i (MAXLINE - 2))
    (hi : i + (body text).length ≤ INT_MAX) (h : line.chars = x ++ y) :
    ∃ z line' y', getlineLoop MAXLINE text i x.length line =
      some ((ending text).head?, rest text, ((i + (body text).length : ℕ) : ℤ), z.length, line') ∧
      z = x ++ (body text).take (MAXLINE - 2 - x.length) ∧ line'.chars = z ++ y' := by
  induction text generalizing i x y line with
  | nil => exact ⟨x, line, y, rfl, by simp, h⟩
  | cons c text ih =>
    by_cases hc : c = newline
    · subst hc
      exact ⟨x, line, y, by simp [getlineLoop], by simp, h⟩
    · rw [body_cons hc, List.length_cons] at hi
      obtain ⟨x', line', y', hkeep, hx', h', htake⟩ := keep_eq hx h c
      obtain ⟨z, line'', y'', hloop, hz, h''⟩ := ih hx' (by omega) h'
      refine ⟨z, line'', y'', ?_, ?_, h''⟩
      · rw [getlineLoop_cons hc, hkeep, Option.bind_some, incr_eq (by omega), Option.bind_some,
          hloop, ending_cons hc, rest_cons hc, body_cons hc, List.length_cons, Nat.add_right_comm,
          Nat.add_assoc]
      · rw [hz, htake, body_cons hc]

theorem getlineLoop_none {i : ℕ} (hi : i ≤ INT_MAX) (h : INT_MAX < i + (body text).length) :
    getlineLoop lim text i j line = none := by
  induction text generalizing i j line with
  | nil =>
    rw [body_nil, List.length_nil] at h
    omega
  | cons c text ih =>
    by_cases hc : c = newline
    · subst hc
      rw [body_newline, List.length_nil] at h
      omega
    · rw [body_cons hc, List.length_cons] at h
      rw [getlineLoop_cons hc]
      rcases keep lim i j c line with _ | ⟨j', line'⟩
      · rfl
      · rw [Option.bind_some]
        rcases Nat.lt_or_eq_of_le hi with hlt | rfl
        · rw [incr_eq hlt, Option.bind_some]
          exact ih hlt (by omega)
        · rw [incr_none le_rfl, Option.bind_none]

theorem keep_head? {j' : ℤ} (hj : j ≠ 0) (h : keep lim i j c line = some (j', line')) :
    j' ≠ 0 ∧ line'.chars.head? = line.chars.head? := by
  rw [keep] at h
  split at h
  · obtain ⟨line₁, hput, heq⟩ := Option.bind_eq_some_iff.mp h
    obtain ⟨hpos, hhead⟩ := put_head? hj hput
    cases heq
    exact ⟨by omega, hhead⟩
  · cases h
    exact ⟨hj, rfl⟩

theorem getlineLoop_head? {d : Option Byte} {text' : List Byte} {i' j' : ℤ} (hj : j ≠ 0)
    (h : getlineLoop lim text i j line = some (d, text', i', j', line')) :
    j' ≠ 0 ∧ line'.chars.head? = line.chars.head? := by
  induction text generalizing i j line with
  | nil =>
    cases h
    exact ⟨hj, rfl⟩
  | cons c text ih =>
    by_cases hc : c = newline
    · rw [getlineLoop, if_pos hc] at h
      cases h
      exact ⟨hj, rfl⟩
    · rw [getlineLoop_cons hc] at h
      obtain ⟨⟨j₁, line₁⟩, hkeep, h⟩ := Option.bind_eq_some_iff.mp h
      obtain ⟨i₁, -, h⟩ := Option.bind_eq_some_iff.mp h
      obtain ⟨hj₁, hhead₁⟩ := keep_head? hj hkeep
      obtain ⟨hj', hhead'⟩ := ih hj₁ h
      exact ⟨hj', hhead'.trans hhead₁⟩

end Loop

section Call

theorem loop_start (hlen : (body text).length ≤ INT_MAX) (line : Line) :
    ∃ line' y', getlineLoop MAXLINE text 0 0 line =
        some ((ending text).head?, rest text, ((body text).length : ℤ), ((kept text).length : ℤ),
          line') ∧ line'.chars = kept text ++ y' := by
  have hlen' : 0 + (body text).length ≤ INT_MAX := by omega
  obtain ⟨z, line', y', hloop, hz, h'⟩ :=
    getlineLoop_some (x := []) rfl hlen' (List.nil_append line.chars).symm
  rw [List.nil_append, List.length_nil, Nat.sub_zero, ← kept] at hz
  subst hz
  rw [Nat.zero_add] at hloop
  exact ⟨line', y', hloop, h'⟩

theorem getline_some (hlen : lineLength text ≤ INT_MAX) (line : Line) :
    ∃ line' y', getline MAXLINE 0 text line = some ((lineLength text : ℤ), rest text, line') ∧
      line'.chars = kept text ++ ending text ++ 0 :: y' := by
  have hmax : MAXLINE = 1000 := rfl
  have hkept := length_kept_le text
  rw [lineLength, List.length_append] at *
  have hbody : (body text).length ≤ INT_MAX := by omega
  obtain ⟨line₁, y₁, hloop, h₁⟩ := loop_start hbody line
  rw [getline, hloop]
  rcases ending_cases text with hending | ⟨hending, -⟩ <;> rw [hending] at hlen ⊢
  · rw [List.length_singleton] at hlen ⊢
    have hroom : (kept text).length < MAXLINE := by omega
    have hroom' : (kept text ++ [newline]).length < MAXLINE := by simp; omega
    have hincr : incr (body text).length = some (((body text).length + 1 : ℕ) : ℤ) :=
      incr_eq (by omega)
    obtain ⟨line₂, d, y₂, hput, rfl, h₂⟩ := put_eq rfl hroom h₁ newline
    rw [← List.singleton_append, ← List.append_assoc] at h₂
    obtain ⟨line₃, e, y₃, hput', rfl, h₃⟩ := put_eq rfl hroom' h₂ 0
    rw [List.length_append, List.length_singleton, Int.natCast_add, Int.natCast_one] at hput'
    exact ⟨line₃, y₃, by simp [hput, hput', hincr], h₃⟩
  · have hroom : (kept text).length < MAXLINE := by omega
    obtain ⟨line₂, d, y₂, hput, rfl, h₂⟩ := put_eq rfl hroom h₁ 0
    exact ⟨line₂, y₂, by simp [hput], by simpa using h₂⟩

theorem getline_none (hlen : INT_MAX < lineLength text) (line : Line) :
    getline MAXLINE 0 text line = none := by
  rw [lineLength, List.length_append] at hlen
  rcases Nat.lt_or_ge INT_MAX (body text).length with hlt | hge
  · have hloop : getlineLoop MAXLINE text (0 : ℕ) 0 line = none :=
      getlineLoop_none (Nat.zero_le INT_MAX) (by omega)
    rw [Int.natCast_zero] at hloop
    rw [getline, hloop]
    rfl
  · obtain ⟨line₁, y₁, hloop, h₁⟩ := loop_start hge line
    rw [getline, hloop]
    rcases ending_cases text with hending | ⟨hending, -⟩ <;> rw [hending] at hlen ⊢
    · rw [List.length_singleton] at hlen
      have hincr : incr (body text).length = none := incr_none (by omega)
      cases hput : line₁.put (kept text).length newline <;> simp [hput, hincr]
    · rw [List.length_nil] at hlen
      omega

theorem getline_head? {text' : List Byte} (hj : j ≠ 0)
    (h : getline lim j text line = some (i, text', line')) :
    line'.chars.head? = line.chars.head? := by
  obtain ⟨⟨c, text₁, i₁, j₁, line₁⟩, hloop, h⟩ := Option.bind_eq_some_iff.mp h
  obtain ⟨hj₁, hhead₁⟩ := getlineLoop_head? hj hloop
  obtain ⟨⟨i₂, j₂, line₂⟩, hnl, h⟩ := Option.bind_eq_some_iff.mp h
  obtain ⟨line₃, hput, heq⟩ := Option.bind_eq_some_iff.mp h
  have hsecond : j₂ ≠ 0 ∧ line₂.chars.head? = line₁.chars.head? := by
    split at hnl
    · obtain ⟨line₄, hput', hnl⟩ := Option.bind_eq_some_iff.mp hnl
      obtain ⟨i₄, -, hnl⟩ := Option.bind_eq_some_iff.mp hnl
      obtain ⟨hpos, hhead⟩ := put_head? hj₁ hput'
      cases hnl
      exact ⟨by omega, hhead⟩
    · cases hnl
      exact ⟨hj₁, rfl⟩
  cases heq
  rw [(put_head? hsecond.1 hput).2, hsecond.2, hhead₁]

end Call

end Somenote.Text.Reverse
