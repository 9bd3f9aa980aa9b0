import Somenote.Inet.Accepted

/-! # Addresses as text and back

The text of an address has `::` for one run of zeros, and is accepted again. It has room in the
arrays, and `inet_ntop4` writes one byte too many to a buffer that is too small by one.
-/

namespace Somenote.Inet

open Decimal Numerals Text

variable {src : ℕ → Byte} {best : Option Run} {r : Run} {s t u tmp bs cs text : List Byte}
  {b c i j l m n left size : ℕ} {af : Family}

section Words

theorem words_eq (src : ℕ → Byte) (i : ℕ) :
    words src i = (src (2 * i)).toNat * 256 + (src (2 * i + 1)).toNat := by
  have hlt : (src (2 * i + 1)).toNat < 2 ^ 8 := (src (2 * i + 1)).toNat_lt
  rw [words, ← Nat.shiftLeft_add_eq_or_of_lt hlt, Nat.shiftLeft_eq]

theorem words_eq_zero : words src i = 0 ↔ src (2 * i) = 0 ∧ src (2 * i + 1) = 0 := by
  have hzero : ∀ c : Byte, c = 0 ↔ c.toNat = 0 := fun c => UInt8.toNat_inj.symm
  rw [words_eq, hzero, hzero]
  omega

/-- The bytes of the words from `i` on. -/
def bytesFrom (src : ℕ → Byte) (i n : ℕ) : List Byte :=
  (List.range' i n).flatMap fun j => [src (2 * j), src (2 * j + 1)]

theorem bytesFrom_succ : bytesFrom src i (n + 1) =
    [src (2 * i), src (2 * i + 1)] ++ bytesFrom src (i + 1) n := by
  simp [bytesFrom, List.range'_succ]

theorem length_bytesFrom : (bytesFrom src i n).length = 2 * n := by
  simp [bytesFrom, List.length_flatMap]
  omega

theorem bytesFrom_add : bytesFrom src i (m + n) = bytesFrom src i m ++ bytesFrom src (i + m) n := by
  simp [bytesFrom, ← List.flatMap_append]

theorem bytesFrom_zero (h : ∀ j, i ≤ j → j < i + n → words src j = 0) :
    bytesFrom src i n = List.replicate (2 * n) 0 := by
  induction n generalizing i with
  | zero => rfl
  | succ n ih =>
    obtain ⟨h0, h1⟩ := words_eq_zero.mp (h i le_rfl (by omega))
    rw [bytesFrom_succ, ih fun j hj hj' => h j (by omega) (by omega), h0, h1]
    rfl

theorem bytesFrom_eight : bytesFrom src 0 8 = (List.range 16).map src := rfl

theorem group_hex (src : ℕ → Byte) (i : ℕ) :
    Group (hex (words src i)) [src (2 * i), src (2 * i + 1)] := by
  have hi := (src (2 * i)).toNat_lt
  have hlo := (src (2 * i + 1)).toNat_lt
  have hvalue : value 16 xdigit 0 (hex (words src i)) = words src i :=
    reads_xdigits.value_numeral (by decide) _
  have hshift : words src i >>> 8 = (src (2 * i)).toNat := by
    rw [words_eq, Nat.shiftRight_eq_div_pow]
    omega
  have hlow : UInt8.ofNat (words src i) = src (2 * i + 1) := by
    apply UInt8.toNat_inj.mp
    rw [UInt8.toNat_ofNat', words_eq]
    omega
  constructor
  · exact numeral_ne_nil
  · exact fun c hc => reads_xdigits.isSome_of_mem (by decide) hc
  · rw [hvalue, words_eq]
    omega
  · rw [hvalue, hshift, hlow, UInt8.ofNat_toNat]

end Words

section Best

/-- The words of a run are zero. -/
def Run.Zero (src : ℕ → Byte) (r : Run) : Prop := ∀ j, r.base ≤ j → j < r.base + r.len → words src j = 0

theorem of_longer (h : longer best r = some ⟨b, l⟩) : best = some ⟨b, l⟩ ∨ r = ⟨b, l⟩ := by
  cases best with
  | none => exact Or.inr (Option.some.inj h)
  | some b' =>
    simp only [longer] at h
    split at h
    · exact Or.inr (Option.some.inj h)
    · exact Or.inl h

/-- What the loop over the words knows in front of the word `i`. -/
structure Scanned (src : ℕ → Byte) (i : ℕ) (r : Option Run × Option Run) : Prop where
  best : ∀ b, r.1 = some b → b.Zero src ∧ b.base + b.len ≤ i
  cur : ∀ c, r.2 = some c → c.Zero src ∧ c.base + c.len = i

theorem Scanned.longer {r : Option Run × Option Run} (h : Scanned src i r) {cur b : Run}
    (hcur : r.2 = some cur) (hb : Inet.longer r.1 cur = some b) :
    b.Zero src ∧ b.base + b.len ≤ i := by
  rcases of_longer hb with hb | rfl
  · exact h.best b hb
  · exact ⟨(h.cur _ hcur).1, (h.cur _ hcur).2.le⟩

theorem Scanned.step {r : Option Run × Option Run} (h : Scanned src i r) :
    Scanned src (i + 1) (scanStep src r i) := by
  have hbest : ∀ b, r.1 = some b → b.Zero src ∧ b.base + b.len ≤ i + 1 := fun b hb =>
    ⟨(h.best b hb).1, (h.best b hb).2.trans (Nat.le_succ i)⟩
  unfold scanStep
  split
  · rename_i hzero
    cases hcur : r.2 with
    | none =>
      refine ⟨hbest, ?_⟩
      rintro c ⟨⟩
      refine ⟨fun j hj hj' => ?_, rfl⟩
      obtain rfl : i = j := by
        dsimp only at hj hj'
        omega
      exact hzero
    | some cur =>
      refine ⟨hbest, ?_⟩
      rintro c ⟨⟩
      obtain ⟨hz, hend⟩ := h.cur cur hcur
      refine ⟨fun j hj hj' => ?_, by dsimp only; omega⟩
      dsimp only at hj hj'
      by_cases hji : j = i
      · rw [hji, hzero]
      · exact hz j hj (by omega)
  · cases hcur : r.2 with
    | none => exact ⟨hbest, by rintro c ⟨⟩⟩
    | some cur =>
      refine ⟨fun b hb => ?_, by rintro c ⟨⟩⟩
      obtain ⟨hz, hle⟩ := h.longer hcur hb
      exact ⟨hz, hle.trans (Nat.le_succ i)⟩

theorem scanned (src : ℕ → Byte) (i : ℕ) :
    Scanned src i ((List.range i).foldl (scanStep src) (none, none)) := by
  induction i with
  | zero => exact ⟨by rintro b ⟨⟩, by rintro c ⟨⟩⟩
  | succ i ih =>
    rw [List.range_succ, List.foldl_append]
    exact ih.step

/-- What `::` stands for is a run of at least two zero words. -/
theorem bestRun_zero (h : bestRun src = some r) : r.Zero src ∧ r.base + r.len ≤ 8 ∧ 2 ≤ r.len := by
  have hs := scanned src 8
  simp only [bestRun, Option.filter_eq_some_iff, decide_eq_true_eq, not_lt] at h
  obtain ⟨h, hlen⟩ := h
  cases hcur : ((List.range 8).foldl (scanStep src) (none, none)).2 with
  | none =>
    rw [hcur] at h
    exact ⟨(hs.best r h).1, (hs.best r h).2, hlen⟩
  | some cur =>
    rw [hcur] at h
    exact ⟨(hs.longer hcur h).1, (hs.longer hcur h).2, hlen⟩

end Best

section Format

/-- A word with the colon in front of it. -/
def sepHex (src : ℕ → Byte) (j : ℕ) : List Byte :=
  (if j ≠ 0 then encode ":" else []) ++ hex (words src j)

theorem formatLoop_words (h : ∀ j, i ≤ j → j < i + n →
    inside best j = false ∧ ¬ (j = 6 ∧ encapsulated src best)) :
    formatLoop src best (n + left) i tmp =
      formatLoop src best left (i + n) (tmp ++ (List.range' i n).flatMap (sepHex src)) := by
  induction n generalizing i tmp with
  | zero => simp
  | succ n ih =>
    obtain ⟨hin, henc⟩ := h i le_rfl (by omega)
    rw [show n + 1 + left = n + left + 1 by omega, formatLoop, if_neg (by simp [hin]), if_neg henc,
      ih fun j hj hj' => h j (by omega) (by omega)]
    by_cases hi : i = 0
    · simp [hi, sepHex, List.range'_succ, Nat.add_comm 1]
    · simp [hi, sepHex, List.range'_succ, Nat.add_assoc, Nat.add_comm 1]

theorem formatLoop_skip (hb : best = some ⟨b, l⟩) (hi : b < i) (hn : i + n ≤ b + l) :
    formatLoop src best (n + left) i tmp = formatLoop src best left (i + n) tmp := by
  induction n generalizing i with
  | zero => simp
  | succ n ih =>
    have hin : inside best i = true := by
      simp [inside, hb]
      omega
    have hst : starts best i = false := by
      simp [starts, hb]
      omega
    rw [show n + 1 + left = n + left + 1 by omega, formatLoop, if_pos hin, if_neg (by simp [hst]),
      ih (by omega) (by omega)]
    congr 1
    omega

theorem formatLoop_run (hb : best = some ⟨b, l⟩) (hl : 0 < l) :
    formatLoop src best (l + left) b tmp =
      formatLoop src best left (b + l) (tmp ++ encode ":") := by
  obtain ⟨n, rfl⟩ := Nat.exists_eq_succ_of_ne_zero hl.ne'
  have hin : inside best b = true := by simp [inside, hb]
  have hst : starts best b = true := by simp [starts, hb]
  rw [show n.succ + left = n + left + 1 by omega, formatLoop, if_pos hin, if_pos hst,
    formatLoop_skip hb (Nat.lt_succ_self b) (by omega)]
  congr 1
  omega

theorem tail_words (src : ℕ → Byte) (n : ℕ) (hi : 0 < i) (hu : Tail u cs) :
    ∃ t, (List.range' i n).flatMap (sepHex src) ++ 58 :: u = 58 :: t ∧
      Tail t (bytesFrom src i n ++ cs) := by
  induction n generalizing i with
  | zero => exact ⟨u, rfl, hu⟩
  | succ n ih =>
    obtain ⟨t, ht, htail⟩ := ih (Nat.succ_pos i)
    refine ⟨hex (words src i) ++ 58 :: t, ?_, ?_⟩
    · rw [List.range'_succ, List.flatMap_cons, List.append_assoc, ht, sepHex, if_pos hi.ne']
      rfl
    · rw [bytesFrom_succ, List.append_assoc]
      exact .cons (group_hex src i) htail

theorem tail_words_end (src : ℕ → Byte) (n : ℕ) (hi : 0 < i) : ∃ t, (List.range' i (n + 1)).flatMap (sepHex src) = 58 :: t ∧
    Tail t (bytesFrom src i (n + 1)) := by
  obtain ⟨t, ht, htail⟩ := tail_words src n hi (.group (group_hex src (i + n)))
  refine ⟨t, ?_, ?_⟩
  · rw [List.range'_1_concat, List.flatMap_append, ← ht]
    simp [sepHex, encode, hi.ne']
    rfl
  · rw [bytesFrom_add]
    exact htail

theorem Head.append (hs : Head s bs) (ht : Head t cs) : Head (s ++ t) (bs ++ cs) := by
  induction hs with
  | nil => exact ht
  | cons hp _ ih =>
    simp only [List.append_assoc, List.cons_append]
    exact .cons hp ih

theorem head_words : Head ((List.range' 0 (n + 1)).flatMap (sepHex src) ++ encode ":")
    (bytesFrom src 0 (n + 1)) := by
  have hone : ∀ j, Head (hex (words src j) ++ encode ":") [src (2 * j), src (2 * j + 1)] :=
    fun j => .cons (group_hex src j) .nil
  induction n with
  | zero => simpa [sepHex, bytesFrom] using hone 0
  | succ n ih =>
    have happend := ih.append (hone (n + 1))
    rw [List.range'_1_concat, List.flatMap_append, bytesFrom_add]
    simpa [sepHex, bytesFrom] using happend

theorem fill_words (hb : r.Zero src) (hle : r.base + r.len ≤ 8) (hlen : 2 ≤ r.len) :
    fill (bytesFrom src 0 r.base) (bytesFrom src (r.base + r.len) (8 - (r.base + r.len))) =
      (List.range 16).map src := by
  have hzero := bytesFrom_zero hb
  have hsplit : bytesFrom src 0 8 = bytesFrom src 0 r.base ++ bytesFrom src r.base r.len ++
      bytesFrom src (r.base + r.len) (8 - (r.base + r.len)) := by
    obtain ⟨k, hk⟩ := Nat.exists_eq_add_of_le hle
    rw [hk, Nat.add_sub_cancel_left, bytesFrom_add, bytesFrom_add, Nat.zero_add, Nat.zero_add]
  have hroom : IN6ADDRSZ - (2 * r.base + 2 * (8 - (r.base + r.len))) = 2 * r.len := by
    rw [IN6ADDRSZ]
    omega
  rw [fill, length_bytesFrom, length_bytesFrom, hroom, if_neg (by rw [IN6ADDRSZ]; omega), ← hzero,
    ← hsplit]
  rfl

end Format

section Text

theorem length_words_le : ((List.range' i n).flatMap (sepHex src)).length ≤ 5 * n := by
  have hone : ∀ j, (sepHex src j).length ≤ 5 := by
    intro j
    have hhi := (src (2 * j)).toNat_lt
    have hlo := (src (2 * j + 1)).toNat_lt
    have hle : (hex (words src j)).length ≤ 4 :=
      length_numeral_le (by decide) (by decide) (by rw [words_eq]; omega)
    have hcolon : (encode ":").length = 1 := rfl
    rw [sepHex, List.length_append]
    split
    · omega
    · simp
      omega
  induction n generalizing i with
  | zero => simp
  | succ n ih =>
    have hrest := ih (i := i + 1)
    have hfirst := hone i
    simp only [List.range'_succ, List.flatMap_cons, List.length_append]
    omega

/-- What is written behind the run. -/
structure Behind (src : ℕ → Byte) (m : ℕ) (s t : List Byte) : Prop where
  text : s = 58 :: t
  tail : Tail t (bytesFrom src m (8 - m))
  short : s.length ≤ 5 * (8 - m) + 12

theorem formatLoop_behind (hb : best = some ⟨b, l⟩) (hle : b + l ≤ 8) (hl : 2 ≤ l)
    (henc : encapsulated src best = false) (tmp : List Byte) :
    ∃ s t, formatLoop src best (8 - (b + l)) (b + l) tmp = .ok (tmp ++ s) ∧
      Behind src (b + l) (s ++ if trailing best then encode ":" else []) t := by
  have hplain : ∀ j, b + l ≤ j → j < b + l + (8 - (b + l)) →
      inside best j = false ∧ ¬ (j = 6 ∧ encapsulated src best) := by
    intro j hj _
    constructor
    · simp [inside, hb]
      omega
    · simp [henc]
  have hloop : formatLoop src best (8 - (b + l) + 0) (b + l) tmp = _ := formatLoop_words hplain
  have hlen : ((List.range' (b + l) (8 - (b + l))).flatMap (sepHex src)).length ≤ _ :=
    length_words_le
  by_cases hend : b + l = 8
  · refine ⟨_, [], hloop, ?_, ?_, ?_⟩
    · simp [hend, hb, trailing]
      rfl
    · rw [hend]
      exact .nil
    · simp [hend, hb, trailing, encode]
  · obtain ⟨n, hn⟩ : ∃ n, 8 - (b + l) = n + 1 := ⟨7 - (b + l), by omega⟩
    obtain ⟨t, ht, htail⟩ := tail_words_end src n (i := b + l) (by omega)
    refine ⟨_, t, hloop, ?_, ?_, ?_⟩
    · simp [hend, hb, trailing, hn, ht]
    · rwa [hn]
    · simp only [hb, trailing, Option.any_some, hend, decide_false, Bool.false_eq_true, if_false,
        List.append_nil]
      omega

theorem formatLoop_quad (hb : best = some ⟨0, l⟩) (hl : l = 5 ∨ l = 6)
    (henc : encapsulated src best = true) :
    ∃ s t, formatLoop src best (8 - l) l (encode ":") = .ok (encode ":" ++ s) ∧
      Behind src l s t := by
  have hfour : Tail (dotted fun k => src (12 + k)) (bytesFrom src 6 2) :=
    .quad (inetPton4_dotted _)
  obtain ⟨t, ht, htail⟩ := tail_words src (6 - l) (show 0 < l by omega) hfour
  have hquad := length_dotted_le fun k => src (12 + k)
  have hplain : ∀ j, l ≤ j → j < l + (6 - l) →
      inside best j = false ∧ ¬ (j = 6 ∧ encapsulated src best) := by
    intro j hj hj'
    constructor
    · simp [inside, hb]
      omega
    · omega
  have hloop : formatLoop src best (6 - l + 2) l (encode ":") = _ := formatLoop_words hplain
  have hlen : ((List.range' l (6 - l)).flatMap (sepHex src)).length ≤ _ := length_words_le
  have hsix : inside best 6 = false := by
    simp [inside, hb]
    omega
  have hroom : ¬ (dotted fun k => src (12 + k)).length >
      TMPSZ - (encode ":" ++ (List.range' l (6 - l)).flatMap (sepHex src) ++ encode ":").length := by
    have hcolon : (encode ":").length = 1 := rfl
    have htmp : TMPSZ = 46 := rfl
    simp only [List.length_append, hcolon, htmp]
    omega
  refine ⟨(List.range' l (6 - l)).flatMap (sepHex src) ++ 58 :: dotted fun k => src (12 + k), t,
    ?_, ht, ?_, ?_⟩
  · rw [show 8 - l = 6 - l + 2 by omega, hloop, show l + (6 - l) = 6 by omega, formatLoop,
      if_neg (by simp [hsix]), if_pos ⟨rfl, henc⟩, inetNtop4_eq]
    rw [if_pos (by decide), if_neg hroom]
    simp [Except.map, encode]
    rfl
  · rw [show 8 - l = 6 - l + 2 by omega, bytesFrom_add, show l + (6 - l) = 6 by omega]
    exact htail
  · simp only [List.length_append, List.length_cons]
    omega

theorem formatLoop_none (src : ℕ → Byte) : ∃ text, formatLoop src none 8 0 [] = .ok text ∧
    Tail text ((List.range 16).map src) ∧ text.length ≤ 40 := by
  have hplain : ∀ j, 0 ≤ j → j < 0 + 8 →
      inside none j = false ∧ ¬ (j = 6 ∧ encapsulated src none) := by
    intro j _ _
    simp [inside, encapsulated]
  have hloop : formatLoop src none (8 + 0) 0 [] = _ := formatLoop_words hplain
  have hlen : ((List.range' 0 8).flatMap (sepHex src)).length ≤ 5 * 8 := length_words_le
  obtain ⟨t, ht, htail⟩ := tail_words_end src 6 (show 0 < 1 by decide)
  refine ⟨_, hloop, ?_, hlen⟩
  rw [List.nil_append, List.range'_succ, List.flatMap_cons, ht, ← bytesFrom_eight, bytesFrom_succ]
  exact .cons (group_hex src 0) htail

/-- The text with the words in front of the run and what is behind it. -/
theorem inetPton6_run (hb : r.Zero src) (hle : r.base + r.len ≤ 8) (hlen : 2 ≤ r.len)
    (hs : Behind src (r.base + r.len) s t) :
    inetPton6 ((List.range' 0 r.base).flatMap (sepHex src) ++ encode ":" ++ s) =
      some ((List.range 16).map src) := by
  refine inetPton6_eq_some.mpr (Or.inr ?_)
  rw [hs.text]
  rcases Nat.eq_zero_or_pos r.base with h0 | hpos
  · refine ⟨[], t, [], _, .nil, hs.tail, ?_, ?_, ?_⟩
    · simp only [List.length_nil, length_bytesFrom]
      omega
    · rw [← fill_words hb hle hlen, h0]
      rfl
    · rw [h0]
      rfl
  · obtain ⟨n, hn⟩ := Nat.exists_eq_succ_of_ne_zero hpos.ne'
    have hhead : Head ((List.range' 0 r.base).flatMap (sepHex src) ++ encode ":")
        (bytesFrom src 0 r.base) := by
      rw [hn]
      exact head_words
    refine ⟨_, t, _, _, hhead, hs.tail, ?_, (fill_words hb hle hlen).symm, ?_⟩
    · simp only [length_bytesFrom]
      omega
    · rw [if_neg (by simp [encode])]

/-- The text of an address, which is accepted, and for which `tmp` is long enough. -/
theorem exists_text (src : ℕ → Byte) : ∃ text, inetPton6 text = some ((List.range 16).map src) ∧
    text.length < TMPSZ ∧
    ∀ size, inetNtop6 src size = if text.length + 1 > size then .error .ENOSPC else .ok text := by
  have htmp : TMPSZ = 46 := rfl
  have hcolon : (encode ":").length = 1 := rfl
  cases hbest : bestRun src with
  | none =>
    obtain ⟨text, htext, htail, hshort⟩ := formatLoop_none src
    refine ⟨text, inetPton6_eq_some.mpr (Or.inl ⟨htail, by simp⟩), by omega, fun size => ?_⟩
    simp [inetNtop6, hbest, htext, trailing]
  | some r =>
    obtain ⟨hzero, hle, hlen⟩ := bestRun_zero hbest
    obtain ⟨b, l⟩ := r
    dsimp only at hle hlen
    by_cases henc : encapsulated src (some ⟨b, l⟩) = true
    · have hcases : b = 0 ∧ (l = 5 ∨ l = 6) := by
        simp only [encapsulated, Option.any_some, Bool.and_eq_true, decide_eq_true_eq,
          Bool.or_eq_true] at henc
        omega
      obtain ⟨rfl, hl⟩ := hcases
      obtain ⟨s, t, hloop, hs⟩ := formatLoop_quad rfl hl henc
      have hrun : formatLoop src (some ⟨0, l⟩) 8 0 [] = .ok (encode ":" ++ s) := by
        rw [show 8 = l + (8 - l) by omega, formatLoop_run rfl (by omega), List.nil_append,
          Nat.zero_add, hloop]
      have htrail : trailing (some ⟨0, l⟩) = false := by
        simp [trailing]
        omega
      refine ⟨encode ":" ++ s, ?_, ?_, fun size => ?_⟩
      · have hparse := inetPton6_run (r := ⟨0, l⟩) (s := s) (t := t) hzero hle hlen (by simpa using hs)
        exact hparse
      · have hshort := hs.short
        rw [List.length_append]
        omega
      · simp [inetNtop6, hbest, hrun, htrail]
    · have henc' : encapsulated src (some ⟨b, l⟩) = false := by simpa using henc
      obtain ⟨s, t, hloop, hs⟩ := formatLoop_behind rfl hle hlen henc'
        ((List.range' 0 b).flatMap (sepHex src) ++ encode ":")
      have hplain : ∀ j, 0 ≤ j → j < 0 + b → inside (some ⟨b, l⟩) j = false ∧
          ¬ (j = 6 ∧ encapsulated src (some ⟨b, l⟩)) := by
        intro j _ hj
        constructor
        · simp [inside]
          omega
        · simp [henc']
      have hrun : formatLoop src (some ⟨b, l⟩) 8 0 [] =
          .ok ((List.range' 0 b).flatMap (sepHex src) ++ encode ":" ++ s) := by
        rw [show 8 = b + (l + (8 - (b + l))) by omega, formatLoop_words hplain, Nat.zero_add,
          formatLoop_run rfl (by omega), List.nil_append, hloop]
      refine ⟨_, inetPton6_run (r := ⟨b, l⟩) hzero hle hlen hs, ?_, fun size => ?_⟩
      · have hshort := hs.short
        have hwords : ((List.range' 0 b).flatMap (sepHex src)).length ≤ 5 * b := length_words_le
        simp only [List.length_append] at hshort ⊢
        omega
      · rw [inetNtop6, hbest]
        dsimp only
        rw [hrun]
        dsimp only
        congr 1 <;> split <;> simp

end Text

section Main

/-- The size of an address. -/
def Family.addrlen : Family → ℕ
  | .AF_INET => INADDRSZ
  | .AF_INET6 => IN6ADDRSZ
  | .other => 0

/-- What `inet_ntop` writes is accepted by `inet_pton`, and stands for the same address. -/
theorem inetPton_inetNtop (h : inetNtop af src size = .ok text) :
    inetPton af text = .ok (some ((List.range af.addrlen).map src)) := by
  cases af with
  | AF_INET =>
    rw [inetNtop, inetNtop4_eq] at h
    split at h
    · cases h
    · cases h
      exact congrArg Except.ok (inetPton4_dotted src)
  | AF_INET6 =>
    obtain ⟨t, ht, -, hsize⟩ := exists_text src
    rw [inetNtop, hsize] at h
    split at h
    · cases h
    · cases h
      exact congrArg Except.ok ht
  | other => cases h

theorem inetPton_inetNtop_short :
    inetPton .AF_INET6 (encode "::1") =
      .ok (some ((List.range 16).map fun i => if i = 15 then 1 else 0)) := by
  have hntop : inetNtop .AF_INET6 (fun i => if i = 15 then 1 else 0) 4 = .ok (encode "::1") := rfl
  exact inetPton_inetNtop hntop

/-- The local arrays are long enough. An address of sixteen bytes is written when there is room for
its text and the NUL, and one of four bytes also when there is no room for the NUL. -/
theorem inetNtop_room (src : ℕ → Byte) :
    (∃ text, text.length < TMPSZ ∧ ∀ size, inetNtop .AF_INET6 src size =
      if text.length + 1 ≤ size then .ok text else .error .ENOSPC) ∧
    ∃ text, text.length < (encode "255.255.255.255").length + 1 ∧ ∀ size,
      inetNtop .AF_INET src size = if text.length ≤ size then .ok text else .error .ENOSPC := by
  constructor
  · obtain ⟨text, -, hlen, hsize⟩ := exists_text src
    refine ⟨text, hlen, fun size => ?_⟩
    rw [inetNtop, hsize]
    split <;> split <;> first | rfl | omega
  · refine ⟨dotted src, Nat.lt_succ_of_le (length_dotted_le src), fun size => ?_⟩
    rw [inetNtop, inetNtop4_eq]
    split <;> split <;> first | rfl | omega

theorem mem_colon_of_inetPton6 (h : inetPton6 s = some bs) : 58 ∈ s := by
  rcases inetPton6_eq_some.mp h with ⟨htail, hlen⟩ | ⟨p, t, -, -, -, -, -, -, rfl⟩
  · cases htail with
    | nil => cases hlen
    | group hp => rw [hp.length] at hlen; cases hlen
    | quad hp => rw [length_inetPton4 hp] at hlen; cases hlen
    | cons => simp
  · simp

/-- The texts that are accepted, and the addresses that they stand for. Any zeros may stand in front
of a number, a colon may stand at the end, and the groups behind a `::` without a word to stand for
are lost. -/
theorem inetPton_eq_ok {a : List Byte} : inetPton af s = .ok (some a) ↔
    af = .AF_INET ∧ (∃ ps, ps.length = 4 ∧ List.Forall₂ Field ps a ∧ s = [46].intercalate ps) ∨
    af = .AF_INET6 ∧ (Tail s a ∧ a.length = 16 ∨
      ∃ h t bs cs, Head h bs ∧ Tail t cs ∧ bs.length + cs.length ≤ 16 ∧ a = fill bs cs ∧
        s = (if h = [] then [58] else h) ++ 58 :: t) := by
  cases af with
  | AF_INET => simp [inetPton, inetPton4_eq_some]
  | AF_INET6 => simp [inetPton, inetPton6_eq_some]
  | other => simp [inetPton]

/-- No text is an address of both families. -/
theorem families_disjoint (s : List Byte) :
    ¬ ((inetPton4 s).isSome ∧ (inetPton6 s).isSome) := by
  rintro ⟨h4, h6⟩
  obtain ⟨bs, hbs⟩ := Option.isSome_iff_exists.mp h4
  obtain ⟨cs, hcs⟩ := Option.isSome_iff_exists.mp h6
  have hcolon := digit_of_inetPton4 hbs (mem_colon_of_inetPton6 hcs)
  revert hcolon
  decide

end Main

end Somenote.Inet
