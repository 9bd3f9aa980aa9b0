import Mathlib.Tactic.Linarith
import Somenote.Inet.Quads

/-! # Addresses of sixteen bytes

The texts that `inet_pton6` accepts are groups of hexadecimal digits with colons between them. Two
colons in a row stand for zeros, the last group may be an address of four bytes, and a colon at the
end is not looked at.
-/

namespace Somenote.Inet

open Numerals Text

theorem reads_xdigits : Reads 16 xdigit := by decide

/-- A group of hexadecimal digits, and its two bytes. -/
structure Group (p bs : List Byte) : Prop where
  ne_nil : p ≠ []
  xdigit : ∀ c ∈ p, (xdigit c).isSome
  le : value 16 Inet.xdigit 0 p ≤ 0xffff
  bytes : bs = [UInt8.ofNat (value 16 Inet.xdigit 0 p >>> 8), UInt8.ofNat (value 16 Inet.xdigit 0 p)]

/-- Groups with a colon behind each of them. -/
inductive Head : List Byte → List Byte → Prop
  | nil : Head [] []
  | cons {p t bs cs} (hp : Group p bs) (ht : Head t cs) : Head (p ++ 58 :: t) (bs ++ cs)

/-- Groups with colons between them, up to the end of the text. -/
inductive Tail : List Byte → List Byte → Prop
  | nil : Tail [] []
  | group {p bs} (hp : Group p bs) : Tail p bs
  | quad {p bs} (hp : inetPton4 p = some bs) : Tail p bs
  | cons {p t bs cs} (hp : Group p bs) (ht : Tail t cs) : Tail (p ++ 58 :: t) (bs ++ cs)

/-- The bytes of an address with `::`. The groups behind it are lost when there is no room for a
zero. -/
def fill (bs cs : List Byte) : List Byte :=
  if bs.length + cs.length = IN6ADDRSZ then bs ++ List.replicate cs.length 0
  else bs ++ List.replicate (IN6ADDRSZ - (bs.length + cs.length)) 0 ++ cs

variable {s t p rest out bs cs a curtok : List Byte} {gap : Option ℕ} {c : Byte} {st st' : Pton6}
  {n v w k : ℕ}

theorem Group.length (h : Group p bs) : bs.length = 2 := by simp [h.bytes]

section Starts

theorem Group.head (h : Group (c :: p) bs) : (Inet.xdigit c).isSome := h.xdigit c List.mem_cons_self

theorem xdigit_of_digit (h : (strchr digits c).isSome) :
    ∃ d, strchr digits c = some d ∧ xdigit c = some d ∧ d ≤ 9 := by
  have hall : ∀ c ∈ digits, ∃ d ≤ 9, strchr digits c = some d ∧ xdigit c = some d := by
    decide +kernel
  obtain ⟨d, hd, h10, h16⟩ := hall c (List.isSome_idxOf?.mp h)
  exact ⟨d, h10, h16, hd⟩

theorem exists_field (h : inetPton4 s = some bs) : ∃ p t b, s = p ++ 46 :: t ∧ Field p b := by
  obtain ⟨ps, hlen, hfs, rfl⟩ := inetPton4_eq_some.mp h
  cases hfs with
  | nil => cases hlen
  | @cons p b ps bs hp hfs =>
    have hps : ps ≠ [] := by
      rintro rfl
      cases hlen
    exact ⟨p, [46].intercalate ps, b, by simp [intercalate_cons hps], hp⟩

theorem xdigit_of_append (hne : p ≠ []) (hp : ∀ c ∈ p, (xdigit c).isSome)
    (h : c :: t = p ++ rest) : (xdigit c).isSome := by
  obtain ⟨d, p, rfl⟩ := List.exists_cons_of_ne_nil hne
  obtain rfl : c = d := by simpa using congrArg List.head? h
  exact hp c List.mem_cons_self

theorem Head.xdigit (h : Head s bs) (hs : s = c :: t) : (xdigit c).isSome := by
  cases h with
  | nil => cases hs
  | cons hp _ => exact xdigit_of_append hp.ne_nil hp.xdigit hs.symm

theorem Tail.xdigit (h : Tail s bs) (hs : s = c :: t) : (Inet.xdigit c).isSome := by
  cases h with
  | nil => cases hs
  | group hp => exact (hs ▸ hp).head
  | quad hp =>
    obtain ⟨p, u, b, hu, hf⟩ := exists_field hp
    refine xdigit_of_append hf.ne_nil (fun c hc => ?_) (hs.symm.trans hu)
    obtain ⟨d, -, hd, -⟩ := xdigit_of_digit (hf.digit c hc)
    simp [hd]
  | cons hp _ => exact xdigit_of_append hp.ne_nil hp.xdigit hs.symm

theorem not_xdigit_colon : ¬ (xdigit 58).isSome := by decide

end Starts

section Loop

/-- In front of a group, when `out` has been written. -/
def Pton6.front (out : List Byte) (gap : Option ℕ) (curtok : List Byte) : Pton6 :=
  ⟨out ++ List.replicate (IN6ADDRSZ - out.length) 0, out.length, gap, curtok, false, 0⟩

/-- The digits at the end are stored. -/
def Pton6.flush (s : Pton6) : Option Pton6 := if s.saw_xdigit then s.store else some s

/-- `out` has been written, and `::` was seen in front of the byte `gap` of it. -/
structure Pton6.Written (s : Pton6) (out : List Byte) (gap : Option ℕ) : Prop where
  tmp : s.tmp = out ++ List.replicate (IN6ADDRSZ - out.length) 0
  tp : s.tp = out.length
  colonp : s.colonp = gap

theorem pton6Loop_hex (hp : ∀ c ∈ p, (xdigit c).isSome) (hne : p ≠ []) :
    pton6Loop (p ++ rest) st =
      if value 16 xdigit st.val p ≤ 0xffff then
        pton6Loop rest { st with val := value 16 xdigit st.val p, saw_xdigit := true }
      else none := by
  induction p generalizing st with
  | nil => exact absurd rfl hne
  | cons c p ih =>
    obtain ⟨d, hd⟩ := Option.isSome_iff_exists.mp (hp c List.mem_cons_self)
    have hlt : d < 2 ^ 4 := by
      have hall : ∀ c ∈ xdigits_l ++ xdigits_u, (xdigit c).all (· < 16) := by decide +kernel
      have hmem : c ∈ xdigits_l ++ xdigits_u := by
        simp only [xdigit, Option.or_eq_some_iff, strchr] at hd
        rcases hd with hd | ⟨-, hd⟩
        · exact List.mem_append_left _ (List.isSome_idxOf?.mp (by simp [hd]))
        · exact List.mem_append_right _ (List.isSome_idxOf?.mp (by simp [hd]))
      simpa [hd] using hall c hmem
    have hor : st.val <<< 4 ||| d = st.val * 16 + d := by
      rw [← Nat.shiftLeft_add_eq_or_of_lt hlt, Nat.shiftLeft_eq]
    have hle : st.val * 16 + d ≤ value 16 xdigit (st.val * 16 + d) p := le_value (by decide)
    simp only [List.cons_append, pton6Loop, hd, hor, value_cons, Option.getD_some, gt_iff_lt]
    by_cases hnew : st.val * 16 + d ≤ 0xffff
    · rw [if_neg (by omega)]
      by_cases hp' : p = []
      · subst hp'
        simp [hnew]
      · rw [ih (fun c hc => hp c (List.mem_cons_of_mem _ hc)) hp']
    · rw [if_pos (by omega), if_neg (by omega)]

theorem store_front (h : out.length + 2 ≤ 16) :
    Pton6.store { Pton6.front out gap curtok with val := v, saw_xdigit := true } =
      some { Pton6.front (out ++ [UInt8.ofNat (v >>> 8), UInt8.ofNat v]) gap curtok with
        val := v, saw_xdigit := true } := by
  obtain ⟨k, hk⟩ : ∃ k, 16 - out.length = k + 2 := ⟨14 - out.length, by omega⟩
  have hk' : 16 - (out.length + 2) = k := by omega
  simp only [Pton6.store, Pton6.front, IN6ADDRSZ, hk, List.length_append, List.length_cons,
    List.length_nil, Nat.zero_add, Nat.reduceAdd, hk']
  rw [if_neg (by omega)]
  simp [List.replicate_succ]

theorem store_full (h : ¬ out.length + 2 ≤ 16) :
    Pton6.store { Pton6.front out gap curtok with val := v, saw_xdigit := true } = none :=
  if_pos (Nat.lt_of_not_le h)

theorem pton6Loop_colon (h : out.length + 2 ≤ 16) :
    pton6Loop (58 :: rest) { Pton6.front out gap curtok with val := v, saw_xdigit := true } =
      pton6Loop rest
        (.front (out ++ [UInt8.ofNat (v >>> 8), UInt8.ofNat v]) gap rest) := by
  have hcolon : xdigit 58 = none := by decide
  simp only [pton6Loop, hcolon, if_true, store_front h]
  rfl

theorem pton6Loop_group (hp : Group p bs) (h : out.length + 2 ≤ 16) :
    pton6Loop (p ++ 58 :: rest) (.front out gap curtok) =
      pton6Loop rest (.front (out ++ bs) gap rest) := by
  rw [pton6Loop_hex hp.xdigit hp.ne_nil, hp.bytes]
  exact (if_pos hp.le).trans (pton6Loop_colon h)

theorem pton6Loop_gap : pton6Loop (58 :: rest) (.front out none curtok) =
    pton6Loop rest (.front out (some out.length) rest) := by
  have hcolon : xdigit 58 = none := by decide
  simp [pton6Loop, hcolon, Pton6.front]

/-- The digits of a number up to 255 are at most `0xffff` when they are read as hexadecimal ones. -/
theorem value_sixteen_le (hp : ∀ c ∈ p, (strchr digits c).isSome) (h : w ≤ v * v + v) :
    value 16 xdigit w p ≤ value 10 (strchr digits) v p * value 10 (strchr digits) v p +
      value 10 (strchr digits) v p := by
  induction p generalizing v w with
  | nil => exact h
  | cons c p ih =>
    obtain ⟨d, h10, h16, hd⟩ := xdigit_of_digit (hp c List.mem_cons_self)
    simp only [value_cons, h10, h16, Option.getD_some]
    refine ih (fun c hc => hp c (List.mem_cons_of_mem _ hc)) ?_
    nlinarith [Nat.le_mul_self v, Nat.zero_le (v * d), Nat.zero_le (d * d)]

theorem pton6Loop_dot (h : out.length + 4 ≤ 16) (hcs : inetPton4 curtok = some cs) :
    ∃ s, pton6Loop (46 :: rest) { Pton6.front out gap curtok with val := v, saw_xdigit := true } =
      some s ∧ s.saw_xdigit = false ∧ s.Written (out ++ cs) gap := by
  have hdot : xdigit 46 = none := by decide
  have hlen := length_inetPton4 hcs
  have htp : out.length + INADDRSZ ≤ IN6ADDRSZ := h
  let tmp := (Pton6.front out gap curtok).tmp
  refine ⟨⟨tmp.take out.length ++ cs ++ tmp.drop (out.length + INADDRSZ), out.length + INADDRSZ, gap,
    curtok, false, v⟩, ?_, rfl, ?_, ?_, rfl⟩
  · simp only [pton6Loop, hdot, Pton6.front, htp, hcs]
    rfl
  · simp [tmp, Pton6.front, hlen, INADDRSZ, Nat.sub_sub]
  · simp [hlen, INADDRSZ]

theorem pton6Loop_quad (h : out.length + 4 ≤ 16) (ht : inetPton4 t = some cs) :
    ∃ s, pton6Loop t (.front out gap t) = some s ∧ s.saw_xdigit = false ∧
      s.Written (out ++ cs) gap := by
  obtain ⟨p, u, b, rfl, hf⟩ := exists_field ht
  have hx : ∀ c ∈ p, (xdigit c).isSome := by
    intro c hc
    obtain ⟨d, -, hd, -⟩ := xdigit_of_digit (hf.digit c hc)
    simp [hd]
  have hsmall : value 16 xdigit 0 p ≤ 0xffff := by
    have hle := value_sixteen_le (v := 0) (w := 0) hf.digit (le_refl 0)
    have hbyte := hf.le
    nlinarith
  rw [pton6Loop_hex hx hf.ne_nil]
  exact if_pos hsmall ▸ pton6Loop_dot h ht

theorem written_front : (Pton6.front out gap curtok).Written out gap := ⟨rfl, rfl, rfl⟩

theorem pton6Loop_tail (ht : Tail t cs) (h : out.length + cs.length ≤ 16) :
    ∃ s, (pton6Loop t (.front out gap t)).bind Pton6.flush = some s ∧ s.Written (out ++ cs) gap := by
  induction ht generalizing out with
  | nil => exact ⟨_, rfl, by simpa using written_front⟩
  | @group p bs hp =>
    have hlen := hp.length
    have hloop : pton6Loop (p ++ []) (.front out gap p) = _ := pton6Loop_hex hp.xdigit hp.ne_nil
    rw [List.append_nil] at hloop
    refine ⟨{ Pton6.front (out ++ [UInt8.ofNat (value 16 xdigit 0 p >>> 8),
      UInt8.ofNat (value 16 xdigit 0 p)]) gap p with val := value 16 xdigit 0 p, saw_xdigit := true },
      ?_, ?_⟩
    · rw [hloop]
      exact (congrArg (Option.bind · Pton6.flush) (if_pos hp.le)).trans
        (store_front (by omega))
    · rw [hp.bytes]
      exact ⟨rfl, rfl, rfl⟩
  | @quad p bs hp =>
    have hlen := length_inetPton4 hp
    obtain ⟨s, hs, hsaw, hw⟩ : ∃ s, pton6Loop p (.front out gap p) = some s ∧
        s.saw_xdigit = false ∧ s.Written (out ++ bs) gap := pton6Loop_quad (by omega) hp
    refine ⟨s, ?_, hw⟩
    simp [hs, Pton6.flush, hsaw]
  | @cons p t bs cs hp _ ih =>
    have hlen := hp.length
    simp only [List.length_append] at h
    obtain ⟨s, hs, hw⟩ : ∃ s, (pton6Loop t (.front (out ++ bs) gap t)).bind Pton6.flush = some s ∧
        s.Written (out ++ bs ++ cs) gap := ih (by simp; omega)
    refine ⟨s, ?_, by simpa using hw⟩
    rw [pton6Loop_group hp (by omega), hs]

theorem pton6Loop_head (hh : Head s bs) (h : out.length + bs.length ≤ 16) :
    pton6Loop (s ++ rest) (.front out gap (s ++ rest)) =
      pton6Loop rest (.front (out ++ bs) gap rest) := by
  induction hh generalizing out with
  | nil => simp
  | @cons p t bs cs hp _ ih =>
    have hlen := hp.length
    simp only [List.length_append] at h
    have hsplit : p ++ 58 :: t ++ rest = p ++ 58 :: (t ++ rest) := by simp
    rw [hsplit, pton6Loop_group hp (by omega), ih (by simp; omega), List.append_assoc]

end Loop

end Somenote.Inet
