import Mathlib.Data.List.Forall2
import Somenote.Bytes.Numerals
import Somenote.Inet.Source

/-! # Addresses of four bytes

The texts that `inet_pton4` accepts are four numbers in a row with dots between them, and what
`inet_ntop4` writes is one of them.
-/

namespace Somenote.Inet

open Decimal Numerals Text

theorem reads_digits : Reads 10 (strchr digits) := by decide

/-- A number of a dotted address, and its byte. -/
structure Field (p : List Byte) (b : Byte) : Prop where
  ne_nil : p ≠ []
  digit : ∀ c ∈ p, (strchr digits c).isSome
  le : value 10 (strchr digits) 0 p ≤ 255
  byte : b = UInt8.ofNat (value 10 (strchr digits) 0 p)

variable {s p rest bs done : List Byte} {ps : List (List Byte)} {b c : Byte} {k size : ℕ} {q : Quad}
  {src : ℕ → Byte}

theorem toNat_ofNat_of_le {n : ℕ} (h : n ≤ 255) : (UInt8.ofNat n).toNat = n := by
  simp only [UInt8.toNat_ofNat', Nat.reducePow]
  omega

section Loop

theorem pton4Loop_nil (q : Quad) : pton4Loop [] q = some q := rfl

theorem pton4Loop_digit {d : ℕ} (hd : strchr digits c = some d) :
    pton4Loop (c :: rest) q =
      if 255 < q.byte.toNat * 10 + d then none
      else if q.saw_digit then pton4Loop rest { q with byte := UInt8.ofNat (q.byte.toNat * 10 + d) }
      else if 4 < q.octets + 1 then none
      else pton4Loop rest { q with
        byte := UInt8.ofNat (q.byte.toNat * 10 + d), octets := q.octets + 1, saw_digit := true } := by
  simp only [pton4Loop, hd, gt_iff_lt]

theorem pton4Loop_other (hc : strchr digits c = none) :
    pton4Loop (c :: rest) q =
      if c = 46 ∧ q.saw_digit then
        if q.octets = 4 then none
        else pton4Loop rest { q with done := q.done ++ [q.byte], byte := 0, saw_digit := false }
      else none := by
  simp only [pton4Loop, hc]

theorem pton4Loop_digits (hp : ∀ c ∈ p, (strchr digits c).isSome) :
    pton4Loop (p ++ rest) ⟨true, k, done, b⟩ =
      if value 10 (strchr digits) b.toNat p ≤ 255 then
        pton4Loop rest ⟨true, k, done, UInt8.ofNat (value 10 (strchr digits) b.toNat p)⟩
      else none := by
  induction p generalizing b with
  | nil =>
    have hb : b.toNat ≤ 255 := Nat.le_of_lt_succ b.toNat_lt
    simp [hb]
  | cons c p ih =>
    obtain ⟨d, hd⟩ := Option.isSome_iff_exists.mp (hp c List.mem_cons_self)
    have hle : b.toNat * 10 + d ≤ value 10 (strchr digits) (b.toNat * 10 + d) p :=
      le_value (by decide)
    simp only [List.cons_append, pton4Loop_digit hd, hd, value_cons, Option.getD_some, if_true]
    by_cases hnew : b.toNat * 10 + d ≤ 255
    · rw [if_neg (by omega), ih fun c hc => hp c (List.mem_cons_of_mem _ hc), toNat_ofNat_of_le hnew]
    · rw [if_pos (by omega), if_neg (by omega)]

theorem pton4Loop_field (hp : ∀ c ∈ p, (strchr digits c).isSome) (hne : p ≠ []) (hk : k < 4) :
    pton4Loop (p ++ rest) ⟨false, k, done, 0⟩ =
      if value 10 (strchr digits) 0 p ≤ 255 then
        pton4Loop rest ⟨true, k + 1, done, UInt8.ofNat (value 10 (strchr digits) 0 p)⟩
      else none := by
  obtain ⟨c, p, rfl⟩ := List.exists_cons_of_ne_nil hne
  obtain ⟨d, hd⟩ := Option.isSome_iff_exists.mp (hp c List.mem_cons_self)
  have hle : d ≤ value 10 (strchr digits) d p := le_value (by decide)
  have hzero : (0 : Byte).toNat = 0 := rfl
  simp only [List.cons_append, pton4Loop_digit hd, hd, value_cons, Option.getD_some, hzero,
    Nat.zero_mul, Nat.zero_add, Bool.false_eq_true, if_false]
  by_cases hd' : d ≤ 255
  · rw [if_neg (by omega), if_neg (by omega),
      pton4Loop_digits fun c hc => hp c (List.mem_cons_of_mem _ hc), toNat_ofNat_of_le hd']
  · rw [if_pos (by omega), if_neg (by omega)]

theorem pton4Loop_dot (hk : k ≠ 4) :
    pton4Loop (46 :: rest) ⟨true, k, done, b⟩ = pton4Loop rest ⟨false, k, done ++ [b], 0⟩ := by
  have hdot : strchr digits 46 = none := by decide
  simp [pton4Loop_other hdot, hk]

theorem pton4Loop_fields (h : List.Forall₂ Field ps bs) (hne : ps ≠ []) (hk : k + ps.length ≤ 4) :
    ∃ q, pton4Loop ([46].intercalate ps) ⟨false, k, done, 0⟩ = some q ∧
      q.octets = k + ps.length ∧ q.done ++ [q.byte] = done ++ bs := by
  induction h generalizing k done with
  | nil => exact absurd rfl hne
  | @cons p b ps bs hf hfs ih =>
    have hlen : k + 1 + ps.length ≤ 4 := by
      simp only [List.length_cons] at hk
      omega
    cases hfs with
    | nil =>
      refine ⟨⟨true, k + 1, done, b⟩, ?_, rfl, rfl⟩
      have hloop : pton4Loop (p ++ []) ⟨false, k, done, 0⟩ = _ :=
        pton4Loop_field hf.digit hf.ne_nil (by omega)
      simp only [List.append_nil, if_pos hf.le, ← hf.byte] at hloop
      simpa [List.intercalate, pton4Loop_nil] using hloop
    | @cons p' b' ps bs hf' hfs =>
      obtain ⟨q, hq, hoctets, hdone⟩ : ∃ q, pton4Loop ([46].intercalate (p' :: ps))
          ⟨false, k + 1, done ++ [b], 0⟩ = some q ∧ q.octets = k + 1 + (p' :: ps).length ∧
          q.done ++ [q.byte] = done ++ [b] ++ b' :: bs := ih (by simp) hlen
      refine ⟨q, ?_, ?_, ?_⟩
      · have hsplit : [46].intercalate (p :: p' :: ps) = p ++ 46 :: [46].intercalate (p' :: ps) := by
          simp [List.intercalate, List.intersperse]
        rw [hsplit, pton4Loop_field hf.digit hf.ne_nil (by omega), if_pos hf.le, ← hf.byte,
          pton4Loop_dot, hq]
        simp only [List.length_cons] at hlen
        omega
      · simp only [hoctets, List.length_cons]
        omega
      · simp [hdone]

theorem fields_of_pton4Loop (hk : k < 4) (h : pton4Loop s ⟨false, k, done, 0⟩ = some q)
    (hq : 4 ≤ q.octets) : ∃ ps bs, ps ≠ [] ∧ List.Forall₂ Field ps bs ∧
      s = [46].intercalate ps ∧ q.octets = k + ps.length ∧ q.octets ≤ 4 ∧
      q.done ++ [q.byte] = done ++ bs := by
  induction hn : s.length using Nat.strong_induction_on generalizing s k done with
  | _ n ih =>
    subst hn
    obtain ⟨p, rest, rfl, hp, hrest⟩ := exists_digits (strchr digits) s
    by_cases hne : p = []
    · subst hne
      cases rest with
      | nil =>
        simp only [List.append_nil, pton4Loop_nil, Option.some.injEq] at h
        subst h
        exact absurd hq (by dsimp only; omega)
      | cons c t =>
        simp [pton4Loop_other (hrest c t rfl)] at h
    · rw [pton4Loop_field hp hne hk] at h
      split at h
      · rename_i hle
        have hfield : Field p (UInt8.ofNat (value 10 (strchr digits) 0 p)) := ⟨hne, hp, hle, rfl⟩
        cases rest with
        | nil =>
          simp only [pton4Loop_nil, Option.some.injEq] at h
          subst h
          refine ⟨[p], [_], by simp, .cons hfield .nil, ?_, rfl, by dsimp only; omega, rfl⟩
          simp [List.intercalate]
        | cons c t =>
          by_cases hdot : c = 46 ∧ k + 1 ≠ 4
          · obtain ⟨rfl, hk'⟩ := hdot
            rw [pton4Loop_dot hk'] at h
            obtain ⟨ps, bs, hps, hfs, rfl, hoctets, hle', hdone⟩ :=
              ih t.length (by simp; omega) (by omega) h rfl
            refine ⟨p :: ps, _ :: bs, by simp, .cons hfield hfs, ?_, ?_, hle', ?_⟩
            · simp [intercalate_cons hps]
            · simp only [hoctets, List.length_cons]
              omega
            · simp [hdone]
          · simp only [pton4Loop_other (hrest c t rfl)] at h
            simp only [ne_eq, not_and, Decidable.not_not] at hdot
            by_cases hc : c = 46
            · simp [hc, hdot hc] at h
            · simp [hc] at h
      · cases h

end Loop

/-- `inet_pton4` accepts four numbers up to 255 with dots between them, with any zeros in front, and
nothing else. -/
theorem inetPton4_eq_some : inetPton4 s = some bs ↔
    ∃ ps, ps.length = 4 ∧ List.Forall₂ Field ps bs ∧ s = [46].intercalate ps := by
  constructor
  · intro h
    obtain ⟨q, hq, hbs⟩ := Option.bind_eq_some_iff.mp h
    rw [Option.ite_none_left_eq_some, not_lt, Option.some.injEq] at hbs
    obtain ⟨hle, rfl⟩ := hbs
    obtain ⟨ps, bs, -, hfs, rfl, hoctets, hle', hdone⟩ := fields_of_pton4Loop (by omega) hq hle
    exact ⟨ps, by omega, hdone ▸ hfs, rfl⟩
  · rintro ⟨ps, hlen, hfs, rfl⟩
    have hne : ps ≠ [] := by
      rintro rfl
      cases hlen
    obtain ⟨q, hq, hoctets, hdone⟩ : ∃ q, pton4Loop ([46].intercalate ps) ⟨false, 0, [], 0⟩ =
        some q ∧ q.octets = 0 + ps.length ∧ q.done ++ [q.byte] = [] ++ bs :=
      pton4Loop_fields hfs hne (by omega)
    rw [inetPton4, hq, Option.bind_some, if_neg (by omega), hdone, List.nil_append]

theorem length_inetPton4 (h : inetPton4 s = some bs) : bs.length = 4 := by
  obtain ⟨ps, hlen, hfs, -⟩ := inetPton4_eq_some.mp h
  rw [← hfs.length_eq, hlen]

theorem digit_of_inetPton4 (h : inetPton4 s = some bs) (hc : c ∈ s) :
    c = 46 ∨ (strchr digits c).isSome := by
  obtain ⟨ps, -, hfs, rfl⟩ := inetPton4_eq_some.mp h
  rcases mem_intercalate hc with hc | ⟨p, hp, hc⟩
  · exact Or.inl (by simpa using hc)
  · obtain ⟨i, hi, rfl⟩ := List.getElem_of_mem hp
    exact Or.inr ((hfs.get hi (hfs.length_eq ▸ hi)).digit c hc)

section Print

theorem field_dec (b : Byte) : Field (dec b.toNat) b where
  ne_nil := numeral_ne_nil
  digit c hc := reads_digits.isSome_of_mem (by decide) hc
  le := by
    have hb := b.toNat_lt
    have hvalue : value 10 (strchr digits) 0 (dec b.toNat) = b.toNat :=
      reads_digits.value_numeral (by decide) b.toNat
    omega
  byte := by
    have hvalue : value 10 (strchr digits) 0 (dec b.toNat) = b.toNat :=
      reads_digits.value_numeral (by decide) b.toNat
    simp [hvalue]

/-- The text of an address of four bytes. -/
def dotted (src : ℕ → Byte) : List Byte :=
  [46].intercalate ((List.range 4).map fun i => dec (src i).toNat)

theorem inetNtop4_eq : inetNtop4 src size =
    if (dotted src).length > size then .error .ENOSPC else .ok (dotted src) := by
  have htext : dec (src 0).toNat ++ encode "." ++ dec (src 1).toNat ++ encode "." ++
      dec (src 2).toNat ++ encode "." ++ dec (src 3).toNat = dotted src := by
    simp [dotted, List.range, List.range.loop, List.intercalate, List.intersperse, encode]
    rfl
  unfold inetNtop4
  rw [htext]

theorem inetPton4_dotted (src : ℕ → Byte) :
    inetPton4 (dotted src) = some ((List.range 4).map src) := by
  refine inetPton4_eq_some.mpr ⟨_, by simp, ?_, rfl⟩
  simp only [List.forall₂_map_left_iff, List.forall₂_map_right_iff, List.forall₂_same]
  exact fun i _ => field_dec (src i)

theorem length_dotted_le (src : ℕ → Byte) : (dotted src).length ≤ 15 := by
  have hlen : ∀ i, (dec (src i).toNat).length ≤ 3 := by
    intro i
    have hb := (src i).toNat_lt
    exact length_dec_le (by decide) (by omega)
  have h0 := hlen 0
  have h1 := hlen 1
  have h2 := hlen 2
  have h3 := hlen 3
  simp only [dotted, List.range, List.range.loop, List.map_cons, List.map_nil, List.intercalate,
    List.intersperse, List.flatten_cons, List.flatten_nil, List.length_append, List.length_cons,
    List.length_nil]
  omega

end Print

end Somenote.Inet
