import Somenote.Inet.Groups

/-! # The texts that are accepted

What `inet_pton6` accepts are the texts of sixteen bytes in groups, and the texts of fewer bytes
with `::` in one place.
-/

namespace Somenote.Inet

open Numerals Text

variable {s t p rest out bs cs a curtok : List Byte} {gap : Option ℕ} {c : Byte} {st st' : Pton6}
  {n v w k : ℕ}

section Loop

/-- What has been read behind `out`, when the rest of the text is `t`. -/
inductive Parsed (out t : List Byte) (gap : Option ℕ) (s : Pton6) : Prop
  | groups {cs : List Byte} (ht : Tail t cs) (hlen : out.length + cs.length ≤ 16) (hs : s.Written (out ++ cs) gap)
  | skipped {h u bs cs : List Byte} (hgap : gap = none) (hh : Head h bs) (hu : Tail u cs) (ht : t = h ++ 58 :: u)
      (hlen : out.length + bs.length + cs.length ≤ 16)
      (hs : s.Written (out ++ bs ++ cs) (some (out ++ bs).length))

theorem Parsed.cons (hp : Group p bs) (h : Parsed (out ++ bs) t gap st) :
    Parsed out (p ++ 58 :: t) gap st := by
  cases h with
  | groups ht hlen hs =>
    simp only [List.length_append] at hlen
    exact .groups (.cons hp ht) (by simp; omega) (by simpa using hs)
  | skipped hgap hh hu ht hlen hs =>
    simp only [List.length_append] at hlen
    exact .skipped hgap (.cons hp hh) hu (by simp [ht]) (by simp; omega) (by simpa using hs)

theorem Parsed.skip (h : Parsed out t (some out.length) st) : Parsed out (58 :: t) none st := by
  cases h with
  | groups ht hlen hs =>
    exact .skipped rfl .nil ht rfl (by simpa using hlen) (by simpa using hs)
  | skipped hgap => cases hgap

theorem flush_reading (h : out.length + 2 ≤ 16) :
    Pton6.flush { Pton6.front out gap curtok with val := v, saw_xdigit := true } =
      some { Pton6.front (out ++ [UInt8.ofNat (v >>> 8), UInt8.ofNat v]) gap curtok with
        val := v, saw_xdigit := true } := store_front h

theorem parsed_quad {ss : Bool} (h : (pton6Loop (46 :: rest)
    { Pton6.front out gap t with val := v, saw_xdigit := ss }).bind Pton6.flush = some st) :
    Parsed out t gap st := by
  have hdot : xdigit 46 = none := by decide
  simp only [pton6Loop, hdot, true_and] at h
  by_cases htp : (Pton6.front out gap t).tp + INADDRSZ ≤ IN6ADDRSZ
  · have hroom : out.length + 4 ≤ 16 := htp
    rw [if_neg (by decide), if_pos htp] at h
    obtain ⟨s, hs, hflush⟩ := Option.bind_eq_some_iff.mp h
    obtain ⟨quad, hquad, rfl⟩ := Option.map_eq_some_iff.mp hs
    have hlen := length_inetPton4 hquad
    cases hflush
    refine .groups (.quad hquad) (by omega) ⟨?_, ?_, rfl⟩
    · simp [Pton6.front, hlen, INADDRSZ, Nat.sub_sub]
    · simp [Pton6.front, hlen, INADDRSZ]
  · rw [if_neg (by decide), if_neg htp] at h
    cases h

/-- Whatever is read to the end consists of groups, with `::` in one place at most. -/
theorem parsed_of_pton6Loop (hout : out.length ≤ 16)
    (h : (pton6Loop t (.front out gap t)).bind Pton6.flush = some st) : Parsed out t gap st := by
  induction hn : t.length using Nat.strong_induction_on generalizing t out gap with
  | _ n ih =>
    subst hn
    obtain ⟨p, rest, ht, hp, hrest⟩ := exists_digits xdigit t
    by_cases hne : p = []
    · subst hne
      obtain rfl : t = rest := ht
      cases t with
      | nil =>
        cases h
        exact .groups .nil (by simpa using hout) (by simpa using written_front)
      | cons c u =>
        have hc := hrest c u rfl
        by_cases hcolon : c = 58
        · subst hcolon
          cases gap with
          | none =>
            rw [pton6Loop_gap] at h
            exact (ih u.length (by simp) hout h rfl).skip
          | some g => simp [pton6Loop, hc, Pton6.front] at h
        · by_cases hdot : c = 46
          · subst hdot
            exact parsed_quad h
          · simp [pton6Loop, hc, hcolon, hdot] at h
    · have hloop : pton6Loop (p ++ rest) (.front out gap t) = _ := pton6Loop_hex hp hne
      rw [← ht] at hloop
      rw [hloop] at h
      split at h
      · rename_i hle
        have hgroup : Group p _ := ⟨hne, hp, hle, rfl⟩
        cases rest with
        | nil =>
          obtain rfl : t = p := by simpa using ht
          by_cases hroom : out.length + 2 ≤ 16
          · have hstored := (flush_reading hroom).symm.trans h
            obtain rfl := Option.some.inj hstored
            exact .groups (.group hgroup) (by simpa using hroom) ⟨rfl, rfl, rfl⟩
          · cases (store_full hroom).symm.trans h
        | cons c u =>
          have hc := hrest c u rfl
          by_cases hcolon : c = 58
          · subst hcolon
            by_cases hroom : out.length + 2 ≤ 16
            · have hnext := (congrArg (Option.bind · Pton6.flush)
                (pton6Loop_colon hroom)).symm.trans h
              have hlt : u.length < t.length := by
                rw [ht]
                simp
                omega
              rw [ht]
              exact (ih u.length hlt (by simpa using hroom) hnext rfl).cons hgroup
            · simp only [pton6Loop, hc, if_true, store_full hroom] at h
              cases h
          · by_cases hdot : c = 46
            · subst hdot
              exact parsed_quad h
            · simp [pton6Loop, hc, hcolon, hdot] at h
      · cases h

end Loop

section Shift

theorem set_move (A D : List Byte) (c : Byte) (k : ℕ) :
    ((A ++ c :: (List.replicate (k + 1) 0 ++ D)).set (A.length + (k + 1)) c).set A.length 0 =
      A ++ List.replicate (k + 1) 0 ++ c :: D := by
  have hlast : (List.replicate (k + 1) 0 ++ D).set k c = List.replicate k 0 ++ c :: D := by
    simp [List.replicate_succ']
  rw [List.set_append_right _ _ (Nat.le_add_right ..), Nat.add_sub_cancel_left, List.set_cons_succ,
    hlast]
  simp [List.replicate_succ]

theorem set_erase (A D : List Byte) (c : Byte) :
    ((A ++ c :: D).set A.length ((A ++ c :: D).getD A.length 0)).set A.length 0 = A ++ 0 :: D := by
  simp

theorem shift_moves (hk : bs.length + cs.length + (k + 1) = 16) {i : ℕ} (hi : i ≤ cs.length) :
    (List.range' 1 i).foldl (shiftStep bs.length cs.length)
        (bs ++ cs ++ List.replicate (k + 1) 0) =
      bs ++ cs.take (cs.length - i) ++ List.replicate (k + 1) 0 ++ cs.drop (cs.length - i) := by
  induction i with
  | zero => simp
  | succ i ih =>
    have hm : cs.length - (i + 1) < cs.length := by omega
    have hsucc : cs.length - i = cs.length - (i + 1) + 1 := by omega
    have hlen : (bs ++ cs.take (cs.length - (i + 1))).length = bs.length + cs.length - (1 + i) := by
      simp
      omega
    have hplace : 16 - (1 + i) = bs.length + cs.length - (1 + i) + (k + 1) := by omega
    rw [List.range'_1_concat, List.foldl_append, ih (by omega), List.foldl_cons, List.foldl_nil,
      hsucc, List.take_succ_eq_append_getElem hm, List.drop_eq_getElem_cons hm]
    have hmove := set_move (bs ++ cs.take (cs.length - (i + 1))) (cs.drop (cs.length - (i + 1) + 1))
      cs[cs.length - (i + 1)] k
    have hget : ((bs ++ cs.take (cs.length - (i + 1))) ++ cs[cs.length - (i + 1)] ::
        (List.replicate (k + 1) 0 ++ cs.drop (cs.length - (i + 1) + 1))).getD
        (bs.length + cs.length - (1 + i)) 0 = cs[cs.length - (i + 1)] := by
      rw [← hlen]
      simp
    rw [hlen] at hmove
    rw [shiftStep, IN6ADDRSZ, hplace]
    simp only [List.append_assoc, List.cons_append, List.nil_append] at hmove hget ⊢
    rw [hget, hmove]

theorem shift_erases (hlen : bs.length + cs.length = 16) {i : ℕ} (hi : i ≤ cs.length) :
    (List.range' 1 i).foldl (shiftStep bs.length cs.length) (bs ++ cs) =
      bs ++ cs.take (cs.length - i) ++ List.replicate i 0 := by
  induction i with
  | zero => simp
  | succ i ih =>
    have hm : cs.length - (i + 1) < cs.length := by omega
    have hsucc : cs.length - i = cs.length - (i + 1) + 1 := by omega
    have hpre : (bs ++ cs.take (cs.length - (i + 1))).length = 16 - (1 + i) := by
      simp
      omega
    have hplace : bs.length + cs.length - (1 + i) = 16 - (1 + i) := by omega
    have herase := set_erase (bs ++ cs.take (cs.length - (i + 1))) (List.replicate i 0)
      cs[cs.length - (i + 1)]
    rw [List.range'_1_concat, List.foldl_append, ih (by omega), List.foldl_cons, List.foldl_nil,
      hsucc, List.take_succ_eq_append_getElem hm, shiftStep, IN6ADDRSZ, hplace, ← hpre]
    simp only [List.append_assoc, List.cons_append, List.nil_append] at herase ⊢
    exact herase

/-- The bytes behind `::` come to the end of the address. -/
theorem shift_written (h : st.Written (bs ++ cs) (some bs.length))
    (hlen : bs.length + cs.length ≤ 16) : st.shift.tmp = fill bs cs ∧ st.shift.tp = IN6ADDRSZ := by
  have hn : st.tp - bs.length = cs.length := by simp [h.tp]
  refine ⟨?_, by simp [Pton6.shift, h.colonp]⟩
  simp only [Pton6.shift, h.colonp, hn, h.tmp, fill, List.length_append]
  by_cases hfull : bs.length + cs.length = 16
  · have herase := shift_erases hfull (le_refl cs.length)
    simpa [IN6ADDRSZ, hfull] using herase
  · obtain ⟨k, hk⟩ : ∃ k, IN6ADDRSZ - (bs.length + cs.length) = k + 1 :=
      ⟨15 - (bs.length + cs.length), by rw [IN6ADDRSZ]; omega⟩
    have hsum : bs.length + cs.length + (k + 1) = 16 := by
      rw [IN6ADDRSZ] at hk
      omega
    have hne : ¬ bs.length + cs.length = IN6ADDRSZ := hfull
    rw [hk, if_neg hne, shift_moves hsum (le_refl cs.length)]
    simp

end Shift

section Leading

theorem leading_of_ne (h : ∀ t, s ≠ 58 :: t) : leading s = some s := by
  unfold leading
  split
  · exact absurd rfl (h _)
  · exact absurd rfl (h _)
  · rfl

theorem leading_cases (h : leading s = some t) :
    (∃ u, s = 58 :: 58 :: u ∧ t = 58 :: u) ∨ (∀ u, s ≠ 58 :: u) ∧ t = s := by
  unfold leading at h
  split at h
  · exact Or.inl ⟨_, rfl, (Option.some.inj h).symm⟩
  · cases h
  · rename_i hne
    exact Or.inr ⟨hne, (Option.some.inj h).symm⟩

end Leading

theorem inetPton6_eq : inetPton6 s = (leading s).bind fun t =>
    ((pton6Loop t (.front [] none t)).bind Pton6.flush).bind fun st =>
      if st.shift.tp ≠ IN6ADDRSZ then none else some st.shift.tmp := by
  simp only [inetPton6, Option.bind_assoc, Option.bind_eq_bind]
  refine Option.bind_congr fun t _ => Option.bind_congr fun st _ => ?_
  unfold Pton6.flush
  split <;> rfl

theorem Pton6.Written.result (h : st.Written a none) :
    (if st.shift.tp ≠ IN6ADDRSZ then none else some st.shift.tmp) =
      if a.length = 16 then some a else none := by
  have hshift : st.shift = st := by simp [Pton6.shift, h.colonp]
  have hpad : ∀ ha : a.length = 16, st.tmp = a := fun ha => by simp [h.tmp, IN6ADDRSZ, ha]
  rw [hshift, h.tp, IN6ADDRSZ]
  by_cases ha : a.length = 16
  · simp [ha, hpad ha]
  · simp [ha]

theorem Pton6.Written.result_fill (h : st.Written (bs ++ cs) (some bs.length))
    (hlen : bs.length + cs.length ≤ 16) :
    (if st.shift.tp ≠ IN6ADDRSZ then none else some st.shift.tmp) = some (fill bs cs) := by
  obtain ⟨htmp, htp⟩ := shift_written h hlen
  simp [htmp, htp]

/-- `inet_pton6` accepts sixteen bytes in groups, or fewer of them with `::` in one place. -/
theorem inetPton6_eq_some : inetPton6 s = some a ↔ Tail s a ∧ a.length = 16 ∨
    ∃ h t bs cs, Head h bs ∧ Tail t cs ∧ bs.length + cs.length ≤ 16 ∧ a = fill bs cs ∧
      s = (if h = [] then [58] else h) ++ 58 :: t := by
  rw [inetPton6_eq]
  constructor
  · intro hs
    obtain ⟨t, ht, hs⟩ := Option.bind_eq_some_iff.mp hs
    obtain ⟨st, hst, hs⟩ := Option.bind_eq_some_iff.mp hs
    cases parsed_of_pton6Loop (by simp) hst with
    | groups htail hlen hw =>
      rw [hw.result, Option.ite_none_right_eq_some, Option.some.injEq] at hs
      obtain ⟨ha, rfl⟩ := hs
      rcases leading_cases ht with ⟨u, -, rfl⟩ | ⟨-, rfl⟩
      · exact absurd (htail.xdigit rfl) not_xdigit_colon
      · exact Or.inl ⟨htail, ha⟩
    | @skipped h u bs cs _ hh hu htext hlen hw =>
      rw [List.nil_append] at hw
      have hlen' : bs.length + cs.length ≤ 16 := by simpa using hlen
      rw [hw.result_fill hlen', Option.some.injEq] at hs
      refine Or.inr ⟨h, u, bs, cs, hh, hu, hlen', hs.symm, ?_⟩
      rcases leading_cases ht with ⟨u', rfl, rfl⟩ | ⟨hne, rfl⟩
      · cases hh with
        | nil => simpa using htext
        | @cons p t' bs cs hp _ =>
          exact absurd (xdigit_of_append hp.ne_nil hp.xdigit (by simpa using htext)) not_xdigit_colon
      · have hh' : h ≠ [] := by
          rintro rfl
          exact hne u htext
        rw [if_neg hh', htext]
  · rintro (⟨htail, ha⟩ | ⟨h, t, bs, cs, hh, ht, hlen, rfl, rfl⟩)
    · have hlead : leading s = some s := by
        apply leading_of_ne
        rintro t rfl
        exact not_xdigit_colon (htail.xdigit rfl)
      obtain ⟨st, hst, hw⟩ : ∃ st, (pton6Loop s (.front [] none s)).bind Pton6.flush = some st ∧
          st.Written ([] ++ a) none := pton6Loop_tail htail (by simp [ha])
      rw [List.nil_append] at hw
      rw [hlead, Option.bind_some, hst, Option.bind_some, hw.result, if_pos ha]
    · have hlead : leading ((if h = [] then [58] else h) ++ 58 :: t) = some (h ++ 58 :: t) := by
        by_cases hnil : h = []
        · subst hnil
          rfl
        · rw [if_neg hnil]
          apply leading_of_ne
          intro u hu
          obtain ⟨c, h, rfl⟩ := List.exists_cons_of_ne_nil hnil
          obtain rfl : c = 58 := by simpa using congrArg List.head? hu
          exact not_xdigit_colon (hh.xdigit rfl)
      have hfront : pton6Loop (h ++ 58 :: t) (.front [] none (h ++ 58 :: t)) =
          pton6Loop t (.front bs (some bs.length) t) := by
        rw [pton6Loop_head hh (by simp; omega), List.nil_append, pton6Loop_gap]
      obtain ⟨st, hst, hw⟩ : ∃ st, (pton6Loop t (.front bs (some bs.length) t)).bind Pton6.flush =
          some st ∧ st.Written (bs ++ cs) (some bs.length) := pton6Loop_tail ht hlen
      rw [hlead, Option.bind_some, hfront, hst, Option.bind_some, hw.result_fill hlen]

end Somenote.Inet
