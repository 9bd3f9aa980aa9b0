import Mathlib.Algebra.Ring.Int.Defs
import Somenote.Transfer.Source

/-! # Complete transfers

What the calls of a transfer move, part by part. The two functions put these parts behind one
another and count their bytes.
-/

namespace Somenote.Transfer

section Parts

variable {α : Type} (chunk : ℕ → ℕ → Option (List α)) (n : ℕ)

/-- The first parts of a transfer of `n` elements. `chunk i m` is what the call `i` moves behind
the first `m` of them. -/
structure Moved (cs : List (List α)) : Prop where
  call : ∀ i (h : i < cs.length), chunk i (cs.take i).flatten.length = some cs[i]
  nonempty : ∀ c ∈ cs, c ≠ []
  within : cs.flatten.length ≤ n

/-- All parts of a transfer, up to the first call that fails or moves nothing. -/
structure Parts (cs : List (List α)) : Prop extends Moved chunk n cs where
  stop : cs.flatten.length = n ∨ chunk cs.length cs.flatten.length = none ∨
    chunk cs.length cs.flatten.length = some []

/-- There is a first call, and it fails. -/
def FirstFails : Prop := 0 < n ∧ (chunk 0 0).isNone

instance : Decidable (FirstFails chunk n) := inferInstanceAs (Decidable (_ ∧ _))

/-- What a transfer with the parts `cs` returns. -/
def returned (cs : List (List α)) : ℤ := if FirstFails chunk n then -1 else cs.flatten.length

/-- The number of calls of a transfer with the parts `cs`. -/
def callsOf (cs : List (List α)) : ℕ := if cs.flatten.length = n then cs.length else cs.length + 1

variable {chunk n} {cs : List (List α)} {c : List α}

theorem moved_nil : Moved chunk n [] where
  call _ h := absurd h (Nat.not_lt_zero _)
  nonempty := by simp
  within := by simp

theorem Moved.snoc (h : Moved chunk n cs) (hc : chunk cs.length cs.flatten.length = some c)
    (hne : c ≠ []) (hlen : c.length ≤ n - cs.flatten.length) : Moved chunk n (cs ++ [c]) where
  call i hi := by
    rcases Nat.lt_succ_iff_lt_or_eq.mp (by simpa using hi) with hlt | rfl
    · rw [List.take_append_of_le_length hlt.le, List.getElem_append_left hlt]
      exact h.call i hlt
    · simpa using hc
  nonempty d hd := by
    rcases List.mem_append.mp hd with hd | hd
    · exact h.nonempty d hd
    · rwa [List.mem_singleton.mp hd]
  within := by
    have hw := h.within
    simp only [List.flatten_append, List.length_append, List.flatten_singleton]
    omega

theorem Moved.eq_nil_of_length (h : Moved chunk n cs) (h0 : cs.flatten.length = 0) : cs = [] := by
  cases cs with
  | nil => rfl
  | cons c cs =>
    have hc := h.nonempty c List.mem_cons_self
    simp_all

theorem Moved.not_firstFails (h : Moved chunk n cs) (hne : cs ≠ []) : ¬ FirstFails chunk n := by
  rintro ⟨-, hnone⟩
  have hcall := h.call 0 (List.length_pos_iff.mpr hne)
  simp_all

end Parts

theorem toSsize_eq {a : ℕ} (h : a < 2 ^ 63) : toSsize a = a := if_pos h

theorem count_eq {n m : ℕ} (hn : n < 2 ^ 63) (hm : m ≤ n) : toSsize (sizeSub n (n - m)) = m := by
  rw [sizeSub_eq (by omega) (by omega), toSsize_eq (by omega)]
  omega

section Loop

variable {σ : Type} {sem : Call → σ → ℤ × σ} {io : ℕ → ℕ → Call} {state : ℕ → List Byte → σ}
  {chunk : ℕ → ℕ → Option (List Byte)} {ptr n : ℕ} {cs : List (List Byte)}

/-- The calls of a loop move the parts of `chunk`. `state i l` is the system behind `i` calls that
have moved `l`. -/
structure Moves (sem : Call → σ → ℤ × σ) (io : ℕ → ℕ → Call) (state : ℕ → List Byte → σ)
    (chunk : ℕ → ℕ → Option (List Byte)) (ptr n : ℕ) : Prop where
  fails : ∀ i l, l.length < n → chunk i l.length = none →
    sem (io (ptr + l.length) (n - l.length)) (state i l) = (-1, state (i + 1) l)
  moves : ∀ i l c, l.length < n → chunk i l.length = some c →
    sem (io (ptr + l.length) (n - l.length)) (state i l) = ((c.length : ℤ), state (i + 1) (l ++ c))
  within : ∀ i m c, chunk i m = some c → c.length ≤ n - m

/-- The parts of a transfer, from its first parts on. -/
theorem exists_parts (hw : ∀ i m c, chunk i m = some c → c.length ≤ n - m)
    (cs : List (List Byte)) (h : Moved chunk n cs) : ∃ ds, Parts chunk n ds := by
  by_cases hall : cs.flatten.length = n
  · exact ⟨cs, { h with stop := Or.inl hall }⟩
  · cases hc : chunk cs.length cs.flatten.length with
    | none => exact ⟨cs, { h with stop := Or.inr (Or.inl hc) }⟩
    | some c =>
      by_cases hzero : c = []
      · subst hzero
        exact ⟨cs, { h with stop := Or.inr (Or.inr hc) }⟩
      · have hpos := List.length_pos_iff.mpr hzero
        have hcn := hw _ _ _ hc
        exact exists_parts hw _ (h.snoc hc hzero hcn)
termination_by n - cs.flatten.length
decreasing_by
  have hin := h.within
  simp only [List.flatten_append, List.length_append, List.flatten_singleton]
  omega

theorem run_stop (hm : Moves sem io state chunk ptr n) (hn : n < 2 ^ 63) (h : Parts chunk n cs)
    (fuel : ℕ) :
    (transferLoop io n (fuel + 1) (ptr + cs.flatten.length) (n - cs.flatten.length)).run sem
      (state cs.length cs.flatten) =
    (.ok (returned chunk n cs), state (callsOf n cs) cs.flatten) := by
  have hin := h.within
  have hcount := count_eq hn hin
  have hnil : cs.flatten.length = 0 → cs = [] := h.toMoved.eq_nil_of_length
  rw [transferLoop]
  by_cases hall : cs.flatten.length = n
  · have hfirst : ¬ FirstFails chunk n := by
      rintro hf
      have hcs : cs ≠ [] := by
        rintro rfl
        exact absurd hf.1 (by simp [← hall])
      exact h.not_firstFails hcs hf
    rw [if_neg (by omega), hcount, callsOf, if_pos hall, returned, if_neg hfirst]
    rfl
  · have hlt : cs.flatten.length < n := by omega
    rw [if_pos (by omega), Prog.run_call, callsOf, if_neg hall]
    rcases h.stop with hfull | hnone | hzero
    · exact absurd hfull hall
    · rw [hm.fails _ _ hlt hnone]
      dsimp only
      rw [if_pos (by decide)]
      split
      · -- Nothing was moved before.
        obtain rfl := hnil (by omega)
        have hfirst : FirstFails chunk n := ⟨hlt, by simpa using hnone⟩
        rw [returned, if_pos hfirst]
        rfl
      · have hfirst : ¬ FirstFails chunk n := h.not_firstFails (by rintro rfl; simp_all)
        rw [hcount, returned, if_neg hfirst]
        rfl
    · have hfirst : ¬ FirstFails chunk n := by
        rintro hf
        have hcs : cs ≠ [] := by
          rintro rfl
          simp_all [FirstFails]
        exact h.not_firstFails hcs hf
      rw [hm.moves _ _ _ hlt hzero]
      simp [-List.length_flatten, hcount, returned, hfirst]

/-- The loop from the turn behind the first `i` parts on. -/
theorem run_transferLoop (hm : Moves sem io state chunk ptr n) (hn : n < 2 ^ 63)
    (h : Parts chunk n cs) : ∀ fuel i, i ≤ cs.length → n - (cs.take i).flatten.length < fuel →
      (transferLoop io n fuel (ptr + (cs.take i).flatten.length)
        (n - (cs.take i).flatten.length)).run sem (state i (cs.take i).flatten) =
      (.ok (returned chunk n cs), state (callsOf n cs) cs.flatten)
  | 0, _, _, hfuel => absurd hfuel (Nat.not_lt_zero _)
  | fuel + 1, i, hi, hfuel => by
    rcases Nat.lt_or_eq_of_le hi with hlt | rfl
    · have hcall := h.call i hlt
      have hin := hm.within _ _ _ hcall
      have hpos := List.length_pos_iff.mpr (h.nonempty _ (List.getElem_mem hlt))
      have htake : (cs.take (i + 1)).flatten = (cs.take i).flatten ++ cs[i] := by
        rw [List.take_succ_eq_append_getElem hlt, List.flatten_append, List.flatten_singleton]
      have hnext := run_transferLoop hm hn h fuel (i + 1) hlt (by
        rw [htake, List.length_append]
        omega)
      rw [htake, List.length_append, ← Nat.add_assoc, ← Nat.sub_sub] at hnext
      rw [transferLoop, if_pos (by omega), Prog.run_call, hm.moves _ _ _ (by omega) hcall]
      dsimp only
      rw [if_neg (by omega), if_neg (by omega), Int.toNat_natCast, sizeSub_eq hin (by omega)]
      exact hnext
    · simpa using run_stop hm hn h fuel

end Loop

section Requests

variable (e : Results) (a : Area) (out : List Byte)

/-- What the calls of `read` move. -/
def Results.reads (n i m : ℕ) : Option (List Byte) := (e.read i (n - m)).map Subtype.val

/-- What the calls of `write` move of the bytes `l`. -/
def Results.writes (l : List Byte) (n i m : ℕ) : Option (List Byte) :=
  (e.write i (n - m)).map fun c => (l.drop m).take c.1

/-- The bytes of the request. -/
def Area.request : List Byte := (a.bytes.drop a.ptr).take a.n

theorem place_append {bytes l : List Byte} {ptr : ℕ} (l' : List Byte)
    (h : ptr + l.length ≤ bytes.length) :
    place (place bytes ptr l) (ptr + l.length) l' = place bytes ptr (l ++ l') := by
  have hfront : (bytes.take ptr ++ l).length = ptr + l.length := by simp; omega
  have htake : (place bytes ptr l).take (ptr + l.length) = bytes.take ptr ++ l := by
    rw [place, List.take_append_of_le_length hfront.ge, List.take_of_length_le hfront.le]
  have hdrop : (place bytes ptr l).drop (ptr + l.length + l'.length) =
      bytes.drop (ptr + (l ++ l').length) := by
    rw [place, List.drop_append, List.drop_eq_nil_of_le (by omega), hfront, List.nil_append,
      List.drop_drop, List.length_append]
    congr 1
    omega
  rw [place, htake, hdrop, List.append_assoc, place, List.append_assoc]
  simp

theorem place_nil (bytes : List Byte) (ptr : ℕ) : place bytes ptr [] = bytes := by
  simp [place]

theorem moves_read (rd : ℤ) : Moves (sem e) (Call.read rd)
    (fun i l => ⟨place a.bytes a.ptr l, out, i⟩) (e.reads a.n) a.ptr a.n where
  fails i l _ hnone := by
    have hcall : e.read i (a.n - l.length) = none := by simpa [Results.reads] using hnone
    simp [sem, hcall]
  moves i l c hl hsome := by
    obtain ⟨c, hcall, rfl⟩ := Option.map_eq_some_iff.mp hsome
    have hin := a.inside
    have hfits : a.ptr + l.length ≤ a.bytes.length := by omega
    have hplace := place_append c.1 hfits
    simp [sem, hcall, hplace]
  within i m c hsome := by
    obtain ⟨c, -, rfl⟩ := Option.map_eq_some_iff.mp hsome
    exact c.2

theorem moves_write (fd : ℤ) : Moves (sem e) (Call.write fd)
    (fun i l => ⟨a.bytes, out ++ l, i⟩) (e.writes a.request a.n) a.ptr a.n where
  fails i l _ hnone := by
    have hcall : e.write i (a.n - l.length) = none := by simpa [Results.writes] using hnone
    simp [sem, hcall]
  moves i l c hl hsome := by
    obtain ⟨c, hcall, rfl⟩ := Option.map_eq_some_iff.mp hsome
    have hin := a.inside
    have hc := c.2
    have hpart : (a.request.drop l.length).take c = (a.bytes.drop (a.ptr + l.length)).take c := by
      rw [Area.request, List.drop_take, List.take_take, List.drop_drop, Nat.min_eq_left hc]
    have hlen : ((a.bytes.drop (a.ptr + l.length)).take c).length = c := by simp; omega
    simp only [sem, hcall, hpart, hlen, List.append_assoc]
  within i m c hsome := by
    obtain ⟨c, -, rfl⟩ := Option.map_eq_some_iff.mp hsome
    have hc := c.2
    simp
    omega

theorem writes_front {cs : List (List Byte)} (h : Moved (e.writes a.request a.n) a.n cs) :
    ∀ i ≤ cs.length, (cs.take i).flatten = a.request.take (cs.take i).flatten.length := by
  intro i hi
  induction i with
  | zero => simp
  | succ i ih =>
    obtain ⟨c, -, hc⟩ := Option.map_eq_some_iff.mp (h.call i hi)
    have hpart : cs[i] = (a.request.drop (cs.take i).flatten.length).take cs[i].length := by
      rw [← hc]
      simp
    rw [List.take_succ_eq_append_getElem hi, List.flatten_append, List.flatten_singleton,
      List.length_append, List.take_add, ← ih (by omega), ← hpart]

/-- Both functions end. They return -1 if there is a first call and it fails, and the number of the
bytes that were moved before a call failed or moved nothing in every other case. These bytes stand
behind one another, from the start of the request, and every other byte is as it was. -/
theorem transfer_complete (fd : ℤ) :
    (∃ cs, Parts (e.reads a.n) a.n cs ∧
      ∀ fuel, a.n < fuel → (readn fd fuel a.ptr a.n).run (sem e) ⟨a.bytes, out, 0⟩ =
        (.ok (returned (e.reads a.n) a.n cs),
          ⟨place a.bytes a.ptr cs.flatten, out, callsOf a.n cs⟩)) ∧
    ∃ cs, Parts (e.writes a.request a.n) a.n cs ∧ cs.flatten = a.request.take cs.flatten.length ∧
      ∀ fuel, a.n < fuel → (writen fd fuel a.ptr a.n).run (sem e) ⟨a.bytes, out, 0⟩ =
        (.ok (returned (e.writes a.request a.n) a.n cs),
          ⟨a.bytes, out ++ cs.flatten, callsOf a.n cs⟩) := by
  have hn : a.n < 2 ^ 63 := by
    have hin := a.inside
    have hsize := a.size
    omega
  have hread := moves_read e a out fd
  have hwrite := moves_write e a out fd
  constructor
  · obtain ⟨cs, hcs⟩ := exists_parts hread.within [] moved_nil
    refine ⟨cs, hcs, fun fuel hfuel => ?_⟩
    simpa [readn, place_nil] using run_transferLoop hread hn hcs fuel 0 (by simp) (by simpa)
  · obtain ⟨cs, hcs⟩ := exists_parts hwrite.within [] moved_nil
    have hfront := writes_front e a hcs.toMoved cs.length le_rfl
    rw [List.take_length] at hfront
    refine ⟨cs, hcs, hfront, fun fuel hfuel => ?_⟩
    simpa [writen] using run_transferLoop hwrite hn hcs fuel 0 (by simp) (by simpa)

end Requests

section Sample

/-- A transfer of six bytes in an object of eight. -/
def sampleArea : Area := ⟨List.replicate 8 7, 1, 6, by decide, by decide⟩

/-- A short `read` and a short `write` of two bytes, a call that moves one byte, and an error. -/
def sampleResults : Results where
  read i nleft :=
    if h : nleft < 2 ∨ 2 ≤ i then none
    else some ⟨[1, 2].take (2 - i), by simp; omega⟩
  write i nleft := if h : nleft < 2 ∨ 2 ≤ i then none else some ⟨2 - i, by omega⟩

theorem transfer_sample :
    (∃ cs, Parts (sampleResults.reads 6) 6 cs ∧ returned (sampleResults.reads 6) 6 cs = 3 ∧
      place sampleArea.bytes 1 cs.flatten = [7, 1, 2, 1, 7, 7, 7, 7] ∧ callsOf 6 cs = 3) ∧
    ∃ cs, Parts (sampleResults.writes sampleArea.request 6) 6 cs ∧
      returned (sampleResults.writes sampleArea.request 6) 6 cs = 3 ∧
      cs.flatten = [7, 7, 7] ∧ callsOf 6 cs = 3 := by
  obtain ⟨⟨cs, hcs, hread⟩, ds, hds, -, hwrite⟩ :=
    transfer_complete sampleResults sampleArea [] 4
  have hr : (readn 4 7 1 6).run (sem sampleResults) ⟨sampleArea.bytes, [], 0⟩ =
      (.ok 3, ⟨[7, 1, 2, 1, 7, 7, 7, 7], [], 3⟩) := by decide +kernel
  have hw : (writen 4 7 1 6).run (sem sampleResults) ⟨sampleArea.bytes, [], 0⟩ =
      (.ok 3, ⟨sampleArea.bytes, [7, 7, 7], 3⟩) := by decide +kernel
  have hr' := (hread 7 (by decide)).symm.trans hr
  have hw' := (hwrite 7 (by decide)).symm.trans hw
  simp only [Prod.mk.injEq, Out.ok.injEq, Process.mk.injEq] at hr' hw'
  exact ⟨⟨cs, hcs, hr'.1, hr'.2.1, hr'.2.2.2⟩, ds, hds, hw'.1, hw'.2.2.1, hw'.2.2.2⟩

end Sample

end Somenote.Transfer
