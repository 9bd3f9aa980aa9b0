import Somenote.Cvm.Source

/-! # Printing a listing

The loops that print a listing read one word for each line of it, and take it for granted that each
line ends with a newline and is one word.
-/

namespace Somenote.Cvm

open Decimal Lines Scan Text

/-- What `getresult` can leave in `result`. -/
structure Result where
  text : List Byte
  string : 0 ∉ text
  fits : Fits text resultlen

/-- The string that `name` holds. No command puts a newline there. -/
structure Held where
  text : List Byte
  line : 10 ∉ text
  fits : Fits text namelen

/-- The functions with such a loop. -/
inductive Lister
  | cd | os
  | sys (ip : List Byte)
  | iso (ip : List Byte)
  | disk
  deriving DecidableEq, Repr

def Lister.prog : Lister → List Byte → ℕ → CvmProg Unit
  | cd => cdList
  | os => osList
  | sys ip => sysList ip
  | iso ip => isoList ip
  | disk => diskList

/-- The command has the output `text`; the output of the program is kept. -/
def listSem (text : List Byte) : (c : Call) → List Byte → Reply c × List Byte
  | .getresult .., out => (text, out)
  | .printf s, out => ((), out ++ s)
  | c, out => (idle 0 c, out)

/-- The program ends and has printed each complete line of the listing, in order, and -1. -/
def Prints (prog : ℕ → CvmProg Unit) (text : List Byte) : Prop :=
  ∃ N, ∀ fuel, N ≤ fuel →
    (prog fuel).run (listSem text) [] = (.ok (), unlines 10 (splitLines 10 text).1 ++ encode "-1\n")

/-- A line that is one word, with room in `name`. -/
def IsName (l : List Byte) : Prop := l ≠ [] ∧ (∀ c ∈ l, isSpace c = false) ∧ Fits l namelen

/-- A line without a word. -/
def Blank (l : List Byte) : Prop := ∀ c ∈ l, isSpace c = true

/-- Each line of the text ends, and is a name; or all of them are blank, as what `name` holds. -/
structure Regular (name text : List Byte) : Prop where
  ends : (splitLines 10 text).2 = []
  lines : (∀ l ∈ (splitLines 10 text).1, IsName l) ∨
    ∀ l ∈ (splitLines 10 text).1, Blank l ∧ l = name

section Loop

/-- The string in `name` behind a line of the listing. -/
def nameBehind (name p : List Byte) : List Byte := (word p).elim name Prod.fst

/-- The strings that the loop prints for the lines `ls`. -/
def printed : List Byte → List (List Byte) → List (List Byte)
  | _, [] => []
  | name, l :: ls =>
    nameBehind name (unlines 10 (l :: ls)) :: printed (nameBehind name (unlines 10 (l :: ls))) ls

variable {text name : List Byte} {ls : List (List Byte)} {out : List Byte}

theorem nextLine_line {l : List Byte} (h : 10 ∉ l) (t : List Byte) :
    nextLine (l ++ 10 :: t) = some t := by
  have hdrop : (l ++ 10 :: t).dropWhile (· ≠ 10) = 10 :: t := by
    have hall : ∀ c ∈ l, decide (c ≠ 10) = true := fun c hc => decide_eq_true fun he => h (he ▸ hc)
    rw [List.dropWhile_append_of_pos hall, List.dropWhile_cons_of_neg (by simp)]
  rw [nextLine, if_pos (by simp), hdrop, List.tail_cons]

theorem run_listTurn {l t : List Byte} (h : 10 ∉ l)
    (hfits : Fits (nameBehind name (l ++ 10 :: t)) namelen) (fuel : ℕ) :
    (listLoop (fuel + 1) name (l ++ 10 :: t)).run (listSem text) out =
      (listLoop fuel (nameBehind name (l ++ 10 :: t)) t).run (listSem text)
        (out ++ (nameBehind name (l ++ 10 :: t) ++ [10])) := by
  rw [listLoop, if_pos (by simp), nextLine_line h]
  cases hw : word (l ++ 10 :: t) with
  | none => simp [scanName, hw, nameBehind, printf, listSem]
  | some w =>
    rw [nameBehind, hw] at hfits
    have hfits : Fits w.1 namelen := hfits
    simp [scanName, hw, nameBehind, printf, listSem, hfits]

theorem run_listTurn_long {l t : List Byte}
    (hfits : ¬ Fits (nameBehind name (l ++ 10 :: t)) namelen) (hname : Fits name namelen)
    (fuel : ℕ) :
    (listLoop (fuel + 1) name (l ++ 10 :: t)).run (listSem text) out = (.dump .overflow, out) := by
  rw [listLoop, if_pos (by simp)]
  cases hw : word (l ++ 10 :: t) with
  | none =>
    rw [nameBehind, hw] at hfits
    exact absurd hname hfits
  | some w =>
    rw [nameBehind, hw] at hfits
    have hfits : ¬ Fits w.1 namelen := hfits
    simp [scanName, hw, hfits]

/-- The loop over lines that end, with words that have room. -/
theorem run_listLoop (fuel : ℕ) (hls : ∀ l ∈ ls, 10 ∉ l)
    (hfits : ∀ n ∈ printed name ls, Fits n namelen) (hfuel : ls.length < fuel) :
    (listLoop fuel name (unlines 10 ls)).run (listSem text) out =
      (.ok (), out ++ unlines 10 (printed name ls)) := by
  induction ls generalizing name out fuel with
  | nil =>
    obtain ⟨fuel, rfl⟩ := Nat.exists_eq_add_of_le' hfuel
    simp [listLoop, printed]
  | cons l ls ih =>
    obtain ⟨fuel, rfl⟩ := Nat.exists_eq_add_of_le' (Nat.lt_of_le_of_lt (Nat.zero_le _) hfuel)
    rw [printed, List.forall_mem_cons] at hfits
    rw [printed, unlines_cons]
    rw [unlines_cons] at hfits
    obtain ⟨hl, hrest⟩ := List.forall_mem_cons.mp hls
    rw [run_listTurn hl hfits.1, ih fuel hrest hfits.2 (Nat.lt_of_succ_lt_succ hfuel),
      unlines_cons]
    simp

theorem ends_of_listLoop {t : List Byte} (ht : 10 ∉ t) (fuel : ℕ) (hls : ∀ l ∈ ls, 10 ∉ l)
    (hname : Fits name namelen)
    (h : ((listLoop fuel name (unlines 10 ls ++ t)).run (listSem text) out).1 = .ok ()) :
    t = [] := by
  induction fuel generalizing ls name out with
  | zero => cases h
  | succ fuel ih =>
    cases ls with
    | nil =>
      by_contra hne
      have hend : nextLine t = none := if_neg ht
      rw [unlines_nil, List.nil_append, listLoop, if_pos hne] at h
      cases hw : word t with
      | none => simp [scanName, hw, printf, hend, listSem] at h
      | some w =>
        by_cases hfits : Fits w.1 namelen
        · simp [scanName, hw, printf, hend, listSem, hfits] at h
        · simp [scanName, hw, hfits] at h
    | cons l ls =>
      rw [unlines_cons, List.append_assoc, List.cons_append] at h
      by_cases hfits : Fits (nameBehind name (l ++ 10 :: (unlines 10 ls ++ t))) namelen
      · rw [run_listTurn (hls l List.mem_cons_self) hfits] at h
        exact ih (fun l hl => hls l (List.mem_cons_of_mem _ hl)) hfits h
      · rw [run_listTurn_long hfits hname] at h
        cases h

theorem fits_of_listLoop (fuel : ℕ) (hls : ∀ l ∈ ls, 10 ∉ l) (hname : Fits name namelen)
    (h : ((listLoop fuel name (unlines 10 ls)).run (listSem text) out).1 = .ok ()) :
    ∀ n ∈ printed name ls, Fits n namelen := by
  induction ls generalizing name out fuel with
  | nil => simp [printed]
  | cons l ls ih =>
    cases fuel with
    | zero => cases h
    | succ fuel =>
      rw [unlines_cons] at h
      rw [printed, unlines_cons, List.forall_mem_cons]
      by_cases hfits : Fits (nameBehind name (l ++ 10 :: unlines 10 ls)) namelen
      · rw [run_listTurn (hls l List.mem_cons_self) hfits] at h
        exact ⟨hfits, ih fuel (fun l hl => hls l (List.mem_cons_of_mem _ hl)) hfits h⟩
      · rw [run_listTurn_long hfits hname] at h
        cases h

end Loop

section Names

variable {name : List Byte} {ls : List (List Byte)}

theorem not_isSpace_newline {l : List Byte} (h : ∀ c ∈ l, isSpace c = false) : 10 ∉ l :=
  fun hm => absurd (h 10 hm) (by decide)

theorem blank_unlines : Blank (unlines 10 ls) ↔ ∀ l ∈ ls, Blank l := by
  have hnl : isSpace 10 = true := by decide
  induction ls with
  | nil => simp [Blank]
  | cons l ls ih =>
    rw [List.forall_mem_cons]
    simp only [Blank, unlines_cons, List.mem_append, List.mem_cons, or_imp, forall_and, forall_eq,
      hnl, true_and]
    exact and_congr_right fun _ => ih

theorem IsName.not_blank {l : List Byte} (h : IsName l) : ¬ Blank l := by
  obtain ⟨c, t, rfl⟩ := List.exists_cons_of_ne_nil h.1
  intro hb
  have hc := h.2.1 c List.mem_cons_self
  rw [hb c List.mem_cons_self] at hc
  cases hc

theorem nameBehind_cases (name : List Byte) (ls : List (List Byte)) :
    (nameBehind name (unlines 10 ls) ≠ [] ∧
      ∀ c ∈ nameBehind name (unlines 10 ls), isSpace c = false) ∨
    nameBehind name (unlines 10 ls) = name ∧ ∀ l ∈ ls, Blank l := by
  rw [nameBehind]
  cases hw : word (unlines 10 ls) with
  | none => exact Or.inr ⟨rfl, blank_unlines.mp (word_eq_none.mp hw)⟩
  | some w => exact Or.inl (word_eq_some hw)

theorem line_of_mem_printed (hname : 10 ∉ name) : ∀ n ∈ printed name ls, 10 ∉ n := by
  induction ls generalizing name with
  | nil => simp [printed]
  | cons l ls ih =>
    have hbehind : 10 ∉ nameBehind name (unlines 10 (l :: ls)) := by
      rcases nameBehind_cases name (l :: ls) with ⟨-, hword⟩ | ⟨heq, -⟩
      · exact not_isSpace_newline hword
      · rwa [heq]
    rw [printed, List.forall_mem_cons]
    exact ⟨hbehind, ih hbehind⟩

theorem nameBehind_isName {l : List Byte} (h : IsName l) :
    nameBehind name (unlines 10 (l :: ls)) = l := by
  rw [nameBehind, unlines_cons, word_front h.1 h.2.1 (by decide)]
  rfl

theorem nameBehind_blank (h : ∀ l ∈ ls, Blank l) : nameBehind name (unlines 10 ls) = name := by
  rw [nameBehind, word_eq_none.mpr (blank_unlines.mpr h)]
  rfl

theorem lines_of_printed (heq : printed name ls = ls) (hfits : ∀ l ∈ ls, Fits l namelen) :
    (∀ l ∈ ls, IsName l) ∨ ∀ l ∈ ls, Blank l ∧ l = name := by
  induction ls generalizing name with
  | nil => simp
  | cons l ls ih =>
    rw [printed] at heq
    obtain ⟨hl, hls⟩ := List.cons.inj heq
    rw [List.forall_mem_cons] at hfits
    rw [hl] at hls
    have hrest := ih hls hfits.2
    rcases nameBehind_cases name (l :: ls) with ⟨hne, hword⟩ | ⟨hname, hblank⟩
    · rw [hl] at hne hword
      have hisname : IsName l := ⟨hne, hword, hfits.1⟩
      left
      rw [List.forall_mem_cons]
      refine ⟨hisname, fun l' hl' => ?_⟩
      rcases hrest with hnames | hblank
      · exact hnames l' hl'
      · obtain ⟨hb, rfl⟩ := hblank l' hl'
        exact absurd hb hisname.not_blank
    · obtain rfl : name = l := hname.symm.trans hl
      right
      rw [List.forall_mem_cons]
      refine ⟨⟨hblank name List.mem_cons_self, rfl⟩, fun l' hl' => ?_⟩
      rcases hrest with hnames | hrest
      · exact absurd (hblank l' (List.mem_cons_of_mem _ hl')) (hnames l' hl').not_blank
      · exact hrest l' hl'

/-- The lines are printed as they are if and only if they are names, or blank as what `name`
holds. -/
theorem printed_eq_iff (hname : Fits name namelen) :
    (printed name ls = ls ∧ ∀ l ∈ ls, Fits l namelen) ↔
      (∀ l ∈ ls, IsName l) ∨ ∀ l ∈ ls, Blank l ∧ l = name := by
  refine ⟨fun h => lines_of_printed h.1 h.2, fun h => ?_⟩
  induction ls generalizing name with
  | nil => simp [printed]
  | cons l ls ih =>
    rw [printed]
    rcases h with hnames | hblank
    · obtain ⟨hl, hls⟩ := List.forall_mem_cons.mp hnames
      obtain ⟨heq, hfits⟩ := ih hl.2.2 (Or.inl hls)
      rw [nameBehind_isName hl, heq, List.forall_mem_cons]
      exact ⟨rfl, hl.2.2, hfits⟩
    · obtain ⟨hl, hls⟩ := List.forall_mem_cons.mp hblank
      obtain ⟨heq, hfits⟩ := ih hname (Or.inr hls)
      rw [nameBehind_blank fun l hl => (hblank l hl).1, heq, List.forall_mem_cons, hl.2]
      exact ⟨rfl, hname, hfits⟩

end Names

section Listers

theorem run_lister (k : Lister) (name text : List Byte) (fuel : ℕ) :
    (k.prog name (fuel + 1)).run (listSem text) [] =
      (listLoop (fuel + 1) name text >>= fun _ =>
        printf (encode "-1\n")).run (listSem text) [] := by
  have hlist : ∀ cmd, (printList cmd name (fuel + 1)).run (listSem text) [] =
      (listLoop (fuel + 1) name text >>= fun _ =>
        printf (encode "-1\n")).run (listSem text) [] := by
    intro cmd
    by_cases h : text = []
    · simp [printList, getresult, listSem, h, listLoop]
    · simp [printList, getresult, listSem, h]
  cases k <;> exact hlist _

theorem run_lister_ok {ls : List (List Byte)} (k : Lister) (name : List Byte) (fuel : ℕ)
    (hls : ∀ l ∈ ls, 10 ∉ l)
    (hfits : ∀ n ∈ printed name ls, Fits n namelen) (hfuel : ls.length ≤ fuel) :
    (k.prog name (fuel + 1)).run (listSem (unlines 10 ls)) [] =
      (.ok (), unlines 10 (printed name ls) ++ encode "-1\n") := by
  rw [run_lister, Prog.run_bind_ok (run_listLoop _ hls hfits (Nat.lt_succ_of_le hfuel))]
  rfl

theorem unlines_injective {ls ls' : List (List Byte)} (h : ∀ l ∈ ls, 10 ∉ l)
    (h' : ∀ l ∈ ls', 10 ∉ l) (heq : unlines 10 ls = unlines 10 ls') : ls = ls' := by
  have hsplit := splitLines_unlines (t := []) h (by simp)
  have hsplit' := splitLines_unlines (t := []) h' (by simp)
  rw [heq, hsplit'] at hsplit
  exact (congrArg Prod.fst hsplit).symm

theorem prints_of_regular (k : Lister) {name : Held} {r : Result} (h : Regular name.text r.text) :
    Prints (k.prog name.text) r.text := by
  have hls := (not_mem_of_mem_splitLines (10 : Byte) r.text).1
  have htext : r.text = unlines 10 (splitLines 10 r.text).1 := by
    have hsplit := unlines_splitLines (10 : Byte) r.text
    rwa [h.ends, List.append_nil, eq_comm] at hsplit
  obtain ⟨heq, hfits⟩ := (printed_eq_iff name.fits).mpr h.lines
  refine ⟨(splitLines 10 r.text).1.length + 1, fun fuel hfuel => ?_⟩
  obtain ⟨fuel, rfl⟩ := Nat.exists_eq_add_of_le' (Nat.lt_of_lt_of_le (Nat.succ_pos _) hfuel)
  have hrun := run_lister_ok k name.text fuel hls (by rwa [heq]) (Nat.le_of_succ_le_succ hfuel)
  rw [heq, ← htext] at hrun
  rw [← htext]
  exact hrun

/-- The functions end without a fault and print each complete line once, whole and in order, and
-1, if and only if the listing is regular. -/
theorem prints_iff (k : Lister) (name : Held) (r : Result) :
    Prints (k.prog name.text) r.text ↔ Regular name.text r.text := by
  constructor
  · rintro ⟨N, hN⟩
    obtain ⟨hls, ht⟩ := not_mem_of_mem_splitLines (10 : Byte) r.text
    have hsplit := unlines_splitLines (10 : Byte) r.text
    generalize hparts : splitLines 10 r.text = parts at *
    obtain ⟨ls, t⟩ := parts
    have hrun := hN (max N ls.length + 1) (by omega)
    have htext : unlines 10 ls ++ t = r.text := hsplit
    have hloop : ((listLoop (max N ls.length + 1) name.text (unlines 10 ls ++ t)).run
        (listSem r.text) []).1 = .ok () := by
      rw [run_lister, ← htext, Prog.run_bind] at hrun
      rw [← htext]
      rcases h : (listLoop (max N ls.length + 1) name.text (unlines 10 ls ++ t)).run
        (listSem (unlines 10 ls ++ t)) [] with ⟨a | e | _, out⟩
      · rfl
      · simp [h] at hrun
      · simp [h] at hrun
    obtain rfl := ends_of_listLoop ht _ hls name.fits hloop
    rw [List.append_nil] at htext hloop
    have hfits := fits_of_listLoop _ hls name.fits hloop
    rw [← htext, run_lister_ok k name.text _ hls hfits (le_max_right N ls.length)] at hrun
    have hlines := List.append_cancel_right (Prod.mk.inj hrun).2
    have heq := unlines_injective (line_of_mem_printed name.line) hls hlines
    rw [heq] at hfits
    exact ⟨by rw [hparts], by rw [hparts]; exact (printed_eq_iff name.fits).mp ⟨heq, hfits⟩⟩
  · exact prints_of_regular k

/-- A directory with one file, whose name has a blank. -/
def blankName : Result := ⟨encode "my disk\n", by decide, by decide⟩

def noName : Held := ⟨[], by simp, by decide⟩

theorem blankName_cut : ¬ Prints (Lister.disk.prog noName.text) blankName.text := by
  rintro ⟨N, hN⟩
  have hrun := hN (max N 1 + 1) (by omega)
  have hline : ∀ l ∈ [encode "my disk"], 10 ∉ l := by decide
  have hcut := run_lister_ok .disk noName.text (max N 1) hline
    (by decide +kernel) (le_max_right N 1)
  have htext : blankName.text = unlines 10 [encode "my disk"] := by decide
  rw [htext, hcut] at hrun
  exact absurd (Prod.mk.inj hrun).2 (by decide +kernel)

end Listers

end Somenote.Cvm
