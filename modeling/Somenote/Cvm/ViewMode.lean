import Somenote.Cvm.Source

/-! # The register of the view mode

The file of the tokens is a list of identifiers, one on a line. `viewMode` looks into its buffer
again when `fgets` has found the end of the file, and of an empty file it has read nothing.
-/

namespace Somenote.Cvm

open Decimal Lines Scan Search Text

section Files

/-- What `sed` leaves of a text: the lines without the pattern. -/
def sed (pat text : List Byte) : List Byte :=
  unlines 10 ((splitLines 10 text).1.filter fun l => ¬ pat <:+: l) ++
    if pat <:+: (splitLines 10 text).2 then [] else (splitLines 10 text).2

/-- The file of the tokens, what is written and not in the file yet, what the open stream has not
read yet, and the input. -/
structure Tokens where
  file : List Byte
  pending : List Byte
  rest : List Byte
  eof : Bool
  stdin : List ℤ
  calls : ℕ

/-- The existing file without any entry. -/
def Tokens.start : Tokens := ⟨[], [], [], false, [], 0⟩

/-- The calls that do not touch the file or the input give any reply. -/
def sem (env : ℕ → (c : Call) → Reply c) : (c : Call) → Tokens → Reply c × Tokens
  | .fopen mode, s => ((), if mode = "r" then { s with rest := s.file, eof := false } else s)
  | .fprintf t, s => ((), { s with pending := s.pending ++ t })
  | .fgets n, s =>
    let l := (cutLine 10 (n - 1) s.rest).1
    (if l = [] then none else some l,
      { s with
        rest := (cutLine 10 (n - 1) s.rest).2
        eof := s.eof || decide (l.length < n - 1 ∧ l.getLast? ≠ some 10) })
  | .feof, s => (s.eof, s)
  | .fclose, s => ((), { s with file := s.file ++ s.pending, pending := [] })
  | .scanf, s =>
    match s.stdin with
    | [] => (none, s)
    | i :: stdin => (some i, { s with stdin })
  | .system (.sed id), s => ((), { s with file := sed (token id) s.file })
  | c, s => (env s.calls c, { s with calls := s.calls + 1 })

end Files

section Entries

/-- The identifier of a version. It has at most six characters, so that the string of `viewMode` has
room in its array. -/
abbrev Id := {i : ℤ // (decInt i).length ≤ 6}

/-- The file with these entries. -/
def tokenFile (ids : List ℤ) : List Byte := unlines 10 (ids.map tokenLine)

theorem letter_not_mem_decInt {c : Byte} (h : c ≠ 45) (h' : isDigit c = false) (i : ℤ) :
    c ∉ decInt i := by
  intro hm
  rcases mem_decInt hm with he | hd
  · exact h he
  · simp [h'] at hd

theorem not_mem_tokenLine {c : Byte} (h : c ≠ 45) (h' : isDigit c = false) (hvm : c ∉ encode "VM")
    (hhost : c ∉ encode ": localhost:") (i : ℤ) : c ∉ tokenLine i := by
  have hi := letter_not_mem_decInt h h'
  simp [tokenLine, hi, hvm, hhost]

theorem token_infix_iff (i j : ℤ) (t : List Byte) (ht : 86 ∉ t) :
    token i <:+: tokenLine j ++ t ↔ i = j := by
  have hvm : encode "VM" = [86, 77] := rfl
  have hcolon : encode ":" = [58] := rfl
  have hhost : encode ": localhost:" = 58 :: encode " localhost:" := rfl
  have hj := letter_not_mem_decInt (c := 86) (by decide) (by decide)
  constructor
  · rintro ⟨x, y, h⟩
    simp only [token, tokenLine, hvm, hcolon, hhost, List.append_assoc, List.cons_append,
      List.nil_append] at h
    cases x with
    | nil =>
      have hnum := congrArg scanInt (List.cons.inj (List.cons.inj h).2).2
      rw [scanInt_decInt_append i (by decide), scanInt_decInt_append j (by decide)] at hnum
      exact Option.some.inj hnum
    | cons c x =>
      -- The letter of the token would stand behind the start of the line.
      have hmem : (86 : Byte) ∈
          77 :: (decInt j ++ 58 :: (encode " localhost:" ++ (decInt (6000 + j) ++ t))) := by
        rw [← (List.cons.inj h).2]
        simp
      have htext : (86 : Byte) ∉ encode " localhost:" := by decide
      simp [hj, ht, htext] at hmem
  · rintro rfl
    refine ⟨[], encode " localhost:" ++ decInt (6000 + i) ++ t, ?_⟩
    simp [token, tokenLine, hhost, hcolon]

theorem length_decInt_le {i : ℤ} {k : ℕ} (hk : 0 < k) (h : i.natAbs < 10 ^ k) :
    (decInt i).length ≤ k + 1 := by
  have hdec := length_dec_le hk h
  rw [decInt]
  split
  · simpa using hdec
  · omega

theorem natAbs_lt {i : ℤ} (h : (decInt i).length ≤ 6) : i.natAbs < 10 ^ 6 := by
  have hdec : (dec i.natAbs).length ≤ 6 := by
    rw [decInt] at h
    split at h
    · exact le_trans (Nat.le_succ _) h
    · exact h
  rw [dec, List.length_map] at hdec
  exact (Nat.length_toDigits_le_iff (by decide) (by decide)).mp hdec

theorem tokenLine_fits (i : Id) :
    10 ∉ tokenLine i ∧ 0 ∉ tokenLine i ∧ (tokenLine i).length < 1023 := by
  have habs := natAbs_lt i.2
  have hport := length_decInt_le (i := 6000 + i.1) (k := 7) (by decide) (by omega)
  have hi := i.2
  have hvm : (encode "VM").length = 2 := rfl
  have hhost : (encode ": localhost:").length = 12 := rfl
  refine ⟨not_mem_tokenLine (by decide) (by decide) (by decide) (by decide) _,
    not_mem_tokenLine (by decide) (by decide) (by decide) (by decide) _, ?_⟩
  simp only [tokenLine, List.length_append, hvm, hhost]
  omega

theorem sed_tokenFile (i : ℤ) (ids : List Id) : sed (token i) (tokenFile (ids.map Subtype.val)) =
    tokenFile ((ids.filter fun j => j.1 ≠ i).map Subtype.val) := by
  have hsplit : splitLines 10 (tokenFile (ids.map Subtype.val)) =
      ((ids.map Subtype.val).map tokenLine, []) := by
    have hline : ∀ l ∈ (ids.map Subtype.val).map tokenLine, 10 ∉ l := by
      intro l hl
      simp only [List.map_map, List.mem_map] at hl
      obtain ⟨i, -, rfl⟩ := hl
      exact (tokenLine_fits i).1
    have hlines := splitLines_unlines hline (t := []) (by simp)
    rwa [List.append_nil] at hlines
  have hfilter : ∀ l : List ℤ, ((l.map tokenLine).filter fun l => ¬ token i <:+: l) =
      (l.filter (· ≠ i)).map tokenLine := by
    intro l
    rw [List.filter_map]
    congr 1
    refine List.filter_congr fun j _ => ?_
    have hiff := token_infix_iff i j [] (by simp)
    rw [List.append_nil] at hiff
    simp [hiff, eq_comm]
  rw [sed, hsplit, hfilter, List.filter_map, tokenFile]
  simp [Function.comp_def]

end Entries

section Loops

variable (env : ℕ → (c : Call) → Reply c)

/-- A loop over identifiers whose body changes the file by `F` and what is written by `G`. -/
theorem run_idLoop (body : ℤ → CvmProg Unit) (F G : ℤ → List Byte → List Byte)
    (hbody : ∀ i s, ∃ t, (body i).run (sem env) s = (.ok (), t) ∧ t.stdin = s.stdin ∧
      t.file = F i s.file ∧ t.pending = G i s.pending)
    (ids tail : List ℤ) (hids : -1 ∉ ids) (s : Tokens) (hstdin : s.stdin = ids ++ -1 :: tail) :
    ∃ t, t.file = ids.foldl (fun f i => F i f) s.file ∧
      t.pending = ids.foldl (fun p i => G i p) s.pending ∧
      ∀ fuel id₀, ids.length < fuel → (idLoop body fuel id₀).run (sem env) s = (.ok (), t) := by
  induction ids generalizing s with
  | nil =>
    refine ⟨{ s with stdin := tail }, rfl, rfl, fun fuel id₀ hfuel => ?_⟩
    obtain ⟨fuel, rfl⟩ := Nat.exists_eq_add_of_le' hfuel
    rw [List.nil_append] at hstdin
    simp [idLoop, scanf, sem, hstdin]
  | cons i ids ih =>
    have hi : i ≠ -1 := fun he => hids (he ▸ List.mem_cons_self)
    obtain ⟨t, hrun, ht, hfile, hpending⟩ := hbody i { s with stdin := ids ++ -1 :: tail }
    obtain ⟨u, hfile', hpending', hloop⟩ := ih (fun hm => hids (List.mem_cons_of_mem _ hm)) t ht
    refine ⟨u, by rw [hfile', hfile]; rfl, by rw [hpending', hpending]; rfl, ?_⟩
    intro fuel id₀ hfuel
    obtain ⟨fuel, rfl⟩ := Nat.exists_eq_add_of_le' (Nat.lt_of_le_of_lt (Nat.zero_le _) hfuel)
    rw [List.cons_append] at hstdin
    simp only [idLoop, scanf, Prog.call_bind, Prog.ret_bind, Prog.run_call, sem, hstdin,
      Option.getD_some, if_neg hi]
    rw [Prog.run_bind_ok hrun]
    exact hloop fuel i (Nat.lt_of_succ_lt_succ hfuel)

/-- The loop of `viewMode` over the lines of the file. At its end it looks into the buffer again. -/
theorem run_viewLoop (i : ℤ) : ∀ (ids : List Id) (fuel : ℕ) (buf : List Byte) (s : Tokens),
    s.rest = tokenFile (ids.map Subtype.val) → s.eof = false → ids.length + 2 ≤ fuel →
      ((viewLoop (token i) fuel buf).run (sem env) s).1 =
        .ok (decide (i ∈ ids.map Subtype.val ∨ ids = [] ∧ token i <:+: buf))
  | [], fuel + 2, buf, s, hrest, heof, _ => by
    have hrest : s.rest = [] := hrest
    by_cases hbuf : token i <:+: buf
    · have hfound : (Search.search (token i) buf).isSome = true := Search.search_isSome.mpr hbuf
      simp [viewLoop, feof, fgets, fclose, sem, heof, hrest, hfound, hbuf]
    · have hlost : ¬ (Search.search (token i) buf).isSome = true := mt Search.search_isSome.mp hbuf
      simp [viewLoop, feof, fgets, fclose, sem, heof, hrest, hlost, hbuf]
  | j :: ids, fuel + 1, buf, s, hrest, heof, hfuel => by
    obtain ⟨hnl, hnul, hlen⟩ := tokenLine_fits j
    have hcut : cutLine 10 (1024 - 1) s.rest =
        (tokenLine j ++ [10], tokenFile (ids.map Subtype.val)) := by
      rw [hrest]
      exact (congrArg _ (unlines_cons 10 _ _)).trans (cutLine_line hnl hlen _)
    have hbuf : cstr (tokenLine j ++ [10]) = tokenLine j ++ [10] := cstr_eq (by simp [hnul])
    have htoken := token_infix_iff i j [10] (by decide)
    by_cases hij : i = j
    · subst hij
      have hfound : (Search.search (token j) (tokenLine j ++ [10])).isSome = true :=
        Search.search_isSome.mpr (htoken.mpr rfl)
      simp [viewLoop, feof, fgets, fclose, sem, heof, hcut, hbuf, hfound]
    · have hlost : ¬ (Search.search (token i) (tokenLine j ++ [10])).isSome = true :=
        mt Search.search_isSome.mp (mt htoken.mp hij)
      have hloop := run_viewLoop i ids fuel (tokenLine j ++ [10])
        { s with rest := tokenFile (ids.map Subtype.val) } rfl heof (by simpa using hfuel)
      simp only [htoken] at hloop
      simpa [viewLoop, feof, fgets, sem, heof, hcut, hbuf, hlost, hij] using hloop

theorem run_viewMode (i : ℤ) (ids : List Id) (buf : List Byte) {s : Tokens}
    (hs : s.file = tokenFile (ids.map Subtype.val)) {fuel : ℕ} (hfuel : ids.length + 2 ≤ fuel) :
    ((viewMode fuel buf i).run (sem env) s).1 =
      .ok (decide (i ∈ ids.map Subtype.val ∨ ids = [] ∧ token i <:+: buf)) := by
  have hloop := run_viewLoop env i ids fuel buf { s with rest := s.file, eof := false } hs rfl hfuel
  simpa [viewMode, fopen, sem] using hloop

end Loops

section Operations

/-- A command of the source, with the identifiers that it reads before a -1. -/
inductive Op
  | add (ids : List Id)
  | del (ids : List Id)
  | vmdel (id : Id)

namespace Op

def prog : Op → ℕ → CvmProg Unit
  | add _ => addVMview
  | del _ => delVMview
  | vmdel id => fun _ => do
    let _ ← Cvm.vmdel id
    pure ()

/-- The input of the command. -/
def input : Op → List ℤ
  | add ids | del ids => ids.map Subtype.val ++ [-1]
  | vmdel _ => []

/-- The identifiers that the command works on. -/
def ids : Op → List Id
  | add ids | del ids => ids.takeWhile fun i => i.1 ≠ -1
  | vmdel id => [id]

def adds : Op → Bool
  | add _ => true
  | _ => false

/-- What the command does to each identifier, one after the other. -/
def events (op : Op) : List (ℤ × Bool) := op.ids.map fun i => (i.1, op.adds)

end Op

/-- The last operation on the identifier was an `addVMview`. -/
def LastAdded (ops : List Op) (i : ℤ) : Prop :=
  ((ops.flatMap Op.events).filter fun x => decide (x.1 = i)).getLast? = some (i, true)

/-- The commands run one after the other, each with enough fuel for its loop. -/
inductive Runs (env : ℕ → (c : Call) → Reply c) : Tokens → List Op → Tokens → Prop
  | nil {s : Tokens} : Runs env s [] s
  | cons {s t u : Tokens} {op : Op} {ops : List Op}
      (h : ∃ N, ∀ fuel, N ≤ fuel →
        (op.prog fuel).run (sem env) { s with stdin := op.input } = (.ok (), t))
      (ht : Runs env t ops u) : Runs env s (op :: ops) u

variable (env : ℕ → (c : Call) → Reply c)

/-- The entries of the file behind a command. -/
def Op.apply (op : Op) (ids : List Id) : List Id :=
  if op.adds then ids ++ op.ids else ids.filter fun i => i ∉ op.ids

theorem mem_apply (op : Op) (ids : List Id) (i : Id) :
    i ∈ op.apply ids ↔ if i ∈ op.ids then op.adds = true else i ∈ ids := by
  rw [Op.apply]
  cases op.adds <;> by_cases hi : i ∈ op.ids <;> simp [hi]

theorem lastAdded_snoc (ops : List Op) (op : Op) (i : Id) :
    LastAdded (ops ++ [op]) i ↔ if i ∈ op.ids then op.adds = true else LastAdded ops i := by
  have hall : ∀ x ∈ op.events.filter fun x => decide (x.1 = i.1), x = (i.1, op.adds) := by
    intro x hx
    obtain ⟨hx, hi⟩ := List.mem_filter.mp hx
    obtain ⟨j, -, rfl⟩ := List.mem_map.mp hx
    simpa using hi
  rw [LastAdded, List.flatMap_append, List.flatMap_singleton, List.filter_append,
    List.getLast?_append]
  by_cases hi : i ∈ op.ids
  · have hmem : (i.1, op.adds) ∈ op.events.filter fun x => decide (x.1 = i.1) :=
      List.mem_filter.mpr ⟨List.mem_map.mpr ⟨i, hi, rfl⟩, by simp⟩
    have hne := List.ne_nil_of_mem hmem
    rw [if_pos hi, List.getLast?_eq_some_getLast hne, hall _ (List.getLast_mem hne)]
    simp
  · have hnil : (op.events.filter fun x => decide (x.1 = i.1)) = [] := by
      refine List.filter_eq_nil_iff.mpr fun x hx hxi => hi ?_
      obtain ⟨j, hj, rfl⟩ := List.mem_map.mp hx
      have hij : j = i := Subtype.ext (by simpa using hxi)
      exact hij ▸ hj
    rw [if_neg hi, hnil]
    rfl

theorem input_split (ids : List Id) : ∃ tail, ids.map Subtype.val ++ [-1] =
    (ids.takeWhile fun i => i.1 ≠ -1).map Subtype.val ++ -1 :: tail := by
  induction ids with
  | nil => exact ⟨[], rfl⟩
  | cons i ids ih =>
    obtain ⟨tail, htail⟩ := ih
    by_cases hi : i.1 = -1
    · exact ⟨ids.map Subtype.val ++ [-1], by simp [hi]⟩
    · exact ⟨tail, by simpa [hi] using htail⟩

theorem not_mem_input (ids : List Id) :
    -1 ∉ (ids.takeWhile fun i => i.1 ≠ -1).map Subtype.val := by
  intro h
  obtain ⟨i, hi, he⟩ := List.mem_map.mp h
  simpa [he] using List.mem_takeWhile_imp hi

theorem foldl_same (l : List ℤ) (f : List Byte) : l.foldl (fun f _ => f) f = f := by
  induction l with
  | nil => rfl
  | cons i l ih => exact ih

theorem foldl_lines (p : List Byte) (l : List ℤ) :
    l.foldl (fun p i => p ++ (tokenLine i ++ [10])) p = p ++ tokenFile l := by
  induction l generalizing p with
  | nil => simp [tokenFile]
  | cons i l ih => simp [ih, tokenFile]

theorem foldl_sed (ids l : List Id) :
    (l.map Subtype.val).foldl (fun f i => sed (token i) f) (tokenFile (ids.map Subtype.val)) =
      tokenFile ((ids.filter fun i => i ∉ l).map Subtype.val) := by
  induction l generalizing ids with
  | nil => simp
  | cons i l ih =>
    rw [List.map_cons, List.foldl_cons, sed_tokenFile, ih, List.filter_filter]
    congr 3
    funext j
    simp [Subtype.ext_iff, Bool.and_comm]

theorem run_addVMview (new : List Id) (s : Tokens) (hstdin : s.stdin = (Op.add new).input)
    (hpending : s.pending = []) :
    ∃ t, t.file = s.file ++ tokenFile ((Op.add new).ids.map Subtype.val) ∧ t.pending = [] ∧
      ∀ fuel, new.length < fuel → (addVMview fuel).run (sem env) s = (.ok (), t) := by
  obtain ⟨tail, htail⟩ := input_split new
  obtain ⟨t, ht, htp, hrun⟩ := run_idLoop env addView (fun _ f => f)
    (fun i p => p ++ (tokenLine i ++ [10])) (fun i s => ⟨_, rfl, rfl, rfl, rfl⟩) _ tail
    (not_mem_input new) { s with calls := s.calls + 1 } (hstdin.trans htail)
  refine ⟨{ t with file := t.file ++ t.pending, pending := [], calls := t.calls + 1 }, ?_, rfl,
    fun fuel hfuel => ?_⟩
  · dsimp only
    rw [ht, htp, foldl_lines, foldl_same, hpending]
    rfl
  · have hle := (List.takeWhile_prefix (l := new) (fun i => i.1 ≠ -1)).length_le
    have hloop := hrun fuel (env s.calls .junk) (by rw [List.length_map]; omega)
    simp only [addVMview, fopen, junk, Prog.call_bind, Prog.ret_bind, Prog.run_call, sem]
    rw [if_neg (by decide), Prog.run_bind_ok hloop]
    rfl

theorem run_delVMview (old ids : List Id) (s : Tokens) (hstdin : s.stdin = (Op.del old).input)
    (hfile : s.file = tokenFile (ids.map Subtype.val)) (hpending : s.pending = []) :
    ∃ t, t.file = tokenFile ((ids.filter fun i => i ∉ (Op.del old).ids).map Subtype.val) ∧
      t.pending = [] ∧
      ∀ fuel, old.length < fuel → (delVMview fuel).run (sem env) s = (.ok (), t) := by
  obtain ⟨tail, htail⟩ := input_split old
  obtain ⟨t, ht, htp, hrun⟩ := run_idLoop env delView (fun i f => sed (token i) f)
    (fun _ p => p) (fun i s => ⟨_, rfl, rfl, rfl, rfl⟩) _ tail (not_mem_input old)
    { s with calls := s.calls + 1 } (hstdin.trans htail)
  refine ⟨{ t with calls := t.calls + 1 }, ?_, ?_, fun fuel hfuel => ?_⟩
  · dsimp only
    rw [ht, hfile, foldl_sed]
    rfl
  · dsimp only
    rw [htp, foldl_same, hpending]
  · have hle := (List.takeWhile_prefix (l := old) (fun i => i.1 ≠ -1)).length_le
    have hloop := hrun fuel (env s.calls .junk) (by rw [List.length_map]; omega)
    simp only [delVMview, junk, Prog.call_bind, Prog.ret_bind, Prog.run_call, sem]
    rw [Prog.run_bind_ok hloop]
    rfl

theorem run_vmdel (i : Id) (s : Tokens) : ∃ b t, t.file = sed (token i) s.file ∧
    t.pending = s.pending ∧ (vmdel i).run (sem env) s = (.ok b, t) := by
  refine ⟨!(env (s.calls + 5) (.fileExist (.back i))),
    { s with file := sed (token i) s.file, calls := s.calls + 6 }, rfl, rfl, ?_⟩
  simp [vmdel, xmlog, system, fileExist, sem]

/-- A command brings the file from one state of the register to the next one. -/
theorem run_op (op : Op) (ids : List Id) (s : Tokens)
    (hfile : s.file = tokenFile (ids.map Subtype.val)) (hpending : s.pending = []) :
    ∃ t, t.file = tokenFile ((op.apply ids).map Subtype.val) ∧ t.pending = [] ∧
      ∃ N, ∀ fuel, N ≤ fuel →
        (op.prog fuel).run (sem env) { s with stdin := op.input } = (.ok (), t) := by
  cases op with
  | add new =>
    obtain ⟨t, ht, htp, hrun⟩ := run_addVMview env new { s with stdin := (Op.add new).input } rfl
      hpending
    refine ⟨t, ?_, htp, new.length + 1, fun fuel hfuel => hrun fuel hfuel⟩
    rw [ht, hfile]
    simp [Op.apply, Op.adds, tokenFile]
  | del old =>
    obtain ⟨t, ht, htp, hrun⟩ := run_delVMview env old ids { s with stdin := (Op.del old).input }
      rfl hfile hpending
    refine ⟨t, ?_, htp, old.length + 1, fun fuel hfuel => hrun fuel hfuel⟩
    rw [ht]
    simp [Op.apply, Op.adds]
  | vmdel i =>
    obtain ⟨b, t, ht, htp, hrun⟩ := run_vmdel env i { s with stdin := (Op.vmdel i).input }
    refine ⟨t, ?_, htp.trans hpending, 0, fun fuel _ => ?_⟩
    · rw [ht, hfile, sed_tokenFile]
      simp [Op.apply, Op.adds, Op.ids, Subtype.ext_iff]
    · rw [Op.prog, Prog.run_bind_ok hrun]
      rfl

/-- The commands run, and the file holds the identifiers whose last operation was an `addVMview`. -/
theorem exists_runs (ops before : List Op) (ids : List Id) (s : Tokens)
    (hfile : s.file = tokenFile (ids.map Subtype.val)) (hpending : s.pending = [])
    (hids : ∀ i : Id, i ∈ ids ↔ LastAdded before i) :
    ∃ (t : Tokens) (ids' : List Id), Runs env s ops t ∧ t.file = tokenFile (ids'.map Subtype.val) ∧
      ∀ i : Id, i ∈ ids' ↔ LastAdded (before ++ ops) i := by
  induction ops generalizing before ids s with
  | nil => exact ⟨s, ids, .nil, hfile, by simpa using hids⟩
  | cons op ops ih =>
    obtain ⟨t, ht, htp, hrun⟩ := run_op env op ids s hfile hpending
    have hnext : ∀ i : Id, i ∈ op.apply ids ↔ LastAdded (before ++ [op]) i := fun i => by
      rw [mem_apply, lastAdded_snoc, hids]
    obtain ⟨u, ids', hruns, hu, hmem⟩ := ih (before ++ [op]) (op.apply ids) t ht htp hnext
    exact ⟨u, ids', .cons hrun hruns, hu, by simpa using hmem⟩

theorem tokenFile_eq_nil {ids : List Id} : tokenFile (ids.map Subtype.val) = [] ↔ ids = [] := by
  cases ids <;> simp [tokenFile]

/-- What `viewMode` answers, with enough fuel for its loop. -/
def Answers (env : ℕ → (c : Call) → Reply c) (buf : List Byte) (s : Tokens) (i : Id) (b : Bool) :
    Prop :=
  ∃ N, ∀ fuel, N ≤ fuel → ((viewMode fuel buf i).run (sem env) s).1 = .ok b

theorem Answers.unique {buf : List Byte} {s : Tokens} {i : Id} {b b' : Bool}
    (h : Answers env buf s i b) (h' : Answers env buf s i b') : b = b' := by
  obtain ⟨N, hN⟩ := h
  obtain ⟨M, hM⟩ := h'
  have heq := (hN (max N M) (le_max_left N M)).symm.trans (hM (max N M) (le_max_right N M))
  exact Out.ok.inj heq

/-- From an empty file, behind any commands, `viewMode` tells whether the last operation on an
identifier was an `addVMview`, if and only if there is an entry in the file or the memory of its
buffer does not hold the token. -/
theorem viewMode_iff (env : ℕ → (c : Call) → Reply c) (ops : List Op) (buf : List Byte) (i : Id) :
    ∃ s, Runs env .start ops s ∧ ((∃ b, Answers env buf s i b ∧ (b = true ↔ LastAdded ops i)) ↔
      s.file ≠ [] ∨ ¬ token i <:+: buf) := by
  obtain ⟨s, ids, hruns, hfile, hids⟩ := exists_runs env ops [] [] .start rfl rfl
    (by simp [LastAdded])
  refine ⟨s, hruns, ?_⟩
  have hanswer : Answers env buf s i
      (decide (i.1 ∈ ids.map Subtype.val ∨ ids = [] ∧ token i <:+: buf)) :=
    ⟨ids.length + 2, fun fuel hfuel => run_viewMode env i.1 ids buf hfile hfuel⟩
  have hmem : i.1 ∈ ids.map Subtype.val ↔ LastAdded ops i := by
    rw [List.mem_map_of_injective Subtype.val_injective, hids, List.nil_append]
  rw [hfile, Ne, tokenFile_eq_nil, ← hmem]
  constructor
  · rintro ⟨b, hb, hb'⟩
    obtain rfl := hb.unique env hanswer
    by_cases hnil : ids = []
    · subst hnil
      exact Or.inr (by simpa using hb')
    · exact Or.inl hnil
  · intro h
    refine ⟨_, hanswer, ?_⟩
    rcases h with hne | hbuf
    · simp [hne]
    · simp [hbuf]

/-- The buffer of `viewMode` stands where a line of the file was read before. -/
def staleBuf : List Byte := encode "VM7: localhost:6007\n"

theorem viewMode_stale :
    Runs idle .start [] .start ∧ ¬ LastAdded [] 7 ∧
      Answers idle staleBuf .start ⟨7, by decide⟩ true := by
  refine ⟨.nil, by simp [LastAdded], 2, fun fuel hfuel => ?_⟩
  rw [run_viewMode idle 7 [] staleBuf rfl hfuel]
  decide +kernel

end Operations

end Somenote.Cvm
