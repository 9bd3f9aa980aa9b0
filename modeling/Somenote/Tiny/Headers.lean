import Somenote.Tiny.Source

/-! # The end of the headers

The loop of `read_requesthdrs` does not look at the value of `Rio_readlineb`. It leaves at a blank
line, and at the end of the input the buffer does not change any more.
-/

namespace Somenote.Tiny

open Lines Scan Text

variable (host : Host) (buf : List Byte) (s : Conn)

/-- The string in the buffer behind a call of `Rio_readlineb`. -/
def lineIn (buf input : List Byte) : List Byte :=
  if input = [] then buf else cstr (cutLine 10 (MAXLINE - 1) input).1

/-- What the client still sends behind that line. -/
def lineRest (input : List Byte) : List Byte := (cutLine 10 (MAXLINE - 1) input).2

/-- One of the lines is blank, or there are none and the memory of the buffer holds one. -/
def HeadersEnd (hdrs input : List Byte) : Prop :=
  crlf ∈ cutLines 10 (MAXLINE - 1) input ∨ input = [] ∧ hdrs = crlf

instance (hdrs input : List Byte) : Decidable (HeadersEnd hdrs input) :=
  inferInstanceAs (Decidable (_ ∨ _))

theorem run_readlineLoop (k : ℕ) (n : ℤ) (l : List Byte) (hn : 0 < n) (hl : n = 1 ↔ l = [])
    (hne : k = 0 ∨ l ≠ [] ∨ s.input ≠ []) : ∃ rc, 0 ≤ rc ∧
      (readlineLoop k n l).run (sem host) s = (.ok (rc, some (l ++ (cutLine 10 k s.input).1)),
        { s with input := (cutLine 10 k s.input).2 }) := by
  obtain ⟨input, stdout, sent, stores, file⟩ := s
  induction k generalizing n l input with
  | zero =>
    refine ⟨n, Int.le_of_lt hn, ?_⟩
    cases input <;> simp [readlineLoop, cutLine]
  | succ k ih =>
    rw [readlineLoop, Prog.run_call]
    cases input with
    | nil =>
      have hone : n ≠ 1 := fun he => by simp_all
      exact ⟨n, Int.le_of_lt hn, by simp [sem, hone]⟩
    | cons c t =>
      by_cases hc : c = 10
      · exact ⟨n, Int.le_of_lt hn, by simp [sem, hc, cutLine]⟩
      · obtain ⟨rc, hrc, hrun⟩ := ih (n + 1) (l ++ [c]) (by omega) (by simp; omega) t (by simp)
        refine ⟨rc, hrc, ?_⟩
        simpa [sem, hc, cutLine] using hrun

theorem run_rioReadlineb : ∃ rc, (rioReadlineb buf MAXLINE).run (sem host) s =
    (.ok (rc, lineIn buf s.input), { s with input := lineRest s.input }) := by
  by_cases h : s.input = []
  · obtain ⟨input, stdout, sent, stores, file⟩ := s
    obtain rfl : input = [] := h
    refine ⟨0, ?_⟩
    have hmax : MAXLINE - 1 = 8190 + 1 := rfl
    rw [rioReadlineb, hmax, readlineLoop]
    simp [sem, lineIn, lineRest]
  · obtain ⟨rc, hrc, hloop⟩ := run_readlineLoop host s (MAXLINE - 1) 1 [] (by omega)
      (by simp) (Or.inr (Or.inr h))
    refine ⟨rc, ?_⟩
    rw [rioReadlineb, Prog.run_bind_ok hloop]
    simp [lineIn, lineRest, h, Int.not_lt.mpr hrc]

theorem lineIn_eq_crlf {input : List Byte} (h : input ≠ []) :
    lineIn buf input = crlf ↔ (cutLine 10 (MAXLINE - 1) input).1 = crlf := by
  rw [lineIn, if_neg h]
  constructor
  · intro hstr
    have hlast := not_mem_dropLast_cutLine (10 : Byte) (MAXLINE - 1) input
    generalize (cutLine 10 (MAXLINE - 1) input).1 = l at hstr hlast ⊢
    have hsplit : crlf ++ l.dropWhile (· ≠ 0) = l := by
      rw [← hstr]
      exact List.takeWhile_append_dropWhile
    -- A byte behind the newline would be one of the same line.
    cases hrest : l.dropWhile (· ≠ 0) with
    | nil => rw [← hsplit, hrest, List.append_nil]
    | cons c t =>
      rw [← hsplit, hrest] at hlast
      simp [crlf] at hlast
  · intro hline
    rw [hline]
    rfl

theorem cutLines_input {input : List Byte} (h : input ≠ []) :
    crlf ∈ cutLines 10 (MAXLINE - 1) input ↔
      lineIn buf input = crlf ∨ crlf ∈ cutLines 10 (MAXLINE - 1) (lineRest input) := by
  rw [cutLines_eq (by decide) h, List.mem_cons, lineIn_eq_crlf buf h, eq_comm]
  rfl

theorem lineRest_lt {input : List Byte} (h : input ≠ []) :
    (lineRest input).length < input.length := cutLine_rest_lt 10 (by decide) h

theorem lineRest_le (input : List Byte) : (lineRest input).length ≤ input.length := by
  by_cases hne : input = []
  · simp [hne, lineRest]
  · exact (lineRest_lt hne).le

/-- The two sides of a part of the program that neither sends nor builds strings. -/
structure Quiet (s t : Conn) : Prop where
  sent : t.sent = s.sent
  stores : t.stores = s.stores

theorem Quiet.refl (s : Conn) : Quiet s s := ⟨rfl, rfl⟩

theorem Quiet.trans {s t u : Conn} (h : Quiet s t) (h' : Quiet t u) : Quiet s u :=
  ⟨h'.sent.trans h.sent, h'.stores.trans h.stores⟩

theorem run_hdrsTurn (fuel : ℕ) (h : buf ≠ crlf) : ∃ t, Quiet s t ∧ t.input = lineRest s.input ∧
    (hdrsLoop (fuel + 1) buf).run (sem host) s =
      (hdrsLoop fuel (lineIn buf s.input)).run (sem host) t := by
  obtain ⟨rc, hread⟩ := run_rioReadlineb host buf s
  refine ⟨{ s with
    input := lineRest s.input
    stdout := s.stdout ++ (lineIn buf s.input ++ [10]) }, ⟨rfl, rfl⟩, rfl, ?_⟩
  rw [hdrsLoop, if_pos h, Prog.run_bind_ok hread]
  rfl

theorem run_hdrsLoop_ends : ∀ fuel (buf : List Byte) (s : Conn),
    (buf = crlf ∨ crlf ∈ cutLines 10 (MAXLINE - 1) s.input) → s.input.length < fuel →
      ∃ t, Quiet s t ∧ (hdrsLoop fuel buf).run (sem host) s = (.ok (), t)
  | 0, _, _, _, hfuel => absurd hfuel (Nat.not_lt_zero _)
  | fuel + 1, buf, s, h, hfuel => by
    by_cases hblank : buf = crlf
    · exact ⟨s, .refl s, by simp [hdrsLoop, hblank]⟩
    · have hmem := h.resolve_left hblank
      have hne : s.input ≠ [] := by
        intro he
        simp [he] at hmem
      obtain ⟨t, hquiet, hinput, hturn⟩ := run_hdrsTurn host buf s fuel hblank
      have hlt := lineRest_lt hne
      have hnext := (cutLines_input buf hne).mp hmem
      rw [← hinput] at hlt hnext
      obtain ⟨u, hquiet', hrun⟩ := run_hdrsLoop_ends fuel _ t hnext (by omega)
      exact ⟨u, hquiet.trans hquiet', hturn.trans hrun⟩

/-- Without a blank line to come, the loop over the headers never ends. -/
theorem run_hdrsLoop_spin : ∀ fuel (buf : List Byte) (s : Conn), buf ≠ crlf →
    crlf ∉ cutLines 10 (MAXLINE - 1) s.input →
      ∃ t, Quiet s t ∧ (hdrsLoop fuel buf).run (sem host) s = (.spin, t)
  | 0, _, s, _, _ => ⟨s, .refl s, rfl⟩
  | fuel + 1, buf, s, hblank, hmem => by
    obtain ⟨t, hquiet, hinput, hturn⟩ := run_hdrsTurn host buf s fuel hblank
    have hnext : lineIn buf s.input ≠ crlf ∧ crlf ∉ cutLines 10 (MAXLINE - 1) t.input := by
      rw [hinput]
      by_cases hne : s.input = []
      · simpa [lineIn, lineRest, hne] using hblank
      · rw [cutLines_input buf hne] at hmem
        exact not_or.mp hmem
    obtain ⟨u, hquiet', hrun⟩ := run_hdrsLoop_spin fuel _ t hnext.1 hnext.2
    exact ⟨u, hquiet.trans hquiet', hturn.trans hrun⟩

/-- `read_requesthdrs` returns if and only if the headers end. -/
theorem run_readRequesthdrs (hdrs : List Byte) :
    (HeadersEnd hdrs s.input → ∀ fuel, s.input.length < fuel →
      ∃ t, Quiet s t ∧ (readRequesthdrs fuel hdrs).run (sem host) s = (.ok (), t)) ∧
    (¬ HeadersEnd hdrs s.input → ∀ fuel,
      ∃ t, Quiet s t ∧ (readRequesthdrs fuel hdrs).run (sem host) s = (.spin, t)) := by
  obtain ⟨rc, hread⟩ := run_rioReadlineb host hdrs s
  have hquiet : Quiet s { s with input := lineRest s.input } := ⟨rfl, rfl⟩
  have hend : HeadersEnd hdrs s.input ↔ lineIn hdrs s.input = crlf ∨
      crlf ∈ cutLines 10 (MAXLINE - 1) (lineRest s.input) := by
    by_cases hne : s.input = []
    · simp [HeadersEnd, hne, lineIn, lineRest]
    · rw [HeadersEnd, cutLines_input hdrs hne]
      simp [hne]
  have hle := lineRest_le s.input
  constructor
  · intro h fuel hfuel
    obtain ⟨t, ht, hrun⟩ := run_hdrsLoop_ends host fuel (lineIn hdrs s.input)
      { s with input := lineRest s.input } (hend.mp h) (Nat.lt_of_le_of_lt hle hfuel)
    exact ⟨t, hquiet.trans ht, by rw [readRequesthdrs, Prog.run_bind_ok hread]; exact hrun⟩
  · intro h fuel
    obtain ⟨hblank, hmem⟩ := not_or.mp (mt hend.mpr h)
    obtain ⟨t, ht, hrun⟩ := run_hdrsLoop_spin host fuel (lineIn hdrs s.input)
      { s with input := lineRest s.input } hblank hmem
    exact ⟨t, hquiet.trans ht, by rw [readRequesthdrs, Prog.run_bind_ok hread]; exact hrun⟩

section Doit

theorem settles_orError (c : Call) (h : Reply c = Bool) (e : Err) : (orError c h e).Settles := by
  intro r
  dsimp only
  split
  · exact Prog.settles_ret _
  · exact Prog.settles_dump _

theorem settles_clienterror (cause : List Byte) (errnum shortmsg longmsg : String) :
    (clienterror cause errnum shortmsg longmsg).Settles := by
  simp only [clienterror, store, Prog.call_bind, Prog.pure_eq, Prog.ret_bind, Prog.Settles]
  exact fun _ _ _ _ _ _ => (settles_orError _ _ _).bind fun _ _ =>
    (settles_orError _ _ _).bind fun _ _ => (settles_orError _ _ _).bind fun _ =>
      settles_orError _ _ _

theorem settles_parseUri (uri : List Byte) : (parseUri uri).Settles := by
  simp only [parseUri, store, Prog.call_bind, Prog.pure_eq, Prog.ret_bind]
  split
  · split <;> simp [Prog.Settles]
  · simp [Prog.Settles]

theorem settles_answer (isStatic : Bool) (filename cgiargs : List Byte) (sbuf : Option File) :
    (answer isStatic filename cgiargs sbuf).Settles := by
  have herror := settles_clienterror filename
  cases sbuf with
  | none => exact herror _ _ _
  | some f =>
    simp only [answer]
    split
    · split
      · exact herror _ _ _
      · exact (settles_orError _ _ _).bind fun _ => (settles_orError _ _ _).bind fun _ =>
          (settles_orError _ _ _).bind fun _ _ => (settles_orError _ _ _).bind fun _ _ => trivial
    · split
      · exact herror _ _ _
      · exact (settles_orError _ _ _).bind fun _ => (settles_orError _ _ _).bind fun _ _ => trivial

/-- The arrays behind the request line. -/
def requestOf (v : Arrays) (input : List Byte) : Arrays := scanRequest (lineIn v.buf input) v

def IsGet (v : Arrays) (input : List Byte) : Prop :=
  SameCase (requestOf v input).method (encode "GET")

instance (v : Arrays) (input : List Byte) : Decidable (IsGet v input) :=
  inferInstanceAs (Decidable (SameCase _ _))

variable {v : Arrays} {input : List Byte}

variable (v input) in
theorem run_doit (fuel : ℕ) : ∃ t, Quiet (.start input) t ∧ t.input = lineRest input ∧
    (doit fuel v).run (sem host) (.start input) =
      (serve fuel (requestOf v input)).run (sem host) t := by
  obtain ⟨rc, hread⟩ := run_rioReadlineb host v.buf (.start input)
  refine ⟨{ Conn.start input with
    input := lineRest input
    stdout := encode "request headers:\n" ++ lineIn v.buf input }, ⟨rfl, rfl⟩, rfl, ?_⟩
  rw [doit, Prog.run_bind_ok hread]
  rfl

@[simp] theorem requestOf_hdrs : (requestOf v input).hdrs = v.hdrs := by
  rw [requestOf, scanRequest]
  repeat' split
  all_goals rfl

theorem doit_spins (hget : IsGet v input) (hend : ¬ HeadersEnd v.hdrs (lineRest input)) (fuel : ℕ) :
    ∃ t, Quiet (.start input) t ∧ (doit fuel v).run (sem host) (.start input) = (.spin, t) := by
  obtain ⟨t, hquiet, hinput, hrun⟩ := run_doit host v input fuel
  obtain ⟨u, hquiet', hspin⟩ := (run_readRequesthdrs host t v.hdrs).2
    (by rwa [hinput]) fuel
  refine ⟨u, hquiet.trans hquiet', ?_⟩
  have hmethod : ¬ ¬ SameCase (requestOf v input).method (encode "GET") := not_not.mpr hget
  rw [hrun, serve, if_neg hmethod, requestOf_hdrs, Prog.run_bind, hspin]

theorem doit_ends (h : ¬ IsGet v input ∨ HeadersEnd v.hdrs (lineRest input)) (fuel : ℕ)
    (hfuel : input.length < fuel) : ((doit fuel v).run (sem host) (.start input)).1 ≠ .spin := by
  obtain ⟨t, -, hinput, hrun⟩ := run_doit host v input fuel
  rw [hrun, serve]
  split
  · exact (settles_clienterror _ _ _ _).run_ne t
  · next hget =>
    have hle : t.input.length ≤ input.length := hinput ▸ lineRest_le input
    obtain ⟨u, -, hhdrs⟩ := (run_readRequesthdrs host t v.hdrs).1
      (by rw [hinput]; exact h.resolve_left (not_not.mpr (not_not.mp hget))) fuel (by omega)
    have hrest : (parseUri (requestOf v input).uri >>= fun x =>
      (.call (.stat x.2.1) .ret : TinyProg _) >>=
        fun sbuf => answer x.1 x.2.1 x.2.2 sbuf).Settles :=
      (settles_parseUri _).bind fun x _ => settles_answer _ _ _ _
    rw [requestOf_hdrs, Prog.run_bind_ok hhdrs]
    exact hrest.run_ne u

/-- For every input of a client, `doit` does not loop in `read_requesthdrs` for ever if and only if
the method is not `GET` or the headers end. -/
theorem doit_returns_iff (host : Host) (v : Arrays) (input : List Byte) :
    (∃ N, ∀ fuel, N ≤ fuel → ((doit fuel v).run (sem host) (.start input)).1 ≠ .spin) ↔
      ¬ IsGet v input ∨ HeadersEnd v.hdrs (lineRest input) := by
  constructor
  · rintro ⟨N, hN⟩
    by_contra h
    obtain ⟨hget, hend⟩ := not_or.mp h
    obtain ⟨t, -, hspin⟩ := doit_spins host (not_not.mp hget) hend N
    exact hN N le_rfl (by rw [hspin])
  · exact fun h => ⟨input.length + 1, fun fuel hfuel => doit_ends host h fuel hfuel⟩

/-- A request without any header, whose client closes its side behind the request line. -/
def unended : List Byte := encode "GET / HTTP/1.0\r\n"

/-- A host without files. -/
def bare : Host := ⟨fun _ => none, fun _ _ => [], 0⟩

/-- Memory that holds empty strings. -/
def zeros : Arrays := ⟨[], [], [], [], []⟩

theorem doit_unended : ¬ ∃ fuel, ((doit fuel zeros).run (sem bare) (.start unended)).1 ≠ .spin := by
  rintro ⟨fuel, h⟩
  have hget : IsGet zeros unended := by decide +kernel
  have hend : ¬ HeadersEnd zeros.hdrs (lineRest unended) := by decide +kernel
  obtain ⟨t, -, hspin⟩ := doit_spins bare hget hend fuel
  exact h (by rw [hspin])

end Doit

end Somenote.Tiny
