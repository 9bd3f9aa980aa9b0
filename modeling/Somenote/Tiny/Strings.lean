import Somenote.Tiny.Requests

/-! # The lengths of the strings

The name of a file is longer than its URI, and the page of an error quotes the name. No builder
looks at the size of its array.
-/

namespace Somenote.Tiny

open Decimal Lines Scan Text

variable {host : Host} {v : Arrays} {input : List Byte} {s : Conn}

/-- Each string has room in its array, with its NUL. -/
def Fit (l : List (Arr × List Byte)) : Prop := ∀ x ∈ l, x.2.length < x.1.size

@[simp] theorem fit_nil : Fit [] := by simp [Fit]

@[simp] theorem fit_cons {x : Arr × List Byte} {l : List (Arr × List Byte)} :
    Fit (x :: l) ↔ x.2.length < x.1.size ∧ Fit l := by simp [Fit]

@[simp] theorem fit_append {l l' : List (Arr × List Byte)} : Fit (l ++ l') ↔ Fit l ∧ Fit l' := by
  simp [Fit, or_imp, forall_and]

section Names

/-- The length of the name that a URI asks for. -/
def nameLength (uri : List Byte) : ℕ :=
  if IsCgi uri then 1 + (pathOf uri).length
  else if uri.getLast? = some 47 then 1 + uri.length + 9
  else 1 + uri.length

theorem length_fileOf (uri : List Byte) : (fileOf uri).length = nameLength uri := by
  have hdot : (encode ".").length = 1 := rfl
  have hhome : (encode "home.html").length = 9 := rfl
  rw [fileOf, nameLength]
  split
  · rw [List.length_append, hdot]
  · split <;> simp only [List.length_append, hdot, hhome]

theorem length_argsOf_le (uri : List Byte) : (argsOf uri).length ≤ uri.length := by
  rw [argsOf]
  split
  · have hdrop := (List.dropWhile_suffix (· ≠ (63 : Byte)) (l := uri)).length_le
    rw [List.length_tail]
    omega
  · simp

theorem fit_storesOf {uri : List Byte} (h : uri.length < MAXLINE) :
    Fit (storesOf uri) ↔ nameLength uri < MAXLINE := by
  have hargs := length_argsOf_le uri
  have hdot : (encode ".").length = 1 := rfl
  have hmax : MAXLINE = 8192 := rfl
  rw [← length_fileOf, storesOf]
  split
  · simp only [fit_cons, fit_nil, and_true, Arr.size, hdot]
    omega
  · next hcgi =>
    have hname := length_fileOf uri
    rw [nameLength, if_neg hcgi] at hname
    split at hname
    · next hlast =>
      simp only [hlast, if_true, fit_append, fit_cons, fit_nil, and_true, Arr.size,
        List.length_append, hdot, List.length_nil]
      omega
    · next hlast =>
      simp only [hlast, if_false, List.append_nil, fit_cons, fit_nil, and_true, Arr.size,
        List.length_append, hdot, List.length_nil]
      omega

end Names

section Pages

variable (cause : List Byte) (errnum shortmsg longmsg : String)

/-- The page of an error up to its first line, and with it. -/
def pageHead : List Byte := encode "<html><title>Tiny Error</title>"

def pageTop : List Byte := pageHead ++ encode "<body bgcolor=ffffff>\r\n"

def pageTitle : List Byte := pageTop ++ encode errnum ++ encode ": " ++ encode shortmsg ++ crlf

def pageText : List Byte :=
  pageTitle errnum shortmsg ++ encode "<p>" ++ encode longmsg ++ encode ": " ++ cause ++ crlf

def page : List Byte :=
  pageText cause errnum shortmsg longmsg ++ encode "<hr><em>The Tiny Web server</em>\r\n"

def statusLine : List Byte :=
  encode "HTTP/1.0 " ++ encode errnum ++ encode " " ++ encode shortmsg ++ crlf

def lengthLine (n : ℕ) : List Byte := encode "Content-length: " ++ dec n ++ encode "\r\n\r\n"

/-- The strings that `clienterror` builds. -/
def errorStores : List (Arr × List Byte) :=
  [(.body, pageHead), (.body, pageTop), (.body, pageTitle errnum shortmsg),
    (.body, pageText cause errnum shortmsg longmsg), (.body, page cause errnum shortmsg longmsg),
    (.buf, statusLine errnum shortmsg), (.buf, encode "Content-type: text/html\r\n"),
    (.buf, lengthLine (page cause errnum shortmsg longmsg).length)]

theorem run_clienterror : ((clienterror cause errnum shortmsg longmsg).run (sem host) s).2.stores =
    s.stores ++ errorStores cause errnum shortmsg longmsg := by
  simp [clienterror, store, rioWriten, orError, sem, errorStores, pageHead, pageTop, pageTitle,
    pageText, page, statusLine, lengthLine]

theorem fit_errorStores : Fit (errorStores cause errnum shortmsg longmsg) ↔
    (page cause errnum shortmsg longmsg).length < MAXBUF := by
  have hmax : MAXLINE = 8192 := rfl
  have hbuf : MAXBUF = 8192 := rfl
  constructor
  · intro h
    exact h (.body, page cause errnum shortmsg longmsg) (by simp [errorStores])
  · intro h
    have htype : (encode "Content-type: text/html\r\n").length = 25 := rfl
    have hlength :
        (lengthLine (page cause errnum shortmsg longmsg).length).length ≤ 16 + 4 + 4 := by
      have hdec : (dec (page cause errnum shortmsg longmsg).length).length ≤ 4 :=
        length_dec_le (by decide) (by omega)
      have hfront : (encode "Content-length: ").length = 16 := rfl
      have hback : (encode "\r\n\r\n").length = 4 := rfl
      simp only [lengthLine, List.length_append, hfront, hback]
      omega
    have hstatus : (statusLine errnum shortmsg).length ≤
        (page cause errnum shortmsg longmsg).length := by
      have hhttp : (encode "HTTP/1.0 ").length = 9 := rfl
      have hblank : (encode " ").length = 1 := rfl
      have hhead : pageHead.length = 31 := rfl
      simp only [statusLine, page, pageText, pageTitle, pageTop, List.length_append, hhttp, hblank,
        hhead]
      omega
    have htext : (pageText cause errnum shortmsg longmsg).length ≤
        (page cause errnum shortmsg longmsg).length := by simp [page]
    have htitle : (pageTitle errnum shortmsg).length ≤
        (pageText cause errnum shortmsg longmsg).length := by simp [pageText]
    have htop : pageTop.length ≤ (pageTitle errnum shortmsg).length := by simp [pageTitle]
    have hhead : pageHead.length ≤ pageTop.length := by simp [pageTop]
    simp only [errorStores, fit_cons, fit_nil, and_true, Arr.size]
    omega

end Pages

section Requests

variable {uri : List Byte} {file : Option File}

/-- The file may not be served: it is not a regular one, or its owner cannot run or read it. -/
def Refused (uri : List Byte) (f : File) : Prop :=
  ¬ S_ISREG f.st_mode ∨ (if IsCgi uri then S_IXUSR else S_IRUSR) &&& f.st_mode = 0

instance (uri : List Byte) (f : File) : Decidable (Refused uri f) :=
  inferInstanceAs (Decidable (_ ∨ _))

/-- The page that answers a request for a file that is not served: its number, its title and its
text. -/
def refusal (uri : List Byte) : Option File → Option (String × String × String)
  | none => some ("404", "not found", "tiny can't find this file")
  | some f => if Refused uri f then some ("403", "forbidden", "tiny can't read") else none

/-- The bytes of that page that do not depend on the name. -/
def overhead (uri : List Byte) : Option File → Option ℕ
  | none => some 136
  | some f => if Refused uri f then some 126 else none

theorem overhead_eq : overhead uri file =
    (refusal uri file).map fun x => (page [] x.1 x.2.1 x.2.2).length := by
  cases file with
  | none => rfl
  | some f =>
    rw [overhead, refusal]
    split <;> rfl

theorem length_page (cause : List Byte) (errnum shortmsg longmsg : String) :
    (page cause errnum shortmsg longmsg).length =
      (page [] errnum shortmsg longmsg).length + cause.length := by
  simp only [page, pageText, List.length_append, List.length_nil]
  omega

theorem stores_serveStatic (filename : List Byte) (n : ℕ) :
    ((serveStatic filename n).run (sem host) s).2.stores = s.stores := by
  cases hfile : host.files filename with
  | none => simp [serveStatic, rioWriten, orError, sem, hfile]
  | some f =>
    by_cases hn : n = 0
    · simp [serveStatic, rioWriten, orError, sem, hfile, hn]
    · by_cases hle : n ≤ (mapped f.content).length <;>
        simp [serveStatic, rioWriten, orError, sem, hfile, hn, hle]

theorem stores_serveDynamic (filename cgiargs : List Byte) :
    ((serveDynamic filename cgiargs).run (sem host) s).2.stores = s.stores := by
  simp [serveDynamic, rioWriten, orError, sem]

/-- The strings of an answer are those of its error page. -/
theorem stores_answer (cgiargs : List Byte) :
    ((answer (!decide (IsCgi uri)) (fileOf uri) cgiargs file).run (sem host) s).2.stores =
      s.stores ++ (refusal uri file).elim [] fun x => errorStores (fileOf uri) x.1 x.2.1 x.2.2 := by
  cases file with
  | none => exact run_clienterror _ _ _ _
  | some f =>
    by_cases hcgi : IsCgi uri
    · simp only [answer, refusal, Refused, hcgi, decide_true, Bool.not_true, if_true,
        Bool.false_eq_true, if_false]
      split
      · exact run_clienterror _ _ _ _
      · simp [stores_serveDynamic]
    · simp only [answer, refusal, Refused, hcgi, decide_false, Bool.not_false, if_true, if_false]
      split
      · exact run_clienterror _ _ _ _
      · simp [stores_serveStatic]

/-- A request line with a URI was read. -/
structure HasUri (v : Arrays) (input uri : List Byte) : Prop where
  line : input ≠ []
  words : ∃ method rest rest', word (lineIn v.buf input) = some (method, rest) ∧
    word rest = some (uri, rest')

theorem HasUri.uriOf_eq (h : HasUri v input uri) : uriOf v input = uri := by
  obtain ⟨method, rest, rest', hmethod, huri⟩ := h.words
  rw [uriOf, requestOf, scanRequest, hmethod]
  dsimp only
  rw [huri]
  dsimp only
  split <;> rfl

theorem HasUri.length_lt (h : HasUri v input uri) : uri.length < MAXLINE := by
  obtain ⟨method, rest, rest', hmethod, huri⟩ := h.words
  have hline : (lineIn v.buf input).length ≤ MAXLINE - 1 := by
    rw [lineIn, if_neg h.line]
    exact le_trans (List.takeWhile_prefix _).length_le (cutLine_length _ _ _)
  have hmax : MAXLINE = 8192 := rfl
  have hword := word_length hmethod
  have hword' := word_length huri
  omega

/-- The strings that the answer to a request builds have room, whatever fuel its headers take. -/
def StringsFit (host : Host) (v : Arrays) (input : List Byte) : Prop :=
  ∀ fuel, input.length < fuel → Fit ((doit fuel v).run (sem host) (.start input)).2.stores

/-- What a request asks of the lengths. -/
def Short (host : Host) (uri : List Byte) : Prop :=
  nameLength uri < MAXLINE ∧
    ∀ k ∈ overhead uri (host.files (fileOf uri)), k + nameLength uri < MAXBUF

theorem fit_doit (hget : IsGet v input) (huri : HasUri v input uri)
    (hend : HeadersEnd v.hdrs (lineRest input)) (fuel : ℕ) (hfuel : input.length < fuel) :
    Fit ((doit fuel v).run (sem host) (.start input)).2.stores ↔ Short host uri := by
  obtain ⟨t, -, hparse, hrun⟩ := run_doit_complete host ⟨hget, hend⟩ fuel hfuel
  rw [huri.uriOf_eq] at hparse hrun
  rw [hrun, stores_answer, hparse, fit_append, fit_storesOf huri.length_lt, Short, overhead_eq]
  cases refusal uri (host.files (fileOf uri)) with
  | none => simp
  | some x => simp [fit_errorStores, length_page (fileOf uri), length_fileOf]

/-- The strings have room if and only if the headers do not end, so that nothing is built, or the
name has room and so has the page that quotes it. -/
theorem strings_fit_iff (hget : IsGet v input) (huri : HasUri v input uri) :
    StringsFit host v input ↔ ¬ HeadersEnd v.hdrs (lineRest input) ∨ Short host uri := by
  by_cases hend : HeadersEnd v.hdrs (lineRest input)
  · constructor
    · exact fun h => Or.inr
        ((fit_doit hget huri hend _ (Nat.lt_succ_self _)).mp (h _ (Nat.lt_succ_self _)))
    · intro h fuel hfuel
      exact (fit_doit hget huri hend fuel hfuel).mpr (h.resolve_left (not_not.mpr hend))
  · constructor
    · exact fun _ => Or.inl hend
    · intro _ fuel _
      obtain ⟨t, hquiet, hspin⟩ := doit_spins host hget hend fuel
      rw [hspin, hquiet.stores]
      exact fit_nil

end Requests

section Sample

theorem hasUri_index :
    HasUri zeros (encode "GET /index.html HTTP/1.0\r\n\r\n") (encode "/index.html") :=
  ⟨by decide, encode "GET", encode " /index.html HTTP/1.0\r\n", encode " HTTP/1.0\r\n",
    by decide +kernel, by decide +kernel⟩

theorem strings_fit_index :
    StringsFit bare zeros (encode "GET /index.html HTTP/1.0\r\n\r\n") ↔
      ¬ HeadersEnd zeros.hdrs (lineRest (encode "GET /index.html HTTP/1.0\r\n\r\n")) ∨
        Short bare (encode "/index.html") :=
  strings_fit_iff (by decide +kernel) hasUri_index

theorem lineIn_line (buf : List Byte) {l : List Byte} (h : 10 ∉ l) (h0 : 0 ∉ l)
    (hlen : l.length < MAXLINE - 1)
    (t : List Byte) : lineIn buf (l ++ 10 :: t) = l ++ [10] ∧ lineRest (l ++ 10 :: t) = t := by
  have hcut := cutLine_line h hlen t
  have hstr : cstr (l ++ [10]) = l ++ [10] :=
    List.takeWhile_eq_self_iff.mpr fun c hc => by
      rcases List.mem_append.mp hc with hc | hc
      · exact decide_eq_true fun he => h0 (he ▸ hc)
      · simp [List.mem_singleton.mp hc]
  exact ⟨by rw [lineIn, if_neg (by simp), hcut, hstr], by rw [lineRest, hcut]⟩

/-- A request for a name of `n` slashes. -/
def slashes (n : ℕ) : List Byte :=
  (71 :: 69 :: 84 :: 32 :: (List.replicate n 47 ++ [13])) ++ 10 :: crlf

theorem lineIn_slashes {n : ℕ} (hn : n ≤ 8182) :
    lineIn zeros.buf (slashes n) = [71, 69, 84] ++ 32 :: (List.replicate n 47 ++ [13, 10]) ∧
      lineRest (slashes n) = crlf := by
  obtain ⟨hline, hrest⟩ :=
    lineIn_line zeros.buf (l := 71 :: 69 :: 84 :: 32 :: (List.replicate n 47 ++ [13]))
    (by simp) (by simp) (by simp [MAXLINE]; omega) crlf
  exact ⟨by simpa [slashes] using hline, hrest⟩

theorem hasUri_slashes {n : ℕ} (hn : n ≤ 8182) (hpos : 0 < n) :
    IsGet zeros (slashes n) ∧ HasUri zeros (slashes n) (List.replicate n 47) := by
  have hget := word_front (w := [71, 69, 84]) (c := 32) (by decide) (by decide +kernel) (by decide)
    (List.replicate n 47 ++ [13, 10])
  have huri := word_front (w := List.replicate n 47) (c := 13) (by simp; omega)
    (fun d hd => by rw [List.eq_of_mem_replicate hd]; rfl) (by decide) [10]
  rw [← (lineIn_slashes hn).1] at hget
  refine ⟨?_, ⟨by simp [slashes], _, _, _, hget, by rw [word_blank (by decide)]; exact huri⟩⟩
  rw [IsGet, requestOf, scanRequest, hget]
  dsimp only
  rw [word_blank (by decide), huri]
  dsimp only
  split <;> exact (by decide : SameCase [71, 69, 84] (encode "GET"))

theorem nameLength_slashes {n : ℕ} (hpos : 0 < n) : nameLength (List.replicate n 47) = n + 10 := by
  have hcgi : ¬ IsCgi (List.replicate n 47) := by
    intro hinfix
    have hmem := hinfix.subset (a := 99) (by decide)
    exact absurd (List.eq_of_mem_replicate hmem) (by decide)
  have hlast : (List.replicate n (47 : Byte)).getLast? = some 47 := by
    rw [List.getLast?_replicate, if_neg (by omega)]
  rw [nameLength, if_neg hcgi, if_pos hlast, List.length_replicate]
  omega

theorem slashes_long {n : ℕ} (hn : n ≤ 8182) (hpos : 0 < n)
    (h : StringsFit host zeros (slashes n)) :
    n + 10 < MAXLINE := by
  obtain ⟨hget, huri⟩ := hasUri_slashes hn hpos
  have hend : HeadersEnd zeros.hdrs (lineRest (slashes n)) := by
    rw [(lineIn_slashes hn).2]
    decide +kernel
  have hshort := (fit_doit hget huri hend _ (Nat.lt_succ_self _)).mp (h _ (Nat.lt_succ_self _))
  rw [← nameLength_slashes hpos]
  exact hshort.1

/-- The name is longer than the array by one byte. -/
theorem slashes_overflow : ¬ StringsFit bare zeros (slashes 8182) :=
  fun h => absurd (slashes_long le_rfl (by decide) h) (by decide)

end Sample

end Somenote.Tiny
