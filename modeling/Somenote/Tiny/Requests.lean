import Somenote.Tiny.Headers

/-! # What a request asks for

The file and the arguments that a URI names, and the strings that are built on the way to them.
-/

namespace Somenote.Tiny

open Search Text

/-- The URI names a program. -/
def IsCgi (uri : List Byte) : Prop := encode "cgi-bin" <:+: uri

instance (uri : List Byte) : Decidable (IsCgi uri) := inferInstanceAs (Decidable (_ <:+: _))

/-- The URI up to its question mark. -/
def pathOf (uri : List Byte) : List Byte := uri.takeWhile (· ≠ 63)

/-- The name of the file that a URI asks for. -/
def fileOf (uri : List Byte) : List Byte :=
  if IsCgi uri then encode "." ++ pathOf uri
  else if uri.getLast? = some 47 then encode "." ++ uri ++ encode "home.html"
  else encode "." ++ uri

def argsOf (uri : List Byte) : List Byte :=
  if IsCgi uri then (uri.dropWhile (· ≠ 63)).tail else []

/-- The strings that `parse_uri` builds. -/
def storesOf (uri : List Byte) : List (Arr × List Byte) :=
  if IsCgi uri then
    [(.cgiargs, argsOf uri), (.filename, encode "."), (.filename, fileOf uri)]
  else
    [(.cgiargs, []), (.filename, encode "."), (.filename, encode "." ++ uri)] ++
      if uri.getLast? = some 47 then [(.filename, fileOf uri)] else []

variable (host : Host) {v : Arrays} {input : List Byte}

theorem run_parseUri (uri : List Byte) (s : Conn) : (parseUri uri).run (sem host) s =
    (.ok (!decide (IsCgi uri), fileOf uri, argsOf uri),
      { s with stores := s.stores ++ storesOf uri }) := by
  have hsearch : (search (encode "cgi-bin") uri).isNone ↔ ¬ IsCgi uri := by
    rw [IsCgi, ← search_isSome]
    cases search (encode "cgi-bin") uri <;> simp
  by_cases hcgi : IsCgi uri
  · rw [parseUri, if_neg (by simpa [hsearch] using hcgi)]
    simp [store, sem, hcgi, fileOf, argsOf, storesOf, pathOf]
  · rw [parseUri, if_pos (hsearch.mpr hcgi)]
    by_cases hlast : uri.getLast? = some 47
    · simp [store, sem, hcgi, fileOf, argsOf, storesOf, hlast]
    · simp [store, sem, hcgi, fileOf, argsOf, storesOf, hlast]

/-- A `GET` request whose headers end. -/
structure Complete (v : Arrays) (input : List Byte) : Prop where
  get : IsGet v input
  ends : HeadersEnd v.hdrs (lineRest input)

/-- The URI of a request. -/
def uriOf (v : Arrays) (input : List Byte) : List Byte := (requestOf v input).uri

/-- A complete request gets its answer. -/
theorem run_doit_complete (h : Complete v input) (fuel : ℕ) (hfuel : input.length < fuel) :
    ∃ t, t.sent = [] ∧ t.stores = storesOf (uriOf v input) ∧
      (doit fuel v).run (sem host) (.start input) =
        (answer (!decide (IsCgi (uriOf v input))) (fileOf (uriOf v input)) (argsOf (uriOf v input))
          (host.files (fileOf (uriOf v input)))).run (sem host) t := by
  obtain ⟨t, hquiet, hinput, hrun⟩ := run_doit host v input fuel
  have hle := lineRest_le input
  obtain ⟨u, hquiet', hhdrs⟩ := (run_readRequesthdrs host t v.hdrs).1
    (by rw [hinput]; exact h.ends) fuel (by rw [hinput]; omega)
  have hboth := hquiet.trans hquiet'
  refine ⟨{ u with stores := storesOf (uriOf v input) }, hboth.sent, rfl, ?_⟩
  have hmethod : ¬ ¬ SameCase (requestOf v input).method (encode "GET") := not_not.mpr h.get
  rw [hrun, serve, if_neg hmethod, requestOf_hdrs, Prog.run_bind_ok hhdrs,
    Prog.run_bind_ok (run_parseUri host _ u)]
  rw [hboth.stores]
  rfl

end Somenote.Tiny
