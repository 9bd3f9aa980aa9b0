import Somenote.Tiny.Requests

/-! # The framing of static responses

`doit` gives the mode of the file to `serve_static`, which takes it for the size.
-/

namespace Somenote.Tiny

open Decimal Text

variable {host : Host} {v : Arrays} {input : List Byte} {f : File}

/-- A request that is answered through `serve_static`, with the regular and readable file `f`. -/
structure Served (host : Host) (v : Arrays) (input : List Byte) (f : File) : Prop
    extends Complete v input where
  static : ¬ IsCgi (uriOf v input)
  file : host.files (fileOf (uriOf v input)) = some f
  regular : S_ISREG f.st_mode
  readable : S_IRUSR &&& f.st_mode ≠ 0

/-- The header names the size of the file, and its contents follow. -/
def Framed (filename : List Byte) (f : File) (sent : List Byte) : Prop :=
  sent = staticHeader filename f.st_size ++ f.content

instance (filename : List Byte) (f : File) (sent : List Byte) :
    Decidable (Framed filename f sent) :=
  inferInstanceAs (Decidable (_ = _))

theorem staticHeader_inj {filename x y : List Byte} {m n : ℕ}
    (h : staticHeader filename m ++ x = staticHeader filename n ++ y) : m = n := by
  simp only [staticHeader, crlf, List.append_assoc, List.append_cancel_left_eq,
    List.cons_append] at h
  have hval := congrArg digitsVal h
  rwa [digitsVal_dec_append (by decide), digitsVal_dec_append (by decide)] at hval

theorem mode_ne_zero {m : BitVec 16} (h : S_ISREG m) : m.toNat ≠ 0 := by
  intro h0
  obtain rfl : m = 0 := BitVec.eq_of_toNat_eq (by simpa using h0)
  exact absurd h (by decide)

/-- What is sent of the mapping of a file, when `n` of its bytes are asked for. -/
def bodyOf (host : Host) (f : File) (n : ℕ) : List Byte :=
  if n ≤ (mapped f.content).length then (mapped f.content).take n
  else (mapped f.content).take host.through

theorem sent_serveStatic {filename : List Byte} {n : ℕ} (hfile : host.files filename = some f)
    (hn : n ≠ 0) (s : Conn) : ((serveStatic filename n).run (sem host) s).2.sent =
      s.sent ++ (staticHeader filename n ++ bodyOf host f n) := by
  by_cases hle : n ≤ (mapped f.content).length
  · simp [serveStatic, rioWriten, orError, sem, hfile, hn, hle, bodyOf]
  · simp [serveStatic, rioWriten, orError, sem, hfile, hn, hle, bodyOf]

theorem bodyOf_size : bodyOf host f f.st_size = f.content := by
  rw [bodyOf, if_pos (by simp [mapped, File.st_size])]
  simp [mapped, File.st_size]

/-- The `Content-length` is the size of the file and the body is its content, if and only if its
size is its mode. -/
theorem static_framed_iff (h : Served host v input f) (fuel : ℕ) (hfuel : input.length < fuel) :
    Framed (fileOf (uriOf v input)) f ((doit fuel v).run (sem host) (.start input)).2.sent ↔
      f.st_mode.toNat = f.st_size := by
  obtain ⟨t, hsent, -, hrun⟩ := run_doit_complete host h.toComplete fuel hfuel
  have hok : ¬ (¬ S_ISREG f.st_mode ∨ S_IRUSR &&& f.st_mode = 0) :=
    not_or.mpr ⟨not_not.mpr h.regular, h.readable⟩
  rw [hrun, h.file]
  simp only [answer, h.static, decide_false, Bool.not_false, if_true, if_neg hok]
  rw [sent_serveStatic h.file (mode_ne_zero h.regular), hsent, List.nil_append, Framed]
  constructor
  · exact staticHeader_inj
  · intro hsize
    rw [hsize, bodyOf_size]

/-- A file that its owner can read and write. -/
def greeting : File := ⟨0o100644, encode "hi"⟩

def oneFile : Host :=
  ⟨fun name => if name = encode "./a.txt" then some greeting else none, fun _ _ => [], 0⟩

def getGreeting : List Byte := encode "GET /a.txt HTTP/1.0\r\n\r\n"

theorem static_framed_greeting : Framed (encode "./a.txt") greeting
      ((doit 30 zeros).run (sem oneFile) (.start getGreeting)).2.sent ↔
    greeting.st_mode.toNat = greeting.st_size :=
  static_framed_iff (v := zeros)
    ⟨⟨by decide +kernel, by decide +kernel⟩, by decide +kernel, by decide +kernel, by decide,
      by decide⟩ 30 (by decide)

theorem greeting_unframed : ¬ Framed (encode "./a.txt") greeting
    ((doit 30 zeros).run (sem oneFile) (.start getGreeting)).2.sent := by
  decide +kernel

end Somenote.Tiny
