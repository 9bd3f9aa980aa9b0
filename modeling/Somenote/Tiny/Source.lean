import Somenote.Bytes.Lines
import Somenote.Bytes.Scan
import Somenote.Bytes.Search
import Somenote.Text.Source

/-! # The web server tiny

The functions of `tiny.c` that answer a request, and `rio_readlineb` of `csapp.c`. A character array
is the string that it holds, and its size is not checked: each string that a builder puts into an
array is data of a call. `sprintf` of an array into itself appends to it.
-/

namespace Somenote.Tiny

open Decimal Scan Search Text

def MAXLINE : ℕ := 8192

def MAXBUF : ℕ := 8192

def crlf : List Byte := [13, 10]

/-- The arrays that `parse_uri` and `clienterror` fill. -/
inductive Arr
  | filename | cgiargs | buf | body
  deriving DecidableEq, Repr

def Arr.size : Arr → ℕ
  | body => MAXBUF
  | _ => MAXLINE

/-- A regular file or another one, with the bits of its type and its permissions. -/
structure File where
  st_mode : BitVec 16
  content : List Byte
  deriving DecidableEq, Repr

def File.st_size (f : File) : ℕ := f.content.length

def S_IFMT : BitVec 16 := 0o170000

def S_IFREG : BitVec 16 := 0o100000

def S_IRUSR : BitVec 16 := 0o400

def S_IXUSR : BitVec 16 := 0o100

def S_ISREG (m : BitVec 16) : Prop := m &&& S_IFMT = S_IFREG

instance (m : BitVec 16) : Decidable (S_ISREG m) := inferInstanceAs (Decidable (_ = _))

/-- What `rio_read` gives for one byte. -/
inductive Got
  | byte (c : Byte)
  | eof
  | error

inductive Call
  | rioRead
  | printf (s : List Byte)
  | store (a : Arr) (s : List Byte)
  | stat (filename : List Byte)
  | writen (s : List Byte)
  | open (filename : List Byte)
  | mmap (length : ℕ)
  | close
  | writenMap (n : ℕ)
  | munmap
  | cgi (filename cgiargs : List Byte)

/-- A wrapper that finds an error says `false`. -/
@[reducible] def Reply : Call → Type
  | .rioRead => Got
  | .stat _ => Option File
  | .writen _ | .open _ | .mmap _ | .writenMap _ => Bool
  | _ => Unit

/-- The calls of `unix_error`, which end the process. -/
inductive Err
  | readlineb | writen | open | mmap
  deriving DecidableEq, Repr

abbrev TinyProg := Prog Call Reply Err

/-- The loop of `rio_readlineb`, which has `k` turns left: its value, and the bytes in the buffer
if it sets their end. -/
def readlineLoop : ℕ → ℤ → List Byte → TinyProg (ℤ × Option (List Byte))
  | 0, n, l => pure (n, some l)
  | k + 1, n, l =>
    .call .rioRead fun
      | .byte c => if c = 10 then pure (n, some (l ++ [c])) else readlineLoop k (n + 1) (l ++ [c])
      | .eof => if n = 1 then pure (0, none) else pure (n, some l)
      | .error => pure (-1, none)

/-- `Rio_readlineb`, with the string that the buffer holds before it and behind it. -/
def rioReadlineb (usrbuf : List Byte) (maxlen : ℕ) : TinyProg (ℤ × List Byte) := do
  let (rc, line) ← readlineLoop (maxlen - 1) 1 []
  if rc < 0 then .dump .readlineb else pure (rc, line.elim usrbuf cstr)

def printf (s : List Byte) : TinyProg Unit := .call (.printf s) fun _ => pure ()

def store (a : Arr) (s : List Byte) : TinyProg Unit := .call (.store a s) fun _ => pure ()

/-- The wrappers, with the error of `unix_error`. -/
def orError (c : Call) (h : Reply c = Bool) (e : Err) : TinyProg Unit :=
  .call c fun r => if cast h r then pure () else .dump e

def rioWriten (s : List Byte) : TinyProg Unit := orError (.writen s) rfl .writen

def clienterror (cause : List Byte) (errnum shortmsg longmsg : String) : TinyProg Unit := do
  let body := encode "<html><title>Tiny Error</title>"
  store .body body
  let body := body ++ encode "<body bgcolor=ffffff>\r\n"
  store .body body
  let body := body ++ encode errnum ++ encode ": " ++ encode shortmsg ++ crlf
  store .body body
  let body := body ++ encode "<p>" ++ encode longmsg ++ encode ": " ++ cause ++ crlf
  store .body body
  let body := body ++ encode "<hr><em>The Tiny Web server</em>\r\n"
  store .body body
  let buf := encode "HTTP/1.0 " ++ encode errnum ++ encode " " ++ encode shortmsg ++ crlf
  store .buf buf
  rioWriten buf
  let buf := encode "Content-type: text/html\r\n"
  store .buf buf
  rioWriten buf
  let buf := encode "Content-length: " ++ dec body.length ++ encode "\r\n\r\n"
  store .buf buf
  rioWriten buf
  rioWriten body

/-- The loop of `read_requesthdrs`. -/
def hdrsLoop : ℕ → List Byte → TinyProg Unit
  | 0, _ => .spin
  | fuel + 1, buf =>
    if buf ≠ crlf then do
      let (_, buf) ← rioReadlineb buf MAXLINE
      printf (buf ++ [10])
      hdrsLoop fuel buf
    else pure ()

/-- The buffer is not initialised; `buf` is the string that its memory holds. -/
def readRequesthdrs (fuel : ℕ) (buf : List Byte) : TinyProg Unit := do
  let (_, buf) ← rioReadlineb buf MAXLINE
  hdrsLoop fuel buf

/-- The value of `parse_uri`, and what it leaves in `filename` and `cgiargs`. -/
def parseUri (uri : List Byte) : TinyProg (Bool × List Byte × List Byte) := do
  if (search (encode "cgi-bin") uri).isNone then do
    store .cgiargs []
    store .filename (encode ".")
    let filename := encode "." ++ uri
    store .filename filename
    if uri.getLast? = some 47 then do
      let filename := filename ++ encode "home.html"
      store .filename filename
      pure (true, filename, [])
    else pure (true, filename, [])
  else do
    let ptr := uri.dropWhile (· ≠ 63)
    let cgiargs := ptr.tail
    let uri := uri.takeWhile (· ≠ 63)
    store .cgiargs cgiargs
    store .filename (encode ".")
    let filename := encode "." ++ uri
    store .filename filename
    pure (false, filename, cgiargs)

def getFiletype (filename : List Byte) : List Byte :=
  if (search (encode ".html") filename).isSome then encode "text/html"
  else if (search (encode ".gif") filename).isSome then encode "image/gif"
  else if (search (encode ".jpg") filename).isSome then encode "image/jpeg"
  else encode "text/plain"

/-- The header that `serve_static` sends. -/
def staticHeader (filename : List Byte) (filesize : ℕ) : List Byte :=
  encode "HTTP/1.0 200 OK\r\n" ++ encode "Server: Tiny Web Server\r\n" ++
    encode "Content-length: " ++ dec filesize ++ crlf ++
    encode "Content-type: " ++ getFiletype filename ++ encode "\r\n\r\n"

def serveStatic (filename : List Byte) (filesize : ℕ) : TinyProg Unit := do
  rioWriten (staticHeader filename filesize)
  orError (.open filename) rfl .open
  orError (.mmap filesize) rfl .mmap
  .call .close fun _ => pure ()
  orError (.writenMap filesize) rfl .writen
  .call .munmap fun _ => pure ()

/-- The child that runs the program is one call. -/
def serveDynamic (filename cgiargs : List Byte) : TinyProg Unit := do
  rioWriten (encode "HTTP/1.0 200 OK \r\n")
  rioWriten (encode "server:tiny web server\r\n")
  .call (.cgi filename cgiargs) fun _ => pure ()

/-- The strings in the arrays of `doit` and of `read_requesthdrs` before anything is put there. -/
structure Arrays where
  buf : List Byte
  method : List Byte
  uri : List Byte
  version : List Byte
  hdrs : List Byte

/-- The conversions `%s %s %s` of `sscanf`. An array keeps its string when no word is left. -/
def scanRequest (buf : List Byte) (v : Arrays) : Arrays :=
  match word buf with
  | none => v
  | some (method, s) =>
    match word s with
    | none => { v with method }
    | some (uri, s) =>
      match word s with
      | none => { v with method, uri }
      | some (version, _) => { v with method, uri, version }

def toLower (c : Byte) : Byte := if 65 ≤ c ∧ c ≤ 90 then c + 32 else c

/-- `strcasecmp` finds no difference. -/
def SameCase (s t : List Byte) : Prop := s.map toLower = t.map toLower

instance (s t : List Byte) : Decidable (SameCase s t) := inferInstanceAs (Decidable (_ = _))

/-- What `doit` does with the file of a request. -/
def answer (isStatic : Bool) (filename cgiargs : List Byte) (sbuf : Option File) : TinyProg Unit :=
  match sbuf with
  | none => clienterror filename "404" "not found" "tiny can't find this file"
  | some sbuf =>
    if isStatic then
      if ¬ S_ISREG sbuf.st_mode ∨ S_IRUSR &&& sbuf.st_mode = 0 then
        clienterror filename "403" "forbidden" "tiny can't read"
      else serveStatic filename sbuf.st_mode.toNat
    else
      if ¬ S_ISREG sbuf.st_mode ∨ S_IXUSR &&& sbuf.st_mode = 0 then
        clienterror filename "403" "forbidden" "tiny can't read"
      else serveDynamic filename cgiargs

/-- `doit` behind the request line. -/
def serve (fuel : ℕ) (v : Arrays) : TinyProg Unit :=
  if ¬ SameCase v.method (encode "GET") then
    clienterror v.method "501" "not implemented" "tiny does not implemented this method"
  else do
    readRequesthdrs fuel v.hdrs
    let (isStatic, filename, cgiargs) ← parseUri v.uri
    let sbuf ← (.call (.stat filename) .ret : TinyProg _)
    answer isStatic filename cgiargs sbuf

def doit (fuel : ℕ) (v : Arrays) : TinyProg Unit := do
  let (_, buf) ← rioReadlineb v.buf MAXLINE
  printf (encode "request headers:\n")
  printf buf
  serve fuel (scanRequest buf v)

/-- The files of the server, what a program writes, and how much of a mapping gets through when its
end cannot be read. -/
structure Host where
  files : List Byte → Option File
  cgi : List Byte → List Byte → List Byte
  through : ℕ

def pageSize : ℕ := 4096

/-- The memory of a mapping. It ends with the page that holds the last byte of the file. -/
def mapped (content : List Byte) : List Byte :=
  content ++ List.replicate ((pageSize - content.length % pageSize) % pageSize) 0

/-- A connection: what the client still sends before it closes its side, what was printed and what
was sent, the strings that were built, and the contents of the open file. -/
structure Conn where
  input : List Byte
  stdout : List Byte
  sent : List Byte
  stores : List (Arr × List Byte)
  file : List Byte
  deriving DecidableEq, Repr

def Conn.start (input : List Byte) : Conn := ⟨input, [], [], [], []⟩

/-- The client takes everything that is sent. -/
def sem (host : Host) : (c : Call) → Conn → Reply c × Conn
  | .rioRead, s =>
    match s.input with
    | [] => (.eof, s)
    | c :: input => (.byte c, { s with input })
  | .printf t, s => ((), { s with stdout := s.stdout ++ t })
  | .store a t, s => ((), { s with stores := s.stores ++ [(a, t)] })
  | .stat filename, s => (host.files filename, s)
  | .writen t, s => (true, { s with sent := s.sent ++ t })
  | .open filename, s =>
    match host.files filename with
    | none => (false, s)
    | some f => (true, { s with file := f.content })
  | .mmap length, s => (decide (length ≠ 0), s)
  | .close, s => ((), s)
  | .writenMap n, s =>
    if n ≤ (mapped s.file).length then (true, { s with sent := s.sent ++ (mapped s.file).take n })
    else (false, { s with sent := s.sent ++ (mapped s.file).take host.through })
  | .munmap, s => ((), s)
  | .cgi filename cgiargs, s => ((), { s with sent := s.sent ++ host.cgi filename cgiargs })

end Somenote.Tiny
