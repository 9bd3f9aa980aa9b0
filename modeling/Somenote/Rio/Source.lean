import Mathlib.Algebra.Ring.Int.Defs
import Somenote.Bytes.Words

/-! # Robust input and output

The functions `rio_readn`, `rio_read`, `rio_readnb`, `rio_readlineb` and `rio_writen` of `csapp.c`.
The array of the user is what a call stores from its first byte on. Sizes are below the bound of
`ssize_t`.
-/

namespace Somenote.Rio

def RIO_BUFSIZE : ℕ := 8192

def EINTR : ℕ := 4

/-- What comes to the descriptor: bytes in one piece, of which none mean the end of the file, or the
error of a call. -/
inductive Event
  | segment (l : List Byte)
  | error (errno : ℕ)
  deriving DecidableEq, Repr

/-- The descriptor is at the end of the file behind the last event. -/
structure Kernel where
  events : List Event
  errno : ℕ
  deriving DecidableEq, Repr

/-- The value of `read`, the bytes that it stores, and the kernel behind it. -/
def Kernel.read (k : Kernel) (count : ℕ) : (ℤ × List Byte) × Kernel :=
  match k.events with
  | [] => ((0, []), k)
  | .error e :: es => ((-1, []), ⟨es, e⟩)
  | .segment l :: es =>
    (((l.take count).length, l.take count),
      { k with events := if l.length ≤ count then es else .segment (l.drop count) :: es })

def Event.size : Event → ℕ
  | segment l => l.length + 1
  | error _ => 1

/-- The bytes, the errors and the ends that are to come. -/
def Kernel.size (k : Kernel) : ℕ := k.events.foldr (fun e n => e.size + n) 0

theorem Kernel.read_size (k : Kernel) {count : ℕ} (h : (k.read count).1.1 ≠ 0) :
    (k.read count).1.1.toNat + (k.read count).2.size ≤ k.size ∧
      (k.read count).2.size < k.size := by
  obtain ⟨events, errno⟩ := k
  unfold read size at *
  rcases events with _ | ⟨l | e, es⟩
  · exact absurd rfl h
  · simp only [List.length_take, Int.toNat_natCast] at *
    split <;> simp [Event.size] <;> omega
  · simp [Event.size]

/-- A `rio_t` and the kernel under it. -/
structure Reader where
  rio_cnt : ℤ
  rio_bufptr : ℕ
  rio_buf : List Byte
  kernel : Kernel
  deriving DecidableEq, Repr

def rioReadinitb (kernel : Kernel) (rio_buf : List Byte) : Reader := ⟨0, 0, rio_buf, kernel⟩

/-- One `read` into the buffer. -/
def Reader.fill (s : Reader) : Reader :=
  let r := s.kernel.read RIO_BUFSIZE
  { s with
    rio_cnt := r.1.1
    rio_buf := r.1.2 ++ s.rio_buf.drop r.1.2.length
    kernel := r.2 }

def Reader.size (s : Reader) : ℕ := s.rio_cnt.toNat + s.kernel.size

theorem Reader.fill_size (s : Reader) (h : s.fill.rio_cnt ≠ 0) :
    s.fill.size ≤ s.kernel.size ∧ s.fill.kernel.size < s.kernel.size :=
  s.kernel.read_size h

/-- The loop of `rio_read`, and what it returns if it returns. -/
def refill (s : Reader) : Option ℤ × Reader :=
  if s.rio_cnt ≤ 0 then
    if hneg : s.fill.rio_cnt < 0 then
      if s.fill.kernel.errno ≠ EINTR then (some (-1), s.fill) else refill s.fill
    else if s.fill.rio_cnt = 0 then (some 0, s.fill)
    else (none, { s.fill with rio_bufptr := 0 })
  else (none, s)
termination_by s.kernel.size
decreasing_by exact (s.fill_size (Int.ne_of_lt hneg)).2

def Reader.advance (s : Reader) (cnt : ℤ) : Reader :=
  { s with rio_bufptr := s.rio_bufptr + cnt.toNat, rio_cnt := s.rio_cnt - cnt }

def rioRead (s : Reader) (n : ℕ) : (ℤ × List Byte) × Reader :=
  match refill s with
  | (some rc, s) => ((rc, []), s)
  | (none, s) =>
    -- `n` goes into an `int` and stays there only if it is not above `rio_cnt`.
    let cnt := if s.rio_cnt < n then s.rio_cnt else n
    ((cnt, (s.rio_buf.drop s.rio_bufptr).take cnt.toNat), s.advance cnt)

theorem refill_some (s : Reader) {rc : ℤ} (h : (refill s).1 = some rc) (hrc : rc ≠ 0) :
    (refill s).2.size < s.size := by
  fun_induction refill s with
  | case1 s hcnt hneg herr =>
    have hsize := s.fill_size (Int.ne_of_lt hneg)
    simp only [Reader.size] at *
    omega
  | case2 s hcnt hneg herr ih =>
    have hsize := s.fill_size (Int.ne_of_lt hneg)
    have hrest := ih h
    simp only [Reader.size] at *
    omega
  | case3 s hcnt hneg hz => exact absurd (Option.some.inj h).symm hrc
  | case4 s hcnt hneg hz => cases h
  | case5 s hcnt => cases h

theorem refill_none (s : Reader) (h : (refill s).1 = none) :
    (refill s).2.size ≤ s.size ∧ 0 < (refill s).2.rio_cnt := by
  fun_induction refill s with
  | case1 s hcnt hneg herr => cases h
  | case2 s hcnt hneg herr ih =>
    have hsize := s.fill_size (Int.ne_of_lt hneg)
    have hrest := ih h
    simp only [Reader.size] at *
    omega
  | case3 s hcnt hneg hz => cases h
  | case4 s hcnt hneg hz =>
    have hsize := s.fill_size hz
    simp only [Reader.size] at *
    omega
  | case5 s hcnt =>
    simp only [Reader.size]
    omega

/-- A call consumes what it gives, and an error. -/
theorem rioRead_size (s : Reader) {n : ℕ} (hn : 0 < n) (h : (rioRead s n).1.1 ≠ 0) :
    (rioRead s n).2.size < s.size := by
  rcases hr : refill s with ⟨_ | rc, t⟩
  · have hsize := refill_none s (by rw [hr])
    simp only [rioRead, hr, Reader.size, Reader.advance] at *
    split <;> omega
  · simp only [rioRead, hr] at h ⊢
    have hsize := refill_some s (by rw [hr]) h
    rwa [hr] at hsize

/-- What a loop over a descriptor or over a `rio_t` reads from. A call with another value than 0
brings it nearer to its end. -/
structure Input (σ : Type) where
  io : σ → ℕ → (ℤ × List Byte) × σ
  errno : σ → ℕ
  size : σ → ℕ
  lt : ∀ {s : σ} {n : ℕ}, 0 < n → (io s n).1.1 ≠ 0 → size (io s n).2 < size s

def fromKernel : Input Kernel :=
  ⟨Kernel.read, Kernel.errno, Kernel.size, fun _ h => (Kernel.read_size _ h).2⟩

def fromReader : Input Reader := ⟨rioRead, fun s => s.kernel.errno, Reader.size, rioRead_size _⟩

/-- The value of a function and what it has stored, where a `NUL` behind the bytes is a mark. -/
structure Answer where
  ret : ℤ
  stored : List Byte
  nul : Bool
  deriving DecidableEq, Repr

/-- The loop of `rio_readn` and of `rio_readnb`. -/
def readLoop {σ : Type} (I : Input σ) (n : ℕ) (s : σ) (nleft : ℕ) (usrbuf : List Byte) :
    Answer × σ :=
  if nleft > 0 then
    let r := I.io s nleft
    if r.1.1 < 0 then
      if I.errno r.2 = EINTR then readLoop I n r.2 nleft usrbuf else (⟨-1, usrbuf, false⟩, r.2)
    else if r.1.1 = 0 then (⟨n - nleft, usrbuf, false⟩, r.2)
    else readLoop I n r.2 (nleft - r.1.1.toNat) (usrbuf ++ r.1.2)
  else (⟨n - nleft, usrbuf, false⟩, s)
termination_by I.size s
decreasing_by
  · exact I.lt ‹_› (Int.ne_of_lt ‹_›)
  · exact I.lt ‹_› ‹_›

def rioReadn (k : Kernel) (n : ℕ) : Answer × Kernel := readLoop fromKernel n k n []

def rioReadnb (s : Reader) (n : ℕ) : Answer × Reader := readLoop fromReader n s n []

/-- The loop of `rio_readlineb`, which has `k` turns left, and what follows it. -/
def readlineLoop : ℕ → ℕ → List Byte → Reader → Answer × Reader
  | 0, n, usrbuf, s => (⟨n, usrbuf, true⟩, s)
  | k + 1, n, usrbuf, s =>
    let r := rioRead s 1
    if r.1.1 = 1 then
      if r.1.2 = [10] then (⟨n, usrbuf ++ r.1.2, true⟩, r.2)
      else readlineLoop k (n + 1) (usrbuf ++ r.1.2) r.2
    else if r.1.1 = 0 then
      if n = 1 then (⟨0, usrbuf, false⟩, r.2) else (⟨n, usrbuf, true⟩, r.2)
    else (⟨-1, usrbuf, false⟩, r.2)

/-- A size up to which an `int` counts. -/
abbrev LineSize := { maxlen : ℕ // maxlen ≤ INT_MAX }

def rioReadlineb (s : Reader) (maxlen : LineSize) : Answer × Reader :=
  readlineLoop (maxlen.1 - 1) 1 [] s

/-- The calls that go through one `rio_t`. -/
inductive Call
  | readnb (n : ℕ)
  | readlineb (maxlen : LineSize)
  deriving DecidableEq, Repr

def step (s : Reader) : Call → Answer × Reader
  | .readnb n => rioReadnb s n
  | .readlineb maxlen => rioReadlineb s maxlen

def run (s : Reader) : List Call → List Answer × Reader
  | [] => ([], s)
  | c :: cs => ((step s c).1 :: (run (step s c).2 cs).1, (run (step s c).2 cs).2)

/-- What a `write` does: it takes at most so many bytes, perhaps none, or it is an error. -/
inductive Accept
  | takes (c : ℕ)
  | error (errno : ℕ)
  deriving DecidableEq, Repr

/-- Behind the last of them, every `write` takes all. -/
structure Sink where
  accepts : List Accept
  errno : ℕ
  out : List Byte
  deriving DecidableEq, Repr

def Sink.write (k : Sink) (bufp : List Byte) : ℤ × Sink :=
  match k.accepts with
  | [] => (bufp.length, { k with out := k.out ++ bufp })
  | .error e :: as => (-1, { k with accepts := as, errno := e })
  | .takes c :: as =>
    ((bufp.take c).length, { k with accepts := as, out := k.out ++ bufp.take c })

/-- What `nleft` and the answers to come bound. -/
def Sink.left (k : Sink) (bufp : List Byte) : ℕ := k.accepts.length + bufp.length

theorem Sink.write_left (k : Sink) {bufp : List Byte} (h : bufp ≠ []) :
    ((k.write bufp).1 ≤ 0 → (k.write bufp).2.left bufp < k.left bufp) ∧
      (k.write bufp).2.left (bufp.drop (k.write bufp).1.toNat) < k.left bufp := by
  have hpos := List.length_pos_iff.mpr h
  obtain ⟨accepts, errno, out⟩ := k
  rcases accepts with _ | ⟨c | e, as⟩
  · simp only [write, left, List.length_drop, List.length_nil]
    omega
  · simp only [write, left, List.length_drop, List.length_cons]
    omega
  · simp only [write, left, List.length_drop, List.length_cons]
    omega

/-- The loop of `rio_writen`. A `write` that takes nothing is retried if the last error was an
interruption. -/
def writenLoop (n : ℕ) (k : Sink) (bufp : List Byte) : ℤ × Sink :=
  if hleft : bufp ≠ [] then
    if (k.write bufp).1 ≤ 0 then
      if (k.write bufp).2.errno = EINTR then writenLoop n (k.write bufp).2 bufp
      else (-1, (k.write bufp).2)
    else writenLoop n (k.write bufp).2 (bufp.drop (k.write bufp).1.toNat)
  else (n, k)
termination_by k.left bufp
decreasing_by
  · exact (k.write_left hleft).1 ‹_›
  · exact (k.write_left hleft).2

def rioWriten (k : Sink) (usrbuf : List Byte) : ℤ × Sink := writenLoop usrbuf.length k usrbuf

end Somenote.Rio
