import Somenote.Rio.Calls
import Somenote.Tiny.Source

/-! # Runs of calls over one buffer

The calls of `rio_readnb` and `rio_readlineb` on one `rio_t` in any order, from `rio_readinitb` on.
The last section compares `rio_readlineb` with the loop of tiny, which takes its bytes one by one
from the connection.
-/

namespace Somenote.Rio

open Arrivals

variable (k : Kernel) (buf : List Byte)

theorem run_eq {s : Reader} (hs : s.Inside) (cs : List Call) :
    (run s cs).2.Inside ∧ (run s cs).1 = answers s.pending cs ∧
      ∃ used, s.pending = used ++ (run s cs).2.pending ∧
        (run s cs).1.flatMap Answer.stored = items used := by
  induction cs generalizing s with
  | nil => exact ⟨hs, rfl, [], rfl, rfl⟩
  | cons c cs ih =>
    obtain ⟨hstep, hrest, hanswer⟩ := step_eq hs c
    obtain ⟨hinside, hanswers, used, hused, hitems⟩ := ih hstep
    refine ⟨hinside, ?_, ?_⟩
    · rw [run, answers, hanswers, hanswer, hrest]
    · obtain ⟨first, hfirst, hstored⟩ := c.take_used s.pending
      refine ⟨first ++ used, ?_, ?_⟩
      · rw [List.append_assoc, run, ← hused, hrest]
        exact hfirst
      · rw [run, List.flatMap_cons, hitems, items_append, hanswer, c.stored_answer, hstored]

theorem run_inside (cs : List Call) : (run (rioReadinitb k buf) cs).2.Inside :=
  (run_eq (Reader.inside_init k buf) cs).1

/-- The answers of every run are those of the arrivals: the segments, the interrupted calls and what
the buffer held before are not seen. -/
theorem answers_of_arrivals (cs : List Call) :
    (run (rioReadinitb k buf) cs).1 = answers k.pending cs := by
  have h := (run_eq (Reader.inside_init k buf) cs).2.1
  rwa [Reader.pending_init] at h

/-- What the calls of a run have stored is, byte for byte, what has come, and the rest is to come. -/
theorem stored_in_order (cs : List Call) :
    ∃ used, k.pending = used ++ (run (rioReadinitb k buf) cs).2.pending ∧
      (run (rioReadinitb k buf) cs).1.flatMap Answer.stored = items used := by
  have h := (run_eq (Reader.inside_init k buf) cs).2.2
  rwa [Reader.pending_init] at h

/-- `rio_readn` answers as `rio_readnb` does on a new buffer. Behind the buffered call, the kernel
lacks the bytes that are unread in the buffer. -/
theorem rioReadn_rioReadnb (n : ℕ) :
    (rioReadn k n).1 = (rioReadnb (rioReadinitb k buf) n).1 ∧
      (rioReadn k n).2.pending = (rioReadnb (rioReadinitb k buf) n).2.unread.map .item ++
        (rioReadnb (rioReadinitb k buf) n).2.kernel.pending := by
  obtain ⟨hrest, hanswer⟩ := rioReadn_eq k n
  obtain ⟨-, hrest', hanswer'⟩ := rioReadnb_eq (Reader.inside_init k buf) n
  rw [Reader.pending_init] at hrest' hanswer'
  exact ⟨hanswer.trans hanswer'.symm, hrest.trans hrest'.symm⟩

section Lines

variable (cs : List Call) (maxlen : LineSize)

/-- The answer of `rio_readlineb` after a run of calls. -/
def lineAfter : Answer := (rioReadlineb (run (rioReadinitb k buf) cs).2 maxlen).1

theorem line_answer : ∃ e l, (e = .stop ↔ (10 : Byte) ∈ l) ∧ l.length ≤ maxlen.1 - 1 ∧
    lineAfter k buf cs maxlen = lineAnswer e l ∧ (maxlen.1 = 0 → e = .full) := by
  have h := (rioReadlineb_eq (run_inside k buf cs) maxlen).2.2
  refine ⟨_, _, ?_, take_length_le, h, ?_⟩
  · rw [Call.take, take_stop_iff]
    simp
  · intro hzero
    simp [Call.take, hzero]

theorem lineAnswer_ret (e : Ending) (l : List Byte) :
    (lineAnswer e l).ret = -1 ∨ (lineAnswer e l).ret = (lineAnswer e l).stored.length ∨
      (lineAnswer e l).ret = (lineAnswer e l).stored.length + 1 := by
  cases e with
  | stop => exact Or.inr (Or.inl rfl)
  | full => exact Or.inr (Or.inr rfl)
  | eof =>
    simp only [lineAnswer]
    split
    · next hl => exact Or.inr (Or.inl (by rw [hl]; rfl))
    · exact Or.inr (Or.inr rfl)
  | error => exact Or.inl rfl

/-- The value of `rio_readlineb` is the number of the bytes only if they have the newline, and at an
end of the file with none. A line that is cut, by its end or by `maxlen`, is counted one too long. -/
theorem readlineb_counts_iff :
    ((lineAfter k buf cs maxlen).ret = -1 ∨
      (lineAfter k buf cs maxlen).ret = (lineAfter k buf cs maxlen).stored.length ∨
      (lineAfter k buf cs maxlen).ret = (lineAfter k buf cs maxlen).stored.length + 1) ∧
    ((lineAfter k buf cs maxlen).ret = (lineAfter k buf cs maxlen).stored.length ↔
      10 ∈ (lineAfter k buf cs maxlen).stored ∨ (lineAfter k buf cs maxlen).ret = 0) := by
  obtain ⟨e, l, hstop, -, ha, -⟩ := line_answer k buf cs maxlen
  rw [ha]
  refine ⟨lineAnswer_ret e l, ?_⟩
  have hnl (he : e ≠ .stop) : (10 : Byte) ∉ l := fun h => he (hstop.mpr h)
  cases e with
  | stop => simp [lineAnswer, hstop.mp rfl]
  | full =>
    simp only [lineAnswer, hnl (by decide), false_or]
    omega
  | eof =>
    simp only [lineAnswer]
    split
    · simp [*]
    · simp only [hnl (by decide), false_or]
      omega
  | error =>
    simp only [lineAnswer, hnl (by decide), false_or]
    omega

/-- The line and its `NUL` fit into the array, unless `maxlen` is 0. -/
theorem readlineb_overruns_iff :
    maxlen.1 < (lineAfter k buf cs maxlen).stored.length + (lineAfter k buf cs maxlen).nul.toNat ↔
      maxlen.1 = 0 := by
  obtain ⟨e, l, -, hlen, ha, hzero⟩ := line_answer k buf cs maxlen
  rw [ha]
  have hstored : (lineAnswer e l).stored = l := Call.stored_answer (.readlineb maxlen) e l
  have hnul := (lineAnswer e l).nul.toNat_le
  simp only [hstored]
  constructor
  · intro h
    omega
  · intro h
    rw [hzero h]
    simp [lineAnswer, h]

end Lines

section Connection

variable (host : Tiny.Host)

theorem run_tiny_readlineLoop {k : ℕ} {n : ℤ} {l : List Byte} (hn : n = l.length + 1)
    (c : Tiny.Conn) :
    let t := take (· == 10) k (c.input.map .item)
    let a := lineAnswer t.ending (l ++ t.items)
    (Tiny.readlineLoop k n l).run (Tiny.sem host) c =
      (.ok (a.ret, if a.nul then some a.stored else none), { c with input := items t.rest }) := by
  obtain ⟨input, stdout, sent, stores, file⟩ := c
  induction k generalizing n l input with
  | zero => simp [Tiny.readlineLoop, lineAnswer, hn]
  | succ k ih =>
    rw [Tiny.readlineLoop, Prog.run_call]
    cases input with
    | nil =>
      by_cases hl : l = [] <;> simp [Tiny.sem, lineAnswer, hl, hn]
    | cons b input =>
      rw [List.map_cons, take_item]
      by_cases hb : b = 10
      · simp [Tiny.sem, hb, lineAnswer, hn]
      · have hrun := ih (n := n + 1) (l := l ++ [b]) (by simp [hn]) input
        simpa [Tiny.sem, hb, Taken.cons] using hrun

/-- Over a `rio_t` whose kernel delivers the input of the connection, `rio_readlineb` does what the
loop of tiny does, with the same value, the same line and the same input behind it. -/
theorem tiny_readlineb {s : Reader} (hs : s.Inside) (c : Tiny.Conn)
    (hc : s.pending = c.input.map .item) (maxlen : LineSize) :
    (Tiny.readlineLoop (maxlen.1 - 1) 1 []).run (Tiny.sem host) c =
      (.ok ((rioReadlineb s maxlen).1.ret,
        if (rioReadlineb s maxlen).1.nul then some (rioReadlineb s maxlen).1.stored else none),
        { c with input := items (rioReadlineb s maxlen).2.pending }) := by
  obtain ⟨-, hrest, hanswer⟩ := rioReadlineb_eq hs maxlen
  have hrun := run_tiny_readlineLoop host (k := maxlen - 1) (l := []) rfl c
  rw [hanswer, hrest, hc]
  exact hrun

/-- Tiny gets the same first line from a connection however the network cuts its bytes. -/
theorem tiny_line (k : Kernel) (buf : List Byte) (c : Tiny.Conn)
    (hk : k.pending = c.input.map .item) (maxlen : LineSize) :
    let r := rioReadlineb (rioReadinitb k buf) maxlen
    (Tiny.readlineLoop (maxlen.1 - 1) 1 []).run (Tiny.sem host) c =
      (.ok (r.1.ret, if r.1.nul then some r.1.stored else none),
        { c with input := items r.2.pending }) :=
  tiny_readlineb host (Reader.inside_init k buf) c ((Reader.pending_init k buf).trans hk) maxlen

theorem tiny_line_split :
    let k : Kernel := ⟨[.segment [71, 69], .error EINTR, .segment [84, 10]], 0⟩
    let r := rioReadlineb (rioReadinitb k []) ⟨8, by decide⟩
    (Tiny.readlineLoop 7 1 []).run (Tiny.sem ⟨fun _ => none, fun _ _ => [], 0⟩)
        (.start [71, 69, 84, 10]) =
      (.ok (r.1.ret, if r.1.nul then some r.1.stored else none),
        { Tiny.Conn.start [71, 69, 84, 10] with input := items r.2.pending }) :=
  tiny_line _ _ [] _ (by simp [Kernel.pending, arrivals, Tiny.Conn.start]) ⟨8, by decide⟩

end Connection

end Somenote.Rio
