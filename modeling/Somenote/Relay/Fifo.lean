import Somenote.Relay.Source

/-! # The two queues of the client

What has been read from standard input has been written to the socket, but for the bytes
between the two pointers of one buffer, and the same holds for the socket and standard
output, in every state of the loop.
-/

namespace Somenote.Relay

section Queue

variable {s bs inn out : List Byte} {o i n : ℕ}

theorem slice_self (s : List Byte) (o : ℕ) : slice s o o = [] := by
  rw [slice, List.drop_eq_nil_iff, List.length_take]
  exact Nat.min_le_left ..

theorem length_slice (h : i ≤ s.length) : (slice s o i).length = i - o := by
  rw [slice, List.length_drop, List.length_take, Nat.min_eq_left h]

/-- A buffer whose bytes between two pointers have come in and not gone out. -/
structure Queue (buf : List Byte) (optr iptr : ℕ) (inn out : List Byte) : Prop where
  length : buf.length = maxline
  optr_le : optr ≤ iptr
  iptr_le : iptr ≤ maxline
  content : inn = out ++ slice buf optr iptr

namespace Queue

theorem fill (h : Queue s o i inn out) (hbs : bs.length ≤ maxline - i) :
    Queue (overwrite 0 s i bs) o (i + bs.length) (inn ++ bs) out where
  length := by
    have hi := h.iptr_le
    have hs := h.length
    simp only [overwrite, List.length_append, List.length_take, List.length_replicate,
      List.length_drop]
    omega
  optr_le := h.optr_le.trans (Nat.le_add_right ..)
  iptr_le := by
    have hi := h.iptr_le
    omega
  content := by
    have hi : i ≤ s.length := h.length ▸ h.iptr_le
    have hlen : (s.take i).length = i := by rw [List.length_take, Nat.min_eq_left hi]
    have htake : (overwrite 0 s i bs).take (i + bs.length) = s.take i ++ bs := by
      have hpad : i - s.length = 0 := Nat.sub_eq_zero_of_le hi
      rw [overwrite, hpad, List.replicate_zero, List.append_nil]
      exact List.take_left' (by rw [List.length_append, hlen])
    have ho := h.optr_le
    rw [h.content, slice, slice, htake, List.drop_append_of_le_length (by omega),
      List.append_assoc]

theorem drain (h : Queue s o i inn out) (hn : n ≤ (slice s o i).length) :
    Queue s (o + n) i inn (out ++ (slice s o i).take n) where
  length := h.length
  optr_le := by
    have ho := h.optr_le
    rw [length_slice (h.length ▸ h.iptr_le)] at hn
    omega
  iptr_le := h.iptr_le
  content := by
    have hs : slice s (o + n) i = (slice s o i).drop n := by rw [slice, slice, List.drop_drop]
    rw [h.content, hs, List.append_assoc, List.take_append_drop]

theorem reset (h : Queue s o o inn out) : Queue s 0 0 inn out where
  length := h.length
  optr_le := le_rfl
  iptr_le := Nat.zero_le _
  content := by rw [h.content, slice_self, slice_self]

theorem eq_iff (h : Queue s o i inn out) : inn = out ↔ o = i := by
  rw [h.content, List.append_right_eq_self, ← List.length_eq_zero_iff,
    length_slice (h.length ▸ h.iptr_le)]
  have ho := h.optr_le
  omega

end Queue

end Queue

variable {fd : Fd} {h h' h₁ : List Event} {e : Event} {n : ℕ} {input bs : List Byte} {b : Bool}

theorem readFrom_snoc : readFrom fd (h ++ [e]) = readFrom fd h ++ e.got fd := by
  simp [readFrom]

theorem writtenTo_snoc : writtenTo fd (h ++ [e]) = writtenTo fd h ++ e.put fd := by
  simp [writtenTo]

/-- A read of `n` bytes of standard input has returned nothing behind the calls `h₁`. -/
def EofAt (h h₁ : List Event) (n : ℕ) : Prop := ∃ h₂, h = h₁ ++ ⟨.read .stdin n, .ok []⟩ :: h₂

theorem eofAt_snoc :
    EofAt (h ++ [e]) h₁ n ↔ EofAt h h₁ n ∨ h₁ = h ∧ e = ⟨.read .stdin n, .ok []⟩ := by
  constructor
  · rintro ⟨h₂, hh⟩
    rcases List.eq_nil_or_concat h₂ with rfl | ⟨h₂, e', rfl⟩
    · obtain ⟨rfl, he⟩ := List.append_inj' hh rfl
      exact Or.inr ⟨rfl, by simpa using he⟩
    · rw [List.concat_eq_append, ← List.cons_append, ← List.append_assoc] at hh
      obtain ⟨rfl, -⟩ := List.append_inj' hh rfl
      exact Or.inl ⟨h₂, rfl⟩
  · rintro (⟨h₂, rfl⟩ | ⟨rfl, rfl⟩)
    · exact ⟨h₂ ++ [e], by simp⟩
    · exact ⟨[], rfl⟩

/-- What has been read from standard input, and `stdineof`. -/
structure Log (input : List Byte) (stdineof : Bool) (h : List Event) : Prop where
  unread : ∃ rest, input = readFrom .stdin h ++ rest
  eof : stdineof = true → ∃ h₁ n, EofAt h h₁ n ∧ (n = 0 ∨ readFrom .stdin h₁ = input)
  eof_at : ∀ h₁ n, EofAt h h₁ n → stdineof = true ∧ readFrom .stdin h = readFrom .stdin h₁

namespace Log

theorem snoc (hl : Log input b h) (hg : e.got .stdin = [])
    (he : ∀ n, e ≠ ⟨.read .stdin n, .ok []⟩) : Log input b (h ++ [e]) where
  unread := by
    rw [readFrom_snoc, hg, List.append_nil]
    exact hl.unread
  eof hb := by
    obtain ⟨h₁, n, hat, hn⟩ := hl.eof hb
    exact ⟨h₁, n, eofAt_snoc.mpr (Or.inl hat), hn⟩
  eof_at h₁ n hat := by
    rcases eofAt_snoc.mp hat with hat | ⟨-, hbad⟩
    · rw [readFrom_snoc, hg, List.append_nil]
      exact hl.eof_at h₁ n hat
    · exact absurd hbad (he n)

theorem read (hl : Log input false h) (hbs : bs ≠ [])
    (hin : ∃ rest, input = readFrom .stdin h ++ bs ++ rest) :
    Log input false (h ++ [⟨.read .stdin n, .ok bs⟩]) where
  unread := by
    obtain ⟨rest, hr⟩ := hin
    exact ⟨rest, by rw [readFrom_snoc, hr]; rfl⟩
  eof hb := by cases hb
  eof_at h₁ n hat := by
    rcases eofAt_snoc.mp hat with hat | ⟨-, hbad⟩
    · exact absurd (hl.eof_at h₁ n hat).1 (by simp)
    · simp only [Sigma.mk.injEq, Call.read.injEq, true_and] at hbad
      obtain ⟨rfl, hbad⟩ := hbad
      cases hbad
      exact absurd rfl hbs

theorem stop (hl : Log input false h) (hn : n = 0 ∨ readFrom .stdin h = input) :
    Log input true (h ++ [⟨.read .stdin n, .ok []⟩]) where
  unread := by
    obtain ⟨rest, hr⟩ := hl.unread
    exact ⟨rest, by rw [readFrom_snoc, hr]; simp [Event.got]⟩
  eof _ := ⟨h, n, eofAt_snoc.mpr (Or.inr ⟨rfl, rfl⟩), hn⟩
  eof_at h₁ n' hat := by
    rcases eofAt_snoc.mp hat with hat | ⟨rfl, -⟩
    · exact absurd (hl.eof_at h₁ n' hat).1 (by simp)
    · exact ⟨rfl, by rw [readFrom_snoc]; simp [Event.got]⟩

end Log

/-- What holds in every state of the loop. -/
structure Fifo (input : List Byte) (x : Pc × Vars) (h : List Event) : Prop where
  toq : Queue x.2.tobuf x.2.tooptr x.2.toiptr (readFrom .stdin h) (writtenTo .sock h)
  frq : Queue x.2.frbuf x.2.froptr x.2.friptr (readFrom .sock h) (writtenTo .stdout h)
  log : Log input x.2.stdineof h
  reading : x.1 = .readStdin → x.2.rset .stdin = true → x.2.stdineof = false

/-- The last call was a write to the socket that took a part of its bytes only. -/
def ShortWrite (h : List Event) : Prop :=
  ∃ bs n, h.getLast? = some ⟨.write .sock bs, .ok n⟩ ∧ n < bs.length

/-- The runs, with what a call of `shutdown` finds. -/
def shutdowns (input : List Byte) : Protocol Call Reply (List Event) where
  Ok h c := ∀ fd, c = .shutdown fd → (readFrom .stdin h = writtenTo .sock h ↔ ¬ ShortWrite h)
  Next := (runs input).Next

/-- What a segment leads to: the next state, or the return of the function. -/
def Behind (input : List Byte) (v : Vars) (o : Option (Pc × Vars)) (h : List Event) : Prop :=
  match o with
  | some x => Fifo input x h
  | none => readFrom .sock h = writtenTo .stdout h ↔ v.froptr = v.friptr

variable {v : Vars}

theorem Fifo.quiet {x y : Pc × Vars} (hf : Fifo input x h) (hr : ∀ fd, e.got fd = [])
    (hw : ∀ fd, e.put fd = []) (hlog : Log input y.2.stdineof (h ++ [e]))
    (ht : y.2.tobuf = x.2.tobuf ∧ y.2.tooptr = x.2.tooptr ∧ y.2.toiptr = x.2.toiptr)
    (hfr : y.2.frbuf = x.2.frbuf ∧ y.2.froptr = x.2.froptr ∧ y.2.friptr = x.2.friptr)
    (hread : y.1 = .readStdin → y.2.rset .stdin = true → y.2.stdineof = false) :
    Fifo input y (h ++ [e]) where
  toq := by
    rw [readFrom_snoc, writtenTo_snoc, hr, hw, List.append_nil, List.append_nil, ht.1, ht.2.1,
      ht.2.2]
    exact hf.toq
  frq := by
    rw [readFrom_snoc, writtenTo_snoc, hr, hw, List.append_nil, List.append_nil, hfr.1, hfr.2.1,
      hfr.2.2]
    exact hf.frq
  log := hlog
  reading := hread

theorem fifo_select (hf : Fifo input (.top, v) h) :
    (select v).Obeys (shutdowns input) h fun v' => Fifo input (.readStdin, v') := by
  unfold select
  refine Prog.obeys_call (fun fd hc => by cases hc) ?_
  rintro ⟨rset, wset⟩ h' ⟨⟨hr, -⟩, rfl⟩
  refine hf.quiet (fun _ => rfl) (fun _ => rfl) (hf.log.snoc rfl fun n hn => by cases hn)
    ⟨rfl, rfl, rfl⟩ ⟨rfl, rfl, rfl⟩ fun _ hset => ?_
  have hs := hr .stdin hset
  simp only [decide_eq_true_eq] at hs
  exact hs.1

theorem fifo_readStdin (hf : Fifo input (.readStdin, v) h) :
    (readStdin v).Obeys (shutdowns input) h fun v' => Fifo input (.readSocket, v') := by
  unfold readStdin
  refine Prog.obeys_ite (fun hset => ?_) fun _ => ⟨hf.toq, hf.frq, hf.log, by simp⟩
  have hb : v.stdineof = false := hf.reading rfl hset
  have hlog : Log input false h := hb ▸ hf.log
  refine Prog.obeys_call (fun fd hc => by cases hc) ?_
  rintro (e | bs) h' ⟨henv, rfl⟩
  · refine Prog.obeys_ite (fun _ => trivial) fun _ => ?_
    exact hf.quiet (fun _ => rfl) (fun _ => rfl) (hf.log.snoc rfl fun n hn => by cases hn)
      ⟨rfl, rfl, rfl⟩ ⟨rfl, rfl, rfl⟩ (by simp)
  obtain ⟨hle, hin⟩ := henv
  obtain ⟨rest, hin, hend⟩ := hin rfl
  cases bs with
  | nil =>
    have hstop : Log input true (h ++ [⟨.read .stdin (maxline - v.toiptr), .ok []⟩]) := by
      refine hlog.stop (Or.imp_right (fun hr => ?_) (hend rfl))
      rw [hin, hr, List.append_nil, List.append_nil]
    have hf' : Fifo input (.readSocket, { v with stdineof := true })
        (h ++ [⟨.read .stdin (maxline - v.toiptr), .ok []⟩]) :=
      hf.quiet (by simp [Event.got]) (fun _ => rfl) hstop ⟨rfl, rfl, rfl⟩ ⟨rfl, rfl, rfl⟩ (by simp)
    refine Prog.obeys_ite (fun heq => ⟨fun fd _ => ?_, ?_⟩) fun _ => hf'
    · refine iff_of_true (hf'.toq.eq_iff.mpr heq) ?_
      rintro ⟨bs, n, hlast, -⟩
      simp at hlast
    · rintro r h' ⟨-, rfl⟩
      exact hf'.quiet (fun _ => rfl) (fun _ => rfl) (hf'.log.snoc rfl fun n hn => by cases hn)
        ⟨rfl, rfl, rfl⟩ ⟨rfl, rfl, rfl⟩ (by simp)
  | cons c bs =>
    refine ⟨?_, ?_, ?_, by simp⟩
    · simpa [readFrom_snoc, writtenTo_snoc, Event.got, Event.put] using hf.toq.fill hle
    · simpa [readFrom_snoc, writtenTo_snoc, Event.got, Event.put] using hf.frq
    · rw [hb]
      exact hlog.read (by simp) ⟨rest, hin⟩

theorem fifo_readSocket (hf : Fifo input (.readSocket, v) h) :
    (readSocket v).Obeys (shutdowns input) h fun o h' => match o with
      | some v' => Fifo input (.writeStdout, v') h'
      | none => readFrom .sock h' = writtenTo .stdout h' ↔ v.froptr = v.friptr := by
  unfold readSocket
  refine Prog.obeys_ite (fun hset => ?_) fun _ => ⟨hf.toq, hf.frq, hf.log, by simp⟩
  refine Prog.obeys_call (fun fd hc => by cases hc) ?_
  rintro (e | bs) h' ⟨henv, rfl⟩
  · refine Prog.obeys_ite (fun _ => trivial) fun _ => ?_
    exact hf.quiet (fun _ => rfl) (fun _ => rfl) (hf.log.snoc rfl fun n hn => by cases hn)
      ⟨rfl, rfl, rfl⟩ ⟨rfl, rfl, rfl⟩ (by simp)
  cases bs with
  | nil =>
    refine Prog.obeys_ite (fun _ => ?_) fun _ => trivial
    change readFrom .sock _ = writtenTo .stdout _ ↔ _
    simpa [readFrom_snoc, writtenTo_snoc, Event.got, Event.put] using hf.frq.eq_iff
  | cons c bs =>
    refine ⟨?_, ?_, ?_, by simp⟩
    · simpa [readFrom_snoc, writtenTo_snoc, Event.got, Event.put] using hf.toq
    · simpa [readFrom_snoc, writtenTo_snoc, Event.got, Event.put] using hf.frq.fill henv.1
    · exact hf.log.snoc (by simp [Event.got]) fun n hn => by cases hn

theorem fifo_writeStdout (hf : Fifo input (.writeStdout, v) h) :
    (writeStdout v).Obeys (shutdowns input) h fun v' => Fifo input (.writeSocket, v') := by
  unfold writeStdout
  refine Prog.obeys_ite (fun hset => ?_) fun _ => ⟨hf.toq, hf.frq, hf.log, by simp⟩
  refine Prog.obeys_call (fun fd hc => by cases hc) ?_
  rintro (e | n) h' ⟨henv, rfl⟩
  · refine Prog.obeys_ite (fun _ => trivial) fun _ => ?_
    exact hf.quiet (fun _ => rfl) (fun _ => rfl) (hf.log.snoc rfl fun n hn => by cases hn)
      ⟨rfl, rfl, rfl⟩ ⟨rfl, rfl, rfl⟩ (by simp)
  have htoq : Queue v.tobuf v.tooptr v.toiptr _ _ := hf.toq
  have hfrq := hf.frq.drain henv.1
  have hlog := hf.log.snoc (e := ⟨.write .stdout (slice v.frbuf v.froptr v.friptr), .ok n⟩) rfl
    fun n hn => by cases hn
  dsimp only at hfrq
  by_cases heq : v.froptr + n = v.friptr
  · rw [heq] at hfrq
    refine ⟨?_, ?_, ?_, by simp⟩
    · simpa [heq, readFrom_snoc, writtenTo_snoc, Event.got, Event.put] using htoq
    · simpa [heq, readFrom_snoc, writtenTo_snoc, Event.got, Event.put] using hfrq.reset
    · simpa [heq] using hlog
  · refine ⟨?_, ?_, ?_, by simp⟩
    · simpa [heq, readFrom_snoc, writtenTo_snoc, Event.got, Event.put] using htoq
    · simpa [heq, readFrom_snoc, writtenTo_snoc, Event.got, Event.put] using hfrq
    · simpa [heq] using hlog

theorem fifo_writeSocket (hf : Fifo input (.writeSocket, v) h) :
    (writeSocket v).Obeys (shutdowns input) h fun v' => Fifo input (.top, v') := by
  unfold writeSocket
  refine Prog.obeys_ite (fun hset => ?_) fun _ => ⟨hf.toq, hf.frq, hf.log, by simp⟩
  refine Prog.obeys_call (fun fd hc => by cases hc) ?_
  rintro (e | n) h' ⟨henv, rfl⟩
  · refine Prog.obeys_ite (fun _ => trivial) fun _ => ?_
    exact hf.quiet (fun _ => rfl) (fun _ => rfl) (hf.log.snoc rfl fun n hn => by cases hn)
      ⟨rfl, rfl, rfl⟩ ⟨rfl, rfl, rfl⟩ (by simp)
  have hfrq : Queue v.frbuf v.froptr v.friptr _ _ := hf.frq
  have htoq := hf.toq.drain henv.1
  have hlog := hf.log.snoc (e := ⟨.write .sock (slice v.tobuf v.tooptr v.toiptr), .ok n⟩) rfl
    fun n hn => by cases hn
  dsimp only at htoq
  have hf' : Fifo input (.top, if v.tooptr + n = v.toiptr
      then { v with tooptr := 0, toiptr := 0 } else { v with tooptr := v.tooptr + n })
      (h ++ [⟨.write .sock (slice v.tobuf v.tooptr v.toiptr), .ok n⟩]) := by
    by_cases heq : v.tooptr + n = v.toiptr
    · rw [heq] at htoq
      refine ⟨?_, ?_, ?_, by simp⟩
      · simpa [heq, readFrom_snoc, writtenTo_snoc, Event.got, Event.put] using htoq.reset
      · simpa [heq, readFrom_snoc, writtenTo_snoc, Event.got, Event.put] using hfrq
      · simpa [heq] using hlog
    · refine ⟨?_, ?_, ?_, by simp⟩
      · simpa [heq, readFrom_snoc, writtenTo_snoc, Event.got, Event.put] using htoq
      · simpa [heq, readFrom_snoc, writtenTo_snoc, Event.got, Event.put] using hfrq
      · simpa [heq] using hlog
  refine Prog.obeys_ite (fun _ => ⟨fun fd _ => ?_, ?_⟩) fun _ => hf'
  · have hlen : (slice v.tobuf v.tooptr v.toiptr).length = v.toiptr - v.tooptr :=
      length_slice (hf.toq.length ▸ hf.toq.iptr_le)
    have hle := htoq.optr_le
    have hshort : ShortWrite (h ++ [⟨.write .sock (slice v.tobuf v.tooptr v.toiptr), .ok n⟩]) ↔
        n < v.toiptr - v.tooptr := by
      rw [← hlen]
      constructor
      · rintro ⟨bs, m, hlast, hlt⟩
        simp only [List.getLast?_append, List.getLast?_singleton, Option.some_or,
          Option.some.injEq, Sigma.mk.injEq, Call.write.injEq, true_and] at hlast
        obtain ⟨rfl, hm⟩ := hlast
        cases hm
        exact hlt
      · exact fun hlt => ⟨_, n, by simp, hlt⟩
    rw [hshort, readFrom_snoc, writtenTo_snoc]
    have heq := htoq.eq_iff
    simp only [Event.got, Event.put, List.append_nil, if_true]
    rw [heq]
    omega
  · rintro r h' ⟨-, rfl⟩
    exact hf'.quiet (fun _ => rfl) (fun _ => rfl) (hf'.log.snoc rfl fun n hn => by cases hn)
      ⟨rfl, rfl, rfl⟩ ⟨rfl, rfl, rfl⟩ (by simp)

/-- Every segment keeps the queues. -/
theorem fifo_segment {x : Pc × Vars} (hf : Fifo input x h) :
    (segment x).Obeys (shutdowns input) h (Behind input x.2) := by
  obtain ⟨pc, v⟩ := x
  cases pc with
  | top => exact .bind (fifo_select hf)
  | readStdin => exact .bind (fifo_readStdin hf)
  | readSocket =>
    refine .bind ((fifo_readSocket hf).mono fun o h' ho => ?_)
    cases o with
    | none => exact ho
    | some v' => exact ho
  | writeStdout => exact .bind (fifo_writeStdout hf)
  | writeSocket => exact .bind (fifo_writeSocket hf)

variable {tobuf frbuf : Buffer} {x : Pc × Vars}

theorem fifo_init : Fifo input (.top, .init tobuf frbuf) [] where
  toq := ⟨tobuf.2, le_rfl, Nat.zero_le _, by simp [readFrom, writtenTo, Vars.init, slice_self]⟩
  frq := ⟨frbuf.2, le_rfl, Nat.zero_le _, by simp [readFrom, writtenTo, Vars.init, slice_self]⟩
  log := ⟨⟨input, rfl⟩, by simp [Vars.init], by
    rintro h₁ n ⟨h₂, hh⟩
    simp at hh⟩
  reading := by simp

theorem Reachable.fifo (hr : Reachable input tobuf frbuf x h) : Fifo input x h := by
  refine hr.inv fifo_init fun x h hf => ?_
  refine ((fifo_segment hf).mono fun o h' ho => ?_).weaken (fun _ _ _ => trivial)
    fun _ _ _ _ => id
  rintro y rfl
  exact ho

/-- In every state of the loop, the pointers are in their buffers and in order, and the bytes
between them are those that have been read and not yet written. -/
theorem relay_fifo (hr : Reachable input tobuf frbuf x h) :
    x.2.tooptr ≤ x.2.toiptr ∧ x.2.toiptr ≤ maxline ∧
      x.2.froptr ≤ x.2.friptr ∧ x.2.friptr ≤ maxline ∧
      readFrom .stdin h = writtenTo .sock h ++ slice x.2.tobuf x.2.tooptr x.2.toiptr ∧
      readFrom .sock h = writtenTo .stdout h ++ slice x.2.frbuf x.2.froptr x.2.friptr :=
  have hf := hr.fifo
  ⟨hf.toq.optr_le, hf.toq.iptr_le, hf.frq.optr_le, hf.frq.iptr_le, hf.toq.content, hf.frq.content⟩

theorem relay_fifo_sample : ∃ (x : Pc × Vars) (h : List Event), readFrom .stdin h = [97, 98] ∧
    x.2.tooptr ≤ x.2.toiptr ∧ x.2.toiptr ≤ maxline ∧
      x.2.froptr ≤ x.2.friptr ∧ x.2.friptr ≤ maxline ∧
      readFrom .stdin h = writtenTo .sock h ++ slice x.2.tobuf x.2.tooptr x.2.toiptr ∧
      readFrom .sock h = writtenTo .stdout h ++ slice x.2.frbuf x.2.froptr x.2.friptr := by
  have s₀ : Reachable [97, 98] blank blank (.top, .init blank blank) [] := .start
  have s₁ := s₀.next (.call next_select (.refl _ _))
  have s₂ := s₁.next (.call (next_stdin [97, 98] [] rfl (by decide) (by simp)) (.refl _ _))
  exact ⟨_, _, rfl, relay_fifo s₂⟩

end Somenote.Relay
