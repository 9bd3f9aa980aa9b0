import Somenote.Relay.Fifo

/-! # The ends of the streams

What the client does when a stream ends. It shuts down the write side behind every write
that follows the end of standard input, complete or not; it returns at the end of the
server's data whatever is left to show; and it takes a read into a full buffer for the end
of standard input.
-/

namespace Somenote.Relay

variable {input : List Byte} {tobuf frbuf : Buffer} {x : Pc × Vars} {h h' : List Event} {fd : Fd}

/-- What the segments do, with the assertion of `shutdowns`. -/
theorem Reachable.behind (hr : Reachable input tobuf frbuf x h) {m : RelayProg (Option (Pc × Vars))}
    (hm : Prog.Reaches (runs input) (segment x) h m h') :
    m.Obeys (shutdowns input) h' (Behind input x.2) :=
  (fifo_segment hr.fifo).reaches (hm.mono fun _ _ _ _ => id)

/-- When the client shuts down its write side, all bytes read from standard input have been
written, unless the write before it was short. -/
theorem shutdown_iff (hr : Reachable input tobuf frbuf x h)
    {k : Reply (.shutdown fd) → RelayProg (Option (Pc × Vars))}
    (hm : Prog.Reaches (runs input) (segment x) h (.call (.shutdown fd) k) h') :
    readFrom .stdin h' = writtenTo .sock h' ↔ ¬ ShortWrite h' :=
  (hr.behind hm).1 fd rfl

theorem short_write_run : ∃ x h h' k, Reachable [97, 98] blank blank x h ∧
    Prog.Reaches (runs [97, 98]) (segment x) h (.call (.shutdown .sock) k) h' ∧
    readFrom .stdin h' = [97, 98] ∧ writtenTo .sock h' = [97] := by
  have s₀ : Reachable [97, 98] blank blank (.top, .init blank blank) [] := .start
  have s₁ := s₀.next (.call next_select (.refl _ _))
  have s₂ := s₁.next (.call (next_stdin [97, 98] [] rfl (by decide) (by simp)) (.refl _ _))
  have s₃ := s₂.next (.call next_wait_read (.refl _ _))
  have s₄ := s₃.next (.refl _ _)
  have s₅ := s₄.next (.call next_wait_write (.refl _ _))
  have s₆ := s₅.next (.call next_select (.refl _ _))
  have s₇ := s₆.next (.call (next_stdin [] [] rfl (by decide) (by simp)) (.refl _ _))
  have s₈ := s₇.next (.call next_wait_read (.refl _ _))
  have s₉ := s₈.next (.refl _ _)
  exact ⟨_, _, _, _, s₉, .call (next_write (n := 1) (by decide) (by simp)) (.refl _ _), rfl, rfl⟩

/-- The write side is shut down with a byte left. -/
theorem shutdown_leaves_byte : ¬ ∀ x h h' k, Reachable [97, 98] blank blank x h →
    Prog.Reaches (runs [97, 98]) (segment x) h (.call (.shutdown .sock) k) h' →
    readFrom .stdin h' = writtenTo .sock h' := by
  intro hall
  obtain ⟨x, h, h', k, hr, hm, hread, hwritten⟩ := short_write_run
  have heq := hall x h h' k hr hm
  rw [hread, hwritten] at heq
  simp at heq

theorem shutdown_sample : ∃ h' : List Event, readFrom .stdin h' = [97, 98] ∧
    (readFrom .stdin h' = writtenTo .sock h' ↔ ¬ ShortWrite h') := by
  obtain ⟨x, h, h', k, hr, hm, hread, -⟩ := short_write_run
  exact ⟨h', hread, shutdown_iff hr hm⟩

/-- When the client returns, all bytes read from the socket have been shown, if and only if
none were left in the buffer when it read the end of the server's data. -/
theorem return_iff (hr : Reachable input tobuf frbuf x h)
    (hm : Prog.Reaches (runs input) (segment x) h (.ret none) h') :
    readFrom .sock h' = writtenTo .stdout h' ↔ x.2.froptr = x.2.friptr :=
  hr.behind hm

theorem slow_stdout_run : ∃ x h h', Reachable [] blank blank x h ∧
    Prog.Reaches (runs []) (segment x) h (.ret none) h' ∧ readFrom .sock h' = [120] ∧
    writtenTo .stdout h' = [] := by
  have s₀ : Reachable [] blank blank (.top, .init blank blank) [] := .start
  have s₁ := s₀.next (.call next_select (.refl _ _))
  have s₂ := s₁.next (.call (next_stdin [] [] rfl (by decide) (by simp))
    (.call next_shutdown (.refl _ _)))
  have s₃ := s₂.next (.call (next_sock [120] (by decide)) (.refl _ _))
  have s₄ := s₃.next (.call next_wait_write (.refl _ _))
  have s₅ := s₄.next (.refl _ _)
  have s₆ := s₅.next (.call next_select (.refl _ _))
  have s₇ := s₆.next (.refl _ _)
  exact ⟨_, _, _, s₇, .call (next_sock [] (by decide)) (.refl _ _), rfl, rfl⟩

/-- The client returns with a byte left to show. -/
theorem return_leaves_byte : ¬ ∀ x h h', Reachable [] blank blank x h →
    Prog.Reaches (runs []) (segment x) h (.ret none) h' →
    readFrom .sock h' = writtenTo .stdout h' := by
  intro hall
  obtain ⟨x, h, h', hr, hm, hread, hwritten⟩ := slow_stdout_run
  have heq := hall x h h' hr hm
  rw [hread, hwritten] at heq
  simp at heq

theorem return_sample : ∃ (x : Pc × Vars) (h' : List Event), readFrom .sock h' = [120] ∧
    (readFrom .sock h' = writtenTo .stdout h' ↔ x.2.froptr = x.2.friptr) := by
  obtain ⟨x, h, h', hr, hm, hread, -⟩ := slow_stdout_run
  exact ⟨x, h', hread, return_iff hr hm⟩

/-- The client takes standard input to be at its end when it is, if and only if no read into a
full buffer has returned nothing before that. -/
theorem stdineof_iff (hr : Reachable input tobuf frbuf x h) :
    (x.2.stdineof = true → readFrom .stdin h = input) ↔
      ∀ h₁, EofAt h h₁ 0 → readFrom .stdin h₁ = input := by
  have hlog := hr.fifo.log
  constructor
  · intro hend h₁ hat
    obtain ⟨heof, hsame⟩ := hlog.eof_at h₁ 0 hat
    rw [← hsame]
    exact hend heof
  · intro hfull heof
    obtain ⟨h₁, n, hat, hn⟩ := hlog.eof heof
    rw [(hlog.eof_at h₁ n hat).2]
    rcases hn with rfl | hn
    · exact hfull h₁ hat
    · exact hn

theorem full_buffer_run : ∃ x h, Reachable (List.replicate (maxline + 1) 97) blank blank x h ∧
    x.2.stdineof = true ∧ readFrom .stdin h = List.replicate maxline 97 := by
  have s₀ : Reachable (List.replicate (maxline + 1) 97) blank blank (.top, .init blank blank) [] :=
    .start
  have s₁ := s₀.next (.call next_select (.refl _ _))
  have s₂ := s₁.next (.call (next_stdin (List.replicate maxline 97) [97]
    (by rw [List.replicate_succ']; rfl) (by rw [List.length_replicate]; exact le_rfl)
    fun hnil => absurd (congrArg List.length hnil) (by rw [List.length_replicate]; decide))
    (.refl _ _))
  simp only [List.length_replicate, Vars.init, Nat.zero_add] at s₂
  have s₃ := s₂.next (.call next_wait_read (.refl _ _))
  have s₄ := s₃.next (.refl _ _)
  have s₅ := s₄.next (.call next_wait_write (.refl _ _))
  have s₆ := s₅.next (.call next_select (.refl _ _))
  have s₇ := s₆.next (.call (next_stdin [] [97]
    (by rw [List.replicate_succ']; simp [readFrom, Event.got]) (by decide)
    fun _ => Or.inl rfl) (.refl _ _))
  exact ⟨_, _, s₇, rfl, by simp [readFrom, Event.got]⟩

/-- The client takes a full buffer for the end of standard input. -/
theorem stdineof_false : ¬ ∀ x h, Reachable (List.replicate (maxline + 1) 97) blank blank x h →
    x.2.stdineof = true → readFrom .stdin h = List.replicate (maxline + 1) 97 := by
  intro hall
  obtain ⟨x, h, hr, heof, hread⟩ := full_buffer_run
  have hlen := congrArg List.length ((hall x h hr heof).symm.trans hread)
  simp only [List.length_replicate] at hlen
  omega

theorem stdineof_sample : ∃ (x : Pc × Vars) (h : List Event), x.2.stdineof = true ∧
    ((x.2.stdineof = true → readFrom .stdin h = List.replicate (maxline + 1) 97) ↔
      ∀ h₁, EofAt h h₁ 0 → readFrom .stdin h₁ = List.replicate (maxline + 1) 97) := by
  obtain ⟨x, h, hr, heof, -⟩ := full_buffer_run
  exact ⟨x, h, heof, stdineof_iff hr⟩

end Somenote.Relay
