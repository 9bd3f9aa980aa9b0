import Somenote.Bytes.Arrivals
import Somenote.Rio.Source

/-! # The buffer is not seen

A kernel and a `rio_t` are sources of the same arrivals. The bytes that are to come are the ones in
the buffer and then the ones of the segments. An interrupted call is none of them.
-/

namespace Somenote.Rio

open Arrivals

/-- The arrivals of a kernel. -/
def arrivals : List Event → List (Arrival Byte)
  | [] => []
  | .segment l :: es => (if l = [] then [.eof] else l.map .item) ++ arrivals es
  | .error e :: es => if e = EINTR then arrivals es else .error e :: arrivals es

def Kernel.pending (k : Kernel) : List (Arrival Byte) := arrivals k.events

/-- The bytes that were read and not given. -/
def Reader.unread (s : Reader) : List Byte := (s.rio_buf.drop s.rio_bufptr).take s.rio_cnt.toNat

def Reader.pending (s : Reader) : List (Arrival Byte) := s.unread.map .item ++ s.kernel.pending

/-- The bytes that are counted are in the buffer. -/
def Reader.Inside (s : Reader) : Prop := s.unread.length = s.rio_cnt.toNat

/-- What a call gives that is not interrupted. -/
structure Serves {σ : Type} (I : Input σ) (Inv : σ → Prop) (pending : σ → List (Arrival Byte)) :
    Prop where
  keeps : ∀ {s n}, Inv s → 0 < n → Inv (I.io s n).2
  gives : ∀ {s n}, Inv s → 0 < n →
    ((I.io s n).1.1 < 0 ∧ I.errno (I.io s n).2 = EINTR ∧ pending (I.io s n).2 = pending s) ∨
    (((I.io s n).1.1 < 0 → I.errno (I.io s n).2 ≠ EINTR) ∧
      Gives n (pending s) (I.io s n).1 (pending (I.io s n).2))

theorem arrivals_piece {l : List Byte} (hne : l ≠ []) (es : List Event) :
    arrivals (.segment l :: es) = l.map .item ++ arrivals es := by
  rw [arrivals, if_neg hne]

theorem gives_segment (l : List Byte) (es : List Event) (errno : ℕ) {n : ℕ} (hn : 0 < n) :
    Gives n (arrivals (.segment l :: es)) (Kernel.read ⟨.segment l :: es, errno⟩ n).1
      (Kernel.read ⟨.segment l :: es, errno⟩ n).2.pending := by
  by_cases hl : l = []
  · subst hl
    have hread : Kernel.read ⟨.segment [] :: es, errno⟩ n = ((0, []), ⟨es, errno⟩) := by
      simp [Kernel.read]
    rw [hread]
    exact Gives.eof
  · have htake : l.take n ≠ [] := by
      simp only [ne_eq, List.take_eq_nil_iff, hl, or_false]
      omega
    have hrest : arrivals (if l.length ≤ n then es else .segment (l.drop n) :: es) =
        (l.drop n).map .item ++ arrivals es := by
      split
      · rw [List.drop_eq_nil_of_le ‹_›, List.map_nil, List.nil_append]
      · exact arrivals_piece (by simpa using Nat.lt_of_not_le ‹_›) es
    have hgives := Gives.piece (n := n) (s := (l.drop n).map .item ++ arrivals es) htake
      (List.length_take_le ..)
    rw [← List.append_assoc, ← List.map_append, List.take_append_drop, ← hrest,
      ← arrivals_piece hl] at hgives
    exact hgives

theorem serves_kernel : Serves fromKernel (fun _ => True) Kernel.pending where
  keeps _ _ := trivial
  gives := by
    rintro ⟨events, errno⟩ n - hn
    rcases events with _ | ⟨l | e, es⟩
    · exact Or.inr ⟨fun h => absurd h (Int.lt_irrefl 0), Gives.ended⟩
    · exact Or.inr ⟨fun h => absurd h (Int.not_lt.mpr (Int.natCast_nonneg _)),
        gives_segment l es errno hn⟩
    · by_cases he : e = EINTR
      · subst he
        exact Or.inl ⟨by simp [fromKernel, Kernel.read], rfl, rfl⟩
      · have hpending : arrivals (.error e :: es) = .error e :: arrivals es := by
          rw [arrivals, if_neg he]
        refine Or.inr ⟨fun _ => he, ?_⟩
        rw [Kernel.pending, hpending]
        exact Gives.error

theorem Reader.inside_init (k : Kernel) (buf : List Byte) : (rioReadinitb k buf).Inside := by
  simp [Inside, unread, rioReadinitb]

theorem Reader.pending_init (k : Kernel) (buf : List Byte) :
    (rioReadinitb k buf).pending = k.pending := by
  simp [pending, unread, rioReadinitb]

theorem Reader.unread_of_le {s : Reader} (h : s.rio_cnt ≤ 0) : s.unread = [] := by
  rw [unread, Int.toNat_of_nonpos h, List.take_zero]

theorem Reader.inside_of_le {s : Reader} (h : s.rio_cnt ≤ 0) : s.Inside := by
  rw [Inside, unread_of_le h, Int.toNat_of_nonpos h, List.length_nil]

theorem Reader.pending_of_le {s : Reader} (h : s.rio_cnt ≤ 0) :
    s.pending = s.kernel.pending := by
  rw [pending, unread_of_le h, List.map_nil, List.nil_append]

theorem fill_gives (s : Reader) (h : s.rio_cnt ≤ 0) :
    (s.fill.rio_cnt < 0 ∧ s.fill.kernel.errno = EINTR ∧ s.fill.pending = s.pending) ∨
    ((s.fill.rio_cnt < 0 → s.fill.kernel.errno ≠ EINTR) ∧
      Gives RIO_BUFSIZE s.pending (s.kernel.read RIO_BUFSIZE).1 s.fill.kernel.pending) := by
  rcases serves_kernel.gives (s := s.kernel) (n := RIO_BUFSIZE) trivial (by decide) with
    ⟨hneg, herr, hpending⟩ | ⟨herr, hgives⟩
  · refine Or.inl ⟨hneg, herr, ?_⟩
    rw [Reader.pending_of_le h, Reader.pending_of_le (s := s.fill) (Int.le_of_lt hneg)]
    exact hpending
  · rw [Reader.pending_of_le h]
    exact Or.inr ⟨herr, hgives⟩

/-- The loop ends with bytes in the buffer, or it has come to an end of the file or an error. -/
theorem refill_gives (s : Reader) (hs : s.Inside) : (refill s).2.Inside ∧
    ((refill s).1 = none → (refill s).2.pending = s.pending) ∧
    ∀ rc, (refill s).1 = some rc → (rc < 0 → (refill s).2.kernel.errno ≠ EINTR) ∧
      ∀ n, Gives n s.pending (rc, []) (refill s).2.pending := by
  fun_induction refill s with
  | case1 s hcnt hneg herr =>
    have hle := Int.le_of_lt hneg
    refine ⟨Reader.inside_of_le hle, fun h => (Option.some_ne_none _ h).elim, ?_⟩
    rintro rc ⟨⟩
    rcases fill_gives s hcnt with ⟨-, hintr, -⟩ | ⟨-, hgives⟩
    · exact absurd hintr herr
    · obtain ⟨-, e, he⟩ := hgives.of_neg hneg
      refine ⟨fun _ => herr, fun n => ?_⟩
      rw [he, Reader.pending_of_le hle]
      exact Gives.error
  | case2 s hcnt hneg herr ih =>
    have hrest := ih (Reader.inside_of_le (Int.le_of_lt hneg))
    rcases fill_gives s hcnt with ⟨-, -, hpending⟩ | ⟨hintr, -⟩
    · rwa [hpending] at hrest
    · exact absurd (hintr hneg) herr
  | case3 s hcnt hneg hz =>
    have hle := Int.le_of_eq hz
    refine ⟨Reader.inside_of_le hle, fun h => (Option.some_ne_none _ h).elim, ?_⟩
    rintro rc ⟨⟩
    rcases fill_gives s hcnt with ⟨h, -, -⟩ | ⟨-, hgives⟩
    · exact absurd h hneg
    · refine ⟨fun h => absurd h (Int.lt_irrefl 0), fun n => ?_⟩
      rw [Reader.pending_of_le hle]
      rcases (hgives.of_zero hz).2 with ⟨hs, ht⟩ | hs
      · rw [hs, ht]
        exact Gives.ended
      · rw [hs]
        exact Gives.eof
  | case4 s hcnt hneg hz =>
    -- The bytes of the segment are now the unread ones.
    rcases fill_gives s hcnt with ⟨h, -, -⟩ | ⟨-, hgives⟩
    · exact absurd h hneg
    · have hpos : 0 < s.fill.rio_cnt := by omega
      obtain ⟨hlen, -, -, hs'⟩ := hgives.of_pos hpos
      have hunread : Reader.unread { s.fill with rio_bufptr := 0 } =
          (s.kernel.read RIO_BUFSIZE).1.2 := by
        have hcount : s.fill.rio_cnt.toNat = (s.kernel.read RIO_BUFSIZE).1.2.length := by
          rw [Reader.fill, hlen, Int.toNat_natCast]
        simp only [Reader.unread, List.drop_zero, hcount]
        exact List.take_left
      refine ⟨?_, fun _ => ?_, fun rc h => (Option.some_ne_none _ h.symm).elim⟩
      · rw [Reader.Inside, hunread]
        exact (Int.toNat_natCast _).symm.trans (congrArg Int.toNat hlen.symm)
      · rw [Reader.pending, hunread, hs']
  | case5 s hcnt => exact ⟨hs, fun _ => rfl, fun rc h => (Option.some_ne_none _ h.symm).elim⟩

theorem Reader.pending_split {s : Reader} (hs : s.Inside) {cnt : ℤ} (hle : cnt ≤ s.rio_cnt)
    (h0 : 0 ≤ cnt) :
    ((s.rio_buf.drop s.rio_bufptr).take cnt.toNat).length = cnt.toNat ∧ (s.advance cnt).Inside ∧
      s.pending =
        ((s.rio_buf.drop s.rio_bufptr).take cnt.toNat).map .item ++ (s.advance cnt).pending := by
  have hsub : (s.rio_cnt - cnt).toNat = s.rio_cnt.toNat - cnt.toNat := by omega
  have hadd : cnt.toNat + (s.rio_cnt.toNat - cnt.toNat) = s.rio_cnt.toNat := by omega
  have hsplit := List.take_add (l := s.rio_buf.drop s.rio_bufptr) (i := cnt.toNat)
    (j := s.rio_cnt.toNat - cnt.toNat)
  rw [hadd, List.drop_drop] at hsplit
  unfold Inside pending unread advance at *
  simp only [hsub]
  refine ⟨?_, ?_, ?_⟩
  · simp only [List.length_take] at *
    omega
  · simp only [List.length_take, List.length_drop] at *
    omega
  · rw [hsplit, List.map_append, List.append_assoc]

theorem rioRead_gives (s : Reader) (hs : s.Inside) {n : ℕ} (hn : 0 < n) :
    (rioRead s n).2.Inside ∧
      ((rioRead s n).1.1 < 0 → (rioRead s n).2.kernel.errno ≠ EINTR) ∧
      Gives n s.pending (rioRead s n).1 (rioRead s n).2.pending := by
  obtain ⟨hinside, hnone, hsome⟩ := refill_gives s hs
  have hpos := refill_none s
  rcases hr : refill s with ⟨_ | rc, t⟩ <;> rw [hr] at hinside hnone hsome hpos
  · simp only [rioRead, hr]
    generalize hcnt : (if t.rio_cnt < n then t.rio_cnt else (n : ℤ)) = cnt
    have hbounds : 0 < cnt ∧ cnt ≤ t.rio_cnt ∧ cnt ≤ n := by
      have hcount : 0 < t.rio_cnt := (hpos rfl).2
      split at hcnt <;> omega
    obtain ⟨hlen, hin, hpending⟩ :=
      Reader.pending_split (s := t) hinside hbounds.2.1 (Int.le_of_lt hbounds.1)
    refine ⟨hin, fun h => absurd h (by omega), ?_⟩
    rw [← hnone rfl, hpending]
    have hret : (((t.rio_buf.drop t.rio_bufptr).take cnt.toNat).length : ℤ) = cnt := by omega
    have hgives := Gives.piece (n := n) (l := (t.rio_buf.drop t.rio_bufptr).take cnt.toNat)
      (s := (t.advance cnt).pending)
      (List.ne_nil_of_length_pos (by omega)) (by omega)
    rwa [hret] at hgives
  · simp only [rioRead, hr]
    exact ⟨hinside, (hsome rc rfl).1, (hsome rc rfl).2 n⟩

theorem serves_reader : Serves fromReader Reader.Inside Reader.pending where
  keeps hs hn := (rioRead_gives _ hs hn).1
  gives hs hn := Or.inr (rioRead_gives _ hs hn).2

end Somenote.Rio
