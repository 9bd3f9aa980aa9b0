import Somenote.Rio.Buffer

/-! # What the calls answer

Each call takes arrivals up to its limit, and `rio_readlineb` up to the newline. So the answers of a
run of calls are a function of the arrivals: the sizes of the segments and the interrupted calls do
not change them, and no byte is lost, is given twice or comes out of order.
-/

namespace Somenote.Rio

open Arrivals

/-- The answer of `rio_readn` and `rio_readnb` for the bytes that they have stored. -/
def countAnswer (e : Ending) (l : List Byte) : Answer :=
  ⟨if e = .error then -1 else l.length, l, false⟩

/-- The answer of `rio_readlineb`. Only behind a newline it is the number of the bytes. -/
def lineAnswer (e : Ending) (l : List Byte) : Answer :=
  match e with
  | .stop => ⟨l.length, l, true⟩
  | .full => ⟨l.length + 1, l, true⟩
  | .eof => if l = [] then ⟨0, l, false⟩ else ⟨l.length + 1, l, true⟩
  | .error => ⟨-1, l, false⟩

/-- What a call takes from the arrivals. -/
def Call.take : Call → List (Arrival Byte) → Taken Byte
  | readnb n, p => Arrivals.take (fun _ => false) n p
  | readlineb maxlen, p => Arrivals.take (· == 10) (maxlen.1 - 1) p

def Call.answer : Call → Ending → List Byte → Answer
  | readnb _ => countAnswer
  | readlineb _ => lineAnswer

theorem Call.take_used (c : Call) (p : List (Arrival Byte)) :
    ∃ used, p = used ++ (c.take p).rest ∧ items used = (c.take p).items := by
  cases c with
  | readnb n => exact Arrivals.take_used _ n p
  | readlineb maxlen => exact Arrivals.take_used _ (maxlen.1 - 1) p

theorem Call.stored_answer (c : Call) (e : Ending) (l : List Byte) :
    (c.answer e l).stored = l := by
  cases c with
  | readnb n => rfl
  | readlineb maxlen =>
    cases e with
    | eof =>
      simp only [answer, lineAnswer]
      split <;> rfl
    | _ => rfl

/-- The answers of calls that take arrivals, one after the other. -/
def answers (p : List (Arrival Byte)) : List Call → List Answer
  | [] => []
  | c :: cs => c.answer (c.take p).ending (c.take p).items :: answers (c.take p).rest cs

section Loops

variable {σ : Type} {I : Input σ} {Inv : σ → Prop} {pending : σ → List (Arrival Byte)}

theorem readLoop_eq (h : Serves I Inv pending) {n nleft : ℕ} {s : σ} {usrbuf : List Byte}
    (hs : Inv s) (hn : usrbuf.length + nleft = n) :
    let t := take (fun _ => false) nleft (pending s)
    Inv (readLoop I n s nleft usrbuf).2 ∧ pending (readLoop I n s nleft usrbuf).2 = t.rest ∧
      (readLoop I n s nleft usrbuf).1 = countAnswer t.ending (usrbuf ++ t.items) := by
  fun_induction readLoop I n s nleft usrbuf with
  | case1 s nleft usrbuf hpos r hneg hintr ih =>
    -- An interrupted call has taken nothing.
    rcases h.gives hs hpos with ⟨-, -, hpending⟩ | ⟨herr, -⟩
    · have hrest := ih (h.keeps hs hpos) hn
      rwa [hpending] at hrest
    · exact absurd hintr (herr hneg)
  | case2 s nleft usrbuf hpos r hneg hintr =>
    rcases h.gives hs hpos with ⟨-, herr, -⟩ | ⟨-, hgives⟩
    · exact absurd herr hintr
    · rw [hgives.take_of_neg hneg hpos]
      exact ⟨h.keeps hs hpos, rfl, by simp [countAnswer]⟩
  | case3 s nleft usrbuf hpos r hneg hzero =>
    rcases h.gives hs hpos with ⟨hneg', -, -⟩ | ⟨-, hgives⟩
    · exact absurd hneg' hneg
    · have hret : (n : ℤ) - nleft = usrbuf.length := by omega
      rw [hgives.take_of_zero hzero hpos, hret]
      exact ⟨h.keeps hs hpos, rfl, by simp [countAnswer]⟩
  | case4 s nleft usrbuf hpos r hneg hzero ih =>
    rcases h.gives hs hpos with ⟨hneg', -, -⟩ | ⟨-, hgives⟩
    · exact absurd hneg' hneg
    · have hlt : 0 < r.1.1 := by omega
      obtain ⟨hlen, -, hle, -⟩ := hgives.of_pos hlt
      have hlen' : r.1.1 = r.1.2.length := hlen
      have hle' : r.1.2.length ≤ nleft := hle
      have hrest := ih (h.keeps hs hpos) (by rw [List.length_append]; omega)
      simp only [List.append_assoc] at hrest
      rw [hgives.take_of_pos hlt]
      exact hrest
  | case5 s nleft usrbuf hpos =>
    have hzero : nleft = 0 := by omega
    subst hzero
    refine ⟨hs, by simp, ?_⟩
    simp [countAnswer, ← hn]

end Loops

theorem rioReadnb_eq {s : Reader} (hs : s.Inside) (n : ℕ) :
    (rioReadnb s n).2.Inside ∧ (rioReadnb s n).2.pending = ((Call.readnb n).take s.pending).rest ∧
      (rioReadnb s n).1 = (Call.readnb n).answer ((Call.readnb n).take s.pending).ending
        ((Call.readnb n).take s.pending).items :=
  readLoop_eq serves_reader hs (Nat.zero_add n)

theorem rioReadn_eq (k : Kernel) (n : ℕ) :
    (rioReadn k n).2.pending = ((Call.readnb n).take k.pending).rest ∧
      (rioReadn k n).1 = (Call.readnb n).answer ((Call.readnb n).take k.pending).ending
        ((Call.readnb n).take k.pending).items :=
  (readLoop_eq serves_kernel trivial (Nat.zero_add n)).2

theorem readlineLoop_eq {k n : ℕ} {usrbuf : List Byte} {s : Reader} (hs : s.Inside)
    (hn : n = usrbuf.length + 1) :
    let t := take (· == 10) k s.pending
    (readlineLoop k n usrbuf s).2.Inside ∧ (readlineLoop k n usrbuf s).2.pending = t.rest ∧
      (readlineLoop k n usrbuf s).1 = lineAnswer t.ending (usrbuf ++ t.items) := by
  -- By the turns that are left: each one takes the next arrival, and `n` is one ahead of the bytes.
  induction k generalizing n usrbuf s with
  | zero => exact ⟨hs, by simp [readlineLoop], by simp [readlineLoop, lineAnswer, hn]⟩
  | succ k ih =>
    obtain ⟨hinside, -, hgives⟩ := rioRead_gives s hs Nat.one_pos
    simp only [readlineLoop]
    split
    · next hone =>
      obtain ⟨c, hc, hp⟩ := hgives.item_of_one hone
      rw [hp, take_item, hc]
      by_cases hnl : c = 10
      · subst hnl
        exact ⟨hinside, rfl, by simp [lineAnswer, hn]⟩
      · have hrest := @ih (n + 1) (usrbuf ++ [c]) _ hinside (by simp [hn])
        simpa [hnl, Taken.cons] using hrest
    · next hone =>
      split
      · next hzero =>
        rw [hgives.take_of_zero hzero (Nat.succ_pos k), List.append_nil]
        split
        · have hnil : usrbuf = [] := List.eq_nil_of_length_eq_zero (by omega)
          exact ⟨hinside, rfl, by simp [lineAnswer, hnil]⟩
        · have hcons : usrbuf ≠ [] := fun h => by simp_all
          exact ⟨hinside, rfl, by simp [lineAnswer, hcons, hn]⟩
      · next hzero =>
        have hneg : (rioRead s 1).1.1 < 0 := by
          by_contra hpos
          obtain ⟨hlen, hne, hle, -⟩ := hgives.of_pos (by omega)
          have hone' := List.length_pos_of_ne_nil hne
          omega
        rw [hgives.take_of_neg hneg (Nat.succ_pos k), List.append_nil]
        exact ⟨hinside, rfl, rfl⟩

theorem rioReadlineb_eq {s : Reader} (hs : s.Inside) (maxlen : LineSize) :
    (rioReadlineb s maxlen).2.Inside ∧
      (rioReadlineb s maxlen).2.pending = ((Call.readlineb maxlen).take s.pending).rest ∧
      (rioReadlineb s maxlen).1 = (Call.readlineb maxlen).answer
        ((Call.readlineb maxlen).take s.pending).ending
        ((Call.readlineb maxlen).take s.pending).items :=
  readlineLoop_eq hs rfl

theorem step_eq {s : Reader} (hs : s.Inside) (c : Call) :
    (step s c).2.Inside ∧ (step s c).2.pending = (c.take s.pending).rest ∧
      (step s c).1 = c.answer (c.take s.pending).ending (c.take s.pending).items := by
  cases c with
  | readnb n => exact rioReadnb_eq hs n
  | readlineb maxlen => exact rioReadlineb_eq hs maxlen

section Output

theorem Sink.out_write (k : Sink) (bufp : List Byte) :
    (k.write bufp).2.out = k.out ++ bufp.take (k.write bufp).1.toNat := by
  obtain ⟨accepts, errno, out⟩ := k
  rcases accepts with _ | ⟨c | e, as⟩
  · simp [write]
  · simp only [write, Int.toNat_natCast, List.length_take, ← List.take_eq_take_min]
  · simp [write]

theorem writenLoop_writes (n : ℕ) (k : Sink) (bufp : List Byte) :
    ∃ l, l <+: bufp ∧ (writenLoop n k bufp).2.out = k.out ++ l ∧
      ((writenLoop n k bufp).1 = n ∧ l = bufp ∨ (writenLoop n k bufp).1 = -1 ∧ l ≠ bufp) := by
  fun_induction writenLoop n k bufp with
  | case1 k bufp hleft hle hintr ih =>
    rwa [k.out_write, Int.toNat_of_nonpos hle, List.take_zero, List.append_nil] at ih
  | case2 k bufp hleft hle hintr =>
    refine ⟨[], List.nil_prefix, ?_, Or.inr ⟨rfl, hleft.symm⟩⟩
    rw [k.out_write, Int.toNat_of_nonpos hle, List.take_zero]
  | case3 k bufp hleft hle ih =>
    obtain ⟨l, hl, hout, hret⟩ := ih
    have hjoin := List.take_append_drop (k.write bufp).1.toNat bufp
    refine ⟨bufp.take (k.write bufp).1.toNat ++ l, ?_, ?_, ?_⟩
    · have hprefix := (List.prefix_append_right_inj (bufp.take (k.write bufp).1.toNat)).mpr hl
      rwa [hjoin] at hprefix
    · rw [hout, k.out_write, List.append_assoc]
    · rcases hret with ⟨hret, hall⟩ | ⟨hret, hpart⟩
      · exact Or.inl ⟨hret, by rw [hall, hjoin]⟩
      · refine Or.inr ⟨hret, fun h => hpart ?_⟩
        exact List.append_cancel_left (h.trans hjoin.symm)
  | case4 k bufp hleft =>
    have hnil : bufp = [] := of_not_not hleft
    exact ⟨[], List.nil_prefix, by simp, Or.inl ⟨rfl, hnil.symm⟩⟩

/-- What `rio_writen` writes is a first part of the bytes, and its value is their number exactly if
it is all of them. -/
theorem rioWriten_all (k : Sink) (usrbuf : List Byte) :
    (∃ l, l <+: usrbuf ∧ (rioWriten k usrbuf).2.out = k.out ++ l) ∧
      ((rioWriten k usrbuf).1 = usrbuf.length ↔
        (rioWriten k usrbuf).2.out = k.out ++ usrbuf) := by
  obtain ⟨l, hl, hout, hret⟩ := writenLoop_writes usrbuf.length k usrbuf
  refine ⟨⟨l, hl, hout⟩, ?_⟩
  unfold rioWriten
  rw [hout, List.append_cancel_left_eq]
  rcases hret with ⟨hret, hall⟩ | ⟨hret, hpart⟩
  · simp [hret, hall]
  · simp only [hret, hpart, iff_false]
    omega

end Output

end Somenote.Rio
