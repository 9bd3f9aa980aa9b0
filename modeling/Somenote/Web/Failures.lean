import Somenote.Web.Counts

/-! # Transfers that fail

A connection that could not be made is written to nevertheless. A read that fails leaves its file
as it is, which is retired by a later read that finds the end.
-/

namespace Somenote.Web

/-- A call and its reply. -/
abbrev Answer := Σ c, Reply c

/-- The runs of the fetcher, with a log of the calls and their replies. -/
def logged : Protocol Call Reply (Finset ℕ × List Answer) where
  Ok _ _ := True
  Next g c r g' := Env g.1 c r g'.1 ∧ g'.2 = g.2 ++ [⟨c, r⟩]

/-- A segment of a run, with the states before and behind it. -/
structure Segment where
  before : Pc × Vars
  log : List Answer
  behind : Pc × Vars

/-- The segments of a run, the state behind them and the open sockets. -/
inductive Runs (maxnconn : ℤ) (host : String) (names : List String) :
    List Segment → Pc × Vars → Finset ℕ → Prop
  | start : Runs maxnconn host names [] (.head, .init host names) ∅
  | next {tr x socks y socks' log} (h : Runs maxnconn host names tr x socks)
      (hr : Prog.Reaches logged (segment maxnconn x) (socks, []) (.ret (some y)) (socks', log)) :
    Runs maxnconn host names (tr ++ [⟨x, log, y⟩]) y socks'

namespace Answer

/-- The connection ends with an error. -/
def ConnectFails : Answer → Prop
  | ⟨.getsockopt _, failed⟩ => failed = true
  | _ => False

def ReadFails : Answer → Prop
  | ⟨.read _, n⟩ => n < 0
  | _ => False

def Eof : Answer → Prop
  | ⟨.read _, n⟩ => n = 0
  | _ => False

/-- A request is written. -/
def Writes (a : Answer) : Prop := ∃ fd line, a = ⟨.writen fd line, ()⟩

def WritesTo (fd : ℕ) (a : Answer) : Prop := ∃ line, a = ⟨.writen fd line, ()⟩

end Answer

namespace Segment

/-- A turn of the loop over the files, at the file `i`. -/
def Checks (T : Segment) (i : ℕ) : Prop := T.before.1 = .check i

def Fails (T : Segment) : Prop := ∃ a ∈ T.log, a.ConnectFails ∨ a.ReadFails

/-- The file `i` is closed, leaves both sets and is counted out. -/
def Retires (T : Segment) (i : ℕ) : Prop :=
  ⟨.close (T.before.2.file i).f_fd, ()⟩ ∈ T.log ∧
    (T.before.2.file i).f_fd ∉ T.behind.2.rset ∧ (T.before.2.file i).f_fd ∉ T.behind.2.wset ∧
    T.behind.2.nconn = T.before.2.nconn - 1 ∧ T.behind.2.nlefttoread = T.before.2.nlefttoread - 1

/-- No descriptor is closed, and the counters stay. -/
def Keeps (T : Segment) : Prop :=
  (∀ fd, ⟨.close fd, ()⟩ ∉ T.log) ∧ T.behind.2.nconn = T.before.2.nconn ∧
    T.behind.2.nlefttoread = T.before.2.nlefttoread

end Segment

/-- The file `i` fails in the segment `T`, and is retired: no request is written behind the
failure as long as the descriptor is that of the file, nor in a later turn of it, and one segment
from `T` on retires it, and no other one. -/
structure Retired (i : ℕ) (T : Segment) (tr : List Segment) : Prop where
  quiet : ∀ l a l', T.log = l ++ a :: l' → a.ConnectFails ∨ a.ReadFails → ∀ b ∈ l', ¬ b.Writes
  silent : ∀ U ∈ tr, U.Checks i ∨ (U.before.2.file i).f_flags ≠ fDone →
    ∀ a ∈ U.log, ¬ a.WritesTo (U.before.2.file i).f_fd
  once : ∃ l U l', T :: tr = l ++ U :: l' ∧ U.Checks i ∧ U.Retires i ∧
    ∀ W ∈ l ++ l', W.Checks i → W.Keeps

variable {maxnconn : ℤ} {host : String} {names : List String} {x y : Pc × Vars} {v v' : Vars}
  {socks socks' : Finset ℕ} {tr : List Segment} {T : Segment} {i : ℕ} {log : List Answer}

theorem Runs.reachable (h : Runs maxnconn host names tr x socks) :
    Reachable maxnconn host names x socks := by
  induction h with
  | start => exact .start
  | @next tr x socks y socks' log _ hr ih =>
    have hruns : ∀ {m m' : WebProg (Option (Pc × Vars))} {g g' : Finset ℕ × List Answer},
        Prog.Reaches logged m g m' g' → Prog.Reaches runs m g.1 m' g'.1 := by
      intro m m' g g' hm
      induction hm with
      | refl => exact .refl _ _
      | call hg _ ih => exact .call hg.1 ih
    exact ih.next (hruns hr)

/-- What a turn does with the file `i`. -/
inductive Turned (i : ℕ) (v : Vars) (log : List Answer) (v' : Vars) : Prop
  | skipped (hl : log = []) (hv : v' = v)
  | connected {failed : Bool} (hf : (v.file i).f_flags = fConnecting)
      (hl : log = [⟨.getsockopt (v.file i).f_fd, failed⟩,
        ⟨.writen (v.file i).f_fd (getCmd (v.file i).f_name), ()⟩])
      (hf' : (v'.file i).f_flags = fReading) (hn : v'.nconn = v.nconn)
      (hr : v'.nlefttoread = v.nlefttoread)
  | read {n : ℤ} (hf : (v.file i).f_flags = fReading) (hn : n ≠ 0)
      (hl : log = [⟨.read (v.file i).f_fd, n⟩]) (hv : v' = v)
  | done (hf : (v.file i).f_flags = fReading)
      (hl : log = [⟨.read (v.file i).f_fd, (0 : ℤ)⟩, ⟨.close (v.file i).f_fd, ()⟩])
      (hf' : (v'.file i).f_flags = fDone) (hrs : v'.rset = v.rset.erase (v.file i).f_fd)
      (hws : v'.wset = v.wset) (hn : v'.nconn = v.nconn - 1)
      (hr : v'.nlefttoread = v.nlefttoread - 1)

/-- The other files stay as they are. -/
def Apart (i : ℕ) (v v' : Vars) : Prop := v'.nfiles = v.nfiles ∧ ∀ j ≠ i, v'.file j = v.file j

theorem apart_setFile {f : File} {m : ℤ} {r w : Finset ℕ} {a b c : ℤ} :
    Apart i v { v with
      file := Function.update v.file i f
      nconn := a
      nlefttoconn := b
      nlefttoread := c
      maxfd := m
      rset := r
      wset := w } :=
  ⟨rfl, fun _ hj => Function.update_of_ne hj _ _⟩

theorem turned_checkFile (h : Counts maxnconn v socks) (hi : i < v.nfiles) :
    (checkFile i v).Obeys logged (socks, []) fun v' g' => Turned i v g'.2 v' ∧ Apart i v v' := by
  unfold checkFile
  dsimp only
  refine Prog.obeys_ite (fun _ => ⟨.skipped rfl rfl, rfl, fun _ _ => rfl⟩) fun hopen => ?_
  refine Prog.obeys_ite (fun hc => ?_) fun _ => ?_
  · have hflag := h.connecting hi (fun hz => hopen (Or.inl hz)) hc.1
    refine Prog.obeys_call trivial ?_
    rintro failed ⟨socks', log⟩ ⟨-, rfl⟩
    unfold writeGetCmd
    refine Prog.obeys_call trivial ?_
    rintro ⟨⟩ ⟨socks'', log⟩ ⟨-, rfl⟩
    exact ⟨.connected hflag rfl (by simp [Vars.setFile]) rfl rfl, apart_setFile⟩
  · refine Prog.obeys_ite (fun hr => ?_) fun _ => ⟨.skipped rfl rfl, rfl, fun _ _ => rfl⟩
    have hflag := h.reading hi (fun hz => hopen (Or.inl hz)) hr.1
    refine Prog.obeys_call trivial ?_
    rintro n ⟨socks', log⟩ ⟨-, rfl⟩
    refine Prog.obeys_ite (fun hn => ?_) fun hn => ⟨.read hflag hn rfl rfl, rfl, fun _ _ => rfl⟩
    subst hn
    refine Prog.obeys_call trivial ?_
    rintro ⟨⟩ ⟨socks'', log⟩ ⟨-, rfl⟩
    exact ⟨.done hflag rfl (by simp [Vars.setFile]) rfl rfl rfl rfl, apart_setFile⟩

/-- What a segment that is no turn of the file `i` does with it. -/
structure Passed (i : ℕ) (v : Vars) (log : List Answer) (v' : Vars) : Prop where
  nfiles : v'.nfiles = v.nfiles
  file : v'.file i = v.file i
  quiet : Active (v.file i) → ∀ a ∈ log, ¬ a.WritesTo (v.file i).f_fd

theorem passed_startConnect (h : Counts maxnconn v socks) (hi : i < v.nfiles) {j : ℕ}
    (hij : i ≠ j) :
    (startConnect j v).Obeys logged (socks, []) fun v' g' => Passed i v g'.2 v' := by
  unfold startConnect
  refine Prog.obeys_call trivial ?_
  rintro (_ | fd) ⟨socks', log⟩ ⟨hs, rfl⟩
  · exact Prog.obeys_dump
  have hfile : ∀ (files : ℕ → File) f, Function.update files j f i = files i :=
    fun files f => Function.update_of_ne hij f files
  refine Prog.obeys_call trivial ?_
  rintro (e | ⟨⟩) ⟨socks'', log⟩ ⟨-, rfl⟩
  · refine Prog.obeys_ite (fun _ => Prog.obeys_dump) fun _ => ?_
    refine ⟨rfl, hfile _ _, fun _ => ?_⟩
    simp [Answer.WritesTo]
  · unfold writeGetCmd
    refine Prog.obeys_call trivial ?_
    rintro ⟨⟩ ⟨socks'', log⟩ ⟨-, rfl⟩
    refine ⟨rfl, (hfile _ _).trans (hfile _ _), fun hact => ?_⟩
    -- the new descriptor is not that of an open file
    have hne : fd ≠ (v.file i).f_fd := by
      rintro rfl
      rw [← h.socks] at hs
      exact hs.1 (h.rset.key_mem hi hact)
    simp [Answer.WritesTo, Vars.setFile, hne]

theorem passed_segment {x : Pc × Vars} (h : Counts maxnconn x.2 socks) (hi : i < x.2.nfiles)
    (hz : (x.2.file i).f_flags ≠ 0) (hx : x.1 ≠ .check i) :
    (segment maxnconn x).Obeys logged (socks, []) fun o g' =>
      ∀ y, o = some y → Passed i x.2 g'.2 y.2 := by
  have hsame : ∀ {x y : Pc × Vars}, y.2 = x.2 → ∀ z, some y = some z → Passed i x.2 [] z.2 := by
    rintro x y hy z ⟨⟩
    rw [hy]
    exact ⟨rfl, rfl, by simp⟩
  obtain ⟨pc, v⟩ := x
  cases pc with
  | head => exact Prog.obeys_ite (fun _ => hsame rfl) fun _ => by rintro y ⟨⟩
  | connect =>
    refine Prog.obeys_ite (fun hgo => ?_) fun _ => ?_
    · cases hfind : (List.range v.nfiles).find? fun i => (v.file i).f_flags = 0 with
      | none => exact ⟨trivial, fun r => r.elim⟩
      | some j =>
        have hij : i ≠ j := by
          rintro rfl
          have hfree := List.find?_some hfind
          exact hz (of_decide_eq_true hfree)
        refine .bind ((passed_startConnect h hi hij).mono fun v' g' hv' => ?_)
        rintro y ⟨⟩
        exact ⟨hv'.nfiles, hv'.file, hv'.quiet⟩
    · refine Prog.obeys_call trivial ?_
      rintro ⟨rs, ws⟩ ⟨socks', log⟩ ⟨-, rfl⟩ y ⟨⟩
      refine ⟨rfl, rfl, fun _ => ?_⟩
      simp [Answer.WritesTo]
  | check j =>
    have hij : i ≠ j := by
      rintro rfl
      exact hx rfl
    refine Prog.obeys_ite (fun hj => ?_) fun _ => hsame rfl
    refine .bind ((turned_checkFile h hj).mono fun v' g' hv' => ?_)
    rintro y ⟨⟩
    refine ⟨hv'.2.1, hv'.2.2 i hij, fun hact => ?_⟩
    rcases hv'.1 with ⟨hl, -⟩ | ⟨hf, hl, -⟩ | ⟨-, -, hl⟩ | ⟨-, hl⟩
    · simp [hl]
    · -- two open files have different descriptors
      have hne : (v.file j).f_fd ≠ (v.file i).f_fd := fun he =>
        hij (h.rset.inj i hi j hj hact (Or.inl hf) he.symm)
      simp [hl, Answer.WritesTo, hne]
    · simp [hl, Answer.WritesTo]
    · simp [hl, Answer.WritesTo]

theorem turned_segment (h : Counts maxnconn v socks) (hi : i < v.nfiles) :
    (segment maxnconn (.check i, v)).Obeys logged (socks, []) fun o g' =>
      ∀ y, o = some y → Turned i v g'.2 y.2 ∧ Apart i v y.2 := by
  refine Prog.obeys_ite (fun _ => ?_) fun hge => absurd hi hge
  refine .bind ((turned_checkFile h hi).mono fun v' g' hv' => ?_)
  rintro y ⟨⟩
  exact hv'

namespace Turned

theorem quiet (h : Turned i v log v') (hf : (v.file i).f_flags ≠ fConnecting) :
    ∀ a ∈ log, ¬ a.Writes := by
  rcases h with ⟨rfl, -⟩ | ⟨hc, -⟩ | ⟨-, -, rfl⟩ | ⟨-, rfl⟩
  · simp
  · exact absurd hc hf
  · simp [Answer.Writes]
  · simp [Answer.Writes]

theorem keeps (h : Turned i v log v') (hf : (v'.file i).f_flags = (v.file i).f_flags)
    {pc pc' : Pc} :
    (⟨(pc, v), log, (pc', v')⟩ : Segment).Keeps ∧ ∀ a ∈ log, ¬ a.Eof := by
  rcases h with ⟨rfl, rfl⟩ | ⟨hc, -, hr, -⟩ | ⟨-, hn, rfl, rfl⟩ | ⟨hr, -, hd, -⟩
  · simp [Segment.Keeps]
  · rw [hc, hr] at hf
    cases hf
  · simp [Segment.Keeps, Answer.Eof, hn]
  · rw [hr, hd] at hf
    cases hf

/-- A file that is read to its end is retired. -/
theorem retires (h : Turned i v log v') (hc : Counts maxnconn v socks) (hi : i < v.nfiles)
    (hf : (v'.file i).f_flags ≠ (v.file i).f_flags) (hn : (v.file i).f_flags ≠ fConnecting)
    {pc pc' : Pc} :
    (v'.file i).f_flags = fDone ∧ (⟨(pc, v), log, (pc', v')⟩ : Segment).Retires i ∧
      ∃ a ∈ log, a.Eof := by
  rcases h with ⟨-, rfl⟩ | ⟨hf', -⟩ | ⟨-, -, -, rfl⟩ | ⟨hr, rfl, hd, hrs, hws, hn, hr'⟩
  · exact absurd rfl hf
  · exact absurd hf' hn
  · exact absurd rfl hf
  · refine ⟨hd, ⟨?_, ?_, ?_, hn, hr'⟩, ⟨_, List.mem_cons_self, ?_⟩⟩
    · simp
    · simp [hrs]
    · -- no file that is being connected has the same descriptor
      intro hm
      dsimp only at hm
      rw [hws] at hm
      obtain ⟨j, hj, hcj, hfd⟩ := (hc.wset.mem _).mp hm
      obtain rfl := hc.rset.inj j hj i hi (Or.inl hcj) (Or.inr hr) hfd
      exact hn hcj
    · simp [Answer.Eof]

end Turned

/-- The flags of the file `i` behind a failure: it waits for the end, or has been retired. -/
inductive Later (i : ℕ) (tr : List Segment) (flags : ℕ) : Prop
  | waiting (hf : flags = fReading)
      (hk : ∀ U ∈ tr, U.Checks i → U.Keeps ∧ ∀ a ∈ U.log, ¬ a.Eof)
  | retired (hf : flags = fDone) {l U l'} (htr : tr = l ++ U :: l') (hU : U.Checks i)
      (hr : U.Retires i) (he : ∃ a ∈ U.log, a.Eof) (hk : ∀ W ∈ l ++ l', W.Checks i → W.Keeps)

namespace Later

variable {flags : ℕ}

theorem flags_cases (h : Later i tr flags) : flags = fReading ∨ flags = fDone := by
  rcases h with ⟨hf, -⟩ | ⟨hf, -⟩
  · exact Or.inl hf
  · exact Or.inr hf

theorem snoc (h : Later i tr flags) (hT : T.Checks i → T.Keeps ∧ ∀ a ∈ T.log, ¬ a.Eof) :
    Later i (tr ++ [T]) flags := by
  rcases h with ⟨hf, hk⟩ | @⟨hf, l, U, l', rfl, hU, hr, he, hk⟩
  · refine .waiting hf fun U hm hU => ?_
    rcases List.mem_append.mp hm with hm | hm
    · exact hk U hm hU
    · rw [List.mem_singleton.mp hm] at hU ⊢
      exact hT hU
  · have htr : l ++ U :: l' ++ [T] = l ++ U :: (l' ++ [T]) := List.append_assoc ..
    refine .retired hf htr hU hr he fun W hm hW => ?_
    rw [← List.append_assoc] at hm
    rcases List.mem_append.mp hm with hm | hm
    · exact hk W hm hW
    · rw [List.mem_singleton.mp hm] at hW ⊢
      exact (hT hW).1

theorem retire (h : Later i tr flags) (hne : flags ≠ fDone) (hU : T.Checks i) (hr : T.Retires i)
    (he : ∃ a ∈ T.log, a.Eof) : Later i (tr ++ [T]) fDone := by
  rcases h with ⟨-, hk⟩ | ⟨hf, -⟩
  · refine .retired rfl rfl hU hr he fun W hm hW => ?_
    rw [List.append_nil] at hm
    exact (hk W hm hW).1
  · exact absurd hf hne

end Later

/-- What holds behind a failure, with the segments since then. -/
structure Since (i : ℕ) (tr : List Segment) (v : Vars) : Prop where
  lt : i < v.nfiles
  later : Later i tr (v.file i).f_flags
  silent : ∀ U ∈ tr, U.Checks i ∨ (U.before.2.file i).f_flags ≠ fDone →
    ∀ a ∈ U.log, ¬ a.WritesTo (U.before.2.file i).f_fd

theorem Since.snoc (h : Since i tr x.2) (hc : Counts maxnconn x.2 socks)
    (hr : Prog.Reaches logged (segment maxnconn x) (socks, []) (.ret (some y)) (socks', log)) :
    Since i (tr ++ [⟨x, log, y⟩]) y.2 := by
  have hsilent : ((⟨x, log, y⟩ : Segment).Checks i ∨ (x.2.file i).f_flags ≠ fDone →
      ∀ a ∈ log, ¬ a.WritesTo (x.2.file i).f_fd) → ∀ U ∈ tr ++ [⟨x, log, y⟩],
        U.Checks i ∨ (U.before.2.file i).f_flags ≠ fDone →
          ∀ a ∈ U.log, ¬ a.WritesTo (U.before.2.file i).f_fd := by
    intro hlast U hm hU
    rcases List.mem_append.mp hm with hm | hm
    · exact h.silent U hm hU
    · rw [List.mem_singleton.mp hm] at hU ⊢
      exact hlast hU
  have hflags := h.later.flags_cases
  by_cases hx : x.1 = .check i
  · obtain ⟨pc, v⟩ := x
    obtain rfl : pc = .check i := hx
    dsimp only at *
    obtain ⟨ht, hfiles, -⟩ := (turned_segment hc h.lt).reaches hr y rfl
    have hn : (v.file i).f_flags ≠ fConnecting := by
      rcases hflags with hf | hf <;> simp [hf]
    refine ⟨hfiles ▸ h.lt, ?_, hsilent fun _ a ha ⟨line, hw⟩ => ht.quiet hn a ha ⟨_, line, hw⟩⟩
    by_cases hf : (y.2.file i).f_flags = (v.file i).f_flags
    · rw [hf]
      exact h.later.snoc fun _ => ht.keeps hf
    · obtain ⟨hd, hret, heof⟩ := ht.retires hc h.lt hf hn
      rw [hd]
      exact h.later.retire (fun he => hf (hd.trans he.symm)) rfl hret heof
  · have hz : (x.2.file i).f_flags ≠ 0 := by
      rcases hflags with hf | hf <;> simp [hf]
    have hp := (passed_segment hc h.lt hz hx).reaches hr y rfl
    refine ⟨hp.nfiles ▸ h.lt, ?_, hsilent fun hU => ?_⟩
    · rw [hp.file]
      exact h.later.snoc fun hT => absurd hT hx
    · exact hp.quiet (Or.inr (hflags.resolve_right (hU.resolve_left hx)))

/-- A failure: the connection, behind which the request is written, or a read, behind which the
file waits. -/
inductive Failed (i : ℕ) (T : Segment) (tr : List Segment) (v : Vars) : Prop
  | connect {fd fd' : ℕ} {line : String}
      (hl : T.log = [⟨.getsockopt fd, true⟩, ⟨.writen fd' line, ()⟩])
  | read {fd : ℕ} {n : ℤ} (hn : n < 0) (hl : T.log = [⟨.read fd, n⟩]) (hk : T.Keeps)
      (hs : Since i tr v)

theorem Counts.failed (h : Counts maxnconn v socks)
    (hr : Prog.Reaches logged (segment maxnconn (.check i, v)) (socks, [])
      (.ret (some y)) (socks', log))
    (hf : ∃ a ∈ log, a.ConnectFails ∨ a.ReadFails) :
    Failed i ⟨(.check i, v), log, y⟩ [] y.2 := by
  obtain ⟨a, ha, hf⟩ := hf
  by_cases hi : i < v.nfiles
  · obtain ⟨ht, hfiles, -⟩ := (turned_segment h hi).reaches hr y rfl
    dsimp only at ht
    have hkeeps (hf : (y.2.file i).f_flags = (v.file i).f_flags) :
        (⟨(.check i, v), log, y⟩ : Segment).Keeps := (ht.keeps hf).1
    rcases ht with ⟨rfl, -⟩ | @⟨failed, -, rfl, -⟩ | @⟨n, hrd, -, rfl, hv⟩ | ⟨-, rfl, -⟩
    · cases ha
    · rw [List.mem_pair] at ha
      rcases ha with rfl | rfl
      · obtain rfl : failed = true := hf.resolve_right id
        exact .connect rfl
      · exact absurd hf (or_self_iff.not.mpr id)
    · rw [List.mem_singleton] at ha
      subst ha
      have hneg : n < 0 := hf.resolve_left id
      have hsame : (y.2.file i).f_flags = (v.file i).f_flags := by rw [hv]
      refine .read hneg rfl (hkeeps hsame) ⟨hfiles ▸ hi, ?_, by simp⟩
      rw [hsame]
      exact .waiting hrd (by simp)
    · rw [List.mem_pair] at ha
      rcases ha with rfl | rfl
      · exact absurd (hf.resolve_left id) (lt_irrefl (0 : ℤ))
      · exact absurd hf (or_self_iff.not.mpr id)
  · -- no file has the number
    have hidle : (segment maxnconn (.check i, v)).Obeys logged (socks, []) fun _ g' => g'.2 = [] :=
      Prog.obeys_ite (fun hlt => absurd hlt hi) fun _ => rfl
    have hl : log = [] := hidle.reaches hr
    rw [hl] at ha
    cases ha

theorem Runs.failed {tr₁ tr₂ : List Segment}
    (h : Runs maxnconn host names (tr₁ ++ T :: tr₂) x socks) (hT : T.Checks i) (hf : T.Fails) :
    Failed i T tr₂ x.2 := by
  generalize htr : tr₁ ++ T :: tr₂ = tr at h
  induction h generalizing tr₂ with
  | start => simp at htr
  | @next tr x socks y socks' log h hr ih =>
    have hc := h.reachable.counts
    rcases List.eq_nil_or_concat tr₂ with rfl | ⟨tr₃, U, rfl⟩
    · obtain ⟨-, he⟩ := List.append_inj' htr rfl
      obtain rfl := List.singleton_inj.mp he
      obtain ⟨pc, v⟩ := x
      obtain rfl : pc = .check i := hT
      exact hc.failed hr hf
    · rw [List.concat_eq_append, ← List.cons_append, ← List.append_assoc] at htr
      obtain ⟨htl, he⟩ := List.append_inj' htr rfl
      obtain rfl := List.singleton_inj.mp he
      rw [List.concat_eq_append]
      rcases ih htl with ⟨hl⟩ | ⟨hn, hl, hk, hs⟩
      · exact .connect hl
      · exact .read hn hl hk (hs.snoc hc hr)

/-- A file that fails is retired just when the failure is that of a read, and a later turn of the
file finds its end. -/
theorem failed_retired_iff {tr₁ tr₂ : List Segment}
    (h : Runs maxnconn host names (tr₁ ++ T :: tr₂) x socks) (hT : T.Checks i) (hf : T.Fails) :
    Retired i T tr₂ ↔ (∀ a ∈ T.log, ¬ a.ConnectFails) ∧
      ∃ U ∈ tr₂, U.Checks i ∧ ∃ a ∈ U.log, a.Eof := by
  rcases h.failed hT hf with @⟨fd, fd', line, hl⟩ | @⟨fd, n, hn, hl, hk, ⟨-, hlater, hsilent⟩⟩
  · constructor
    · intro hret
      have hquiet := hret.quiet [] _ _ hl (Or.inl rfl) _ List.mem_cons_self
      exact absurd ⟨_, _, rfl⟩ hquiet
    · rintro ⟨hno, -⟩
      rw [hl] at hno
      exact absurd rfl (hno _ List.mem_cons_self)
  · have hclose : ∀ {U : Segment}, U.Keeps → ¬ U.Retires i := fun hU hret => hU.1 _ hret.1
    constructor
    · intro hret
      constructor
      · simp [hl, Answer.ConnectFails]
      · obtain ⟨l, U, l', htr, hU, hUr, -⟩ := hret.once
        have hm : U ∈ T :: tr₂ := htr ▸ List.mem_append_right l List.mem_cons_self
        rcases List.mem_cons.mp hm with rfl | hm
        · exact absurd hUr (hclose hk)
        rcases hlater with ⟨-, hwait⟩ | @⟨-, l, W, l', rfl, hW, -, he, -⟩
        · exact absurd hUr (hclose (hwait U hm hU).1)
        · exact ⟨W, List.mem_append_right l List.mem_cons_self, hW, he⟩
    · rintro ⟨-, U, hm, hU, a, ha, heof⟩
      rcases hlater with ⟨-, hwait⟩ | @⟨-, l, W, l', rfl, hW, hWr, -, hrest⟩
      · exact absurd heof ((hwait U hm hU).2 a ha)
      · refine ⟨?_, hsilent, T :: l, W, l', rfl, hW, hWr, ?_⟩
        · intro l₁ b l₂ htl _ c hc
          rw [hl] at htl
          rcases List.append_eq_singleton_iff.mp htl.symm with ⟨-, he⟩ | ⟨-, he⟩
          · rw [(List.cons.inj he).2] at hc
            cases hc
          · cases he
        · intro V hV hVi
          rcases List.mem_cons.mp hV with rfl | hV
          · exact hk
          · exact hrest V hV hVi

theorem logged_next {c : Call} {r : Reply c} (h : Env socks c r socks') :
    logged.Next (socks, log) c r (socks', log ++ [⟨c, r⟩]) := ⟨h, rfl⟩

/-- A read that is interrupted, and the end of the file in the next round. -/
theorem failed_retired_sample : ∃ T tr, T.log = [⟨.read 3, (-1 : ℤ)⟩] ∧ Retired 0 T tr := by
  have s₀ : Runs 1 "host" ["file"] [] (.head, .init "host" ["file"]) ∅ := .start
  have s₁ := s₀.next (.refl _ _)
  have hsocket : Env ∅ .socket (some 3) {3} := ⟨by decide, rfl⟩
  have hconnect : Env {3} (.connect 3 "host") (.ok ()) {3} := rfl
  have hwriten : Env {3} (.writen 3 (getCmd "file")) () {3} := rfl
  have hselect : Env {3} (.select 4 {3} ∅) ({3}, ∅) {3} := ⟨by decide, by decide, rfl⟩
  have hread : ∀ n : ℤ, Env {3} (.read 3) n {3} := fun _ => rfl
  have hclose : Env {3} (.close 3) () ∅ := (by decide : ∅ = Finset.erase {3} 3)
  have s₂ := s₁.next (.call (logged_next hsocket) (.call (logged_next hconnect)
    (.call (logged_next hwriten) (.refl _ _))))
  have s₃ := s₂.next (.call (logged_next hselect) (.refl _ _))
  have s₄ := s₃.next (.call (logged_next (hread (-1))) (.refl _ _))
  have s₅ := s₄.next (.refl _ _)
  have s₆ := s₅.next (.refl _ _)
  have s₇ := s₆.next (.call (logged_next hselect) (.refl _ _))
  have s₈ := s₇.next (.call (logged_next (hread 0)) (.call (logged_next hclose) (.refl _ _)))
  have h : Runs 1 "host" ["file"] ([_, _, _] ++ _ :: [_, _, _, _]) _ _ := s₈
  have hfail : Answer.ReadFails ⟨.read 3, (-1 : ℤ)⟩ := (by decide : (-1 : ℤ) < 0)
  have hend : Answer.Eof ⟨.read 3, (0 : ℤ)⟩ := rfl
  have hret := (failed_retired_iff h rfl ⟨_, List.mem_cons_self, Or.inr hfail⟩).mpr
  refine ⟨_, _, rfl, hret ⟨fun a ha => ?_, ?_⟩⟩
  · rw [List.mem_singleton.mp ha]
    exact id
  · exact ⟨_, .tail _ (.tail _ (.tail _ (.head _))), rfl, _, .head _, hend⟩

/-- A connection that is refused, and the request for the file. -/
theorem refused_written : ¬ ∀ tr₁ T tr₂ x socks,
    Runs 1 "host" ["file"] (tr₁ ++ T :: tr₂) x socks → T.Checks 0 → T.Fails →
      ∀ l a l', T.log = l ++ a :: l' → a.ConnectFails ∨ a.ReadFails → ∀ b ∈ l', ¬ b.Writes := by
  intro hall
  have s₀ : Runs 1 "host" ["file"] [] (.head, .init "host" ["file"]) ∅ := .start
  have s₁ := s₀.next (.refl _ _)
  have hsocket : Env ∅ .socket (some 3) {3} := ⟨by decide, rfl⟩
  have hconnect : Env {3} (.connect 3 "host") (.error .einprogress) {3} := rfl
  have hselect : Env {3} (.select 4 {3} {3}) (∅, {3}) {3} := ⟨by decide, by decide, rfl⟩
  have hrefused : Env {3} (.getsockopt 3) true {3} := rfl
  have hwriten : Env {3} (.writen 3 (getCmd "file")) () {3} := rfl
  have s₂ := s₁.next (.call (logged_next hsocket) (.call (logged_next hconnect) (.refl _ _)))
  have s₃ := s₂.next (.call (logged_next hselect) (.refl _ _))
  have s₄ := s₃.next (.call (logged_next hrefused) (.call (logged_next hwriten) (.refl _ _)))
  have h : Runs 1 "host" ["file"] ([_, _, _] ++ [_]) _ _ := s₄
  have hfail : Answer.ConnectFails ⟨.getsockopt 3, true⟩ := rfl
  exact hall _ _ _ _ _ h rfl ⟨_, List.mem_cons_self, Or.inl hfail⟩ [] _ _ rfl (Or.inl hfail) _
    List.mem_cons_self ⟨_, _, rfl⟩

end Somenote.Web
