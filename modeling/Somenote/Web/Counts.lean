import Somenote.Tables.Marked
import Somenote.Web.Source

/-! # The counters of the fetcher

The three counters and the two descriptor sets agree with the flags of the files, in every
state of the main loop and in any order of the events.
-/

namespace Somenote.Web

variable {maxnconn n : ℤ} {v : Vars} {socks w : Finset ℕ} {i : ℕ} {f : File}

abbrev Unconnected (f : File) : Prop := f.f_flags = 0

abbrev Undone (f : File) : Prop := f.f_flags ≠ fDone

abbrev Connecting (f : File) : Prop := f.f_flags = fConnecting

/-- A file with a connection, that is still being made or not. -/
abbrev Active (f : File) : Prop := f.f_flags = fConnecting ∨ f.f_flags = fReading

/-- The counters and the sets, in terms of the flags. -/
structure Counts (maxnconn : ℤ) (v : Vars) (socks : Finset ℕ) : Prop where
  flags : ∀ i < v.nfiles, (v.file i).f_flags = 0 ∨ Active (v.file i) ∨ (v.file i).f_flags = fDone
  conn : v.nlefttoconn = Nat.count (fun i => Unconnected (v.file i)) v.nfiles
  read : v.nlefttoread = Nat.count (fun i => Undone (v.file i)) v.nfiles
  nconn : v.nconn = Nat.count (fun i => Active (v.file i)) v.nfiles
  le_max : v.nconn ≤ max maxnconn 0
  wset : Marked v.nfiles Connecting File.f_fd v.file v.wset
  rset : Marked v.nfiles Active File.f_fd v.file v.rset
  socks : v.rset = socks

namespace Counts

theorem flags_update (h : Counts maxnconn v socks)
    (hf : f.f_flags = 0 ∨ Active f ∨ f.f_flags = fDone) :
    ∀ j < v.nfiles, (Function.update v.file i f j).f_flags = 0 ∨
      Active (Function.update v.file i f j) ∨ (Function.update v.file i f j).f_flags = fDone := by
  intro j hj
  by_cases hji : j = i
  · subst hji
    rw [Function.update_self]
    exact hf
  · rw [Function.update_of_ne hji]
    exact h.flags j hj

theorem connecting (h : Counts maxnconn v socks) (hi : i < v.nfiles)
    (hz : (v.file i).f_flags ≠ 0) (hc : (v.file i).f_flags &&& fConnecting ≠ 0) :
    (v.file i).f_flags = fConnecting := by
  rcases h.flags i hi with hf | (hf | hf) | hf
  · exact absurd hf hz
  · exact hf
  · rw [hf] at hc
    exact absurd hc (by decide)
  · rw [hf] at hc
    exact absurd hc (by decide)

theorem reading (h : Counts maxnconn v socks) (hi : i < v.nfiles)
    (hz : (v.file i).f_flags ≠ 0) (hr : (v.file i).f_flags &&& fReading ≠ 0) :
    (v.file i).f_flags = fReading := by
  rcases h.flags i hi with hf | (hf | hf) | hf
  · exact absurd hf hz
  · rw [hf] at hr
    exact absurd hr (by decide)
  · exact hf
  · rw [hf] at hr
    exact absurd hr (by decide)

theorem start (h : Counts maxnconn v socks) (hi : i < v.nfiles) (hz : (v.file i).f_flags = 0)
    (hfd : f.f_fd ∉ socks) (hf : Active f) (hlt : v.nconn < maxnconn) {m : ℤ}
    (hw : Marked v.nfiles Connecting File.f_fd (Function.update v.file i f) w) :
    Counts maxnconn { v with
      file := Function.update v.file i f
      nconn := v.nconn + 1
      nlefttoconn := v.nlefttoconn - 1
      maxfd := m
      rset := insert f.f_fd v.rset
      wset := w } (insert f.f_fd socks) where
  flags := h.flags_update (Or.inr (Or.inl hf))
  conn := by
    have hne : f.f_flags ≠ 0 := by
      rcases hf with hf | hf <;> simp [hf]
    have hc := count_unmark (p := Unconnected) hi hz hne
    have h₀ := h.conn
    dsimp only
    omega
  read := by
    have hne : f.f_flags ≠ fDone := by
      rcases hf with hf | hf <;> simp [hf]
    have hold : (v.file i).f_flags ≠ fDone := by simp [hz]
    have hk := count_keep (p := Undone) (f := v.file) hi (iff_of_true hne hold)
    exact h.read.trans (by rw [hk])
  nconn := by
    have hold : ¬ Active (v.file i) := by simp [Active, hz]
    have hc := count_mark (p := Active) hi hold hf
    have h₀ := h.nconn
    dsimp only
    omega
  le_max := by
    dsimp only
    omega
  wset := hw
  rset := by
    have hold : ¬ Active (v.file i) := by simp [Active, hz]
    rw [← h.socks] at hfd
    exact h.rset.insert hi hold hf hfd
  socks := by
    dsimp only
    rw [h.socks]

theorem connected (h : Counts maxnconn v socks) (hi : i < v.nfiles)
    (hc : Connecting (v.file i)) (hf : f.f_flags = fReading) (hfd : f.f_fd = (v.file i).f_fd)
    {m : ℤ} :
    Counts maxnconn { v with
      file := Function.update v.file i f
      maxfd := m
      rset := insert (v.file i).f_fd v.rset
      wset := v.wset.erase (v.file i).f_fd } socks := by
  have hmem : (v.file i).f_fd ∈ v.rset := h.rset.key_mem hi (Or.inl hc)
  have hact : Active f ↔ Active (v.file i) := iff_of_true (Or.inr hf) (Or.inl hc)
  rw [Connecting] at hc
  rw [Finset.insert_eq_of_mem hmem]
  constructor
  · exact h.flags_update (Or.inr (Or.inl (Or.inr hf)))
  · have hk := count_keep (p := Unconnected) (f := v.file) (a := f) hi (by simp [Unconnected, hf, hc])
    exact h.conn.trans (by rw [hk])
  · have hk := count_keep (p := Undone) (f := v.file) (a := f) hi (by simp [Undone, hf, hc])
    exact h.read.trans (by rw [hk])
  · have hk := count_keep (p := Active) (f := v.file) (a := f) hi hact
    exact h.nconn.trans (by rw [hk])
  · exact h.le_max
  · exact h.wset.erase hi hc (by simp [Connecting, hf])
  · exact h.rset.keep hact fun _ => hfd
  · exact h.socks

theorem done (h : Counts maxnconn v socks) (hi : i < v.nfiles)
    (hr : (v.file i).f_flags = fReading) (hf : f.f_flags = fDone) :
    Counts maxnconn { v with
      file := Function.update v.file i f
      nconn := v.nconn - 1
      nlefttoread := v.nlefttoread - 1
      rset := v.rset.erase (v.file i).f_fd } (socks.erase (v.file i).f_fd) := by
  have hinact : ¬ Active f := by simp [Active, hf]
  constructor
  · exact h.flags_update (Or.inr (Or.inr hf))
  · have hk := count_keep (p := Unconnected) (f := v.file) (a := f) hi (by simp [Unconnected, hf, hr])
    exact h.conn.trans (by rw [hk])
  · have hk := count_unmark (p := Undone) (f := v.file) (a := f) hi (by simp [Undone, hr])
      (by simp [Undone, hf])
    have h₀ := h.read
    dsimp only
    omega
  · have hk := count_unmark (p := Active) (f := v.file) (a := f) hi (Or.inr hr) hinact
    have h₀ := h.nconn
    dsimp only
    omega
  · have h₀ := h.le_max
    dsimp only
    omega
  · exact h.wset.keep (by simp [Connecting, hf, hr]) fun hc => absurd (Or.inl hc) hinact
  · exact h.rset.erase hi (Or.inr hr) hinact
  · exact congrArg (fun s => s.erase (v.file i).f_fd) h.socks

end Counts

/-- The runs in which no file is missing. -/
def found : Protocol Call Reply (Finset ℕ) where
  Ok _ c := ∀ text, c ≠ .errQuit text
  Next := Env

theorem counts_startConnect (h : Counts maxnconn v socks) (hi : i < v.nfiles)
    (hz : (v.file i).f_flags = 0) (hlt : v.nconn < maxnconn) :
    (startConnect i v).Obeys found socks fun v' =>
      Counts maxnconn { v' with nconn := v'.nconn + 1, nlefttoconn := v'.nlefttoconn - 1 } := by
  unfold startConnect
  refine Prog.obeys_call (by simp [found]) ?_
  rintro (_ | fd) socks' hs
  · exact Prog.obeys_dump
  obtain ⟨hfd, rfl⟩ := hs
  refine Prog.obeys_call (by simp [found]) ?_
  rintro (e | _) socks' rfl
  · refine Prog.obeys_ite (fun _ => Prog.obeys_dump) fun _ => ?_
    refine h.start hi hz hfd (Or.inl rfl) hlt (h.wset.insert hi ?_ rfl ?_)
    · simp [Connecting, hz]
    · -- what is being connected is also read
      intro hmem
      obtain ⟨j, hj, hc, hfd'⟩ := (h.wset.mem _).mp hmem
      rw [← h.socks] at hfd
      exact hfd ((h.rset.mem _).mpr ⟨j, hj, Or.inl hc, hfd'⟩)
  · unfold writeGetCmd
    refine Prog.obeys_call (by simp [found]) ?_
    rintro r socks' rfl
    have hw : Marked v.nfiles Connecting File.f_fd (Function.update v.file i
        { v.file i with f_fd := fd, f_flags := fReading }) v.wset :=
      h.wset.keep (by simp [Connecting, hz]) fun hc => by simp [Connecting] at hc
    have hstart := h.start (f := { v.file i with f_fd := fd, f_flags := fReading })
      (m := if fd > v.maxfd then fd else v.maxfd) hi hz hfd (Or.inr rfl) hlt hw
    exact Prog.obeys_ret (by simpa [Vars.setFile] using hstart)

theorem counts_checkFile (h : Counts maxnconn v socks) (hi : i < v.nfiles) :
    (checkFile i v).Obeys found socks (Counts maxnconn) := by
  unfold checkFile
  dsimp only
  refine Prog.obeys_ite (fun _ => h) fun hopen => ?_
  refine Prog.obeys_ite (fun hc => ?_) fun _ => ?_
  · have hflag := h.connecting hi (fun hz => hopen (Or.inl hz)) hc.1
    refine Prog.obeys_call (by simp [found]) ?_
    rintro _ socks' rfl
    unfold writeGetCmd
    refine Prog.obeys_call (by simp [found]) ?_
    rintro _ socks' rfl
    exact h.connected (f := { v.file i with f_flags := fReading }) hi hflag rfl rfl
  · refine Prog.obeys_ite (fun hr => ?_) fun _ => h
    have hflag := h.reading hi (fun hz => hopen (Or.inl hz)) hr.1
    refine Prog.obeys_call (by simp [found]) ?_
    rintro n socks' rfl
    refine Prog.obeys_ite (fun _ => ?_) fun _ => h
    refine Prog.obeys_call (by simp [found]) ?_
    rintro _ socks' rfl
    exact h.done hi hflag rfl

/-- What a segment leads to: the next state, or the end of the loop. -/
def Behind (maxnconn : ℤ) (v : Vars) (o : Option (Pc × Vars)) (socks : Finset ℕ) : Prop :=
  match o with
  | some x => Counts maxnconn x.2 socks
  | none => ∀ i < v.nfiles, (v.file i).f_flags = fDone

/-- No segment misses a file, and all of them keep the counters. -/
theorem counts_segment {x : Pc × Vars} (h : Counts maxnconn x.2 socks) :
    (segment maxnconn x).Obeys found socks (Behind maxnconn x.2) := by
  obtain ⟨pc, v⟩ := x
  dsimp only at h
  cases pc with
  | head =>
    refine Prog.obeys_ite (fun _ => h) fun hleft i hi => ?_
    have hcount : Nat.count (fun i => Undone (v.file i)) v.nfiles = 0 := by
      have hread := h.read
      omega
    exact not_not.mp (Nat.count_iff_forall_not.mp hcount i hi)
  | connect =>
    refine Prog.obeys_ite (fun hgo => ?_) fun _ => ?_
    · have hcount : Nat.count (fun i => Unconnected (v.file i)) v.nfiles ≠ 0 := by
        have hconn := h.conn
        have hpos := hgo.2
        omega
      cases hfind : (List.range v.nfiles).find? fun i => (v.file i).f_flags = 0 with
      | none =>
        obtain ⟨i, hi, hz⟩ := Nat.count_ne_iff_exists.mp hcount
        have hno := List.find?_eq_none.mp hfind i (List.mem_range.mpr hi)
        exact absurd (decide_eq_true hz) hno
      | some i =>
        have hi := List.mem_range.mp (List.mem_of_find?_eq_some hfind)
        have hz := List.find?_some hfind
        exact .bind ((counts_startConnect h hi (of_decide_eq_true hz) hgo.1).mono fun _ _ hc => hc)
    · refine Prog.obeys_call (by simp [found]) ?_
      rintro ⟨rs, ws⟩ socks' ⟨-, -, rfl⟩
      exact ⟨h.flags, h.conn, h.read, h.nconn, h.le_max, h.wset, h.rset, h.socks⟩
  | check i =>
    exact Prog.obeys_ite (fun hi => .bind ((counts_checkFile h hi).mono fun _ _ hc => hc)) fun _ => h

variable {host : String} {names : List String} {x : Pc × Vars}

theorem argFile_flags (i : ℕ) : (argFile host names i).f_flags = 0 := by
  unfold argFile
  split <;> rfl

theorem counts_init : Counts maxnconn (.init host names) ∅ where
  flags i _ := Or.inl (argFile_flags i)
  conn := by
    have hall : Nat.count (fun i => Unconnected (argFile host names i))
        (min names.length maxFiles) = min names.length maxFiles :=
      Nat.count_iff_forall.mpr fun i _ => argFile_flags i
    exact congrArg Nat.cast hall.symm
  read := by
    have hall : Nat.count (fun i => Undone (argFile host names i)) (min names.length maxFiles) =
        min names.length maxFiles := by
      refine Nat.count_iff_forall.mpr fun i _ => ?_
      rw [Undone, argFile_flags]
      decide
    exact congrArg Nat.cast hall.symm
  nconn := by
    have hnone : Nat.count (fun i => Active (argFile host names i)) (min names.length maxFiles) =
        0 := by
      refine Nat.count_iff_forall_not.mpr fun i _ => ?_
      rw [Active, argFile_flags]
      decide
    exact congrArg Nat.cast hnone.symm
  le_max := le_max_right ..
  wset := .empty fun i _ => by
    change ¬ (argFile host names i).f_flags = _
    rw [argFile_flags]
    decide
  rset := .empty fun i _ => by
    change ¬ ((argFile host names i).f_flags = _ ∨ (argFile host names i).f_flags = _)
    rw [argFile_flags]
    decide
  socks := rfl

theorem Reachable.counts (hr : Reachable maxnconn host names x socks) :
    Counts maxnconn x.2 socks := by
  refine hr.inv (I := fun x socks => Counts maxnconn x.2 socks) counts_init fun x socks h => ?_
  refine ((counts_segment h).mono fun o socks' ho => ?_).weaken (fun _ _ _ => trivial)
    fun _ _ _ _ => id
  rintro y rfl
  exact ho

/-- The counters and the sets are what the flags of the files say. -/
def Agrees (limit : ℤ) (v : Vars) : Prop :=
  v.nlefttoconn = Nat.count (fun i => (v.file i).f_flags = 0) v.nfiles ∧
    v.nlefttoread = Nat.count (fun i => (v.file i).f_flags ≠ fDone) v.nfiles ∧
    v.nconn = Nat.count (fun i =>
      (v.file i).f_flags = fConnecting ∨ (v.file i).f_flags = fReading) v.nfiles ∧
    v.nconn ≤ limit ∧
    (∀ fd, fd ∈ v.wset ↔ ∃ i < v.nfiles, (v.file i).f_flags = fConnecting ∧ (v.file i).f_fd = fd) ∧
    ∀ fd, fd ∈ v.rset ↔ ∃ i < v.nfiles,
      ((v.file i).f_flags = fConnecting ∨ (v.file i).f_flags = fReading) ∧ (v.file i).f_fd = fd

/-- In every state of the main loop, the counters and the sets agree with the flags; no turn
misses a file without a connection, and the loop ends when all files have been read. -/
theorem web_counts (hr : Reachable maxnconn host names x socks) :
    Agrees (max maxnconn 0) x.2 ∧
      (∀ text k socks',
        ¬ Prog.Reaches runs (segment maxnconn x) socks (.call (.errQuit text) k) socks') ∧
      ∀ socks', Prog.Reaches runs (segment maxnconn x) socks (.ret none) socks' →
        ∀ i < x.2.nfiles, (x.2.file i).f_flags = fDone := by
  have h := hr.counts
  refine ⟨⟨h.conn, h.read, h.nconn, h.le_max, h.wset.mem, h.rset.mem⟩, ?_, ?_⟩
  · intro text k socks' hm
    have hobeys := (counts_segment h).reaches (hm.mono fun _ _ _ _ => id)
    exact hobeys.1 text rfl
  · intro socks' hm
    exact (counts_segment h).reaches (hm.mono fun _ _ _ _ => id)

section Steps

variable {socks : Finset ℕ} {fd : ℕ} {rset wset : Finset ℕ}

theorem next_socket (fd : ℕ) (h : fd ∉ socks) :
    runs.Next socks .socket (some fd) (insert fd socks) :=
  ⟨h, rfl⟩

theorem next_connect {host : String} (r : Except Errno Unit) :
    runs.Next socks (.connect fd host) r socks := rfl

theorem next_writen {line : String} : runs.Next socks (.writen fd line) () socks := rfl

theorem next_select {n : ℤ} (rs ws : Finset ℕ) (hr : rs ⊆ rset) (hw : ws ⊆ wset) :
    runs.Next socks (.select n rset wset) (rs, ws) socks := ⟨hr, hw, rfl⟩

theorem next_getsockopt (up : Bool) : runs.Next socks (.getsockopt fd) up socks := rfl

theorem next_read (n : ℤ) : runs.Next socks (.read fd) n socks := rfl

theorem next_close : runs.Next socks (.close fd) () (socks.erase fd) := rfl

end Steps

/-- Three files over two connections: the first one comes up while it is in progress, the second
one at once, and its descriptor is used again for the third file. -/
theorem web_counts_sample : ∃ x socks, x.1 = .connect ∧ x.2.wset = {4} ∧ x.2.rset = {3, 4} ∧
    x.2.nlefttoread = 2 ∧ (Agrees (max 2 0) x.2 ∧
    (∀ text k socks', ¬ Prog.Reaches runs (segment 2 x) socks (.call (.errQuit text) k) socks') ∧
      ∀ socks', Prog.Reaches runs (segment 2 x) socks (.ret none) socks' →
        ∀ i < x.2.nfiles, (x.2.file i).f_flags = fDone) := by
  have s₀ : Reachable 2 "host" ["a", "b", "c"] (.head, .init "host" ["a", "b", "c"]) ∅ := .start
  have s₁ := s₀.next (.refl _ _)
  have s₂ := s₁.next (.call (next_socket 3 (by decide)) (.call (next_connect (.error .einprogress))
    (.refl _ _)))
  have s₃ := s₂.next (.call (next_socket 4 (by decide)) (.call (next_connect (.ok ()))
    (.call next_writen (.refl _ _))))
  have s₄ := s₃.next (.call (next_select {4} {3} (by decide) (by decide)) (.refl _ _))
  have s₅ := s₄.next (.call (next_getsockopt true) (.call next_writen (.refl _ _)))
  have s₆ := s₅.next (.call (next_read 5) (.refl _ _))
  have s₇ := ((s₆.next (.refl _ _)).next (.refl _ _)).next (.refl _ _)
  -- the second round: the second file ends
  have s₈ := s₇.next (.call (next_select {4} ∅ (by decide) (by decide)) (.refl _ _))
  have s₉ := (s₈.next (.refl _ _)).next (.call (next_read 0) (.call next_close (.refl _ _)))
  have s₁₀ := ((s₉.next (.refl _ _)).next (.refl _ _)).next (.refl _ _)
  have s₁₁ := s₁₀.next (.call (next_socket 4 (by decide)) (.call (next_connect (.error .einprogress))
    (.refl _ _)))
  exact ⟨_, _, rfl, by decide, by decide, rfl, web_counts s₁₁⟩

/-- A negative limit is below the number of connections at the start. -/
theorem nconn_above_limit :
    ¬ ∀ x socks, Reachable (-1) "host" ["file"] x socks → x.1 = .head → Agrees (-1) x.2 := by
  intro hall
  obtain ⟨-, -, -, hle, -⟩ := hall _ _ .start rfl
  simp [Vars.init] at hle

end Somenote.Web
