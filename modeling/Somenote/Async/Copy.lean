import Mathlib.Tactic.Common
import Somenote.Async.Source
import Somenote.Bytes.Blocks
import Somenote.Tables.Marked

/-! # The copy is the translated input

A block is outstanding in one buffer from its read to its write, and is in the output file
behind it. This holds for every order in which the operations complete.
-/

namespace Somenote.Async

theorem BSZ_pos : 0 < BSZ := by decide

/-- The block of the input that starts at `o`. -/
def block (input : List UInt8) (o : ℕ) : List UInt8 := (input.drop o).take BSZ

variable {input : List UInt8} {s t : State} {b : Buf} {i : ℕ}

namespace State

@[simp] theorem setBuf_bufs : (s.setBuf i b).bufs = Function.update s.bufs i b := rfl

@[simp] theorem setBuf_aiolist : (s.setBuf i b).aiolist = s.aiolist := rfl

@[simp] theorem setBuf_numop : (s.setBuf i b).numop = s.numop := rfl

@[simp] theorem setBuf_pc : (s.setBuf i b).pc = s.pc := rfl

end State

theorem length_block (o : ℕ) : (block input o).length = min BSZ (input.length - o) := by
  rw [block, List.length_take, List.length_drop]

theorem map_block (o : ℕ) :
    (block input o).map translate = ((input.map translate).drop o).take BSZ := by
  rw [block, List.map_take, List.map_drop]

/-- The stages of a buffer. -/
inductive Stage (input : List UInt8) (b : Buf) : Prop
  | unused (hop : b.op = .unused) (hs : b.aiocb.status ≠ .inProgress)
  | reading (hop : b.op = .readPending) (hs : b.aiocb.status = .inProgress)
      (hf : b.aiocb.aio_fildes = .ifd) (hn : b.aiocb.aio_nbytes = BSZ)
      (hl : input.length < b.aiocb.aio_offset + BSZ → b.last = true)
  | read (hop : b.op = .readPending)
      (hs : b.aiocb.status = .done (block input b.aiocb.aio_offset).length)
      (hl : input.length < b.aiocb.aio_offset + BSZ → b.last = true)
      (hd : b.data.take (block input b.aiocb.aio_offset).length = block input b.aiocb.aio_offset)
  | writing (hop : b.op = .writePending) (hs : b.aiocb.status = .inProgress)
      (hf : b.aiocb.aio_fildes = .ofd)
      (hd : b.data.take b.aiocb.aio_nbytes = (block input b.aiocb.aio_offset).map translate)
  | written (hop : b.op = .writePending) (hs : b.aiocb.status = .done b.aiocb.aio_nbytes)

/-- The block of the buffer is outstanding. -/
def Held (b : Buf) : Prop :=
  b.op = .readPending ∨ b.op = .writePending ∧ b.aiocb.status = .inProgress

def offset (b : Buf) : ℕ := b.aiocb.aio_offset

/-- The offsets of the blocks that have been written. -/
def State.written (s : State) : List ℕ := s.log.map Prod.fst

/-- What holds of the buffers, the counters and the output file in every state. -/
structure Inv (input : List UInt8) (s : State) : Prop where
  stage : ∀ i < NBUF, Stage input (s.bufs i)
  dvd : BSZ ∣ s.off
  near : s.off < input.length + BSZ
  numop : s.numop = Nat.count (fun i => (s.bufs i).op ≠ .unused) NBUF
  aiolist : ∀ i < NBUF, (s.aiolist i = true ↔ (s.bufs i).op ≠ .unused)
  held : ∃ P, Marked NBUF Held offset s.bufs P ∧
    (∀ o, o ∈ P ∨ o ∈ s.written ↔ BSZ ∣ o ∧ o < s.off) ∧ ∀ o ∈ P, o ∉ s.written
  nodup : s.written.Nodup
  log : ∀ w ∈ s.log, w.2 = (block input w.1).map translate
  out : Copied (input.map translate) BSZ s.written s.out

theorem inv_initial : Inv input State.initial where
  stage _ _ := .unused rfl nofun
  dvd := Nat.dvd_zero _
  near := Nat.add_pos_right _ BSZ_pos
  numop := by
    rw [(Nat.count_iff_forall_not).mpr]
    · rfl
    · exact fun _ _ h => h rfl
  aiolist i _ := by simp [State.initial]
  held := by
    refine ⟨∅, Marked.empty fun i _ => ?_, fun o => ?_, fun o ho => ?_⟩
    · simp [Held, State.initial]
    · simp [State.initial, State.written]
    · exact absurd ho (Finset.notMem_empty o)
  nodup := List.nodup_nil
  log _ hw := absurd hw List.not_mem_nil
  out := .nil

theorem Inv.goto (h : Inv input s) (pc : Pc) : Inv input { s with pc := pc } :=
  ⟨h.stage, h.dvd, h.near, h.numop, h.aiolist, h.held, h.nodup, h.log, h.out⟩

theorem Inv.lt_length (h : Inv input s) {o : ℕ} (hd : BSZ ∣ o) (ho : o < s.off) :
    o < input.length := by
  obtain ⟨k, hk⟩ := h.dvd
  obtain ⟨j, rfl⟩ := hd
  have hnear := h.near
  rw [hk] at ho hnear
  have hjk : j + 1 ≤ k := Nat.lt_of_mul_lt_mul_left ho
  have hle := Nat.mul_le_mul_left BSZ hjk
  rw [Nat.mul_succ] at hle
  omega

theorem stage_update (h : Inv input s) (hb : Stage input b) :
    ∀ j < NBUF, Stage input (Function.update s.bufs i b j) := by
  intro j hj
  by_cases hji : j = i
  · subst hji
    rwa [Function.update_self]
  · rw [Function.update_of_ne hji]
    exact h.stage j hj

section Keep

variable (h : Inv input s) (hop : b.op ≠ .unused ↔ (s.bufs i).op ≠ .unused)
include h hop

theorem Inv.numop_keep (hi : i < NBUF) :
    s.numop = Nat.count (fun j => (Function.update s.bufs i b j).op ≠ .unused) NBUF := by
  rw [h.numop]
  exact congrArg _ (count_keep (p := fun b : Buf => b.op ≠ .unused) hi hop).symm

theorem Inv.aiolist_keep :
    ∀ j < NBUF, (s.aiolist j = true ↔ (Function.update s.bufs i b j).op ≠ .unused) := by
  intro j hj
  rw [h.aiolist j hj]
  by_cases hji : j = i
  · subst hji
    rw [Function.update_self]
    exact hop.symm
  · rw [Function.update_of_ne hji]

theorem Inv.put (hi : i < NBUF) (hb : Stage input b) (hheld : Held b ↔ Held (s.bufs i))
    (hoff : Held b → offset b = offset (s.bufs i)) : Inv input (s.setBuf i b) where
  stage := stage_update h hb
  dvd := h.dvd
  near := h.near
  numop := h.numop_keep hop hi
  aiolist := h.aiolist_keep hop
  held := by
    obtain ⟨P, hP, hrest⟩ := h.held
    exact ⟨P, hP.keep hheld hoff, hrest⟩
  nodup := h.nodup
  log := h.log
  out := h.out

end Keep

/-! ## The turns of the loop -/

theorem aiolist_update {c : Bool} (h : Inv input s) (hc : c = true ↔ b.op ≠ .unused) :
    ∀ j < NBUF, (Function.update s.aiolist i c j = true ↔
      (Function.update s.bufs i b j).op ≠ .unused) := by
  intro j hj
  by_cases hji : j = i
  · subst hji
    rw [Function.update_self, Function.update_self]
    exact hc
  · rw [Function.update_of_ne hji, Function.update_of_ne hji]
    exact h.aiolist j hj

theorem Inv.start (h : Inv input s) (hi : i < NBUF) (hop : (s.bufs i).op = .unused)
    (hoff : s.off < input.length) (hb : Stage input b) (hbop : b.op = .readPending)
    (hbo : offset b = s.off) :
    Inv input { s.setBuf i b with
      off := s.off + BSZ
      aiolist := Function.update s.aiolist i true
      numop := s.numop + 1 } where
  stage := stage_update h hb
  dvd := Nat.dvd_add h.dvd (Nat.dvd_refl BSZ)
  near := Nat.add_lt_add_right hoff BSZ
  numop := by
    have hcount := count_mark (p := fun b : Buf => b.op ≠ .unused) (f := s.bufs) (a := b) hi
      (by simpa using hop) (by simp [hbop])
    dsimp only
    rw [State.setBuf_bufs, hcount, h.numop]
    rfl
  aiolist := aiolist_update h (by simp [hbop])
  held := by
    obtain ⟨P, hP, hall, hdisj⟩ := h.held
    have hnew : offset b ∉ P := by
      intro hmem
      have := ((hall _).mp (Or.inl hmem)).2
      omega
    refine ⟨insert (offset b) P, hP.insert hi (by simp [Held, hop]) (Or.inl hbop) hnew,
      fun o => ?_, fun o ho => ?_⟩
    · change o ∈ insert (offset b) P ∨ o ∈ s.written ↔ BSZ ∣ o ∧ o < s.off + BSZ
      rw [Finset.mem_insert, or_assoc, hall, hbo]
      constructor
      · rintro (rfl | ⟨hd, ho⟩)
        · exact ⟨h.dvd, Nat.lt_add_of_pos_right BSZ_pos⟩
        · exact ⟨hd, Nat.lt_add_right BSZ ho⟩
      · rintro ⟨hd, ho⟩
        rcases Nat.lt_or_ge o s.off with hlt | hge
        · exact Or.inr ⟨hd, hlt⟩
        · -- the only block between the old offset and the new one
          obtain ⟨k, hk⟩ := (Nat.dvd_sub hd h.dvd : BSZ ∣ o - s.off)
          have hk0 : k = 0 := by
            by_contra hne
            have := Nat.mul_le_mul_left BSZ (Nat.one_le_iff_ne_zero.mpr hne)
            omega
          rw [hk0, Nat.mul_zero] at hk
          exact Or.inl (by omega)
    · rcases Finset.mem_insert.mp ho with rfl | ho
      · intro hmem
        have := ((hall _).mp (Or.inr hmem)).2
        omega
      · exact hdisj o ho
  nodup := h.nodup
  log := h.log
  out := h.out

theorem Inv.retire (h : Inv input s) (hi : i < NBUF) (hop : (s.bufs i).op ≠ .unused)
    (hheld : ¬ Held (s.bufs i)) (hb : Stage input b) (hbop : b.op = .unused) :
    Inv input { s.setBuf i b with
      aiolist := Function.update s.aiolist i false
      numop := s.numop - 1 } where
  stage := stage_update h hb
  dvd := h.dvd
  near := h.near
  numop := by
    have hcount := count_unmark (p := fun b : Buf => b.op ≠ .unused) (f := s.bufs) (a := b) hi
      hop (by simp [hbop])
    have hnum := h.numop
    dsimp only
    rw [State.setBuf_bufs]
    omega
  aiolist := aiolist_update h (by simp [hbop])
  held := by
    obtain ⟨P, hP, hrest⟩ := h.held
    have hb' : ¬ Held b := by simp [Held, hbop]
    exact ⟨P, hP.keep (iff_of_false hb' hheld) fun hk => absurd hk hb', hrest⟩
  nodup := h.nodup
  log := h.log
  out := h.out

theorem Inv.write (h : Inv input s) (hi : i < NBUF) (hop : (s.bufs i).op = .writePending)
    (hs : (s.bufs i).aiocb.status = .inProgress) (hb : Stage input b)
    (hbop : b.op = .writePending) (hbs : b.aiocb.status ≠ .inProgress) {w : List UInt8}
    (hw : w = (block input (offset (s.bufs i))).map translate) :
    Inv input { s.setBuf i b with
      out := overwrite 0 s.out (offset (s.bufs i)) w
      log := s.log ++ [(offset (s.bufs i), w)] } := by
  obtain ⟨P, hP, hall, hdisj⟩ := h.held
  have hheld : Held (s.bufs i) := Or.inr ⟨hop, hs⟩
  have hnot : ¬ Held b := by simp [Held, hbop, hbs]
  have hmem := hP.key_mem hi hheld
  have hwritten : (s.log ++ [(offset (s.bufs i), w)]).map Prod.fst =
      s.written ++ [offset (s.bufs i)] := by
    rw [List.map_append]
    rfl
  have hop' : b.op ≠ .unused ↔ (s.bufs i).op ≠ .unused := by simp [hop, hbop]
  constructor
  · exact stage_update h hb
  · exact h.dvd
  · exact h.near
  · exact h.numop_keep hop' hi
  · exact h.aiolist_keep hop'
  · refine ⟨P.erase (offset (s.bufs i)), hP.erase hi hheld hnot, fun o => ?_, fun o ho => ?_⟩
    · rw [State.written, hwritten, Finset.mem_erase, List.mem_append, List.mem_singleton]
      change _ ↔ BSZ ∣ o ∧ o < s.off
      rw [← hall]
      by_cases heq : o = offset (s.bufs i)
      · subst heq
        simp [hmem]
      · simp [heq]
    · obtain ⟨hne, hoP⟩ := Finset.mem_erase.mp ho
      rw [State.written, hwritten, List.mem_append, List.mem_singleton]
      rintro (hmem' | heq)
      · exact hdisj o hoP hmem'
      · exact hne heq
  · rw [State.written, hwritten]
    apply List.Nodup.append h.nodup (List.nodup_singleton _)
    rw [List.disjoint_singleton]
    exact hdisj _ hmem
  · intro v hv
    rcases List.mem_append.mp hv with hv | hv
    · exact h.log v hv
    · rw [List.mem_singleton.mp hv]
      exact hw
  · obtain ⟨hd, hlt⟩ := (hall _).mp (Or.inl hmem)
    rw [State.written, hwritten]
    dsimp only
    rw [hw, map_block]
    apply h.out.overwrite
    rw [List.length_map]
    exact h.lt_length hd hlt

theorem Inv.unused (h : Inv input s) (hi : i < NBUF) (hop : (s.bufs i).op = .unused) :
    Inv input (s.unused input.length i) := by
  unfold State.unused
  dsimp only
  split
  · refine h.start hi hop ‹_› ?_ rfl rfl
    apply Stage.reading rfl rfl rfl rfl
    intro hlast
    exact if_pos (Nat.le_of_lt hlast)
  · exact h

theorem Inv.readPending (h : Inv input s) (hi : i < NBUF) (hop : (s.bufs i).op = .readPending) :
    Inv input (s.readPending i) ∧ (s.readPending i).pc = s.pc := by
  unfold State.readPending
  dsimp only
  cases h.stage i hi with
  | reading hop hs =>
    rw [if_pos (by simp [aioError, hs])]
    exact ⟨h, rfl⟩
  | read hop' hs hl hd =>
    have herr : aioError (s.bufs i).aiocb = 0 := by simp [aioError, hs]
    have hret : aioReturn (s.bufs i).aiocb = (block input (s.bufs i).aiocb.aio_offset).length := by
      simp [aioReturn, hs]
    have hfull : ¬ ((block input (s.bufs i).aiocb.aio_offset).length ≠ (BSZ : ℤ) ∧
        (s.bufs i).last = false) := by
      rintro ⟨hne, hlast⟩
      rw [hl, Bool.true_eq_false] at hlast
      · exact hlast
      · have hlen := @length_block input (s.bufs i).aiocb.aio_offset
        omega
    rw [if_neg (by simp [herr, EINPROGRESS]), if_neg (by simp [herr]), hret,
      if_neg (Int.not_lt.mpr (Int.natCast_nonneg _)), if_neg hfull]
    refine ⟨h.put (by simp [hop]) hi ?_ (by simp [Held, hop]) fun _ => rfl, rfl⟩
    apply Stage.writing rfl rfl rfl
    dsimp only
    rw [Int.toNat_natCast, hd]
    exact List.take_left' (List.length_map _)
  | unused hop' => simp [hop] at hop'
  | writing hop' => simp [hop] at hop'
  | written hop' => simp [hop] at hop'

theorem Inv.writePending (h : Inv input s) (hi : i < NBUF) (hop : (s.bufs i).op = .writePending) :
    Inv input (s.writePending i) ∧ (s.writePending i).pc = s.pc := by
  unfold State.writePending
  dsimp only
  cases h.stage i hi with
  | writing hop' hs =>
    rw [if_pos (by simp [aioError, hs])]
    exact ⟨h, rfl⟩
  | written hop' hs =>
    have herr : aioError (s.bufs i).aiocb = 0 := by simp [aioError, hs]
    have hret : aioReturn (s.bufs i).aiocb = (s.bufs i).aiocb.aio_nbytes := by
      simp [aioReturn, hs]
    rw [if_neg (by simp [herr, EINPROGRESS]), if_neg (by simp [herr]), hret,
      if_neg (Int.not_lt.mpr (Int.natCast_nonneg _)), if_neg (by simp)]
    constructor
    · apply h.retire hi (by simp [hop]) (by simp [Held, hop, hs]) _ rfl
      exact .unused rfl (by simp [hs])
    · rfl
  | unused hop' => simp [hop] at hop'
  | reading hop' => simp [hop] at hop'
  | read hop' => simp [hop] at hop'

theorem Inv.turn (h : Inv input s) (hi : i < NBUF) :
    Inv input (s.turn input.length i) ∧ (s.turn input.length i).pc = s.pc := by
  unfold State.turn
  split
  · rename_i hop
    exact ⟨h.unused hi hop, by unfold State.unused; dsimp only; split <;> rfl⟩
  · rename_i hop
    exact h.readPending hi hop
  · rename_i hop
    exact h.writePending hi hop

theorem Inv.complete (h : Inv input s) (hi : i < NBUF)
    (hs : (s.bufs i).aiocb.status = .inProgress) :
    Inv input (s.complete input i) ∧ (s.complete input i).pc = s.pc := by
  unfold State.complete
  dsimp only
  cases h.stage i hi with
  | reading hop _ hf hn hl =>
    rw [hf, hn]
    dsimp only
    refine ⟨h.put (by simp [hop]) hi ?_ (by simp [Held, hop]) fun _ => rfl, rfl⟩
    apply Stage.read
    · exact hop
    · rfl
    · exact hl
    · exact List.take_left' rfl
  | writing hop _ hf hd =>
    rw [hf]
    dsimp only
    constructor
    · refine h.write hi hop hs ?_ ?_ ?_ hd
      · exact .written hop rfl
      · exact hop
      · simp
    · rfl
  | unused _ hs' => exact absurd hs hs'
  | read _ hs' => rw [hs] at hs'; cases hs'
  | written _ hs' => rw [hs] at hs'; cases hs'

/-! ## Runs -/

/-- What holds in every state of the program. -/
structure Good (input : List UInt8) (s : State) : Prop where
  inv : Inv input s
  alive : ∀ text, s.pc ≠ .failed text
  exited : s.pc = .exited → s.numop = 0 ∧ input.length ≤ s.off

theorem good_initial : Good input State.initial where
  inv := inv_initial
  alive := nofun
  exited := nofun

theorem Good.after (h : Good input s) : Good input (s.after input.length) := by
  unfold State.after
  split
  · split
    · exact ⟨h.inv.goto _, nofun, fun _ => ⟨‹_›, ‹_›⟩⟩
    · exact ⟨h.inv.goto _, nofun, nofun⟩
  · exact ⟨h.inv.goto _, nofun, nofun⟩

theorem Good.step {a : Act} (h : Good input s) (hs : step input s a = some t) : Good input t := by
  cases a with
  | main =>
    cases hpc : s.pc with
    | turn i =>
      simp only [Async.step, hpc] at hs
      split at hs
      · cases hs
        obtain ⟨hinv, hturn⟩ := (h.inv.goto (.turn (i + 1))).turn ‹i < NBUF›
        exact ⟨hinv, by simp [hturn], by simp [hturn]⟩
      · cases hs
        exact h.after
    | suspend =>
      simp only [Async.step, hpc] at hs
      split at hs
      · cases hs
        exact ⟨h.inv.goto _, nofun, nofun⟩
      · cases hs
    | exited => simp [Async.step, hpc] at hs
    | failed text => exact absurd hpc (h.alive text)
  | complete i =>
    simp only [Async.step] at hs
    split at hs
    · rename_i hi
      cases hs
      obtain ⟨hinv, hpc⟩ := h.inv.complete hi.1 hi.2
      have hnum : (s.complete input i).numop = s.numop ∧ (s.complete input i).off = s.off := by
        unfold State.complete
        dsimp only
        split <;> exact ⟨rfl, rfl⟩
      constructor
      · exact hinv
      · rw [hpc]
        exact h.alive
      · rw [hpc, hnum.1, hnum.2]
        exact h.exited
    · cases hs

theorem Reach.good (h : Reach input s) : Good input s := by
  induction h with
  | initial => exact good_initial
  | step _ hs ih => exact ih.step hs

/-- Behind the loop, all blocks of the input have been written. -/
theorem Good.mem_written (h : Good input s) (hpc : s.pc = .exited) {o : ℕ} :
    o ∈ s.written ↔ BSZ ∣ o ∧ o < input.length := by
  obtain ⟨hnum, hoff⟩ := h.exited hpc
  obtain ⟨P, hP, hall, -⟩ := h.inv.held
  have hunused : ∀ i < NBUF, ¬ (s.bufs i).op ≠ .unused := by
    have hcount := h.inv.numop
    rw [hnum] at hcount
    exact Nat.count_iff_forall_not.mp (Int.natCast_eq_zero.mp hcount.symm)
  have hempty : o ∉ P := by
    intro ho
    obtain ⟨i, hi, hheld, -⟩ := (hP.mem o).mp ho
    have hop := not_not.mp (hunused i hi)
    simp [Held, hop] at hheld
  constructor
  · intro ho
    obtain ⟨hd, hlt⟩ := (hall o).mp (Or.inr ho)
    exact ⟨hd, h.inv.lt_length hd hlt⟩
  · rintro ⟨hd, hlt⟩
    exact ((hall o).mpr ⟨hd, by omega⟩).resolve_left hempty

theorem Good.out (h : Good input s) (hpc : s.pc = .exited) : s.out = input.map translate := by
  apply h.inv.out.eq
  intro x hx
  rw [List.length_map] at hx
  refine ⟨x / BSZ * BSZ, ?_, Nat.div_mul_le_self x BSZ, Nat.lt_div_mul_add BSZ_pos⟩
  apply (h.mem_written hpc).mpr
  exact ⟨Nat.dvd_mul_left .., lt_of_le_of_lt (Nat.div_mul_le_self x BSZ) hx⟩

theorem mem_blocks {w : ℕ × List UInt8} : w ∈ blocks input ↔
    (BSZ ∣ w.1 ∧ w.1 < input.length) ∧ w.2 = (block input w.1).map translate := by
  simp only [blocks, List.mem_map, List.mem_range]
  constructor
  · rintro ⟨k, hk, rfl⟩
    refine ⟨⟨Nat.dvd_mul_left .., ?_⟩, rfl⟩
    have hle := (Nat.le_div_iff_mul_le BSZ_pos).mp hk
    rw [Nat.succ_mul] at hle
    have hpos := BSZ_pos
    dsimp only
    omega
  · rintro ⟨⟨⟨k, hk⟩, hlt⟩, hw⟩
    refine ⟨k, ?_, ?_⟩
    · apply (Nat.le_div_iff_mul_le BSZ_pos).mpr
      rw [Nat.succ_mul, Nat.mul_comm]
      omega
    · ext1
      · rw [hk, Nat.mul_comm]
      · rw [hw, hk, Nat.mul_comm]
        rfl

theorem Good.log (h : Good input s) (hpc : s.pc = .exited) : s.log.Perm (blocks input) := by
  have hblocks : (blocks input).Nodup := by
    apply List.Nodup.map _ List.nodup_range
    intro j k hjk
    exact Nat.eq_of_mul_eq_mul_right BSZ_pos (congrArg Prod.fst hjk)
  apply (List.perm_ext_iff_of_nodup h.inv.nodup.of_map hblocks).mpr
  intro w
  rw [mem_blocks, ← h.mem_written hpc]
  constructor
  · intro hw
    exact ⟨List.mem_map_of_mem hw, h.inv.log w hw⟩
  · rintro ⟨hw, hw₂⟩
    obtain ⟨v, hv, hfst⟩ := List.mem_map.mp hw
    have hvw : v = w := by
      ext1
      · exact hfst
      · rw [h.inv.log v hv, hw₂, hfst]
    rwa [← hvw]

/-- Behind the loop the output file is the translated input, of which every block was written
once. All the time the counter and the list say which buffers are in use, and no error exit is
reached. -/
theorem copy_correct (h : Reach input s) :
    (s.pc = .exited → s.out = input.map translate ∧ s.log.Perm (blocks input)) ∧
    s.numop = Nat.count (fun i => (s.bufs i).op ≠ .unused) NBUF ∧
    (∀ i < NBUF, s.aiolist i = true ↔ (s.bufs i).op ≠ .unused) ∧
    ∀ text, s.pc ≠ .failed text :=
  have hgood := h.good
  ⟨fun hpc => ⟨hgood.out hpc, hgood.log hpc⟩, hgood.inv.numop, hgood.inv.aiolist, hgood.alive⟩

/-- The run of the acts `as`. -/
def run (input : List UInt8) : List Act → State → Option State
  | [], s => some s
  | a :: as, s => step input s a >>= run input as

theorem Reach.run {as : List Act} (h : Reach input s) (hr : Async.run input as s = some t) :
    Reach input t := by
  induction as generalizing s with
  | nil =>
    cases hr
    exact h
  | cons a as ih =>
    obtain ⟨u, hu, hr⟩ := Option.bind_eq_some_iff.mp hr
    exact ih (h.step hu) hr

/-- A block of letters, and two bytes more. -/
def twoBlocks : List UInt8 := List.replicate BSZ 97 ++ [65, 33]

/-- The second block is read and written before the first one is read. -/
def secondFirst : List Act :=
  List.replicate 9 .main ++ [.complete 1, .main] ++ List.replicate 9 .main ++
    [.complete 1, .complete 0, .main] ++ List.replicate 9 .main ++ [.complete 0, .main] ++
    List.replicate 9 .main

theorem copy_correct_blocks : ∃ s, Reach twoBlocks s ∧ s.pc = .exited ∧
    s.log.map Prod.fst = [BSZ, 0] ∧ s.out = List.replicate BSZ 110 ++ [78, 33] ∧
    s.log.Perm (blocks twoBlocks) := by
  have hrun : (run twoBlocks secondFirst State.initial).any
      (fun s => s.pc = .exited ∧ s.log.map Prod.fst = [BSZ, 0]) := by decide +kernel
  obtain ⟨s, hs, hend⟩ := (Option.any_eq_true ..).mp hrun
  obtain ⟨hpc, hfst⟩ := of_decide_eq_true hend
  have hr := Reach.initial.run hs
  obtain ⟨hout, hlog⟩ := (copy_correct hr).1 hpc
  refine ⟨s, hr, hpc, hfst, ?_, hlog⟩
  rw [hout, twoBlocks, List.map_append, List.map_replicate]
  rfl

end Somenote.Async
