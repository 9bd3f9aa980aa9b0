import Somenote.Db.Scanning
import Somenote.Db.Schedules
import Somenote.Db.Together

/-! # Calls that take effect at one moment

Processes share a database that a session has left. Their calls have the results of one
map on which each call takes effect at one moment between its start and its return.
-/

namespace Somenote.Db

open World

/-- A fetch, store or deletion of a key without a separator. -/
def Req.Works : Req → Prop
  | .fetch _ key | .store _ key _ _ | .delete _ key => SEP ∉ key.1
  | _ => False

/-- A call with which a process scans the database. -/
def Req.Scans : Req → Prop
  | .rewind _ | .nextrec _ => True
  | _ => False

variable {Pid : Type}

/-- The processes have handles, and none has a lock. -/
def Machine.opened (hs : Pid → Handles) (f : Files) : Machine Pid :=
  ⟨fun p => .idle (hs p), f, fun _ _ _ => none⟩

/-- What the processes do: some only scan, the others fetch, store and delete. -/
def Plays (scanners : Set Pid) (p : Pid) (r : Req) : Prop :=
  (p ∈ scanners → r.Scans) ∧ (p ∉ scanners → r.Works)

/-- A process between two calls. A scan goes on at a record or at the end of the index file. -/
def Rests (scanners : Set Pid) (p : Pid) (h : Handles) (w : World Pid) : Prop :=
  Outside p w ∧ (p ∈ scanners → ∀ n b l, h n = some (b, l) → w.image.Bound l.idxpos)

variable {scanners : Set Pid} {p : Pid} {w w' : World Pid} {h : Handles} {I : Image} {L : Lists}
  {M : Map} {n fuel : ℕ} {b : DB} {l : Fds} {r : Req}

section Rests

theorem Plays.works (hp : Plays scanners p r) (hr : ¬ r.Scans) : p ∉ scanners ∧ r.Works := by
  have hno : p ∉ scanners := fun hs => hr (hp.1 hs)
  exact ⟨hno, hp.2 hno⟩

theorem Plays.scans (hp : Plays scanners p r) (hr : ¬ r.Works) : p ∈ scanners :=
  not_not.mp fun hs => hr (hp.2 hs)

theorem Rests.rely (hr : Rests scanners p h w) (hw : Rely p w w') : Rests scanners p h w' :=
  ⟨hr.1.rely hw, fun hs n b l hn => hw.bound _ (hr.2 hs n b l hn)⟩

theorem Rests.update (hr : Rests scanners p h w) (hout : Outside p w') (he : w.Extends w')
    (hl : w'.image.Bound l.idxpos) : Rests scanners p (Function.update h n (some (b, l))) w' := by
  refine ⟨hout, fun hs n' b' l' hn => ?_⟩
  by_cases hn' : n' = n
  · subst hn'
    rw [Function.update_self] at hn
    cases hn
    exact hl
  · rw [Function.update_of_ne hn'] at hn
    exact he _ (hr.2 hs n' b' l' hn)

theorem World.Outside.rests (hout : Outside p w) (hs : p ∉ scanners) : Rests scanners p h w :=
  ⟨hout, fun hp => absurd hp hs⟩

end Rests

variable [DecidableEq Pid]

/-- Each call takes effect once before it returns, with the result that it returns. -/
theorem guarded_call (hp : Plays scanners p r) (hc : r.Can h) (ok : w.Ok)
    (hr : Rests scanners p h w) :
    ∃ w' τ, Moves p r w none w' τ ∧ worlds.shared w' = worlds.shared w ∧
      ((users fuel).start r h).2.Safe worlds kernel p r
        (Returns (users fuel) (Rests scanners) p r h) ((users fuel).start r h).1 w' τ := by
  cases r with
  | openDb n oflag => exact absurd (hp.works id).2 id
  | close n => exact absurd (hp.works id).2 id
  | fetch n key =>
    obtain ⟨hs, -⟩ := hp.works id
    refine ⟨w, none, .stay ok, rfl, ?_⟩
    apply guarded_fetch hr.1
    intro v l' w' b' _ hout
    exact ⟨rfl, hout.rests hs⟩
  | delete n key =>
    obtain ⟨hs, -⟩ := hp.works id
    refine ⟨w, none, .stay ok, rfl, ?_⟩
    apply guarded_delete hr.1
    intro rc l' w' b' _ hout
    exact ⟨rfl, hout.rests hs⟩
  | store n key data flag =>
    obtain ⟨hs, hsep⟩ := hp.works id
    by_cases hflag : flag = Flag.dbInsert ∨ flag = Flag.dbReplace ∨ flag = Flag.dbStore
    · refine ⟨w, none, .stay ok, rfl, ?_⟩
      apply guarded_store hr.1 hsep hflag
      intro rc l' w' b' _ hout
      exact ⟨rfl, hout.rests hs⟩
    · -- a wrong flag is refused before anything else
      simp only [not_or] at hflag
      have heff : (Req.store n key data flag).Effect w.map (.rc (-1)) w.map := by
        rw [Req.Effect, Map.store, if_pos hflag]
        exact ⟨rfl, rfl⟩
      refine ⟨w, some (.rc (-1)), ok.takes heff, rfl, ?_⟩
      simp only [users, Req.body, dbStore]
      rw [if_pos hflag]
      exact ⟨rfl, hr.1.rests hs⟩
  | rewind n =>
    have heff : (Req.rewind n).Effect w.map .done w.map := ⟨rfl, rfl⟩
    refine ⟨w, some .done, ok.takes heff, rfl, ?_⟩
    apply guarded_rewind
    intro l' w' b' ok' h' hl'
    refine ⟨rfl, hr.update (hr.1.rely h') h'.extends ?_⟩
    rw [hl']
    exact ok'.inv.shape.bound_start
  | nextrec n =>
    have hs := hp.scans id
    obtain ⟨⟨b, l⟩, hn⟩ := Option.ne_none_iff_exists'.mp hc
    refine ⟨w, none, .stay ok, rfl, ?_⟩
    have hstart : (users fuel).start (.nextrec n) h = (l, (Req.nextrec n).body fuel b) := by
      simp only [users]
      rw [hn]
      rfl
    rw [hstart]
    apply guarded_nextrec hr.1 (hr.2 hs n b l hn)
    intro v l' w' b' _ hout he hl'
    exact ⟨rfl, hr.update hout he hl'⟩

section Start

variable {hs : Pid → Handles} {tr : List (Event Pid Req Ans Call)} {t : Machine Pid}
  {y : Pid → Option (Req × Option Ans)}

/-- Files that a session has left. -/
def World.left (I : Image) (L : Lists) (M : Map) : World Pid :=
  ⟨I, none, L, fun _ _ _ => none, fun _ => .empty, M, M⟩

omit [DecidableEq Pid] in
theorem World.left_ok (hi : Inv I L ∅ ∅ M) (hc : M.Clean) : (World.left I L M : World Pid).Ok where
  inv := by
    have hempty : ∀ c : ℕ → Hand, (∀ x, c x ≠ .empty) → carried c (fun _ : Pid => .empty) = ∅ := by
      intro c hx
      apply Set.eq_empty_of_forall_notMem
      rintro x ⟨q, hq⟩
      exact hx x hq.symm
    rw [World.blks, World.recs]
    simp only [World.left]
    rw [hempty _ (by simp), hempty _ (by simp)]
    exact hi
  locks _ _ _ _ _ _ := rfl
  agree _ := Or.inl rfl
  shown {o r} ho hb := by
    rcases hi.record_cases ho with hbl | ⟨-, d, hd, hM⟩
    · exact absurd hbl hb
    · exact Or.inr (hd.trans hM.symm)
  clean {o r} ho := by
    rcases hi.record_cases ho with hbl | ⟨-, d, -, hM⟩
    · exact not_sep_of_isBlank hbl
    · exact hc r.key (by simp [hM])
  apart _ hne := absurd rfl hne
  keyed hq := by cases hq
  dying hq := by cases hq
  late hq := by cases hq

omit [DecidableEq Pid] in
theorem World.left_outside : Outside p (World.left I L M) :=
  ⟨rfl, rfl, fun _ hx => by cases hx⟩

theorem World.left_follows (hi : Inv I L ∅ ∅ M) (hc : M.Clean)
    (hpos : ∀ p ∈ scanners, ∀ n b l, hs p n = some (b, l) → l.idxpos = idxStart) :
    Follows worlds kernel (users fuel) (Rests scanners) (Machine.opened hs I.files)
      (World.left I L M) fun _ => none where
  shared := rfl
  ok := World.left_ok hi hc
  tasks p := by
    refine ⟨rfl, World.left_outside, fun hp n b l hn => ?_⟩
    rw [hpos p hp n b l hn]
    exact hi.shape.bound_start

/-- In every run without an abort each call takes effect at one moment. -/
theorem run_linearized (hi : Inv I L ∅ ∅ M) (hc : M.Clean)
    (hpos : ∀ p ∈ scanners, ∀ n b l, hs p n = some (b, l) → l.idxpos = idxStart)
    (hrun : Run kernel (users fuel) (Machine.opened hs I.files) tr t)
    (hplay : ∀ p r, .inv p r ∈ tr → Plays scanners p r) (hlive : ∀ p, .die p ∉ tr) :
    ∃ (w : World Pid) (y : Pid → Option (Req × Option Ans)), Linearized Req.Effect M tr w.map y ∧
      Follows worlds kernel (users fuel) (Rests scanners) t w y := by
  refine Run.linearized ?_ ?_ hrun (World.left_follows hi hc hpos) hplay hlive
  · intro p h w w' hr hrests
    exact Rests.rely hrests hr
  · intro p r h w hp hcan ok hrests
    exact guarded_call hp hcan ok hrests

/-- When no process is in a call, the files hold the map. -/
theorem files_of_quiet (hf : Follows worlds kernel (users fuel) (Rests scanners) t w y)
    (hidle : ∀ p, ∃ h, t.tasks p = .idle h) :
    w.real = w.image ∧ Inv w.image w.lists ∅ ∅ w.map := by
  have hout : ∀ p, Outside p w := by
    intro p
    obtain ⟨h, hp⟩ := hidle p
    have hm := hf.tasks p
    rw [hp] at hm
    exact hm.2.1
  have hempty : ∀ c : ℕ → Hand, (∀ x, c x ≠ .empty) → carried c w.hand = ∅ := by
    intro c hc
    apply Set.eq_empty_of_forall_notMem
    rintro x ⟨q, hq⟩
    exact hc x (hq.symm.trans (hout q).hand)
  have hmap : w.map = w.chained := by
    funext k
    refine (hf.ok.agree k).resolve_right ?_
    rintro ⟨q, hq⟩
    rw [World.Writes, (hout q).locks] at hq
    cases hq
  have hinv := hf.ok.inv
  rw [World.blks, World.recs, hempty _ (by simp), hempty _ (by simp), ← hmap] at hinv
  refine ⟨?_, hinv⟩
  rw [World.real]
  cases hlate : w.late with
  | none => rfl
  | some x => exact absurd hlate ((hout x.1).timely x.2)

end Start

section Calls

variable {fuel₀ : ℕ} {s₀ t₀ : Fds × Files} {ops : List Op} {rs : List Res × DB}
  {hs : Pid → Handles} {tr : List (Event Pid Req Ans Call)} {t : Machine Pid}

/-- Any number of processes fetch, store and delete, and their calls take effect one after the
other on one map. No record has two owners at any time, and between the calls the files
hold the map. -/
theorem calls_linearized (hf : ptrMax < fuel₀) (hops : ∀ op ∈ ops, op.Plain)
    (hsession : (newSession fuel₀ ops).run exec s₀ = (.ok rs, t₀))
    (hrun : Run kernel (users fuel) (Machine.opened hs t₀.2) tr t)
    (hwork : ∀ p r, .inv p r ∈ tr → r.Works) (hlive : ∀ p, .die p ∉ tr) :
    ∃ (w : World Pid) (y : Pid → Option (Req × Option Ans)),
      Linearized Req.Effect (Map.empty.after ops) tr w.map y ∧
      w.Ok ∧ t.shared = (w.real.files, w.locks) ∧
      ((∀ p, ∃ h, t.tasks p = .idle h) → w.real = w.image ∧ Inv w.image w.lists ∅ ∅ w.map) := by
  obtain ⟨I, L, hfiles, hi, -⟩ := newSession_ok hf hops hsession
  have hc : (Map.empty.after ops).Clean :=
    (Map.keys_empty _).after fun op ho => (hops op ho).stores
  rw [hfiles] at hrun
  obtain ⟨w, y, hl, hfol⟩ := run_linearized hi hc (fun p hp => absurd hp (Set.notMem_empty p)) hrun
    (fun p r hr => ⟨fun hp => absurd hp (Set.notMem_empty p), fun _ => hwork p r hr⟩) hlive
  exact ⟨w, y, hl, hfol.ok, hfol.shared.symm, files_of_quiet hfol⟩

/-- A scan among processes that fetch, store and delete shows pairs that were in the map while the
call ran. -/
theorem scans_linearized (hf : ptrMax < fuel₀) (hops : ∀ op ∈ ops, op.Plain)
    (hsession : (newSession fuel₀ ops).run exec s₀ = (.ok rs, t₀)) (scanners : Set Pid)
    (hpos : ∀ p ∈ scanners, ∀ n b l, hs p n = some (b, l) → l.idxpos = idxStart)
    (hrun : Run kernel (users fuel) (Machine.opened hs t₀.2) tr t)
    (hscan : ∀ p r, .inv p r ∈ tr → p ∈ scanners → r.Scans)
    (hwork : ∀ p r, .inv p r ∈ tr → p ∉ scanners → r.Works) (hlive : ∀ p, .die p ∉ tr) :
    ∃ (N : Map) (y : Pid → Option (Req × Option Ans)),
      Linearized Req.Effect (Map.empty.after ops) tr N y ∧
      ∀ tr₁ tr₂ p n pair, tr = tr₁ ++ .ret p (.nextrec n) (.pair (some pair)) :: tr₂ →
        ∃ u v N₁ y₁ k d, tr₁ = u ++ v ∧ (∀ e ∈ v, e.Leaves p) ∧
          Linearized Req.Effect (Map.empty.after ops) u N₁ y₁ ∧
          y₁ p = some (.nextrec n, none) ∧ pair = (k.1, d.1) ∧ N₁ k = some d := by
  obtain ⟨I, L, hfiles, hi, -⟩ := newSession_ok hf hops hsession
  have hc : (Map.empty.after ops).Clean :=
    (Map.keys_empty _).after fun op ho => (hops op ho).stores
  rw [hfiles] at hrun
  obtain ⟨w, y, hl, -⟩ := run_linearized hi hc hpos hrun
    (fun p r hr => ⟨hscan p r hr, hwork p r hr⟩) hlive
  refine ⟨w.map, y, hl, fun tr₁ tr₂ p n pair htr => ?_⟩
  obtain ⟨N', y', hl', hy'⟩ := hl.returned htr
  obtain ⟨u, v, N₁, N₂, y₁, huv, hv, hu, hy₁, heff⟩ := hl'.moment hy'
  obtain ⟨hnone | ⟨k, d, hpair, hM⟩, -⟩ := heff
  · cases hnone
  · cases hpair
    exact ⟨u, v, N₁, y₁, k, d, huv, hv, hu, hy₁, rfl, hM⟩

end Calls

section Sample

/-- A handle as `db_open` leaves it. -/
def oneHandle : Handles :=
  Function.update (fun _ => none) 0 (some ({ dbAlloc with idxoff := idxStart }, Fds.opened .rdwr))

theorem oneHandle_pos {n : ℕ} {b : DB} {l : Fds} (h : oneHandle n = some (b, l)) :
    l.idxpos = idxStart := by
  rw [oneHandle, Function.update_apply] at h
  split_ifs at h
  cases h
  rfl

/-- One process stores a new key while the other one fetches a key: their calls alternate. -/
def storeAndFetch : List (Choice Bool Req) :=
  [.start true (.store 0 keyC dataY Flag.dbInsert)] ++ turns true 7 ++
    [.start false (.fetch 0 keyA)] ++ turns false 3 ++ turns true 6 ++ turns false 4 ++
    turns true 5 ++ turns false 3 ++ turns true 3

theorem calls_linearized_sample : ∃ (t₀ : Fds × Files) (tr : List (Event Bool Req Ans Call))
    (t : Machine Bool), Run kernel (users 100000) (Machine.opened (fun _ => oneHandle) t₀.2) tr t ∧
      outline tr = [.inv true (.store 0 keyC dataY Flag.dbInsert), .inv false (.fetch 0 keyA),
        .ret false (.fetch 0 keyA) (.data (some [120])),
        .ret true (.store 0 keyC dataY Flag.dbInsert) (.rc 0)] ∧
      ∃ (w : World Bool) (y : Bool → Option (Req × Option Ans)),
        Linearized Req.Effect (Map.empty.after sampleOps) tr w.map y ∧
        w.Ok ∧ t.shared = (w.real.files, w.locks) ∧
        ((∀ p, ∃ h, t.tasks p = .idle h) →
          w.real = w.image ∧ Inv w.image w.lists ∅ ∅ w.map) := by
  obtain ⟨b, t₀, hsession⟩ := run_sample
  have hplay : (Conf.play coarseKernel (users 100000) storeAndFetch
      (Machine.opened (fun _ => oneHandle) ((newSession 100000 sampleOps).run exec noFiles).2.2)).any
      fun x => outline x.1 = [.inv true (.store 0 keyC dataY Flag.dbInsert),
        .inv false (.fetch 0 keyA), .ret false (.fetch 0 keyA) (.data (some [120])),
        .ret true (.store 0 keyC dataY Flag.dbInsert) (.rc 0)] := by decide +kernel
  rw [hsession] at hplay
  obtain ⟨tr, t, hrun, hout⟩ := run_of_schedule storeAndFetch
    (fun tr _ => outline tr = _) (fun _ _ _ _ => rfl) hplay
  refine ⟨t₀, tr, t, hrun, hout,
    calls_linearized (by decide) sampleOps_plain hsession hrun ?_ ?_⟩
  · intro p r hr
    have hmem := (mem_outline (e := .inv p r)).mpr ⟨hr, by simp⟩
    rw [hout] at hmem
    simp only [List.mem_cons, Event.inv.injEq, reduceCtorEq, List.not_mem_nil, or_false] at hmem
    rcases hmem with ⟨rfl, rfl⟩ | ⟨rfl, rfl⟩
    · exact show SEP ∉ keyC.1 by decide
    · exact show SEP ∉ keyA.1 by decide
  · intro p hp
    have hmem := (mem_outline (e := .die p)).mpr ⟨hp, by simp⟩
    rw [hout] at hmem
    simp at hmem

/-- A scan reads the record of a key while another process replaces the data of that key. -/
def scanAndStore : List (Choice Bool Req) :=
  [.start false (.nextrec 0)] ++ turns false 3 ++ [.start true (.store 0 keyA dataY Flag.dbStore)] ++
    turns true 7 ++ turns false 2 ++ turns true 3 ++ turns false 3

theorem scans_linearized_sample : ∃ (t₀ : Fds × Files) (tr : List (Event Bool Req Ans Call))
    (t : Machine Bool), Run kernel (users 100000) (Machine.opened (fun _ => oneHandle) t₀.2) tr t ∧
      outline tr = [.inv false (.nextrec 0), .inv true (.store 0 keyA dataY Flag.dbStore),
        .ret true (.store 0 keyA dataY Flag.dbStore) (.rc 0),
        .ret false (.nextrec 0) (.pair (some ([97], [121])))] ∧
      ∃ (N : Map) (y : Bool → Option (Req × Option Ans)),
        Linearized Req.Effect (Map.empty.after sampleOps) tr N y ∧
        ∀ tr₁ tr₂ p n pair, tr = tr₁ ++ .ret p (.nextrec n) (.pair (some pair)) :: tr₂ →
          ∃ u v N₁ y₁ k d, tr₁ = u ++ v ∧ (∀ e ∈ v, e.Leaves p) ∧
            Linearized Req.Effect (Map.empty.after sampleOps) u N₁ y₁ ∧
            y₁ p = some (.nextrec n, none) ∧ pair = (k.1, d.1) ∧ N₁ k = some d := by
  obtain ⟨b, t₀, hsession⟩ := run_sample
  have hplay : (Conf.play coarseKernel (users 100000) scanAndStore
      (Machine.opened (fun _ => oneHandle) ((newSession 100000 sampleOps).run exec noFiles).2.2)).any
      fun x => outline x.1 = [.inv false (.nextrec 0),
        .inv true (.store 0 keyA dataY Flag.dbStore),
        .ret true (.store 0 keyA dataY Flag.dbStore) (.rc 0),
        .ret false (.nextrec 0) (.pair (some ([97], [121])))] := by decide +kernel
  rw [hsession] at hplay
  obtain ⟨tr, t, hrun, hout⟩ := run_of_schedule scanAndStore
    (fun tr _ => outline tr = _) (fun _ _ _ _ => rfl) hplay
  have hinv : ∀ p r, .inv p r ∈ tr → p = false ∧ r = .nextrec 0 ∨
      p = true ∧ r = .store 0 keyA dataY Flag.dbStore := by
    intro p r hr
    have hmem := (mem_outline (e := .inv p r)).mpr ⟨hr, by simp⟩
    rw [hout] at hmem
    simpa using hmem
  refine ⟨t₀, tr, t, hrun, hout, scans_linearized (by decide) sampleOps_plain hsession {false}
    (fun p _ n b l => oneHandle_pos) hrun ?_ ?_ ?_⟩
  · intro p r hr hp
    rcases hinv p r hr with ⟨-, rfl⟩ | ⟨rfl, -⟩
    · trivial
    · cases hp
  · intro p r hr hp
    rcases hinv p r hr with ⟨rfl, -⟩ | ⟨-, rfl⟩
    · exact absurd rfl hp
    · exact show SEP ∉ keyA.1 by decide
  · intro p hp
    have hmem := (mem_outline (e := .die p)).mpr ⟨hp, by simp⟩
    rw [hout] at hmem
    simp at hmem

end Sample

end Somenote.Db
