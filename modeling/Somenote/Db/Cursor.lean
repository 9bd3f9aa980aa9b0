import Somenote.Db.Scan

/-! # Fetches between the calls of a scan

The position of a scan is the offset of the descriptor of the index file, which a fetch on
the same handle moves behind the last index record that it reads.
-/

namespace Somenote.Db

/-- A number of fetches of the key that a call of `db_nextrec` has returned. -/
def refetch (fuel : ℕ) (ptr : Option (List Byte × List Byte)) : ℕ → DB → DbProg DB
  | 0, db => pure db
  | c + 1, db =>
    match ptr with
    | none => pure db
    | some (key, _) => do
      let (_, db) ← dbFetch fuel db key
      refetch fuel ptr c db

/-- Calls of `db_nextrec`, each followed by a number of fetches of the key it returned. -/
def nextrecsAgain (fuel : ℕ) : List ℕ → DB → DbProg (List (Option (List Byte × List Byte)))
  | [], _ => pure []
  | c :: counts, db => do
    let (ptr, db) ← dbNextrec fuel db
    let db ← refetch fuel ptr c db
    let rs ← nextrecsAgain fuel counts db
    pure (ptr :: rs)

/-- A scan with fetches of the keys it returns. -/
def scanAgain (fuel : ℕ) (counts : List ℕ) (db : DB) :
    DbProg (List (Option (List Byte × List Byte))) := do
  let db ← dbRewind db
  nextrecsAgain fuel counts db

/-- A scan of `a` and `n` records with a fetch between them; what the calls behind it return. -/
def scanFetch (fuel a : ℕ) (key : List Byte) (n : ℕ) (db : DB) :
    DbProg (List (Option (List Byte × List Byte)) × DB) := do
  let (_, db) ← scan fuel a db
  let (_, db) ← dbFetch fuel db key
  nextrecs fuel n db

/-- The last record that a search for the key reads: the record of the key, or the last record
of the chain when the key is absent. -/
def LastRead (I : Image) (L : Lists) (k : CStr) (o : ℕ) (r : Rec) : Prop :=
  ∃ l m, L.chain (dbHash k) = l ++ o :: m ∧ I.RecAt o r ∧
    (r.key = k ∨ m = [] ∧ ∀ x ∈ L.chain (dbHash k), ∀ q, I.RecAt x q → q.key ≠ k)

theorem LastRead.recAt {I : Image} {L : Lists} {k : CStr} {o : ℕ} {r : Rec}
    (h : LastRead I L k o r) : I.RecAt o r := by
  obtain ⟨l, m, -, ho, -⟩ := h
  exact ho

variable {I : Image} {L : Lists} {X : Set ℕ} {M : Map} {p : Fds} {o fuel n : ℕ} {r : Rec}
  {rest rest' recs : List Rec} {b : DB} {k : CStr}

section Fetch

variable (h : Inv I L X ∅ M) (hc : M.Clean) (hf : ptrMax < fuel)
include h hc hf

theorem fetch_moves (hne : L.chain (dbHash k) ≠ []) :
    ∃ o r, LastRead I L k o r ∧ ∀ (p : Fds) (b : DB), p.acc.readable = true → ∃ b' p',
      (dbFetch fuel b k.1).run exec (p, I.files) = (.ok (M.fetch k, b'), p', I.files) ∧
      p'.acc = p.acc ∧ p'.idxpos = I.endOf o := by
  cases h.search k with
  | miss hl hM =>
    obtain ⟨hlink, hlen⟩ := h.walk hf k
    obtain ⟨l, o, hlo⟩ := (List.eq_nil_or_concat (L.chain (dbHash k))).resolve_left hne
    rw [List.concat_eq_append] at hlo
    obtain ⟨r, ho⟩ := h.filed.rec_chain (o := o) (j := dbHash k) (by rw [hlo]; simp)
    refine ⟨o, r, ⟨l, [], hlo, ho, Or.inr ⟨rfl, fun x hx q hq => ?_⟩⟩, fun p b hr => ?_⟩
    · obtain ⟨q', hq', -, hk⟩ := hl x hx
      exact hq.unique hq' ▸ hk
    · obtain ⟨b', hrun⟩ := run_fetch_miss (b := b) hr h.shape hlink hl hlen
      refine ⟨b', _, by rw [Map.fetch, hM]; exact hrun, by simp, ?_⟩
      rw [Image.walked, hlo, List.getLast?_concat]
      rfl
  | @hit l o m r d hch hl ho hs hk hd hdl hM =>
    obtain ⟨hlink, hlen⟩ := h.walk_to hf hch
    refine ⟨o, r, ⟨l, m, hch, ho, Or.inl hk⟩, fun p b hr => ?_⟩
    obtain ⟨b', hrun⟩ := run_fetch_hit (b := b) hr h.shape hlink hl ho hs hk hlen hd
      hdl
    exact ⟨b', _, by rw [Map.fetch, hM]; exact hrun, by simp, rfl⟩
  | @sep l o m r d hch hl ho hs hM => exact absurd hs (hc r.key (by simp [hM]))

variable (hr : p.acc.readable = true)
include hr

/-- A fetch of the key of a record leaves the descriptor behind the record. -/
theorem fetch_own {j : Fin nhashDef} (ho : I.RecAt o r) (hj : o ∈ L.chain j) :
    ∃ d b' p', (dbFetch fuel b r.key.1).run exec (p, I.files) = (.ok (d, b'), p', I.files) ∧
      p'.acc = p.acc ∧ p'.idxpos = I.endOf o := by
  obtain rfl := h.filed.hash hj ho
  obtain ⟨o', r', ⟨l, m, hl, ho', hlast⟩, hmove⟩ :=
    fetch_moves (k := r.key) h hc hf (List.ne_nil_of_mem hj)
  obtain ⟨b', p', hrun, hacc, hpos⟩ := hmove p b hr
  have hkey : r'.key = r.key := by
    rcases hlast with hkey | ⟨-, hno⟩
    · exact hkey
    · exact absurd rfl (hno o hj r ho)
  obtain rfl := h.filed.key_inj (by rw [hl]; simp) hj ho' ho hkey
  exact ⟨_, b', p', hrun, hacc, hpos⟩

theorem run_refetch {j : Fin nhashDef} (ho : I.RecAt o r) (hj : o ∈ L.chain j)
    (hp : p.idxpos = I.endOf o) (c : ℕ) :
    ∃ b' p', (refetch fuel (some (pairOf I r)) c b).run exec (p, I.files) =
      (.ok b', p', I.files) ∧ p'.acc = p.acc ∧ p'.idxpos = I.endOf o := by
  induction c generalizing p b with
  | zero => exact ⟨b, p, rfl, rfl, hp⟩
  | succ c ih =>
    obtain ⟨d, b₁, p₁, hrun₁, hacc₁, hpos₁⟩ := fetch_own (b := b) h hc hf hr ho hj
    obtain ⟨b', p', hrun, hacc, hpos⟩ := ih (b := b₁) (hacc₁ ▸ hr) hpos₁
    exact ⟨b', p', (Prog.run_bind_ok hrun₁ _).trans hrun, hacc.trans hacc₁, hpos⟩

omit hf in
/-- Fetches of the keys that a scan returns do not disturb it. -/
theorem run_nextrecsAgain (hf : ptrMax < fuel) (hb : Behind I p.idxpos rest)
    (hlen : rest.length < fuel) (counts : List ℕ) :
    ∃ p', (nextrecsAgain fuel counts b).run exec (p, I.files) =
      (scanned I rest counts.length, p', I.files) := by
  have hsep := h.clean_records hc hb
  induction counts generalizing rest p b with
  | nil => exact ⟨p, rfl⟩
  | cons c counts ih =>
    cases hs : shown rest with
    | nil =>
      obtain ⟨b₁, p₁, hrun, hacc, hb₁⟩ := run_nextrec_end (b := b) hr hb rfl hs hlen
      obtain ⟨p', hrest⟩ := ih (b := b₁) (hacc ▸ hr) hb₁ (Nat.zero_lt_of_lt hlen) (by simp)
      refine ⟨p', ?_⟩
      have hre : refetch fuel none c b₁ = pure b₁ := by cases c <;> rfl
      rw [nextrecsAgain, Prog.run_bind_ok hrun]
      dsimp only
      rw [hre, Prog.pure_eq, Prog.ret_bind, Prog.run_map, hrest, List.length_cons, scanned_nil,
        scanned, hs]
      rfl
    | cons r rest' =>
      have hle := length_shown_le rest
      have hsub : ∀ q ∈ r :: rest', q ∈ rest := by
        intro q hq
        rw [← hs] at hq
        exact (List.dropWhile_sublist _).mem hq
      rw [hs, List.length_cons] at hle
      have hsr := hsep r (hsub r (by simp))
      obtain ⟨b₁, p₁, hrun, hacc, hb₁, o, ho, hpos⟩ :=
        run_nextrec_shown (b := b) hr h.stock hb rfl hs hsr hlen
      rcases h.record_cases ho with hbl | ⟨⟨j, hj⟩, -⟩
      · exact absurd hbl (not_isBlank_of_shown hs)
      obtain ⟨b₂, p₂, hrun₂, hacc₂, hpos₂⟩ :=
        run_refetch (b := b₁) h hc hf (hacc ▸ hr) ho hj hpos c
      obtain ⟨p', hrest⟩ := ih (b := b₂) (p := p₂) (by rw [hacc₂, hacc]; exact hr)
        (by rw [hpos₂, ← hpos]; exact hb₁) (by omega)
        fun q hq => hsep q (hsub q (List.mem_cons_of_mem _ hq))
      refine ⟨p', ?_⟩
      rw [nextrecsAgain, Prog.run_bind_ok hrun]
      dsimp only
      rw [Prog.run_bind_ok hrun₂, Prog.run_map, hrest, List.length_cons, scanned, hs]
      dsimp only
      rw [if_neg hsr]

end Fetch

/-- Fetches of the keys that a scan returns do not change what it returns. Behind another fetch
whose chain has records the scan goes on behind the last record that the fetch read, and a
fetch through another handle leaves the files as they are. -/
theorem scan_fetches (fuel : ℕ) (hf : ptrMax < fuel) (s : Fds × Files) (ops : List Op)
    (hops : ∀ op ∈ ops, op.Plain ∧ op.Stays) (rs : List Res) (b : DB) (t : Fds × Files)
    (hrun : (newSession fuel ops).run exec s = (.ok (rs, b), t)) :
    ∃ I L recs, t.2 = I.files ∧ WellFormed I L recs ∧
      (∀ n, ∃ b' u, (scan fuel n b).run exec t =
        (.ok (((livePairs I recs).map some ++ List.replicate n none).take n, b'), u)) ∧
      (∀ counts, ∃ u, (scanAgain fuel counts b).run exec t =
        (.ok (((livePairs I recs).map some ++ List.replicate counts.length none).take
          counts.length), u)) ∧
      (∀ k : CStr, L.chain (dbHash k) ≠ [] → ∃ o r pre rest, LastRead I L k o r ∧
        recs = pre ++ r :: rest ∧ ∀ a n, ∃ b' u, (scanFetch fuel a k.1 n b).run exec t =
          (.ok (((livePairs I rest).map some ++ List.replicate n none).take n, b'), u)) ∧
      ∀ (k : CStr) (b₂ : DB) (q : Fds), q.acc.readable = true →
        ∃ d b' q', (dbFetch fuel b₂ k.1).run exec (q, t.2) = (.ok (d, b'), q', t.2) := by
  obtain ⟨I, L, hfiles, h, hacc⟩ := newSession_ok hf (fun op ho => (hops op ho).1) hrun
  rw [Op.acc_eq fun op ho => (hops op ho).2] at hacc
  obtain ⟨p, f⟩ := t
  obtain rfl : f = I.files := hfiles
  have hr : p.acc.readable = true := by rw [show p.acc = .rdwr from hacc]; rfl
  have hclean : (Map.empty.after ops).Clean :=
    (Map.keys_empty _).after fun op ho => (hops op ho).1.stores
  obtain ⟨recs, hb, hwf⟩ := h.wellFormed
  have hlen := (h.length_records hb).trans_lt hf
  have hsep := h.clean_records hclean hb
  have hscan : ∀ n, ∃ b' p', (scan fuel n b).run exec (p, I.files) =
      (.ok (((livePairs I recs).map some ++ List.replicate n none).take n, b'), p', I.files) ∧
      p'.acc = p.acc := by
    intro n
    obtain ⟨b', p', hrun, hacc'⟩ := run_scan h.stock hr hb hlen n b
    exact ⟨b', p', by rw [hrun, scanned_clean hsep]; rfl, hacc'⟩
  refine ⟨I, L, recs, rfl, hwf, fun n => ?_, fun counts => ?_, fun k hne => ?_, fun k b₂ q hq => ?_⟩
  · obtain ⟨b', p', hrun, -⟩ := hscan n
    exact ⟨b', _, hrun⟩
  · obtain ⟨p', hagain⟩ := run_nextrecsAgain (p := p.setPos .idx idxStart)
      (b := { b with idxoff := idxStart }) h hclean (by simpa using hr) hf hb hlen counts
    rw [scanned_clean hsep] at hagain
    exact ⟨_, (Prog.run_bind_ok run_rewind _).trans hagain⟩
  · obtain ⟨o, r, hlast, hmove⟩ := fetch_moves (k := k) h hclean hf hne
    obtain ⟨pre, rest, rfl, hrest⟩ := hb.of_recAt hlast.recAt
    refine ⟨o, r, pre, rest, hlast, rfl, fun a n => ?_⟩
    obtain ⟨b₁, p₁, hrun₁, hacc₁⟩ := hscan a
    obtain ⟨b₂, p₂, hrun₂, hacc₂, hpos₂⟩ := hmove p₁ b₁ (hacc₁ ▸ hr)
    have hlen' : rest.length < fuel := by
      simp only [List.length_append, List.length_cons] at hlen
      omega
    obtain ⟨b₃, p₃, hrun₃, -⟩ := run_nextrecs (p := p₂) (b := b₂)
      (by rw [hacc₂, hacc₁]; exact hr) h.stock (hpos₂ ▸ hrest)
      hlen' n
    rw [scanned_clean fun q hq => hsep q (by simp [hq])] at hrun₃
    exact ⟨b₃, _, (Prog.run_bind_ok hrun₁ _).trans ((Prog.run_bind_ok hrun₂ _).trans hrun₃)⟩
  · obtain ⟨out, q', hfetch, -, ⟨b', rfl⟩ | ⟨-, hno⟩⟩ := fetch_spec (b := b₂) h hf hq k
    · exact ⟨_, b', q', hfetch⟩
    · exact absurd hclean hno

theorem scan_fetches_sample : ∃ rs b t,
    (newSession 100000 sampleOps).run exec noFiles = (.ok (rs, b), t) ∧
    ∃ I recs, t.2 = Image.files I ∧ ∀ counts, ∃ u, (scanAgain 100000 counts b).run exec t =
      (.ok (((livePairs I recs).map some ++ List.replicate counts.length none).take
        counts.length), u) := by
  obtain ⟨b, t, hrun⟩ := run_sample
  obtain ⟨I, L, recs, hfiles, -, -, hagain, -⟩ := scan_fetches 100000 (by decide) noFiles sampleOps
    (fun op ho => ⟨sampleOps_plain op ho, (sampleOps_usual op ho).stays⟩) _ b t hrun
  exact ⟨_, b, t, hrun, I, recs, hfiles, hagain⟩

set_option maxRecDepth 100000 in
/-- A fetch of another key between two calls of `db_nextrec` makes the scan miss that key. -/
theorem fetch_disturbs_scan : ¬ ∀ (ops : List Op) (k : CStr) (a n : ℕ), (∀ op ∈ ops, op.Usual) →
    ((newSession 100000 ops >>= fun x => scanFetch 100000 a k.1 n x.2).run exec noFiles).1.map
        Prod.fst =
      ((newSession 100000 ops >>= fun x => scan 100000 (a + n) x.2).run exec noFiles).1.map
        fun x => x.1.drop a := by
  intro h
  -- both runs start with the same session, which is evaluated once
  obtain ⟨hscan, hfetch⟩ : ((newSession 100000 sampleOps >>= fun x => scan 100000 2 x.2).run exec
      noFiles).1.map (fun x => x.1.drop 1) = .ok [some ([98], [120])] ∧
    ((newSession 100000 sampleOps >>= fun x => scanFetch 100000 1 keyB.1 1 x.2).run exec
      noFiles).1.map Prod.fst = .ok [none] := by decide +kernel
  have := h sampleOps keyB 1 1 sampleOps_usual
  rw [hscan, hfetch] at this
  simp at this

end Somenote.Db
