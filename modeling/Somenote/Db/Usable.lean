import Somenote.Db.Refusal

/-! # Accepted keys

`db_store` checks lengths only. A key with a separator is accepted and then cannot be read
back, and a key of spaces is taken for that of a deleted record by a scan; every other key
that was accepted can be used.
-/

namespace Somenote.Db

/-- A key without separator that is not blank. -/
def KeyOk (k : CStr) : Prop := SEP ∉ k.1 ∧ ¬ IsBlank k

/-- The consistency checks of `_db_readidx`. -/
def Err.IsReadidx : Err → Prop
  | readidxLseek | readidxReadv | readidxIdxlen | readidxRead | readidxNewline | readidxSep1
  | readidxSep2 | readidxSep3 | readidxDatoff | readidxDatlen => True
  | _ => False

/-- The database stays readable behind a store of the key `k` with the data `d`. -/
structure Usable (fuel : ℕ) (P : CStr → Prop) (k d : CStr) (f : Files) : Prop where
  fetch : ∀ (b : DB) (p : Fds), p.acc.readable = true →
    ∃ b' p', (dbFetch fuel b k.1).run exec (p, f) = (.ok (some d.1, b'), p', f)
  scan : ∀ (b : DB) (p : Fds), p.acc.readable = true →
    ∃ n rs b' p', (scan fuel n b).run exec (p, f) = (.ok (rs, b'), p', f) ∧ some (k.1, d.1) ∈ rs
  later : ∀ f', Reaches P f f' → ∀ (m : ℕ) (b : DB) (p : Fds), ptrMax < m →
    (f'.bytes .idx).length < m →
    (∀ (op : Op) e t, op.Opens → (op.call m b).run exec (p, f') = (.dump e, t) → ¬ e.IsReadidx) ∧
    ∀ n e t, (Db.scan m n b).run exec (p, f') = (.dump e, t) → ¬ e.IsReadidx

theorem Map.Keys.clean {M : Map} (h : M.Keys fun k => IsBlank k ∨ KeyOk k) : M.Clean :=
  fun k hk => (h k hk).elim not_sep_of_isBlank And.left

variable {I I' : Image} {L : Lists} {X Y : Set ℕ} {M : Map} {f f' : Files} {p : Fds} {fuel n : ℕ}
  {b : DB} {k d : CStr} {e : Err} {recs : List Rec} {t : Fds × Files}

theorem Refused.not_readidx (h : Refused I k d e I') : ¬ e.IsReadidx := by
  cases h <;> exact id

section Clean

variable (h : Inv I L X Y M) (hc : M.Clean) (hf : ptrMax < fuel)
include h hc hf

/-- A call on a database without separators in its keys ends in no check of `_db_readidx`. -/
theorem call_not_readidx {op : Op} (hopen : op.Opens)
    (hrun : (op.call fuel b).run exec (p, I.files) = (.dump e, t)) : ¬ e.IsReadidx := by
  have haccess : ∀ {e : Err}, e.IsAccess → ¬ e.IsReadidx := by
    intro e he
    cases e <;> first | exact he.elim | exact id
  cases op with
  | fetch k =>
    cases hr : p.acc.readable with
    | false =>
      obtain ⟨e', p', hrun', he⟩ := fetch_denied fuel b I.files k.1 hr
      rw [Op.call, Prog.run_bind_dump hrun'] at hrun
      cases hrun
      exact haccess he
    | true =>
      obtain ⟨out, p', hrun', -, ⟨b', rfl⟩ | ⟨-, hno⟩⟩ := fetch_spec (b := b) h hf hr k
      · rw [Op.call, Prog.run_bind_ok hrun'] at hrun
        cases hrun
      · exact absurd hc hno
  | delete k =>
    by_cases hrw : p.acc.writable = false ∨ p.acc.readable = false
    · obtain ⟨e', p', hrun', he⟩ := delete_denied fuel b I.files hrw k.1
      rw [Op.call, Prog.run_bind_dump hrun'] at hrun
      cases hrun
      exact haccess he
    · obtain ⟨hw, hr⟩ : p.acc.writable = true ∧ p.acc.readable = true := by simpa using hrw
      obtain ⟨out, p', I', hrun', -, ⟨b', L', rfl, -⟩ | ⟨-, -, hno⟩⟩ :=
        delete_spec (b := b) h hf hr hw k
      · rw [Op.call, Prog.run_bind_ok hrun'] at hrun
        cases hrun
      · exact absurd hc hno
  | store k d flag =>
    by_cases hrw : p.acc.writable = false ∨ p.acc.readable = false
    · obtain ⟨out, p', hrun', ⟨rfl, -⟩ | ⟨e', rfl, he⟩⟩ := store_denied fuel b I.files hrw M k d flag
      · rw [Op.call, Prog.run_bind_ok hrun'] at hrun
        cases hrun
      · rw [Op.call, Prog.run_bind_dump hrun'] at hrun
        cases hrun
        rcases he with he | ⟨rfl, -⟩
        · exact haccess he
        · exact id
    · obtain ⟨hw, hr⟩ : p.acc.writable = true ∧ p.acc.readable = true := by simpa using hrw
      obtain ⟨out, p', I', hrun', -, hend⟩ := store_spec (b := b) h hf hr hw k d flag
      rw [Op.call, Prog.run_bind, hrun'] at hrun
      cases hend with
      | done _ _ _ => cases hrun
      | datlen _ =>
        cases hrun
        exact id
      | sep hM hs => exact absurd hs (hc _ (by simp [hM]))
      | absent _ _ _ href =>
        cases hrun
        exact href.not_readidx
      | present _ _ _ _ _ _ _ _ _ _ _ href =>
        cases hrun
        exact href.not_readidx
  | reopen oflag =>
    rw [Op.call, Prog.run_bind_ok run_close, Prog.run_bind_ok (run_reopen hopen)] at hrun
    cases hrun

end Clean

theorem scan_not_readidx (hst : I.Stock X) (hb : Behind I idxStart recs)
    (hclean : ∀ r ∈ recs, SEP ∉ r.key.1) (hf : recs.length < fuel)
    (hrun : (scan fuel n b).run exec (p, I.files) = (.dump e, t)) : ¬ e.IsReadidx := by
  cases hr : p.acc.readable with
  | true =>
    obtain ⟨b', p', hrun', -⟩ := run_scan hst hr hb hf n b
    rw [hrun', scanned_clean hclean] at hrun
    cases hrun
  | false =>
    rw [scan, Prog.run_bind_ok run_rewind] at hrun
    cases n with
    | zero => cases hrun
    | succ n =>
      have hdenied : (dbNextrec fuel { b with idxoff := idxStart }).run exec
          (p.setPos .idx idxStart, I.files) =
          (.dump .nextrecLock, p.setPos .idx idxStart, I.files) :=
        Prog.run_bind_dump (run_lock_denied (p := p.setPos .idx idxStart) (t := .rd)
          (by simpa [Access.allows] using hr)) _
      rw [nextrecs, Prog.run_bind_dump hdenied] at hrun
      cases hrun
      exact id

section Stored

variable (h : Inv I L X Y M)
  (hrec : ∀ {o r}, I.RecAt o r → IsBlank r.key ∨ KeyOk r.key ∨ r.key = k)
include h hrec

theorem run_scan_stored (hb : Behind I idxStart recs) (hlen : recs.length < fuel)
    (hs : SEP ∉ k.1) (hr : p.acc.readable = true) (n : ℕ) (b : DB) :
    ∃ b' p', (scan fuel n b).run exec (p, I.files) =
      (.ok (((livePairs I recs).map some ++ List.replicate n none).take n, b'), p', I.files) := by
  have hclean : ∀ r ∈ recs, SEP ∉ r.key.1 := by
    intro r hr
    obtain ⟨o, -, ho⟩ := hb.mem hr
    rcases hrec ho with hblank | hk | rfl
    · exact not_sep_of_isBlank hblank
    · exact hk.1
    · exact hs
  obtain ⟨b', p', hrun, -⟩ := run_scan h.stock hr hb hlen n b
  exact ⟨b', p', by rw [hrun, scanned_clean hclean]; rfl⟩

variable (hM : M k = some d) (hf : ptrMax < fuel) (hlen : I.idxBytes.length < fuel)
include hM hf hlen

theorem keyOk_of_usable (hu : Usable fuel KeyOk k d I.files) : KeyOk k := by
  have hsep : SEP ∉ k.1 := by
    obtain ⟨b₁, p₁, hfetch⟩ := hu.fetch dbAlloc (Fds.opened .rdonly) rfl
    cases h.search k with
    | miss _ hno => simp [hM] at hno
    | hit _ _ _ hs hk _ _ _ => exact hk ▸ hs
    | sep hc hl ho hs _ =>
      obtain ⟨hlink, hfit⟩ := h.walk_to hf hc
      rw [run_fetch_sep rfl h.shape hlink hl ho hs hfit] at hfetch
      cases hfetch
  refine ⟨hsep, fun hblank => ?_⟩
  obtain ⟨recs, hb⟩ := h.shape.behind
  obtain ⟨n, rs, b₁, p₁, hrun₁, hmem⟩ := hu.scan dbAlloc (Fds.opened .rdonly) rfl
  obtain ⟨b₂, p₂, hrun₂⟩ := run_scan_stored (p := Fds.opened .rdonly) h hrec hb
    (hb.length_le.trans_lt hlen) hsep rfl n dbAlloc
  rw [hrun₂] at hrun₁
  cases hrun₁
  have hpair := List.mem_of_mem_take hmem
  simp only [livePairs, List.mem_append, List.mem_map, List.mem_filter, List.mem_replicate,
    Option.some.injEq, reduceCtorEq, and_false, or_false, decide_eq_true_eq] at hpair
  obtain ⟨_, ⟨r, ⟨-, hnb⟩, rfl⟩, hkey⟩ := hpair
  have hrk : r.key = k := Subtype.ext (congrArg Prod.fst hkey)
  exact hnb (hrk ▸ hblank)

/-- A stored key without separator that is not blank is fetched and scanned. -/
theorem usable_of_keyOk (hk : KeyOk k) : Usable fuel KeyOk k d I.files := by
  have hkeys : ∀ {o r}, I.RecAt o r → IsBlank r.key ∨ KeyOk r.key := by
    intro o r ho
    rcases hrec ho with hblank | hok | rfl
    · exact Or.inl hblank
    · exact Or.inr hok
    · exact Or.inr hk
  constructor
  · intro b p hr
    obtain ⟨out, p₁, hfetch, -, ⟨b₁, rfl⟩ | ⟨-, hno⟩⟩ := fetch_spec (b := b) h hf hr k
    · exact ⟨b₁, p₁, by rw [hfetch, Map.fetch, hM]; rfl⟩
    · exact absurd (h.keys hkeys).clean hno
  · intro b p hr
    obtain ⟨recs, hb⟩ := h.shape.behind
    obtain ⟨b₁, p₁, hrun₁⟩ := run_scan_stored h hrec hb (hb.length_le.trans_lt hlen) hk.1 hr
      (livePairs I recs).length b
    refine ⟨_, _, b₁, p₁, hrun₁, ?_⟩
    obtain ⟨j, o, r, -, ho, rfl, hd⟩ := (h.maps k d).mp hM
    obtain ⟨pre, post, rfl, -⟩ := hb.of_recAt ho
    rw [List.take_append_of_le_length (by simp), List.take_of_length_le (by simp), List.mem_map]
    refine ⟨(r.key.1, d.1), List.mem_map.mpr ⟨r, ?_, by rw [pairOf, hd]; rfl⟩, rfl⟩
    simp [hk.2]
  · intro f' hreach m b p hm hlen'
    have hvalid : Valid KeyOk I.files := ⟨I, L, X, Y, M, rfl, h, hkeys⟩
    obtain ⟨J, L', X', Y', M', rfl, h', hrec'⟩ := hvalid.reaches hreach
    refine ⟨fun op e t hopen => call_not_readidx h' (h'.keys hrec').clean hm hopen,
      fun n e t => ?_⟩
    obtain ⟨recs, hb⟩ := h'.shape.behind
    refine scan_not_readidx h'.stock hb (fun r hr => ?_) (hb.length_le.trans_lt hlen')
    obtain ⟨o, -, ho⟩ := hb.mem hr
    exact (hrec' ho).elim not_sep_of_isBlank And.left

end Stored

/-- Behind stores of usable keys, a stored key can be used exactly when it has no separator and
is not blank. -/
theorem store_usable_iff {fuel : ℕ} {f f' : Files} {b b' : DB} {p p' : Fds} {k d : CStr}
    {flag : ℤ} (hreach : Reachable KeyOk f) (hf : ptrMax < fuel)
    (hlen : (f'.bytes .idx).length < fuel)
    (hrun : (dbStore fuel b k.1 d.1 flag).run exec (p, f) = (.ok (0, b'), p', f')) :
    Usable fuel KeyOk k d f' ↔ KeyOk k := by
  obtain ⟨I, L, X, Y, M, rfl, h, hrec⟩ := hreach.valid
  obtain ⟨hr, hw⟩ := store_granted fuel b I.files hrun
  obtain ⟨out, q, I', hrun', -, hend⟩ := store_spec (b := b) h hf hr hw k d flag
  rw [hrun, Prod.mk.injEq, Prod.mk.injEq] at hrun'
  obtain ⟨rfl, -, rfl⟩ := hrun'
  cases hend with
  | @done _ _ L' _ M' hspec h' hY =>
    have hM : M' k = some d := by rw [Map.store_eq_zero hspec, Function.update_self]
    have hrec₁ : ∀ {o r}, I.RecAt o r → IsBlank r.key ∨ KeyOk r.key ∨ r.key = k :=
      fun ho => (hrec ho).imp_right Or.inl
    have hkeys := (h.keys (P := fun q => KeyOk q ∨ q = k) hrec₁).store (k := k)
      (Or.inr (Or.inr rfl)) d flag
    rw [hspec] at hkeys
    have hrec' : ∀ {o r}, I'.RecAt o r → IsBlank r.key ∨ KeyOk r.key ∨ r.key = k :=
      fun ho => h'.records (P := fun q => KeyOk q ∨ q = k) hkeys
        (hY.records (P := fun q => KeyOk q ∨ q = k) hrec₁) ho
    constructor
    · exact keyOk_of_usable h' hrec' hM hf hlen
    · exact usable_of_keyOk h' hrec' hM hf hlen

section Sample

/-- A key with a separator. -/
def keySep : CStr := ⟨[97, 58, 98], by decide⟩

/-- A store in a new database. -/
def insertion (k : CStr) : Out Err (ℤ × DB) × Fds × Files :=
  (dbStore 100000 dbAlloc k.1 dataX.1 Flag.dbInsert).run exec (Fds.opened .rdwr, Image.fresh.files)

theorem fresh_reachable (P : CStr → Prop) : Reachable P Image.fresh.files :=
  ⟨noFiles, _, _, _, run_create, .refl⟩

/-- The key `a:b` is accepted, and a fetch of it aborts. -/
theorem accepted_key_unusable :
    Reachable KeyOk Image.fresh.files ∧ (insertion keySep).1.map Prod.fst = .ok 0 ∧
      ¬ Usable 100000 KeyOk keySep dataX (insertion keySep).2.2 := by
  refine ⟨fresh_reachable KeyOk, by decide +kernel, fun hu => ?_⟩
  obtain ⟨b', p', hrun⟩ := hu.fetch dbAlloc (Fds.opened .rdonly) rfl
  have hdump : ((dbFetch 100000 dbAlloc keySep.1).run exec
      (Fds.opened .rdonly, (insertion keySep).2.2)).1 = .dump .readidxSep3 := by decide +kernel
  rw [hrun] at hdump
  cases hdump

theorem store_usable_sample : ∃ b t, insertion keyA = (.ok (0, b), t) ∧
    (Usable 100000 KeyOk keyA dataX t.2 ↔ KeyOk keyA) := by
  have hok : (insertion keyA).1.map Prod.fst = .ok 0 := by decide +kernel
  have hlen : ((insertion keyA).2.2.bytes .idx).length < 100000 := by decide +kernel
  obtain ⟨⟨rc, b⟩, t, hrun, rfl⟩ := Prog.run_of_map hok
  unfold insertion at hlen ⊢
  rw [hrun] at hlen ⊢
  exact ⟨b, t, rfl, store_usable_iff (fresh_reachable KeyOk) (by decide) hlen hrun⟩

end Sample

end Somenote.Db
