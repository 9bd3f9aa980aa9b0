import Somenote.Db.Layout

/-! # Which list a record is on

The hash chains and the free list as lists of offsets, and the records outside them that
an operation holds. A record moves from a chain into the hands of an operation, on to
the free list, back into the hands of an operation, and to a chain again.
-/

namespace Somenote.Db

/-- The offsets on the hash chains and on the free list, in order. -/
structure Lists where
  chain : Fin nhashDef → List ℕ
  free : List ℕ

namespace Lists

def setChain (L : Lists) (j : Fin nhashDef) (l : List ℕ) : Lists :=
  { L with chain := Function.update L.chain j l }

def setFree (L : Lists) (l : List ℕ) : Lists := { L with free := l }

@[simp] theorem chain_setChain (L : Lists) (j : Fin nhashDef) (l : List ℕ) :
    (L.setChain j l).chain j = l := by simp [setChain]

theorem chain_setChain_ne (L : Lists) {i j : Fin nhashDef} (h : i ≠ j) (l : List ℕ) :
    (L.setChain j l).chain i = L.chain i := by simp [setChain, h]

@[simp] theorem free_setChain (L : Lists) (j : Fin nhashDef) (l : List ℕ) :
    (L.setChain j l).free = L.free := rfl

@[simp] theorem chain_setFree (L : Lists) (l : List ℕ) : (L.setFree l).chain = L.chain := rfl

@[simp] theorem free_setFree (L : Lists) (l : List ℕ) : (L.setFree l).free = l := rfl

end Lists

/-- The 138 lists: the hash chains and, as `none`, the free list. -/
abbrev ListId := Option (Fin nhashDef)

/-- The offset of the pointer that starts a list. -/
def head : ListId → ℕ
  | some j => slot j
  | none => freeOff

theorem head_injective : Function.Injective head := by
  rintro (_ | i) (_ | j) h
  · rfl
  · exact absurd h.symm (slot_ne_free j)
  · exact absurd h (slot_ne_free i)
  · exact congrArg some (slot_injective h)

namespace Lists

/-- The records on a list. -/
def nodes (L : Lists) : ListId → List ℕ
  | some j => L.chain j
  | none => L.free

def set (L : Lists) : ListId → List ℕ → Lists
  | some j, l => L.setChain j l
  | none, l => L.setFree l

theorem nodes_set (L : Lists) (i k : ListId) (l : List ℕ) :
    (L.set i l).nodes k = if k = i then l else L.nodes k := by
  rcases i with _ | i <;> rcases k with _ | k
  · simp [set, nodes]
  · simp [set, nodes]
  · simp [set, nodes]
  · by_cases h : k = i
    · subst h
      simp [set, nodes]
    · simp [set, nodes, h, chain_setChain_ne L h]

end Lists

/-- Each record is on one list, or in the set `Y` of records outside the lists; the chains
hold distinct keys of their hash value and the free list holds blank keys. -/
structure Filed (I : Image) (L : Lists) (Y : Set ℕ) : Prop where
  isRec_iff : ∀ o, I.IsRec o ↔ (∃ j, o ∈ L.chain j) ∨ o ∈ L.free ∨ o ∈ Y
  chain_inj : ∀ {o j j'}, o ∈ L.chain j → o ∈ L.chain j' → j = j'
  chain_free : ∀ {o j}, o ∈ L.chain j → o ∉ L.free
  chain_out : ∀ {o j}, o ∈ L.chain j → o ∉ Y
  free_out : ∀ {o}, o ∈ L.free → o ∉ Y
  chain_nodup : ∀ j, (L.chain j).Nodup
  free_nodup : L.free.Nodup
  hash : ∀ {o j r}, o ∈ L.chain j → I.RecAt o r → dbHash r.key = j
  key_inj : ∀ {o o' j r r'}, o ∈ L.chain j → o' ∈ L.chain j → I.RecAt o r → I.RecAt o' r' →
    r.key = r'.key → o = o'
  free_blank : ∀ {o r}, o ∈ L.free → I.RecAt o r → IsBlank r.key

namespace Filed

variable {I I' : Image} {L : Lists} {Y : Set ℕ} {o : ℕ} {r r' : Rec} {j : Fin nhashDef}
  {l m : List ℕ}

theorem rec_chain (h : Filed I L Y) (ho : o ∈ L.chain j) : ∃ r, I.RecAt o r :=
  (h.isRec_iff o).mpr (Or.inl ⟨j, ho⟩)

theorem rec_free (h : Filed I L Y) (ho : o ∈ L.free) : ∃ r, I.RecAt o r :=
  (h.isRec_iff o).mpr (Or.inr (Or.inl ho))

theorem rec_out (h : Filed I L Y) (ho : o ∈ Y) : ∃ r, I.RecAt o r :=
  (h.isRec_iff o).mpr (Or.inr (Or.inr ho))

theorem congr (h : Filed I L Y) (hr : ∀ o, I'.IsRec o ↔ I.IsRec o)
    (hk : ∀ {o r'}, o ∉ Y → I'.RecAt o r' → ∃ r, I.RecAt o r ∧ r.key = r'.key) :
    Filed I' L Y where
  isRec_iff o := (hr o).trans (h.isRec_iff o)
  chain_inj := h.chain_inj
  chain_free := h.chain_free
  chain_out := h.chain_out
  free_out := h.free_out
  chain_nodup := h.chain_nodup
  free_nodup := h.free_nodup
  hash ho hr' := by
    obtain ⟨r, hr, he⟩ := hk (h.chain_out ho) hr'
    exact he ▸ h.hash ho hr
  key_inj ho ho' hr₁ hr₂ he := by
    obtain ⟨r₁, h₁, he₁⟩ := hk (h.chain_out ho) hr₁
    obtain ⟨r₂, h₂, he₂⟩ := hk (h.chain_out ho') hr₂
    exact h.key_inj ho ho' h₁ h₂ (by rw [he₁, he₂, he])
  free_blank ho hr' := by
    obtain ⟨r, hr, he⟩ := hk (h.free_out ho) hr'
    exact he ▸ h.free_blank ho hr

theorem setPtr (h : Filed I L Y) {v : Ptr} (hv : I.HasPtr o v) (w : Ptr) :
    Filed (I.setPtr o w) L Y := by
  refine h.congr (fun o' => ⟨fun ⟨r, hr⟩ => ?_, fun ⟨r, hr⟩ => ⟨_, hr.setPtr hv w⟩⟩)
    fun _ hr => ?_
  · obtain ⟨r, hr, -⟩ := hr.of_setPtr hv
    exact ⟨r, hr⟩
  · obtain ⟨r, hr, hk, -⟩ := hr.of_setPtr hv
    exact ⟨r, hr, hk⟩

theorem putCell (h : Filed I L Y) (ho : I.RecAt o r) (hl : r'.text.length = r.text.length)
    (hY : o ∈ Y) : Filed (I.putCell o (.record r')) L Y := by
  refine h.congr (fun o' => ?_) fun {o' q} hno hq => ?_
  · simp only [Image.IsRec, Image.recAt_putCell ho hl]
    split_ifs with he
    · exact ⟨fun _ => ⟨r, he ▸ ho⟩, fun _ => ⟨r', rfl⟩⟩
    · rfl
  · rw [Image.recAt_putCell ho hl, if_neg (by rintro rfl; exact hno hY)] at hq
    exact ⟨q, hq, rfl⟩

theorem putBlk (h : Filed I L Y) (a : ℕ) (d : CStr) : Filed (I.putBlk a d) L Y :=
  h.congr (fun _ => Iff.rfl) fun _ hr => ⟨_, hr, rfl⟩

theorem addBlk (h : Filed I L Y) (d : CStr) : Filed (I.addBlk d) L Y :=
  h.congr (fun _ => Iff.rfl) fun _ hr => ⟨_, hr, rfl⟩

theorem ne_end (h : Filed I L Y) (ho : (∃ j, o ∈ L.chain j) ∨ o ∈ L.free ∨ o ∈ Y) :
    o ≠ I.idxBytes.length := by
  obtain ⟨r, hr⟩ := (h.isRec_iff o).mpr ho
  exact Image.cellAt_ne_end hr

theorem addRec (h : Filed I L Y) (r : Rec) :
    Filed (I.addRec r) L (insert I.idxBytes.length Y) where
  isRec_iff o := by
    have hio := h.isRec_iff o
    simp only [Image.IsRec, Image.recAt_addRec, Set.mem_insert_iff] at hio ⊢
    split_ifs with he
    · simp [he]
    · simp [he, hio]
  chain_inj := h.chain_inj
  chain_free := h.chain_free
  chain_out ho := by
    rintro (rfl | hY)
    · exact h.ne_end (Or.inl ⟨_, ho⟩) rfl
    · exact h.chain_out ho hY
  free_out ho := by
    rintro (rfl | hY)
    · exact h.ne_end (Or.inr (Or.inl ho)) rfl
    · exact h.free_out ho hY
  chain_nodup := h.chain_nodup
  free_nodup := h.free_nodup
  hash ho hr := by
    rw [Image.recAt_addRec, if_neg (h.ne_end (Or.inl ⟨_, ho⟩))] at hr
    exact h.hash ho hr
  key_inj ho ho' hr hr' he := by
    rw [Image.recAt_addRec, if_neg (h.ne_end (Or.inl ⟨_, ho⟩))] at hr
    rw [Image.recAt_addRec, if_neg (h.ne_end (Or.inl ⟨_, ho'⟩))] at hr'
    exact h.key_inj ho ho' hr hr' he
  free_blank ho hr := by
    rw [Image.recAt_addRec, if_neg (h.ne_end (Or.inr (Or.inl ho)))] at hr
    exact h.free_blank ho hr

theorem mem_take_chain (h : Filed I L Y) (hl : L.chain j = l ++ o :: m) {i : Fin nhashDef}
    {x : ℕ} : x ∈ (L.setChain j (l ++ m)).chain i ↔ x ∈ L.chain i ∧ x ≠ o := by
  by_cases hi : i = j
  · subst hi
    have hnd := h.chain_nodup i
    rw [hl, List.perm_middle.nodup_iff, List.nodup_cons] at hnd
    rw [Lists.chain_setChain, hl, List.perm_middle.mem_iff, List.mem_cons]
    constructor
    · intro hx
      exact ⟨Or.inr hx, fun hxo => hnd.1 (hxo ▸ hx)⟩
    · rintro ⟨hx, hne⟩
      exact hx.resolve_left hne
  · rw [Lists.chain_setChain_ne _ hi]
    refine ⟨fun hx => ⟨hx, ?_⟩, And.left⟩
    rintro rfl
    exact hi (h.chain_inj hx (by simp [hl]))

theorem take_chain (h : Filed I L Y) (hl : L.chain j = l ++ o :: m) :
    Filed I (L.setChain j (l ++ m)) (insert o Y) where
  isRec_iff x := by
    have ho : o ∈ L.chain j := by simp [hl]
    rw [h.isRec_iff x]
    simp only [h.mem_take_chain hl, Lists.free_setChain, Set.mem_insert_iff]
    constructor
    · rintro (⟨i, hx⟩ | hx | hx)
      · by_cases hxo : x = o
        · exact Or.inr (Or.inr (Or.inl hxo))
        · exact Or.inl ⟨i, hx, hxo⟩
      · exact Or.inr (Or.inl hx)
      · exact Or.inr (Or.inr (Or.inr hx))
    · rintro (⟨i, hx, -⟩ | hx | rfl | hx)
      · exact Or.inl ⟨i, hx⟩
      · exact Or.inr (Or.inl hx)
      · exact Or.inl ⟨j, ho⟩
      · exact Or.inr (Or.inr hx)
  chain_inj hx hx' :=
    h.chain_inj ((h.mem_take_chain hl).mp hx).1 ((h.mem_take_chain hl).mp hx').1
  chain_free hx := h.chain_free ((h.mem_take_chain hl).mp hx).1
  chain_out hx := by
    obtain ⟨hx, hne⟩ := (h.mem_take_chain hl).mp hx
    rintro (rfl | hY)
    · exact hne rfl
    · exact h.chain_out hx hY
  free_out hx := by
    have ho : o ∈ L.chain j := by simp [hl]
    rintro (rfl | hY)
    · exact h.chain_free ho hx
    · exact h.free_out hx hY
  chain_nodup i := by
    by_cases hi : i = j
    · subst hi
      have hnd := h.chain_nodup i
      rw [hl, List.perm_middle.nodup_iff, List.nodup_cons] at hnd
      rw [Lists.chain_setChain]
      exact hnd.2
    · rw [Lists.chain_setChain_ne _ hi]
      exact h.chain_nodup i
  free_nodup := h.free_nodup
  hash hx hr := h.hash ((h.mem_take_chain hl).mp hx).1 hr
  key_inj hx hx' hr hr' he :=
    h.key_inj ((h.mem_take_chain hl).mp hx).1 ((h.mem_take_chain hl).mp hx').1 hr hr' he
  free_blank := h.free_blank

theorem give_free (h : Filed I L Y) (hY : o ∈ Y) (ho : I.RecAt o r) (hb : IsBlank r.key) :
    Filed I (L.setFree (o :: L.free)) (Y \ {o}) where
  isRec_iff x := by
    rw [h.isRec_iff x]
    simp only [Lists.chain_setFree, Lists.free_setFree, List.mem_cons, Set.mem_sdiff,
      Set.mem_singleton_iff]
    by_cases hx : x = o
    · subst hx; simp [hY]
    · simp [hx]
  chain_inj := h.chain_inj
  chain_free hx := by
    rw [Lists.free_setFree, List.mem_cons]
    rintro (rfl | hf)
    · exact h.chain_out hx hY
    · exact h.chain_free hx hf
  chain_out hx hY' := h.chain_out hx hY'.1
  free_out hx hY' := by
    rcases List.mem_cons.mp hx with rfl | hf
    · exact hY'.2 rfl
    · exact h.free_out hf hY'.1
  chain_nodup := h.chain_nodup
  free_nodup := List.nodup_cons.mpr ⟨fun hf => h.free_out hf hY, h.free_nodup⟩
  hash := h.hash
  key_inj := h.key_inj
  free_blank hx hr := by
    rcases List.mem_cons.mp hx with rfl | hf
    · exact ho.unique hr ▸ hb
    · exact h.free_blank hf hr

theorem take_free (h : Filed I L Y) (hl : L.free = l ++ o :: m) :
    Filed I (L.setFree (l ++ m)) (insert o Y) := by
  have hnd := h.free_nodup
  rw [hl, List.perm_middle.nodup_iff, List.nodup_cons] at hnd
  have ho : o ∈ L.free := by rw [hl]; simp
  have hsub : ∀ {x}, x ∈ l ++ m → x ∈ L.free := by
    intro x hx
    rw [hl]
    simp only [List.mem_append, List.mem_cons] at hx ⊢
    tauto
  exact {
    isRec_iff := fun x => by
      rw [h.isRec_iff x, hl]
      simp only [Lists.chain_setFree, Lists.free_setFree, List.mem_append, List.mem_cons,
        Set.mem_insert_iff]
      tauto
    chain_inj := h.chain_inj
    chain_free := fun hx hf => h.chain_free hx (hsub hf)
    chain_out := fun hx => by
      rintro (rfl | hY)
      · exact h.chain_free hx ho
      · exact h.chain_out hx hY
    free_out := fun hx => by
      rintro (rfl | hY)
      · exact hnd.1 hx
      · exact h.free_out (hsub hx) hY
    chain_nodup := h.chain_nodup
    free_nodup := hnd.2
    hash := h.hash
    key_inj := h.key_inj
    free_blank := fun hx hr => h.free_blank (hsub hx) hr }

theorem mem_give_chain {i : Fin nhashDef} {x : ℕ} :
    x ∈ (L.setChain j (o :: L.chain j)).chain i ↔ x ∈ L.chain i ∨ i = j ∧ x = o := by
  by_cases hi : i = j
  · subst hi
    rw [Lists.chain_setChain, List.mem_cons]
    tauto
  · rw [Lists.chain_setChain_ne _ hi]
    simp [hi]

theorem give_chain (h : Filed I L Y) (hY : o ∈ Y) (ho : I.RecAt o r) (hj : dbHash r.key = j)
    (hne : ∀ x ∈ L.chain j, ∀ q, I.RecAt x q → q.key ≠ r.key) :
    Filed I (L.setChain j (o :: L.chain j)) (Y \ {o}) where
  isRec_iff x := by
    rw [h.isRec_iff x]
    simp only [mem_give_chain, Lists.free_setChain, Set.mem_sdiff, Set.mem_singleton_iff]
    constructor
    · rintro (⟨i, hx⟩ | hx | hx)
      · exact Or.inl ⟨i, Or.inl hx⟩
      · exact Or.inr (Or.inl hx)
      · by_cases hxo : x = o
        · exact Or.inl ⟨j, Or.inr ⟨rfl, hxo⟩⟩
        · exact Or.inr (Or.inr ⟨hx, hxo⟩)
    · rintro (⟨i, hx | ⟨rfl, rfl⟩⟩ | hx | hx)
      · exact Or.inl ⟨i, hx⟩
      · exact Or.inr (Or.inr hY)
      · exact Or.inr (Or.inl hx)
      · exact Or.inr (Or.inr hx.1)
  chain_inj hx hx' := by
    rcases mem_give_chain.mp hx with hx | ⟨hi, hxo⟩ <;>
      rcases mem_give_chain.mp hx' with hx' | ⟨hi', hxo'⟩
    · exact h.chain_inj hx hx'
    · exact absurd (hxo' ▸ hY) (h.chain_out hx)
    · exact absurd (hxo ▸ hY) (h.chain_out hx')
    · exact hi.trans hi'.symm
  chain_free hx hf := by
    rcases mem_give_chain.mp hx with hx | ⟨rfl, rfl⟩
    · exact h.chain_free hx hf
    · exact h.free_out hf hY
  chain_out hx hY' := by
    rcases mem_give_chain.mp hx with hx | ⟨rfl, rfl⟩
    · exact h.chain_out hx hY'.1
    · exact hY'.2 rfl
  free_out hx hY' := h.free_out hx hY'.1
  chain_nodup i := by
    by_cases hi : i = j
    · subst hi
      rw [Lists.chain_setChain]
      exact List.nodup_cons.mpr ⟨fun hx => h.chain_out hx hY, h.chain_nodup i⟩
    · rw [Lists.chain_setChain_ne _ hi]
      exact h.chain_nodup i
  free_nodup := h.free_nodup
  hash hx hr := by
    rcases mem_give_chain.mp hx with hx | ⟨rfl, rfl⟩
    · exact h.hash hx hr
    · exact ho.unique hr ▸ hj
  key_inj hx hx' hr hr' he := by
    rcases mem_give_chain.mp hx with hc | ⟨hi, hxo⟩ <;>
      rcases mem_give_chain.mp hx' with hc' | ⟨hi', hxo'⟩
    · exact h.key_inj hc hc' hr hr' he
    · subst hi' hxo'
      exact absurd (he.trans (congrArg Rec.key (hr'.unique ho))) (hne _ hc _ hr)
    · subst hi hxo
      exact absurd (he.symm.trans (congrArg Rec.key (hr.unique ho))) (hne _ hc' _ hr')
    · exact hxo.trans hxo'.symm
  free_blank := h.free_blank

theorem rec_node (h : Filed I L Y) {i : ListId} (ho : o ∈ L.nodes i) : ∃ r, I.RecAt o r := by
  cases i with
  | none => exact h.rec_free ho
  | some j => exact h.rec_chain ho

theorem hasPtr (h : Filed I L Y) (hs : I.Shape) {i : ListId} (ho : o ∈ head i :: L.nodes i) :
    ∃ v, I.HasPtr o v := by
  rcases List.mem_cons.mp ho with rfl | ho
  · cases i with
    | none => exact hs.free_hasPtr
    | some j => exact hs.slot_hasPtr j
  · obtain ⟨r, hr⟩ := h.rec_node ho
    exact ⟨_, hr.hasPtr⟩

theorem head_ne (hs : I.Shape) (i : ListId) (ho : I.RecAt o r) : head i ≠ o := by
  cases i with
  | none => exact hs.free_ne ho
  | some j => exact hs.slot_ne j ho

/-- No pointer belongs to two lists. -/
theorem separate (h : Filed I L Y) (hs : I.Shape) {i k : ListId} (hi : o ∈ head i :: L.nodes i)
    (hk : o ∈ head k :: L.nodes k) : i = k := by
  rcases List.mem_cons.mp hi with rfl | hi
  · rcases List.mem_cons.mp hk with hk | hk
    · exact head_injective hk
    · obtain ⟨r, hr⟩ := h.rec_node hk
      exact absurd rfl (head_ne hs i hr)
  · rcases List.mem_cons.mp hk with rfl | hk
    · obtain ⟨r, hr⟩ := h.rec_node hi
      exact absurd rfl (head_ne hs k hr)
    · rcases i with _ | i <;> rcases k with _ | k
      · rfl
      · exact absurd hi (h.chain_free hk)
      · exact absurd hk (h.chain_free hi)
      · exact congrArg some (h.chain_inj hi hk)

theorem out (h : Filed I L Y) (hs : I.Shape) (ho : o ∈ Y) (i : ListId) :
    o ∉ head i :: L.nodes i := by
  intro hi
  rcases List.mem_cons.mp hi with rfl | hi
  · obtain ⟨r, hr⟩ := h.rec_out ho
    exact head_ne hs i hr rfl
  · cases i with
    | none => exact h.free_out hi ho
    | some j => exact h.chain_out hi ho

theorem head_notMem (h : Filed I L Y) (hs : I.Shape) (i : ListId) : head i ∉ L.nodes i := by
  intro hi
  obtain ⟨r, hr⟩ := h.rec_node hi
  exact head_ne hs i hr rfl

theorem nodup (h : Filed I L Y) (i : ListId) : (L.nodes i).Nodup := by
  cases i with
  | none => exact h.free_nodup
  | some j => exact h.chain_nodup j

omit I L Y in
theorem prev_mem {L : Lists} {i : ListId} (hl : L.nodes i = l ++ o :: m) :
    l.getLastD (head i) ∈ head i :: L.nodes i := by
  rw [hl, ← List.cons_append]
  exact List.mem_append_left _ (Linked.getLastD_mem l _)

theorem prev_ne (h : Filed I L Y) (hs : I.Shape) {i : ListId} (hl : L.nodes i = l ++ o :: m) :
    l.getLastD (head i) ≠ o := by
  intro he
  have hnd := h.nodup i
  have hnot := h.head_notMem hs i
  have hmem := Linked.getLastD_mem l (head i)
  rw [hl, List.perm_middle.nodup_iff, List.nodup_cons] at hnd
  rw [he, List.mem_cons] at hmem
  rcases hmem with hmem | hmem
  · exact hnot (by rw [hl, ← hmem]; simp)
  · exact hnd.1 (List.mem_append_left _ hmem)

theorem prev_ne_free (h : Filed I L Y) (hs : I.Shape) (hl : L.chain j = l ++ o :: m) :
    l.getLastD (slot j) ≠ freeOff := by
  intro he
  have hp : l.getLastD (slot j) ∈ head (some j) :: L.nodes (some j) := prev_mem hl
  have := h.separate hs (k := none) hp (by rw [he]; exact List.mem_cons_self)
  simp at this

theorem slot_ne_prev (h : Filed I L Y) (hs : I.Shape) (hl : L.free = l ++ o :: m) :
    slot j ≠ l.getLastD freeOff := by
  intro he
  have hp : l.getLastD freeOff ∈ head none :: L.nodes none := prev_mem hl
  have := h.separate hs (k := some j) hp (by rw [← he]; exact List.mem_cons_self)
  simp at this

end Filed

end Somenote.Db
