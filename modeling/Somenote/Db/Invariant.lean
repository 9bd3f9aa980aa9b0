import Mathlib.Data.List.Perm.Subperm
import Mathlib.Order.BooleanAlgebra.Set
import Somenote.Db.Filed

/-! # The representation invariant

Between two operations of one process the lists are linked: each chain and the free list
follow the pointers of the index file to zero. The keys and data of the records on the
chains are the map that the database stores.
-/

namespace Somenote.Db

/-- A record on a chain has this key and this data. -/
def Maps (I : Image) (L : Lists) (k d : CStr) : Prop :=
  ∃ j o r, o ∈ L.chain j ∧ I.RecAt o r ∧ r.key = k ∧ I.blkAt r.datoff = some d

/-- The key-to-data map that a database stores. -/
abbrev Map := CStr → Option CStr

/-- `X` are the blocks without a record and `Y` the records on no list. -/
structure Inv (I : Image) (L : Lists) (X Y : Set ℕ) (M : Map) : Prop where
  shape : I.Shape
  stock : I.Stock X
  filed : Filed I L Y
  linked : ∀ i, Linked 0 I.next (head i) (L.nodes i)
  maps : ∀ k d, M k = some d ↔ Maps I L k d

variable {I I' : Image} {L : Lists} {X Y : Set ℕ} {o a : ℕ} {r r' : Rec} {i : ListId}
  {j : Fin nhashDef} {l m : List ℕ} {k d d' : CStr} {v w : Ptr} {M : Map}

namespace Maps

theorem congr (hr : ∀ {j o r}, o ∈ L.chain j → I.RecAt o r → ∃ r', I'.RecAt o r' ∧
      r'.key = r.key ∧ I'.blkAt r'.datoff = I.blkAt r.datoff)
    (h : Maps I L k d) : Maps I' L k d := by
  obtain ⟨j, o, r, ho, hor, rfl, hd⟩ := h
  obtain ⟨r', hor', hk, hb⟩ := hr ho hor
  exact ⟨j, o, r', ho, hor', hk, hb.trans hd⟩

theorem setPtr_iff (hv : I.HasPtr o v) : Maps (I.setPtr o w) L k d ↔ Maps I L k d := by
  constructor
  · refine congr fun _ hor => ?_
    obtain ⟨r', hr', hk, ha, -⟩ := hor.of_setPtr hv
    exact ⟨r', hr', hk, by rw [Image.blkAt_setPtr, ha]⟩
  · refine congr fun _ hor => ⟨_, hor.setPtr hv w, ?_⟩
    split_ifs <;> exact ⟨rfl, by simp [Rec.withPtr]⟩

theorem putCell_iff (ho : I.RecAt o r) (hl : r'.text.length = r.text.length)
    (hno : ∀ j, o ∉ L.chain j) : Maps (I.putCell o (.record r')) L k d ↔ Maps I L k d := by
  have hne : ∀ {j o'}, o' ∈ L.chain j → o' ≠ o := by
    rintro j o' ho' rfl
    exact hno j ho'
  constructor
  · refine congr fun {j o' q} ho' hq => ?_
    rw [Image.recAt_putCell ho hl, if_neg (hne ho')] at hq
    exact ⟨q, hq, rfl, rfl⟩
  · refine congr fun {j o' q} ho' hq => ⟨q, ?_, rfl, rfl⟩
    rw [Image.recAt_putCell ho hl, if_neg (hne ho')]
    exact hq

theorem putBlk_iff (ha : I.blkAt a = some d') {d'' : CStr} (hl : d''.1.length = d'.1.length)
    (hno : ∀ {j o r}, o ∈ L.chain j → I.RecAt o r → r.datoff ≠ a) :
    Maps (I.putBlk a d'') L k d ↔ Maps I L k d := by
  constructor
  · refine congr fun ho hr => ⟨_, hr, rfl, ?_⟩
    rw [Image.blkAt_putBlk ha hl, if_neg (hno ho hr)]
  · refine congr fun ho hr => ⟨_, hr, rfl, ?_⟩
    rw [Image.blkAt_putBlk ha hl, if_neg (hno ho hr)]

theorem addBlk_iff (hs : I.Stock X) : Maps (I.addBlk d') L k d ↔ Maps I L k d := by
  have hne : ∀ {o r}, I.RecAt o r → r.datoff ≠ I.datBytes.length := by
    intro o r hr
    obtain ⟨d, hd, -⟩ := hs.blk hr
    exact (Image.blkAt_lt hd).ne
  constructor
  · refine congr fun {j o q} _ hq => ⟨q, hq, rfl, ?_⟩
    rw [Image.blkAt_addBlk, if_neg (hne (r := q) hq)]
  · refine congr fun {j o q} _ hq => ⟨q, hq, rfl, ?_⟩
    rw [Image.blkAt_addBlk, if_neg (hne hq)]

theorem addRec_iff (hf : Filed I L Y) : Maps (I.addRec r) L k d ↔ Maps I L k d := by
  have hne : ∀ {j o}, o ∈ L.chain j → o ≠ I.idxBytes.length := fun ho => hf.ne_end (Or.inl ⟨_, ho⟩)
  constructor
  · refine congr fun {j o q} ho hq => ⟨q, ?_, rfl, rfl⟩
    rwa [Image.recAt_addRec, if_neg (hne ho)] at hq
  · refine congr fun {j o q} ho hq => ⟨q, ?_, rfl, rfl⟩
    rwa [Image.recAt_addRec, if_neg (hne ho)]

theorem chain (hf : Filed I L Y) (h : Maps I L k d) :
    ∃ o r, o ∈ L.chain (dbHash k) ∧ I.RecAt o r ∧ r.key = k ∧ I.blkAt r.datoff = some d := by
  obtain ⟨j, o, r, ho, hr, rfl, hd⟩ := h
  obtain rfl := hf.hash ho hr
  exact ⟨o, r, ho, hr, rfl, hd⟩

theorem take_chain_iff (hf : Filed I L Y) (hl : L.chain j = l ++ o :: m) (ho : I.RecAt o r) :
    Maps I (L.setChain j (l ++ m)) k d ↔ Maps I L k d ∧ k ≠ r.key := by
  have hoj : o ∈ L.chain j := by rw [hl]; simp
  have hnd := hf.chain_nodup j
  rw [hl, List.perm_middle.nodup_iff, List.nodup_cons] at hnd
  constructor
  · rintro ⟨i, o', q, ho', hq, rfl, hd⟩
    by_cases hi : i = j
    · subst hi
      rw [Lists.chain_setChain] at ho'
      have hi' : o' ∈ L.chain i := by
        rw [hl]
        simp only [List.mem_append, List.mem_cons] at ho' ⊢
        tauto
      refine ⟨⟨i, o', q, hi', hq, rfl, hd⟩, fun hk => ?_⟩
      obtain rfl := hf.key_inj hi' hoj hq ho hk
      exact hnd.1 ho'
    · rw [Lists.chain_setChain_ne _ hi] at ho'
      refine ⟨⟨i, o', q, ho', hq, rfl, hd⟩, fun hk => hi ?_⟩
      rw [← hf.hash ho' hq, ← hf.hash hoj ho, hk]
  · rintro ⟨⟨i, o', q, ho', hq, rfl, hd⟩, hk⟩
    refine ⟨i, o', q, ?_, hq, rfl, hd⟩
    have hne : o' ≠ o := by
      rintro rfl
      exact hk (congrArg Rec.key (hq.unique ho))
    by_cases hi : i = j
    · subst hi
      rw [hl] at ho'
      rw [Lists.chain_setChain]
      simp only [List.mem_append, List.mem_cons] at ho' ⊢
      tauto
    · rwa [Lists.chain_setChain_ne _ hi]

theorem give_chain_iff (ho : I.RecAt o r) (hd : I.blkAt r.datoff = some d') :
    Maps I (L.setChain j (o :: L.chain j)) k d ↔ Maps I L k d ∨ k = r.key ∧ d = d' := by
  constructor
  · rintro ⟨i, o', q, ho', hq, rfl, hq'⟩
    by_cases hi : i = j
    · subst hi
      rw [Lists.chain_setChain] at ho'
      rcases List.mem_cons.mp ho' with rfl | ho'
      · obtain rfl := hq.unique ho
        exact Or.inr ⟨rfl, by simpa using hq'.symm.trans hd⟩
      · exact Or.inl ⟨i, o', q, ho', hq, rfl, hq'⟩
    · rw [Lists.chain_setChain_ne _ hi] at ho'
      exact Or.inl ⟨i, o', q, ho', hq, rfl, hq'⟩
  · rintro (⟨i, o', q, ho', hq, rfl, hq'⟩ | ⟨rfl, rfl⟩)
    · refine ⟨i, o', q, ?_, hq, rfl, hq'⟩
      by_cases hi : i = j
      · subst hi
        rw [Lists.chain_setChain]
        exact List.mem_cons_of_mem _ ho'
      · rwa [Lists.chain_setChain_ne _ hi]
    · exact ⟨j, o, r, by simp, ho, rfl, hd⟩

theorem putBlk_rec_iff (hs : I.Stock X) (hf : Filed I L Y) (ho : o ∈ L.chain j)
    (hr : I.RecAt o r) (hd : I.blkAt r.datoff = some d') {d'' : CStr}
    (hl : d''.1.length = d'.1.length) :
    Maps (I.putBlk r.datoff d'') L k d ↔ if k = r.key then d = d'' else Maps I L k d := by
  have hb : ∀ {o' q}, I.RecAt o' q → o' ≠ o →
      (I.putBlk r.datoff d'').blkAt q.datoff = I.blkAt q.datoff := by
    intro o' q hq hne
    rw [Image.blkAt_putBlk hd hl, if_neg fun he => hne (hs.inj hq hr he)]
  have hbo : (I.putBlk r.datoff d'').blkAt r.datoff = some d'' := by
    rw [Image.blkAt_putBlk hd hl, if_pos rfl]
  split_ifs with hk
  · subst hk
    constructor
    · rintro ⟨i, o', q, ho', hq, hk, hq'⟩
      obtain rfl : i = j := by rw [← hf.hash ho' hq, ← hf.hash ho hr, hk]
      obtain rfl := hf.key_inj ho' ho hq hr hk
      obtain rfl := Image.RecAt.unique (I := I) hq hr
      simpa using hq'.symm.trans hbo
    · rintro rfl
      exact ⟨j, o, r, ho, hr, rfl, hbo⟩
  · constructor
    · rintro ⟨i, o', q, ho', hq, rfl, hq'⟩
      refine ⟨i, o', q, ho', hq, rfl, (hb hq ?_).symm.trans hq'⟩
      rintro rfl
      exact hk (congrArg Rec.key (Image.RecAt.unique (I := I) hq hr))
    · rintro ⟨i, o', q, ho', hq, rfl, hq'⟩
      refine ⟨i, o', q, ho', hq, rfl, (hb hq ?_).trans hq'⟩
      rintro rfl
      exact hk (congrArg Rec.key (Image.RecAt.unique (I := I) hq hr))

end Maps

namespace Inv

theorem hasPtr (h : Inv I L X Y M) (ho : o ∈ head i :: L.nodes i) : ∃ v, I.HasPtr o v :=
  h.filed.hasPtr h.shape ho

theorem node_le (h : Inv I L X Y M) (ho : o ∈ L.nodes i) : o ≤ ptrMax := by
  obtain ⟨l, m, hl⟩ := List.append_of_mem ho
  have hn := h.linked i
  rw [hl] at hn
  rw [← hn.next_getLastD]
  exact I.next_le _

theorem node_pos (h : Inv I L X Y M) (ho : o ∈ L.nodes i) : o ≠ 0 := (h.linked i).ne_null ho

theorem length_le (h : Inv I L X Y M) (i : ListId) : (L.nodes i).length ≤ ptrMax := by
  have hsub : L.nodes i ⊆ (List.range (ptrMax + 1)).tail := by
    intro o ho
    have hle := h.node_le ho
    have hpos := h.node_pos ho
    rw [List.range_succ_eq_map, List.tail_cons, List.mem_map]
    exact ⟨o - 1, List.mem_range.mpr (by omega), by omega⟩
  have hle := (List.subperm_of_subset (h.linked i).nodup hsub).length_le
  rwa [List.length_tail, List.length_range] at hle

/-- The chain of a key can be walked to its end. -/
theorem walk (h : Inv I L X Y M) {fuel : ℕ} (hf : ptrMax < fuel) (k : CStr) :
    Linked 0 I.next (slot (dbHash k)) (L.chain (dbHash k)) ∧
      (L.chain (dbHash k)).length < fuel :=
  ⟨h.linked (some (dbHash k)), (h.length_le (some (dbHash k))).trans_lt hf⟩

theorem walk_to (h : Inv I L X Y M) {fuel : ℕ} (hf : ptrMax < fuel)
    (hc : L.chain (dbHash k) = l ++ o :: m) :
    Linked 0 I.next (slot (dbHash k)) (l ++ o :: m) ∧ l.length < fuel := by
  obtain ⟨hlink, hlen⟩ := h.walk hf k
  rw [hc, List.length_append] at hlen
  exact ⟨hc ▸ hlink, by omega⟩

theorem absent (h : Inv I L X Y M)
    (hno : ∀ o ∈ L.chain (dbHash k), ∀ r, I.RecAt o r → r.key ≠ k) : M k = none := by
  rw [Option.eq_none_iff_forall_ne_some]
  intro d hd
  obtain ⟨o, r, ho, hr, hk, -⟩ := ((h.maps k d).mp hd).chain h.filed
  exact hno o ho r hr hk

theorem present (h : Inv I L X Y M) (ho : o ∈ L.chain j) (hr : I.RecAt o r)
    (hd : I.blkAt r.datoff = some d) : M r.key = some d :=
  (h.maps _ _).mpr ⟨j, o, r, ho, hr, rfl, hd⟩

theorem putBlk_out (h : Inv I L X Y M) (hr : I.RecAt o r) (hno : ∀ j, o ∉ L.chain j)
    (hd : I.blkAt r.datoff = some d) (hl : d'.1.length = d.1.length) :
    Inv (I.putBlk r.datoff d') L X Y M where
  shape := h.shape
  stock := h.stock.putBlk hd hl
  filed := h.filed.putBlk _ d'
  linked := h.linked
  maps k₁ d₁ := by
    rw [h.maps, Maps.putBlk_iff hd hl]
    rintro i o' q ho' hq he
    exact hno i (h.stock.inj hr hq he.symm ▸ ho')

theorem putBlk_rec (h : Inv I L X Y M) (ho : o ∈ L.chain j) (hr : I.RecAt o r)
    (hd : I.blkAt r.datoff = some d) (hl : d'.1.length = d.1.length) :
    Inv (I.putBlk r.datoff d') L X Y (Function.update M r.key (some d')) where
  shape := h.shape
  stock := h.stock.putBlk hd hl
  filed := h.filed.putBlk _ d'
  linked := h.linked
  maps k₁ d₁ := by
    rw [Maps.putBlk_rec_iff h.stock h.filed ho hr hd hl, Function.update_apply]
    split_ifs with hk
    · rw [Option.some_inj, eq_comm]
    · exact h.maps k₁ d₁

theorem addBlk (h : Inv I L X Y M) (d : CStr) :
    Inv (I.addBlk d) L (insert I.datBytes.length X) Y M where
  shape := h.shape
  stock := h.stock.addBlk d
  filed := h.filed.addBlk d
  linked := h.linked
  maps k₁ d₁ := by rw [h.maps, Maps.addBlk_iff h.stock]

theorem addRec (h : Inv I L X Y M) (ha : r.datoff ∈ X) (hd : I.blkAt r.datoff = some d)
    (hl : r.datlen = d.1.length + 1) :
    Inv (I.addRec r) L (X \ {r.datoff}) (insert I.idxBytes.length Y) M where
  shape := h.shape.addRec r
  stock := h.stock.addRec ha hd hl
  filed := h.filed.addRec r
  linked i := by
    refine (h.linked i).congr fun x hx => ?_
    obtain ⟨v, c, hc, -⟩ := h.hasPtr hx
    rw [Image.next_addRec, if_neg (Image.cellAt_ne_end hc)]
  maps k₁ d₁ := by rw [h.maps, Maps.addRec_iff h.filed]

theorem rewrite (h : Inv I L X Y M) (hY : o ∈ Y) (ho : I.RecAt o r) (v : Ptr)
    (hl : k.1.length = r.key.1.length) :
    Inv (I.putCell o (.record (r.withKey v k hl))) L X Y M where
  shape := h.shape.putCell ho rfl
  stock := h.stock.putCell ho (r.length_text_withKey v hl) rfl rfl
  filed := h.filed.putCell ho (r.length_text_withKey v hl) hY
  linked i := by
    refine (h.linked i).congr fun x hx => ?_
    rw [Image.next_putCell ho (r.length_text_withKey v hl), if_neg]
    rintro rfl
    exact h.filed.out h.shape hY i hx
  maps k₁ d₁ := by
    rw [h.maps, Maps.putCell_iff ho (r.length_text_withKey v hl)]
    exact fun j hj => h.filed.chain_out hj hY

theorem linked_take (h : Inv I L X Y M) (hl : L.nodes i = l ++ o :: m) (ho : I.RecAt o r)
    (k : ListId) :
    Linked 0 (I.setPtr (l.getLastD (head i)) r.ptr).next (head k) ((L.set i (l ++ m)).nodes k) := by
  have hp := Filed.prev_mem hl
  obtain ⟨v, hv⟩ := h.hasPtr hp
  have hn := h.linked i
  rw [hl] at hn
  rw [Lists.nodes_set]
  split_ifs with hk
  · subst hk
    refine hn.unlink (hl ▸ h.filed.head_notMem h.shape k) ?_ fun x hx => ?_
    · rw [Image.next_setPtr hv, if_pos rfl, ho.next]
    · rw [Image.next_setPtr hv, if_neg hx]
  · refine (h.linked k).congr fun x hx => ?_
    rw [Image.next_setPtr hv, if_neg]
    rintro rfl
    exact hk (h.filed.separate h.shape hx hp)

theorem take_free (h : Inv I L X Y M) (hl : L.free = l ++ o :: m) (ho : I.RecAt o r) :
    Inv (I.setPtr (l.getLastD freeOff) r.ptr) (L.setFree (l ++ m)) X (insert o Y) M := by
  obtain ⟨v, hv⟩ := h.hasPtr (Filed.prev_mem (i := none) hl)
  exact {
    shape := h.shape.setPtr hv _
    stock := h.stock.setPtr hv _
    filed := (h.filed.take_free hl).setPtr hv _
    linked := h.linked_take (i := none) hl ho
    maps := fun k₁ d₁ => by
      rw [h.maps]
      exact (Maps.setPtr_iff hv).symm }

theorem take_chain (h : Inv I L X Y M) (hl : L.chain j = l ++ o :: m) (ho : I.RecAt o r) :
    Inv (I.setPtr (l.getLastD (slot j)) r.ptr) (L.setChain j (l ++ m)) X (insert o Y)
      (Function.update M r.key none) := by
  obtain ⟨v, hv⟩ := h.hasPtr (Filed.prev_mem (i := some j) hl)
  exact {
    shape := h.shape.setPtr hv _
    stock := h.stock.setPtr hv _
    filed := (h.filed.take_chain hl).setPtr hv _
    linked := h.linked_take (i := some j) hl ho
    maps := fun k₁ d₁ => by
      rw [Function.update_apply]
      refine Iff.trans ?_ (Maps.setPtr_iff hv).symm
      rw [Maps.take_chain_iff h.filed hl ho, ← h.maps]
      split_ifs with hk
      · simp [hk]
      · simp [hk] }

theorem linked_push (h : Inv I L X Y M) (ho : I.RecAt o r) (hp : (r.ptr : ℕ) = I.next (head i))
    (hw : (w : ℕ) = o) (k : ListId) :
    Linked 0 (I.setPtr (head i) w).next (head k) ((L.set i (o :: L.nodes i)).nodes k) := by
  obtain ⟨v, hv⟩ := h.hasPtr (List.mem_cons_self (a := head i) (l := L.nodes i))
  have hne : o ≠ head i := (Filed.head_ne h.shape i ho).symm
  rw [Lists.nodes_set]
  split_ifs with hk
  · subst hk
    refine (h.linked k).push ?_ ?_ ?_ fun x hx => ?_
    · exact (h.shape.free_ne ho).symm
    · rw [Image.next_setPtr hv, if_pos rfl, hw]
    · rw [Image.next_setPtr hv, if_neg hne, ho.next, hp]
    · rw [Image.next_setPtr hv, if_neg]
      rintro rfl
      exact h.filed.head_notMem h.shape k hx
  · refine (h.linked k).congr fun x hx => ?_
    rw [Image.next_setPtr hv, if_neg]
    rintro rfl
    exact hk (h.filed.separate h.shape hx List.mem_cons_self)

theorem push_free (h : Inv I L X Y M) (hY : o ∈ Y) (ho : I.RecAt o r) (hb : IsBlank r.key)
    (hp : (r.ptr : ℕ) = I.next freeOff) (hw : (w : ℕ) = o) :
    Inv (I.setPtr freeOff w) (L.setFree (o :: L.free)) X (Y \ {o}) M := by
  obtain ⟨v, hv⟩ := h.shape.free_hasPtr
  exact {
    shape := h.shape.setPtr hv _
    stock := h.stock.setPtr hv _
    filed := (h.filed.give_free hY ho hb).setPtr hv _
    linked := h.linked_push (i := none) ho hp hw
    maps := fun k₁ d₁ => by
      rw [h.maps]
      exact (Maps.setPtr_iff hv).symm }

theorem push_chain (h : Inv I L X Y M) (hY : o ∈ Y) (ho : I.RecAt o r) (hj : dbHash r.key = j)
    (hM : M r.key = none) (hd : I.blkAt r.datoff = some d) (hp : (r.ptr : ℕ) = I.next (slot j))
    (hw : (w : ℕ) = o) :
    Inv (I.setPtr (slot j) w) (L.setChain j (o :: L.chain j)) X (Y \ {o})
      (Function.update M r.key (some d)) := by
  obtain ⟨v, hv⟩ := h.shape.slot_hasPtr j
  have hne : ∀ x ∈ L.chain j, ∀ q, I.RecAt x q → q.key ≠ r.key := by
    intro x hx q hq hk
    obtain ⟨d', hd', -⟩ := h.stock.blk hq
    have := (h.maps q.key d').mpr ⟨j, x, q, hx, hq, rfl, hd'⟩
    rw [hk, hM] at this
    simp at this
  exact {
    shape := h.shape.setPtr hv _
    stock := h.stock.setPtr hv _
    filed := (h.filed.give_chain hY ho hj hne).setPtr hv _
    linked := h.linked_push (i := some j) ho hp hw
    maps := fun k₁ d₁ => by
      rw [Function.update_apply]
      refine Iff.trans ?_ (Maps.setPtr_iff hv).symm
      rw [Maps.give_chain_iff ho hd, ← h.maps]
      split_ifs with hk
      · simp [hk, hM, eq_comm]
      · simp [hk] }

end Inv

end Somenote.Db
