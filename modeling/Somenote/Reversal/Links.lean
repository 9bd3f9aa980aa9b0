import Mathlib.Data.List.Nodup
import Somenote.Lists.Linked
import Somenote.Program.Fuel
import Somenote.Reversal.Source

/-! # What the reversals do to the links

The first one turns the nodes behind the header around. The second one turns all the nodes around,
so that the header becomes the last node.
-/

namespace Somenote.Reversal

variable {P : Type} {m m' : Heap P} {l a b p : P} {q : Option P} {nodes xs ys : List P}

/-- The pointers to the next node. -/
def Heap.next (m : Heap P) (p : Option P) : Option P := p.bind fun a => (m a).next

/-- The header `l` and the nodes behind it. -/
def HeaderList (m : Heap P) (l : P) (nodes : List P) : Prop :=
  Linked none m.next (some l) (nodes.map some)

/-- The values of the nodes. -/
def Heap.vals (m : Heap P) (nodes : List P) : List ℤ := nodes.map fun a => (m a).val

/-- No value is changed. -/
def SameVals (m m' : Heap P) : Prop := ∀ a, (m' a).val = (m a).val

theorem SameVals.vals_eq (h : SameVals m m') (nodes : List P) : m'.vals nodes = m.vals nodes :=
  List.map_congr_left fun a _ => h a

namespace Heap

theorem getNext_some (m : Heap P) (a : P) : m.getNext (some a) = some (m.next (some a)) := rfl

variable [DecidableEq P]

theorem setNext_some (m : Heap P) (a : P) (q : Option P) :
    m.setNext (some a) q = some (m.link a q) := rfl

theorem next_link (m : Heap P) (a : P) (q : Option P) :
    (m.link a q).next = Function.update m.next (some a) q := by
  funext p
  cases p with
  | none => simp [next]
  | some b =>
    by_cases hb : b = a
    · subst hb
      simp [next, link]
    · simp [next, link, hb]

@[simp] theorem next_link_self (m : Heap P) (a : P) (q : Option P) :
    (m.link a q).next (some a) = q := by
  rw [next_link, Function.update_self]

@[simp] theorem next_link_ne (m : Heap P) (q : Option P) (h : b ≠ a) :
    (m.link a q).next (some b) = m.next (some b) := by
  rw [next_link, Function.update_of_ne (by simpa using h)]

theorem sameVals_link (m : Heap P) (a : P) (q : Option P) : SameVals m (m.link a q) := by
  intro b
  rw [link]
  split
  · next h => rw [h]
  · rfl

@[simp] theorem fill_self (m : Heap P) (a : P) (val : ℤ) : (m.fill a val a).val = val := by
  simp [fill]

@[simp] theorem fill_ne (m : Heap P) (val : ℤ) (h : b ≠ a) : m.fill a val b = m b := by
  simp [fill, h]

@[simp] theorem next_fill (m : Heap P) (a : P) (val : ℤ) : (m.fill a val).next = m.next := by
  funext p
  cases p with
  | none => rfl
  | some b =>
    by_cases hb : b = a
    · subst hb
      simp [next, fill]
    · simp [next, fill, hb]

end Heap

namespace HeaderList

theorem nodup (h : HeaderList m l nodes) : (l :: nodes).Nodup := by
  refine List.nodup_cons.mpr ⟨fun hl => ?_, (Linked.nodup h).of_map⟩
  exact Linked.anchor_not_mem h (List.mem_map_of_mem hl)

theorem behind (h : HeaderList m l (xs ++ a :: ys)) : HeaderList m a ys := by
  rw [HeaderList, List.map_append, List.map_cons] at h
  exact Linked.suffix h

theorem next_eq (h : HeaderList m l nodes) : m.next (some l) = nodes.head? := by
  have hnext := Linked.next_headD h
  cases nodes <;> exact hnext

end HeaderList

section Print

theorem printLoop_yields (h : Linked none m.next q (nodes.map some)) :
    Yields (fun n => printLoop n (m.next q) m) (m.vals nodes) := by
  induction nodes generalizing q with
  | nil =>
    rw [List.map_nil, Linked.nil_iff] at h
    rw [h]
    exact Yields.succ (.of_eq fun _ => rfl)
  | cons a nodes ih =>
    obtain ⟨hnext, -, h⟩ := h
    rw [hnext]
    exact Yields.succ (((ih h).bind (.of_eq fun _ => rfl)))

theorem printed_yields (h : HeaderList m l nodes) :
    Yields (fun n => printed n (some l) m) (m.vals nodes) :=
  printLoop_yields h

end Print

variable [DecidableEq P]

section First

/-- A turn of the loop of `reavsrsel` moves the node behind `p` behind the header. -/
theorem HeaderList.turn (h : HeaderList m l (xs ++ p :: a :: ys)) {m₁ m₂ : Heap P}
    (hm₁ : m₁ = m.link l (some a))
    (hm₂ : m₂ = (m₁.link p (m₁.next (some a))).link a (m.next (some l))) :
    HeaderList m₂ l (a :: xs ++ p :: ys) := by
  have hnd : (l :: a :: (xs ++ p :: ys)).Nodup := by
    have hperm : (xs ++ [p] ++ a :: ys).Perm (a :: (xs ++ [p] ++ ys)) := List.perm_middle
    have hl := h.nodup
    simp only [List.append_assoc, List.singleton_append] at hperm
    rwa [← (hperm.cons l).nodup_iff]
  obtain ⟨hl, hnd⟩ := List.nodup_cons.mp hnd
  obtain ⟨ha, -⟩ := List.nodup_cons.mp hnd
  obtain ⟨hla, hl⟩ := not_or.mp (mt List.mem_cons.mpr hl)
  have hpl : l ≠ p := fun he => hl (by simp [he])
  have hpa : a ≠ p := fun he => ha (by simp [he])
  -- `a` is taken out behind `p`, and put in behind `l`
  have hlist : Linked none m.next (some l) ((xs ++ [p]).map some ++ some a :: ys.map some) := by
    simpa [HeaderList] using h
  have hunlink : Linked none (m.link p (m.next (some a))).next (some l)
      ((xs ++ [p]).map some ++ ys.map some) := by
    refine hlist.unlink (by simpa [hla] using hl) (by simp) fun x hx => ?_
    rw [Heap.next_link, Function.update_of_ne (by simpa using hx)]
  have hfirst : m₂.next (some l) = some a := by simp [hm₂, hm₁, hla, hpl]
  have hsecond : m₂.next (some a) = (m.link p (m.next (some a))).next (some l) := by
    simp [hm₂, hpl]
  have hpush := hunlink.push (Option.some_ne_none a) hfirst hsecond ?_
  · simpa [HeaderList] using hpush
  · intro x hx
    obtain ⟨b, hb, rfl⟩ : ∃ b ∈ xs ++ p :: ys, some b = x := by
      rw [← List.map_append, List.mem_map] at hx
      simpa using hx
    have hba : b ≠ a := fun he => ha (he ▸ hb)
    have hbl : b ≠ l := fun he => hl (he ▸ hb)
    by_cases hbp : b = p
    · subst hbp
      simp [hm₂, hm₁, hba, Ne.symm hla]
    · simp [hm₂, hm₁, hba, hbp, hbl]

theorem reavsrselLoop_yields (h : HeaderList m l (xs ++ p :: ys)) :
    ∃ m', Yields (fun n => reavsrselLoop (some l) n (m.next (some l)) (some p) m) m' ∧
      HeaderList m' l (ys.reverse ++ (xs ++ [p])) ∧ SameVals m m' := by
  induction ys generalizing m xs with
  | nil =>
    have hp : m.next (some p) = none := h.behind.next_eq
    refine ⟨m, Yields.succ (.of_eq fun n => ?_), h, fun _ => rfl⟩
    simp [reavsrselLoop, Heap.getNext_some, hp]
  | cons a ys ih =>
    have hp : m.next (some p) = some a := h.behind.next_eq
    obtain ⟨m₁, hm₁⟩ : ∃ m₁, m₁ = m.link l (some a) := ⟨_, rfl⟩
    obtain ⟨m₂, hm₂⟩ : ∃ m₂, m₂ = (m₁.link p (m₁.next (some a))).link a (m.next (some l)) :=
      ⟨_, rfl⟩
    have hturn := h.turn hm₁ hm₂
    have hfirst : m₂.next (some l) = some a := hturn.next_eq
    obtain ⟨m', hyields, hlist, hvals⟩ := ih hturn
    refine ⟨m', Yields.succ ?_, by simpa using hlist, fun b => ?_⟩
    · rw [hfirst] at hyields
      simpa [reavsrselLoop, Heap.getNext_some, Heap.setNext_some, hp, ← hm₁, ← hm₂] using hyields
    · rw [hvals, hm₂, hm₁, Heap.sameVals_link, Heap.sameVals_link, Heap.sameVals_link]

theorem reavsrsel_of_loop {m' : Heap P} (h : m.next (some l) = some p)
    (hyields : Yields (fun n => reavsrselLoop (some l) n (m.next (some l)) (some p) m) m') :
    Yields (fun n => reavsrsel n (some l) m) (some l, m') := by
  have hbind := hyields.bind (g := fun _ m => some (some l, m)) (.of_eq fun _ => rfl)
  simpa [reavsrsel, Heap.getNext_some, h] using hbind

/-- The nodes of a list behind a header are turned around, the last one leading to null. -/
theorem reavsrsel_reverses (h : HeaderList m l nodes) (hne : nodes ≠ []) :
    ∃ m', Yields (fun n => reavsrsel n (some l) m) (some l, m') ∧
      HeaderList m' l nodes.reverse ∧ SameVals m m' := by
  obtain ⟨p, ys, rfl⟩ := List.exists_cons_of_ne_nil hne
  obtain ⟨m', hyields, hlist, hvals⟩ :=
    reavsrselLoop_yields (show HeaderList m l ([] ++ p :: ys) from h)
  exact ⟨m', reavsrsel_of_loop h.next_eq hyields, by simpa using hlist, hvals⟩

/-- The header 0, with the nodes 1, 2 and 3 behind it. -/
def threeNodes : Heap ℕ := fun i => ⟨i, if i < 3 then some (i + 1) else none⟩

theorem reavsrsel_reverses_three :
    ∃ m', Yields (fun n => reavsrsel n (some 0) threeNodes) (some 0, m') ∧
      HeaderList m' 0 [3, 2, 1] ∧ SameVals threeNodes m' :=
  reavsrsel_reverses (show HeaderList threeNodes 0 [1, 2, 3] from
    ⟨rfl, by decide, rfl, by decide, rfl, by decide, rfl⟩) (by decide)

end First

section Second

theorem HeaderList.link (h : HeaderList m l nodes) (ha : a ∉ l :: nodes) :
    HeaderList (m.link a q) l nodes := by
  refine Linked.congr h fun x hx => ?_
  obtain ⟨b, hb, rfl⟩ := List.mem_map.mp (show x ∈ (l :: nodes).map some from hx)
  exact Heap.next_link_ne _ _ fun he => ha (he ▸ hb)

/-- The links are turned around in front of `a`. The one of `a` still leads to the nodes `ys`; set
to `temp`, it leads to the nodes `xs`. -/
structure Halfway (m : Heap P) (temp : Option P) (xs : List P) (a : P) (ys : List P) : Prop where
  front : HeaderList (m.link a temp) a xs
  rest : HeaderList m a ys
  nodup : (xs ++ a :: ys).Nodup

theorem Halfway.turn {temp : Option P} (h : Halfway m temp xs a (b :: ys)) :
    Halfway (m.link a temp) (some a) (a :: xs) b ys := by
  have hperm : (xs ++ a :: b :: ys).Perm (a :: xs ++ b :: ys) := List.perm_middle
  have hnd := hperm.nodup_iff.mp h.nodup
  have hb : b ∉ a :: xs := fun hb => (List.nodup_append.mp hnd).2.2 b hb b List.mem_cons_self rfl
  have ha : a ∉ b :: ys := by
    rw [List.cons_append, List.nodup_cons] at hnd
    exact fun ha => hnd.1 (List.mem_append_right _ ha)
  have hstart : HeaderList m a ([] ++ b :: ys) := h.rest
  have hrest : HeaderList m b ys := hstart.behind
  exact ⟨⟨Heap.next_link_self _ _ _, Option.some_ne_none a, h.front.link hb⟩, hrest.link ha, hnd⟩

theorem reavsrsel2Loop_yields {temp : Option P} (h : Halfway m temp xs a ys) :
    ∃ temp' a' xs' m', Yields (fun n => reavsrsel2Loop n temp (some a) (m.next (some a)) m)
      (temp', some a', m') ∧
      HeaderList (m'.link a' temp') a' xs' ∧ a' :: xs' = ys.reverse ++ a :: xs ∧ SameVals m m' := by
  induction ys generalizing m temp xs a with
  | nil =>
    have ha : m.next (some a) = none := h.rest.next_eq
    refine ⟨temp, a, xs, m, Yields.succ (.of_eq fun n => ?_), h.front, rfl, fun _ => rfl⟩
    simp [reavsrsel2Loop, ha]
  | cons b ys ih =>
    have ha : m.next (some a) = some b := h.rest.next_eq
    obtain ⟨temp', a', xs', m', hyields, hlist, heq, hvals⟩ := ih h.turn
    refine ⟨temp', a', xs', m', Yields.succ ?_, hlist, by simpa using heq, fun c => ?_⟩
    · simpa [reavsrsel2Loop, Heap.getNext_some, Heap.setNext_some, ha] using hyields
    · rw [hvals, Heap.sameVals_link]

/-- `reavsrsel_2` returns the last of all the nodes, the header among them, with the others behind
it, turned around. -/
theorem reavsrsel2_yields (h : HeaderList m l nodes) :
    ∃ a' xs' m', Yields (fun n => reavsrsel2 n (some l) m) (some a', m') ∧
      HeaderList m' a' xs' ∧ a' :: xs' = nodes.reverse ++ [l] ∧ SameVals m m' := by
  have hstart : Halfway m none [] l nodes := ⟨Heap.next_link_self _ _ _, h, h.nodup⟩
  obtain ⟨temp', a', xs', m', hyields, hlist, heq, hvals⟩ := reavsrsel2Loop_yields hstart
  refine ⟨a', xs', m'.link a' temp', ?_, hlist, heq, fun c => ?_⟩
  · have hbind := hyields.bind (.of_eq fun _ => rfl)
      (g := fun _ s => s.2.2.setNext s.2.1 s.1 >>= fun m => some (s.2.1, m))
    simpa [reavsrsel2, Heap.getNext_some, Heap.setNext_some] using hbind
  · rw [Heap.sameVals_link, hvals]

end Second

end Somenote.Reversal
