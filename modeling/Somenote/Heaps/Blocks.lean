import Mathlib.Algebra.GroupWithZero.Nat
import Mathlib.Algebra.Order.BigOperators.Group.List
import Mathlib.Algebra.Order.Group.Nat
import Mathlib.Data.List.Chain

/-! # Blocks of a heap

A heap is a row of blocks, each behind the one before it. Some of them are taken. A free block is
carved into a taken one and the rest of it, and a block that becomes free absorbs its free
neighbours.
-/

namespace Somenote.Heaps

structure Block where
  size : ℕ
  alloc : Bool
  deriving DecidableEq, Repr

/-- The size of a row of blocks. -/
def total (bs : List Block) : ℕ := (bs.map Block.size).sum

/-- The blocks of a row that starts at `lo`, each with its address. -/
def placed : ℕ → List Block → List (ℕ × Block)
  | _, [] => []
  | lo, b :: bs => (lo, b) :: placed (lo + b.size) bs

/-- No two free blocks are neighbours. -/
def Apart (bs : List Block) : Prop := bs.IsChain fun b c => b.alloc = true ∨ c.alloc = true

/-- The taken blocks, each with its address. -/
def taken (lo : ℕ) (bs : List Block) : List (ℕ × Block) := (placed lo bs).filter (·.2.alloc)

/-- A free block of size `c`, from which `a` is taken if the rest is not smaller than `least`. -/
def carve (least a c : ℕ) : List Block :=
  if least ≤ c - a then [⟨a, true⟩, ⟨c - a, false⟩] else [⟨c, true⟩]

/-- The blocks in front of a free block of size `c`, which takes in the last one if that is free. -/
def absorbLeft (pre : List Block) (c : ℕ) : List Block × ℕ :=
  match pre.getLast? with
  | some ⟨s, false⟩ => (pre.dropLast, s + c)
  | _ => (pre, c)

/-- The blocks behind a free block of size `c`, which takes in the first one if that is free. -/
def absorbRight (c : ℕ) : List Block → ℕ × List Block
  | ⟨s, false⟩ :: post => (c + s, post)
  | post => (c, post)

/-- A block of size `c` between two rows becomes free. -/
def absorb (pre : List Block) (c : ℕ) (post : List Block) : List Block :=
  (absorbLeft pre (absorbRight c post).1).1 ++
    ⟨(absorbLeft pre (absorbRight c post).1).2, false⟩ :: (absorbRight c post).2

variable {bs pre post : List Block} {b b' c : Block} {lo p q a s least : ℕ}

@[simp] theorem total_nil : total [] = 0 := rfl

@[simp] theorem total_cons : total (b :: bs) = b.size + total bs := rfl

@[simp] theorem total_append : total (pre ++ post) = total pre + total post := by
  simp [total]

@[simp] theorem placed_nil : placed lo [] = [] := rfl

@[simp] theorem placed_cons : placed lo (b :: bs) = (lo, b) :: placed (lo + b.size) bs := rfl

@[simp] theorem placed_append :
    placed lo (pre ++ post) = placed lo pre ++ placed (lo + total pre) post := by
  induction pre generalizing lo with
  | nil => rfl
  | cons b pre ih => simp [ih, Nat.add_assoc]

theorem mem_placed :
    (p, b) ∈ placed lo bs ↔ ∃ pre post, bs = pre ++ b :: post ∧ p = lo + total pre := by
  constructor
  · intro h
    induction bs generalizing lo with
    | nil => cases h
    | cons c bs ih =>
      rcases List.mem_cons.mp h with heq | h
      · obtain ⟨rfl, rfl⟩ := Prod.mk.inj heq
        exact ⟨[], bs, rfl, rfl⟩
      · obtain ⟨pre, post, rfl, rfl⟩ := ih h
        exact ⟨c :: pre, post, rfl, by rw [total_cons, Nat.add_assoc]⟩
  · rintro ⟨pre, post, rfl, rfl⟩
    simp

theorem le_of_mem_placed (h : (p, b) ∈ placed lo bs) : lo ≤ p ∧ p + b.size ≤ lo + total bs := by
  obtain ⟨pre, post, rfl, rfl⟩ := mem_placed.mp h
  rw [total_append, total_cons]
  omega

theorem mem_of_mem_placed (h : (p, b) ∈ placed lo bs) : b ∈ bs := by
  obtain ⟨pre, post, rfl, -⟩ := mem_placed.mp h
  simp

theorem placed_disjoint (h : (p, b) ∈ placed lo bs) (h' : (q, b') ∈ placed lo bs) :
    (p = q ∧ b = b') ∨ p + b.size ≤ q ∨ q + b'.size ≤ p := by
  induction bs generalizing lo with
  | nil => cases h
  | cons d bs ih =>
    rcases List.mem_cons.mp h with heq | hin <;> rcases List.mem_cons.mp h' with heq' | hin'
    · rw [← heq'] at heq
      exact Or.inl (Prod.mk.inj heq)
    · obtain ⟨rfl, rfl⟩ := Prod.mk.inj heq
      exact Or.inr (Or.inl (le_of_mem_placed hin').1)
    · obtain ⟨rfl, rfl⟩ := Prod.mk.inj heq'
      exact Or.inr (Or.inr (le_of_mem_placed hin).1)
    · exact ih hin hin'

theorem placed_unique (hpos : ∀ b ∈ bs, 0 < b.size) (h : (p, b) ∈ placed lo bs)
    (h' : (p, b') ∈ placed lo bs) : b = b' := by
  have hb := hpos b (mem_of_mem_placed h)
  have hb' := hpos b' (mem_of_mem_placed h')
  rcases placed_disjoint h h' with ⟨-, rfl⟩ | hle | hle
  · rfl
  · omega
  · omega

theorem placed_nodup (hpos : ∀ b ∈ bs, 0 < b.size) : ((placed lo bs).map Prod.fst).Nodup := by
  induction bs generalizing lo with
  | nil => exact List.nodup_nil
  | cons b bs ih =>
    have hcons := List.forall_mem_cons.mp hpos
    refine List.nodup_cons.mpr ⟨fun hmem => ?_, ih hcons.2⟩
    obtain ⟨⟨q, c⟩, hx, hq⟩ := List.mem_map.mp hmem
    have hle := (le_of_mem_placed hx).1
    have hb := hcons.1
    dsimp only at hq
    omega

theorem carve_total (h : a ≤ s) : total (carve least a s) = s := by
  rw [carve]
  split
  · simp only [total_cons, total_nil]
    omega
  · simp

theorem exists_carve (least : ℕ) (h : a ≤ s) : ∃ k rest, carve least a s = ⟨k, true⟩ :: rest ∧ a ≤ k ∧
    k ≤ s ∧ (rest = [] ∧ k = s ∨ k = a ∧ least ≤ s - a ∧ rest = [⟨s - a, false⟩]) := by
  rw [carve]
  split
  · exact ⟨a, _, rfl, le_rfl, h, Or.inr ⟨rfl, ‹_›, rfl⟩⟩
  · exact ⟨s, _, rfl, h, le_rfl, Or.inl ⟨rfl, rfl⟩⟩

@[simp] theorem absorbRight_free (k : ℕ) : absorbRight s (⟨k, false⟩ :: post) = (s + k, post) := rfl

theorem absorbRight_taken (h : ∀ b ∈ post.head?, b.alloc = true) :
    absorbRight s post = (s, post) := by
  rcases post with _ | ⟨⟨k, _ | _⟩, post⟩
  · rfl
  · cases h _ rfl
  · rfl

@[simp] theorem absorbLeft_free (k : ℕ) :
    absorbLeft (pre ++ [⟨k, false⟩]) s = (pre, k + s) := by
  simp [absorbLeft]

theorem absorbLeft_taken (h : ∀ b ∈ pre.getLast?, b.alloc = true) :
    absorbLeft pre s = (pre, s) := by
  rw [absorbLeft]
  split
  · cases h _ ‹_›
  · rfl

theorem head_cases (post : List Block) :
    (∀ b ∈ post.head?, b.alloc = true) ∨ ∃ k post', post = ⟨k, false⟩ :: post' := by
  rcases post with _ | ⟨⟨k, _ | _⟩, post⟩
  · exact Or.inl fun _ hb => by cases hb
  · exact Or.inr ⟨k, post, rfl⟩
  · exact Or.inl fun b hb => by cases hb; rfl

theorem last_cases (pre : List Block) :
    (∀ b ∈ pre.getLast?, b.alloc = true) ∨ ∃ pre' k, pre = pre' ++ [⟨k, false⟩] := by
  rcases List.eq_nil_or_concat pre with rfl | ⟨pre, ⟨k, _ | _⟩, rfl⟩
  · exact Or.inl fun _ hb => by cases hb
  · exact Or.inr ⟨pre, k, List.concat_eq_append⟩
  · exact Or.inl fun b hb => by simp at hb; rw [← hb]

@[simp] theorem taken_nil : taken lo [] = [] := rfl

@[simp] theorem taken_free : taken lo (⟨s, false⟩ :: bs) = taken (lo + s) bs := rfl

@[simp] theorem taken_taken :
    taken lo (⟨s, true⟩ :: bs) = (lo, ⟨s, true⟩) :: taken (lo + s) bs := rfl

@[simp] theorem taken_append :
    taken lo (pre ++ post) = taken lo pre ++ taken (lo + total pre) post := by
  simp [taken]

theorem mem_taken : (p, b) ∈ taken lo bs ↔ (p, b) ∈ placed lo bs ∧ b.alloc = true := by
  simp [taken]

theorem length_taken : (taken lo bs).length = bs.countP (·.alloc) := by
  induction bs generalizing lo with
  | nil => rfl
  | cons b bs ih =>
    obtain ⟨k, x⟩ := b
    cases x <;> simp [ih]

/-- A block that becomes free leaves the taken ones where they are. -/
theorem taken_absorb :
    taken lo (absorb pre s post) = taken lo pre ++ taken (lo + total pre + s) post := by
  have hright : ∀ lo, taken lo (⟨(absorbRight s post).1, false⟩ :: (absorbRight s post).2) =
      taken (lo + s) post := by
    intro lo
    rcases head_cases post with h | ⟨k, post, rfl⟩
    · rw [absorbRight_taken h]
      rfl
    · simp [Nat.add_assoc]
  have hleft : ∀ s' post', taken lo ((absorbLeft pre s').1 ++ ⟨(absorbLeft pre s').2, false⟩ :: post') =
      taken lo pre ++ taken (lo + total pre + s') post' := by
    intro s' post'
    rcases last_cases pre with h | ⟨pre, k, rfl⟩
    · rw [absorbLeft_taken h]
      simp
    · simp [Nat.add_assoc]
  have h := hright (lo + total pre)
  rw [taken_free] at h
  rw [absorb, hleft, h]

theorem taken_carve (lo least : ℕ) (h : a ≤ s) : ∃ k, a ≤ k ∧ k ≤ s ∧
    taken lo (carve least a s) = [(lo, ⟨k, true⟩)] := by
  obtain ⟨k, rest, hcarve, hak, hks, hrest⟩ := exists_carve least h
  refine ⟨k, hak, hks, ?_⟩
  rw [hcarve, taken_taken]
  rcases hrest with ⟨rfl, -⟩ | ⟨-, -, rfl⟩
  · rfl
  · rfl

section Apart

theorem Apart.left (h : Apart (pre ++ post)) : Apart pre := (List.isChain_append.mp h).1

theorem Apart.right (pre : List Block) (h : Apart (pre ++ post)) : Apart post := (List.isChain_append.mp h).2.1

theorem apart_taken (hpre : Apart pre) (hpost : Apart post) :
    Apart (pre ++ ⟨s, true⟩ :: post) := by
  refine List.isChain_append.mpr ⟨hpre, ?_, fun b _ c hc => ?_⟩
  · refine List.isChain_cons.mpr ⟨fun c _ => Or.inl rfl, hpost⟩
  · rw [List.head?_cons, Option.mem_some_iff] at hc
    exact Or.inr (hc ▸ rfl)

theorem apart_free (hpre : Apart pre) (hpost : Apart post)
    (hlast : ∀ b ∈ pre.getLast?, b.alloc = true) (hhead : ∀ b ∈ post.head?, b.alloc = true) :
    Apart (pre ++ ⟨s, false⟩ :: post) := by
  refine List.isChain_append.mpr ⟨hpre, ?_, fun b hb c _ => Or.inl (hlast b hb)⟩
  exact List.isChain_cons.mpr ⟨fun c hc => Or.inr (hhead c hc), hpost⟩

theorem Apart.last_taken {k : ℕ} (h : Apart (pre ++ ⟨k, false⟩ :: post)) :
    ∀ b ∈ pre.getLast?, b.alloc = true := by
  intro b hb
  have hchain := (List.isChain_append.mp h).2.2 b hb ⟨k, false⟩ rfl
  simpa using hchain

theorem Apart.head_taken (pre : List Block) {k : ℕ} (h : Apart (pre ++ ⟨k, false⟩ :: post)) :
    ∀ b ∈ post.head?, b.alloc = true := by
  intro b hb
  have hchain := (List.isChain_cons.mp (h.right pre)).1 b hb
  simpa using hchain

theorem apart_absorb (hpre : Apart pre) (hpost : Apart post) : Apart (absorb pre s post) := by
  have hright : Apart (absorbRight s post).2 ∧
      ∀ b ∈ (absorbRight s post).2.head?, b.alloc = true := by
    rcases head_cases post with h | ⟨k, post, rfl⟩
    · rw [absorbRight_taken h]
      exact ⟨hpost, h⟩
    · exact ⟨Apart.right [_] hpost, Apart.head_taken [] hpost⟩
  have hleft : ∀ s', Apart (absorbLeft pre s').1 ∧
      ∀ b ∈ (absorbLeft pre s').1.getLast?, b.alloc = true := by
    intro s'
    rcases last_cases pre with h | ⟨pre, k, rfl⟩
    · rw [absorbLeft_taken h]
      exact ⟨hpre, h⟩
    · rw [absorbLeft_free]
      exact ⟨hpre.left, hpre.last_taken⟩
  exact apart_free (hleft _).1 hright.1 (hleft _).2 hright.2

theorem apart_carve (h : Apart (pre ++ ⟨s, false⟩ :: post)) :
    Apart (pre ++ (carve least a s ++ post)) := by
  have hpost : Apart post := Apart.right [_] (h.right pre)
  rw [carve]
  split
  · refine apart_taken h.left (apart_free List.isChain_nil hpost (fun _ hb => absurd hb (by simp))
      (h.head_taken pre))
  · exact apart_taken h.left hpost

/-- In a row that is apart, the free blocks are at most one more than the taken ones. -/
theorem Apart.free_le (h : Apart bs) :
    bs.countP (fun b => !b.alloc) ≤ bs.countP (·.alloc) + 1 := by
  induction bs using List.twoStepInduction with
  | nil => simp
  | singleton b => cases hb : b.alloc <;> simp [hb]
  | cons_cons b c bs ih ih' =>
    have hchain := List.isChain_cons_cons.mp h
    have hrest := ih (Apart.right [b, c] h)
    have hrest' := ih' c hchain.2
    cases hb : b.alloc <;> cases hc : c.alloc <;>
      simp only [List.countP_cons, hb, hc, Bool.not_true, Bool.not_false, if_true, if_false,
        Bool.false_eq_true] at hrest' ⊢
    · simp [hb, hc] at hchain
    · omega
    · omega
    · omega

end Apart

section Sizes

/-- Every block has a size that is a multiple of `unit` and not below `least`. -/
def Sized (unit least : ℕ) (bs : List Block) : Prop := ∀ b ∈ bs, unit ∣ b.size ∧ least ≤ b.size

variable {unit : ℕ}

theorem sized_nil : Sized unit least [] := fun _ hb => absurd hb List.not_mem_nil

theorem sized_append : Sized unit least (pre ++ post) ↔
    Sized unit least pre ∧ Sized unit least post := by
  simp only [Sized, List.mem_append]
  exact ⟨fun h => ⟨fun b hb => h b (Or.inl hb), fun b hb => h b (Or.inr hb)⟩,
    fun h b hb => hb.elim (h.1 b) (h.2 b)⟩

theorem sized_cons : Sized unit least (b :: bs) ↔
    (unit ∣ b.size ∧ least ≤ b.size) ∧ Sized unit least bs :=
  List.forall_mem_cons

end Sizes

end Somenote.Heaps
