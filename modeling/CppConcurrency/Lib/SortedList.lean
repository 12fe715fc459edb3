/-
  Splicing, partitioning and the sorted lists of a strict weak order.

  `splice` moves a range of nodes from one list to a place in another: what leaves the one
  arrives in the other. A `Partition` is one conforming behaviour of `std::partition`: it
  permutes the range it is given in any way that puts the elements with the predicate
  first, and returns the boundary.

  A list is `Sorted r` when no later element is below an earlier one. In a strict weak order
  a sorted list is determined by its elements up to equivalence (neither below the other):
  `Sorted.forall₂_of_perm`; where equivalent elements are equal, it is determined.
-/
import Mathlib.Data.List.Sort
import Mathlib.Data.List.Forall2
import Mathlib.Order.RelClasses

namespace Concur

variable {α : Type*}

/-! ## Splicing -/

/-- `dst.splice(dst.begin() + pos, src, src.begin() + first, src.begin() + last)`: the two
    lists afterwards. -/
def splice (dst : List α) (pos : ℕ) (src : List α) (first last : ℕ) : List α × List α :=
  (dst.take pos ++ (src.take last).drop first ++ dst.drop pos, src.take first ++ src.drop last)

/-- The front of a list, into an empty one. -/
@[simp] theorem splice_front (src : List α) (n : ℕ) :
    splice [] 0 src 0 n = (src.take n, src.drop n) := by
  simp [splice]

/-- A whole list, to the end of another. -/
@[simp] theorem splice_end (dst src : List α) :
    splice dst dst.length src 0 src.length = (dst ++ src, []) := by
  simp [splice]

/-- A whole list, to the beginning of another. -/
@[simp] theorem splice_begin (dst src : List α) :
    splice dst 0 src 0 src.length = (src ++ dst, []) := by
  simp [splice]

/-! ## Partitioning -/

/-- A conforming behaviour of `std::partition`: from the predicate and the range, the range
    as it leaves it and the boundary. -/
structure Partition (α : Type*) where
  run : (α → Bool) → List α → List α × ℕ
  perm : ∀ p l, (run p l).1.Perm l
  before : ∀ p l, ∀ x ∈ (run p l).1.take (run p l).2, p x = true
  after : ∀ p l, ∀ x ∈ (run p l).1.drop (run p l).2, p x = false

/-- The behaviour that keeps the order on both sides. -/
def Partition.stable : Partition α where
  run p l := (l.filter p ++ l.filter fun x => !p x, (l.filter p).length)
  perm p l := List.filter_append_perm p l
  before p l x hx := by
    rw [List.take_left] at hx
    exact (List.mem_filter.mp hx).2
  after p l x hx := by
    rw [List.drop_left] at hx
    simpa using (List.mem_filter.mp hx).2

/-! ## Sorted lists -/

/-- No later element is below an earlier one. -/
def Sorted (r : α → α → Prop) (l : List α) : Prop := l.Pairwise fun a b => ¬ r b a

/-- Neither is below the other. -/
def Equivalent (r : α → α → Prop) (a b : α) : Prop := ¬ r a b ∧ ¬ r b a

section WeakOrder

variable {r : α → α → Prop} [IsStrictWeakOrder α r]

/-- In a strict weak order, not being below is transitive. -/
theorem not_lt_trans {a b c : α} (hab : ¬ r b a) (hbc : ¬ r c b) : ¬ r c a := by
  intro hca
  have hab' : ¬ r a b := fun h => hbc (trans_of r hca h)
  have hbc' : ¬ r b c := fun h => hab (trans_of r h hca)
  exact (IsStrictWeakOrder.incomp_trans a b c ⟨hab', hab⟩ ⟨hbc', hbc⟩).2 hca

/-- Sorted pieces on either side of a pivot. -/
theorem Sorted.around {lower higher : List α} {pivot : α} (hl : Sorted r lower)
    (hh : Sorted r higher) (hlow : ∀ t ∈ lower, ¬ r pivot t) (hup : ∀ t ∈ higher, ¬ r t pivot) :
    Sorted r (lower ++ pivot :: higher) := by
  refine List.pairwise_append.mpr ⟨hl, List.pairwise_cons.mpr ⟨hup, hh⟩, ?_⟩
  intro a ha b hb
  rcases List.mem_cons.mp hb with rfl | hb
  · exact hlow a ha
  · exact not_lt_trans (hlow a ha) (hup b hb)

/-- Equivalence of elements. -/
def equivalence (r : α → α → Prop) [IsStrictWeakOrder α r] : Setoid α where
  r := Equivalent r
  iseqv :=
    { refl := fun a => ⟨irrefl_of r a, irrefl_of r a⟩
      symm := fun h => ⟨h.2, h.1⟩
      trans := fun {a b c} h h' => IsStrictWeakOrder.incomp_trans a b c h h' }

/-- The lists of equivalence classes of a sorted list and of a sorted rearrangement of it
    are rearrangements of each other that are sorted in a partial order, hence equal. -/
theorem Sorted.forall₂_of_perm {l l' : List α} (h : Sorted r l) (h' : Sorted r l')
    (hp : l.Perm l') : List.Forall₂ (Equivalent r) l l' := by
  let cls : α → Quotient (equivalence r) := Quotient.mk (equivalence r)
  -- `below x y`: the class `x` has a member that no member of `y` is below
  let below : Quotient (equivalence r) → Quotient (equivalence r) → Prop := fun x y =>
    ∃ a b, cls a = x ∧ cls b = y ∧ ¬ r b a
  have hsorted : ∀ {k : List α}, Sorted r k → (k.map cls).Pairwise below := by
    intro k hk
    rw [List.pairwise_map]
    exact hk.imp fun {a b} hab => ⟨a, b, rfl, rfl, hab⟩
  have hanti : ∀ x y, below x y → below y x → x = y := by
    rintro x y ⟨a, b, rfl, rfl, hab⟩ ⟨b', a', hb, ha, hba⟩
    obtain ⟨hb, -⟩ : Equivalent r b' b := Quotient.exact hb
    obtain ⟨-, ha⟩ : Equivalent r a' a := Quotient.exact ha
    exact Quotient.sound ⟨not_lt_trans (not_lt_trans hb hba) ha, hab⟩
  have heq : l.map cls = l'.map cls :=
    (hp.map cls).eq_of_pairwise (fun x y _ _ => hanti x y) (hsorted h) (hsorted h')
  rw [← List.forall₂_eq_eq_eq, List.forall₂_map_left_iff, List.forall₂_map_right_iff] at heq
  exact heq.imp fun {a b} hab => Quotient.exact hab

/-- Where equivalent elements are equal, a sorted list is determined by its elements. -/
theorem Sorted.eq_of_perm {l l' : List α} (h : Sorted r l) (h' : Sorted r l') (hp : l.Perm l')
    (htotal : ∀ a b, Equivalent r a b → a = b) : l = l' := by
  have hall := h.forall₂_of_perm h' hp
  rw [← List.forall₂_eq_eq_eq]
  exact hall.imp fun {a b} hab => htotal a b hab

end WeakOrder

end Concur
