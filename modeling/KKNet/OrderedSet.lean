import Mathlib.Tactic
import Mathlib.Order.Defs.LinearOrder

/-!
# Ordered sets and maps

A set of items in strictly increasing order of a key, as the standard ordered
containers keep it: no two items have the same key, the first item has the
least key, and inserting an item whose key is present changes nothing. With a
key that is only part of the item the same type is an ordered map. Every
operation is characterised by its membership; order never has to be unfolded.
-/

namespace KKNet.OrderedSets

variable {α κ : Type*} [LinearOrder κ]

/-- Items in strictly increasing order of their keys. -/
structure OrderedSet (key : α → κ) where
  /-- The items, least key first. -/
  items : List α
  /-- The keys increase strictly. -/
  sorted : items.Pairwise fun x y => key x < key y

/-- Place an item among sorted items; a present key wins. -/
def place (key : α → κ) (x : α) : List α → List α
  | [] => [x]
  | y :: ys =>
    if key x < key y then x :: y :: ys
    else if key x = key y then y :: ys
    else y :: place key x ys

variable {key : α → κ}

/-- The placed list has the old items, and the new one unless its key was
present. -/
theorem mem_place {x y : α} {xs : List α} (hs : xs.Pairwise fun a b => key a < key b) :
    y ∈ place key x xs ↔ y ∈ xs ∨ y = x ∧ ∀ z ∈ xs, key z ≠ key x := by
  induction xs with
  | nil => simp [place]
  | cons z zs ih =>
    obtain ⟨hz, hzs⟩ := List.pairwise_cons.mp hs
    unfold place
    by_cases hlt : key x < key z
    · have hfree : ∀ w ∈ z :: zs, key w ≠ key x := by
        intro w hw
        rcases List.mem_cons.mp hw with hw | hw
        · exact hw ▸ hlt.ne'
        · exact (hlt.trans (hz w hw)).ne'
      rw [if_pos hlt, List.mem_cons]
      constructor
      · rintro (hy | hy)
        · exact Or.inr ⟨hy, hfree⟩
        · exact Or.inl hy
      · rintro (hy | ⟨hy, _⟩)
        · exact Or.inr hy
        · exact Or.inl hy
    · rw [if_neg hlt]
      by_cases heq : key x = key z
      · rw [if_pos heq]
        constructor
        · exact Or.inl
        · rintro (hy | ⟨_, hy⟩)
          · exact hy
          · exact absurd heq.symm (hy z List.mem_cons_self)
      · rw [if_neg heq, List.mem_cons, ih hzs, List.mem_cons]
        constructor
        · rintro (hy | hy | ⟨hy, hfree⟩)
          · exact Or.inl (Or.inl hy)
          · exact Or.inl (Or.inr hy)
          · refine Or.inr ⟨hy, fun w hw => ?_⟩
            rcases List.mem_cons.mp hw with hw | hw
            · exact hw ▸ fun h => heq h.symm
            · exact hfree w hw
        · rintro ((hy | hy) | ⟨hy, hfree⟩)
          · exact Or.inl hy
          · exact Or.inr (Or.inl hy)
          · exact Or.inr (Or.inr ⟨hy, fun w hw => hfree w (List.mem_cons_of_mem z hw)⟩)

/-- Placing keeps the order. -/
theorem sorted_place {x : α} {xs : List α} (hs : xs.Pairwise fun a b => key a < key b) :
    (place key x xs).Pairwise fun a b => key a < key b := by
  induction xs with
  | nil => simp [place]
  | cons z zs ih =>
    obtain ⟨hz, hzs⟩ := List.pairwise_cons.mp hs
    unfold place
    by_cases hlt : key x < key z
    · rw [if_pos hlt]
      refine List.pairwise_cons.mpr ⟨fun w hw => ?_, hs⟩
      rcases List.mem_cons.mp hw with hw | hw
      · exact hw ▸ hlt
      · exact hlt.trans (hz w hw)
    · rw [if_neg hlt]
      by_cases heq : key x = key z
      · rw [if_pos heq]
        exact hs
      · rw [if_neg heq]
        refine List.pairwise_cons.mpr ⟨fun w hw => ?_, ih hzs⟩
        rcases (mem_place hzs).mp hw with hw | ⟨hw, _⟩
        · exact hz w hw
        · exact hw ▸ lt_of_le_of_ne (not_lt.mp hlt) (Ne.symm heq)

/-- Sorted items with the same key are the same. -/
theorem eq_of_sorted {x y : α} {xs : List α} (hs : xs.Pairwise fun a b => key a < key b)
    (hx : x ∈ xs) (hy : y ∈ xs) (h : key x = key y) : x = y := by
  induction xs with
  | nil => exact absurd hx List.not_mem_nil
  | cons z zs ih =>
    obtain ⟨hz, hzs⟩ := List.pairwise_cons.mp hs
    rcases List.mem_cons.mp hx with hx | hx
    · rcases List.mem_cons.mp hy with hy | hy
      · exact hx.trans hy.symm
      · exact absurd h (hx ▸ hz y hy).ne
    · rcases List.mem_cons.mp hy with hy | hy
      · exact absurd h (hy ▸ hz x hx).ne'
      · exact ih hzs hx hy

namespace OrderedSet

/-- The empty set. -/
def empty : OrderedSet key := ⟨[], List.Pairwise.nil⟩

instance : Membership α (OrderedSet key) := ⟨fun s x => x ∈ s.items⟩

/-- Insert an item unless its key is present. -/
def insert (s : OrderedSet key) (x : α) : OrderedSet key :=
  ⟨place key x s.items, sorted_place s.sorted⟩

/-- Remove the item with a key. -/
def erase (s : OrderedSet key) (k : κ) : OrderedSet key :=
  ⟨s.items.filter fun x => key x ≠ k, s.sorted.filter _⟩

/-- Insert an item in place of any item with its key. -/
def assign (s : OrderedSet key) (x : α) : OrderedSet key := (s.erase (key x)).insert x

/-- The item with a key. -/
def find (s : OrderedSet key) (k : κ) : Option α := s.items.find? fun x => key x = k

/-- The first item. -/
def first (s : OrderedSet key) : Option α := s.items.head?

/-- The items before the lower bound of a key. -/
def below (s : OrderedSet key) (k : κ) : List α := s.items.filter fun x => key x < k

/-- The set without the items before the lower bound of a key. -/
def dropBelow (s : OrderedSet key) (k : κ) : OrderedSet key :=
  ⟨s.items.filter fun x => ¬key x < k, s.sorted.filter _⟩

variable {s : OrderedSet key} {x y : α} {k : κ}

theorem mem_items : x ∈ s.items ↔ x ∈ s := Iff.rfl

@[simp] theorem not_mem_empty : x ∉ (empty : OrderedSet key) := List.not_mem_nil

/-- Items with the same key are the same. -/
theorem eq_of_key (hx : x ∈ s) (hy : y ∈ s) (h : key x = key y) : x = y :=
  eq_of_sorted s.sorted hx hy h

@[simp] theorem mem_insert : y ∈ s.insert x ↔ y ∈ s ∨ y = x ∧ ∀ z ∈ s, key z ≠ key x :=
  mem_place s.sorted

@[simp] theorem mem_erase : y ∈ s.erase k ↔ y ∈ s ∧ key y ≠ k := by
  unfold erase
  rw [← mem_items, List.mem_filter, decide_eq_true_eq, mem_items]

@[simp] theorem mem_assign : y ∈ s.assign x ↔ y = x ∨ y ∈ s ∧ key y ≠ key x := by
  unfold assign
  rw [mem_insert, mem_erase]
  constructor
  · rintro (hy | ⟨hy, _⟩)
    · exact Or.inr hy
    · exact Or.inl hy
  · rintro (hy | hy)
    · exact Or.inr ⟨hy, fun z hz => (mem_erase.mp hz).2⟩
    · exact Or.inl hy

@[simp] theorem mem_below : y ∈ s.below k ↔ y ∈ s ∧ key y < k := by
  unfold below
  rw [List.mem_filter, decide_eq_true_eq, mem_items]

@[simp] theorem mem_dropBelow : y ∈ s.dropBelow k ↔ y ∈ s ∧ ¬key y < k := by
  unfold dropBelow
  rw [← mem_items, List.mem_filter, decide_eq_true_eq, mem_items]

/-- The items before a lower bound come in order. -/
theorem sorted_below (s : OrderedSet key) (k : κ) :
    (s.below k).Pairwise fun a b => key a < key b := s.sorted.filter _

/-- A found item is in the set and has the key. -/
theorem find_eq_some : s.find k = some x ↔ x ∈ s ∧ key x = k := by
  unfold find
  constructor
  · intro h
    have hkey := List.find?_some h
    exact ⟨List.mem_of_find?_eq_some h, of_decide_eq_true hkey⟩
  · rintro ⟨hx, hk⟩
    cases h : s.items.find? fun z => key z = k with
    | none =>
      have hno := List.find?_eq_none.mp h x hx
      exact absurd (decide_eq_true hk) hno
    | some z =>
      have hz := List.find?_some h
      rw [decide_eq_true_eq] at hz
      rw [eq_of_key (List.mem_of_find?_eq_some h) hx (hz.trans hk.symm)]

/-- Nothing is found exactly when no item has the key. -/
theorem find_eq_none : s.find k = none ↔ ∀ x ∈ s, key x ≠ k := by
  unfold find
  rw [List.find?_eq_none]
  simp only [decide_eq_true_eq, mem_items, ne_eq]

/-- The first item has the least key. -/
theorem first_le (h : s.first = some x) (hy : y ∈ s) : key x ≤ key y := by
  unfold first at h
  obtain ⟨rest, hrest⟩ := List.head?_eq_some_iff.mp h
  have hs := s.sorted
  rw [← mem_items, hrest, List.mem_cons] at hy
  rw [hrest] at hs
  rcases hy with hy | hy
  · rw [hy]
  · exact ((List.pairwise_cons.mp hs).1 y hy).le

/-- The first item is in the set. -/
theorem first_mem (h : s.first = some x) : x ∈ s := List.mem_of_mem_head? h

/-- Only the empty set has no first item. -/
theorem first_eq_none : s.first = none ↔ ∀ x, x ∉ s := by
  unfold first
  rw [List.head?_eq_none_iff, List.eq_nil_iff_forall_not_mem]
  exact Iff.rfl

end OrderedSet

end KKNet.OrderedSets
