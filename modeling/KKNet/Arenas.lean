import Mathlib.Tactic

/-!
# Arenas

Objects of one type under addresses in order of allocation. An address is never
used again, so an object that was deleted stays recognisable, and reading it,
writing it or deleting it again has no result.
-/

namespace KKNet.Arenas

variable {α : Type*}

/-- The objects allocated so far; a deleted one is gone. -/
abbrev Arena (α : Type*) := List (Option α)

/-- The object at an address. -/
def read (h : Arena α) (a : ℕ) : Option α := h[a]?.join

/-- Replace the object at an address. -/
def write (h : Arena α) (a : ℕ) (x : α) : Arena α := h.set a (some x)

/-- Delete the object at an address. -/
def delete (h : Arena α) (a : ℕ) : Arena α := h.set a none

/-- Allocate an object; its address is the length of the arena. -/
def alloc (h : Arena α) (x : α) : Arena α := h ++ [some x]

variable {h : Arena α} {a b : ℕ} {x y : α}

@[simp] theorem length_alloc : (alloc h x).length = h.length + 1 := List.length_append

@[simp] theorem length_write : (write h a x).length = h.length := List.length_set

@[simp] theorem length_delete : (delete h a).length = h.length := List.length_set

/-- Only allocated addresses hold objects. -/
theorem lt_of_read (hx : read h a = some x) : a < h.length := by
  by_contra hge
  unfold read at hx
  rw [List.getElem?_eq_none (not_lt.mp hge)] at hx
  cases hx

/-- The new object. -/
@[simp] theorem read_alloc_length : read (alloc h x) h.length = some x := by
  unfold read alloc
  rw [List.getElem?_concat_length]
  rfl

/-- Allocation leaves the other addresses alone. -/
theorem read_alloc_of_ne (hne : a ≠ h.length) : read (alloc h x) a = read h a := by
  unfold read alloc
  rw [List.getElem?_append]
  split
  · rfl
  · rename_i hge
    rw [List.getElem?_eq_none (not_lt.mp hge), List.getElem?_eq_none]
    rw [List.length_singleton]
    omega

/-- What allocation kept. -/
theorem read_alloc (hy : read h a = some y) : read (alloc h x) a = some y := by
  rw [read_alloc_of_ne (lt_of_read hy).ne, hy]

/-- The object that was written. -/
theorem read_write (hy : read h a = some y) : read (write h a x) a = some x := by
  unfold read write
  rw [List.getElem?_set_self (lt_of_read hy)]
  rfl

/-- Writing leaves the other addresses alone. -/
theorem read_write_of_ne (hne : a ≠ b) : read (write h a x) b = read h b := by
  unfold read write
  rw [List.getElem?_set_ne hne]

/-- The object that was deleted. -/
@[simp] theorem read_delete : read (delete h a) a = none := by
  unfold read delete
  rw [List.getElem?_set]
  split
  · split <;> rfl
  · contradiction

/-- Deleting leaves the other addresses alone. -/
theorem read_delete_of_ne (hne : a ≠ b) : read (delete h a) b = read h b := by
  unfold read delete
  rw [List.getElem?_set_ne hne]

/-- The objects that were not deleted. -/
theorem some_mem_iff : some x ∈ h ↔ ∃ a, read h a = some x := by
  unfold read
  rw [List.mem_iff_getElem?]
  refine exists_congr fun a => ?_
  rw [Option.join_eq_some_iff]

end KKNet.Arenas
