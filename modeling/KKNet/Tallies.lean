import Mathlib.Data.Finset.Card
import Mathlib.Tactic

/-!
# Tallies

A set whose members come and go, and a counter that is moved by one with each
request without a look at the set. The request to add a member again and the request
to remove what is no member leave the set as it is, and still move the counter. A
tally counts both kinds; its balance is what such a counter shows.
-/

namespace KKNet.Tallies

/-- A set and the requests that left it as it was. -/
structure Tally (α : Type) where
  /-- The set. -/
  members : Finset α
  /-- The additions of a member. -/
  repeats : ℕ
  /-- The removals of what was no member. -/
  misses : ℕ

namespace Tally

variable {α : Type} [DecidableEq α]

/-- Nothing was added yet. -/
def empty : Tally α := ⟨∅, 0, 0⟩

/-- A request to add. -/
def add (t : Tally α) (a : α) : Tally α where
  members := insert a t.members
  repeats := if a ∈ t.members then t.repeats + 1 else t.repeats
  misses := t.misses

/-- A request to remove. -/
def remove (t : Tally α) (a : α) : Tally α where
  members := t.members.erase a
  repeats := t.repeats
  misses := if a ∈ t.members then t.misses else t.misses + 1

/-- The requests to add less those to remove. -/
def balance (t : Tally α) : ℤ := t.members.card + t.repeats - t.misses

omit [DecidableEq α] in
@[simp] theorem balance_empty : (empty : Tally α).balance = 0 := rfl

/-- Each request to add moves the balance up. -/
@[simp] theorem balance_add (t : Tally α) (a : α) : (t.add a).balance = t.balance + 1 := by
  unfold balance add
  by_cases h : a ∈ t.members
  · rw [Finset.insert_eq_of_mem h, if_pos h]
    push_cast
    ring
  · rw [Finset.card_insert_of_notMem h, if_neg h]
    push_cast
    ring

/-- Each request to remove moves the balance down. -/
@[simp] theorem balance_remove (t : Tally α) (a : α) : (t.remove a).balance = t.balance - 1 := by
  unfold balance remove
  by_cases h : a ∈ t.members
  · have hcard := Finset.card_erase_add_one h
    rw [if_pos h]
    dsimp only
    omega
  · rw [Finset.erase_eq_of_notMem h, if_neg h]
    push_cast
    ring

omit [DecidableEq α] in
/-- A counter that is off by a constant is right modulo `m` exactly if the constant makes
up for the difference of the two kinds. -/
theorem modEq_card_iff (t : Tally α) (m k : ℤ) :
    t.balance + k ≡ t.members.card [ZMOD m] ↔ t.repeats + k ≡ t.misses [ZMOD m] := by
  unfold balance
  rw [Int.modEq_iff_dvd, Int.modEq_iff_dvd]
  have heq : (t.members.card : ℤ) - (t.members.card + t.repeats - t.misses + k) =
      t.misses - (t.repeats + k) := by ring
  rw [heq]

end Tally

end KKNet.Tallies
