import Mathlib.Data.Finset.Card
import Mathlib.Data.Finset.Range
import Mathlib.Data.Set.Finite.Basic

/-!
# The lowest free number

Numbers are given out lowest first and come back in any order. The lowest number that is
free is at most the number of those that are taken, so what is given out stays below the
largest number ever taken at once.
-/

namespace KKNet.FreeNumbers

variable {taken : Finset ℕ} {n bound : ℕ}

/-- Some number is free. -/
theorem exists_free (taken : Finset ℕ) : ∃ n, n ∉ taken := Infinite.exists_notMem_finset taken

/-- The lowest number that is free. -/
def lowest (taken : Finset ℕ) : ℕ := Nat.find (exists_free taken)

/-- All numbers below are taken. -/
theorem mem_of_lt_lowest (h : n < lowest taken) : n ∈ taken := not_not.mp (Nat.find_min _ h)

/-- It is at most the number of those that are taken. -/
theorem lowest_le_card (taken : Finset ℕ) : lowest taken ≤ taken.card := by
  have hall : Finset.range (lowest taken) ⊆ taken :=
    fun n hn => mem_of_lt_lowest (Finset.mem_range.mp hn)
  have hcard := Finset.card_le_card hall
  rwa [Finset.card_range] at hcard

/-- Taking the lowest one stays below a bound on how many are taken. -/
theorem lt_of_mem_insert_lowest (h : ∀ m ∈ taken, m < bound) (hroom : taken.card < bound)
    (hn : n ∈ insert (lowest taken) taken) : n < bound := by
  rcases Finset.mem_insert.mp hn with rfl | hn
  · exact (lowest_le_card taken).trans_lt hroom
  · exact h n hn

/-- As many numbers as a bound and one more do not fit below it. -/
theorem exists_ge_of_card_lt {s : Finset ℤ} (h : bound < s.card) : ∃ m ∈ s, m < 0 ∨ (bound : ℤ) ≤ m := by
  by_contra hno
  have hall : s ⊆ (Finset.range bound).image fun n : ℕ => (n : ℤ) := by
    intro m hm
    have hin : ¬(m < 0 ∨ (bound : ℤ) ≤ m) := fun hout => hno ⟨m, hm, hout⟩
    refine Finset.mem_image.mpr ⟨m.toNat, Finset.mem_range.mpr ?_, ?_⟩ <;> omega
  have hcard := (Finset.card_le_card hall).trans Finset.card_image_le
  rw [Finset.card_range] at hcard
  omega

end KKNet.FreeNumbers
