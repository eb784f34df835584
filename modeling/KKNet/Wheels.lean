import Mathlib.Data.Set.Insert
import Mathlib.Logic.Function.Basic
import Mathlib.Tactic

/-!
# Wheels of sets

A wheel has `n` slots and a hand. Marking an element puts it into the slot at the
hand; turning moves the hand to the following slot, which is the oldest one, and
clears it. An element may be in several slots, but the wheel knows when it was
marked last: it holds exactly the elements whose last mark is fewer than `n` turns
ago, so a turn drops those that were marked `n - 1` turns before it.
-/

namespace KKNet.Wheels

variable {α : Type*} {n : ℕ}

/-- The slot after a slot. -/
def after (n i : ℕ) : ℕ := if i + 1 = n then 0 else i + 1

/-- The slot `k` turns behind a slot. -/
def behind (n i k : ℕ) : ℕ := if k ≤ i then i - k else i + n - k

/-- The slots with their elements, and the hand. -/
structure Wheel (α : Type*) where
  /-- The slot at the hand. -/
  hand : ℕ
  /-- The elements of each slot. -/
  slots : ℕ → Set α

/-- Put an element into the slot at the hand. -/
def Wheel.mark (w : Wheel α) (x : α) : Wheel α :=
  { w with slots := Function.update w.slots w.hand (insert x (w.slots w.hand)) }

/-- Move the hand on and clear the slot. -/
def Wheel.turn (n : ℕ) (w : Wheel α) : Wheel α :=
  ⟨after n w.hand, Function.update w.slots (after n w.hand) ∅⟩

/-- An element of some slot. -/
def Wheel.Holds (n : ℕ) (w : Wheel α) (x : α) : Prop := ∃ i < n, x ∈ w.slots i

/-- The turns since each element was marked last. -/
abbrev Clock (α : Type*) := α → Option ℕ

/-- An element is marked. -/
def Clock.mark [DecidableEq α] (c : Clock α) (x : α) : Clock α := Function.update c x (some 0)

/-- A turn passes. -/
def Clock.turn (c : Clock α) : Clock α := fun x => (c x).map (· + 1)

/-! ### The slots -/

theorem after_lt {i : ℕ} (hi : i < n) : after n i < n := by
  unfold after
  split <;> omega

theorem behind_lt {i k : ℕ} (hi : i < n) (hk : k < n) : behind n i k < n := by
  unfold behind
  split <;> omega

/-- No turns back. -/
@[simp] theorem behind_zero (i : ℕ) : behind n i 0 = i := by
  unfold behind
  rw [if_pos (Nat.zero_le i), Nat.sub_zero]

/-- After a turn a slot is one turn further behind. -/
theorem behind_after {i k : ℕ} (hk : k + 1 < n) :
    behind n (after n i) (k + 1) = behind n i k := by
  unfold behind after
  split_ifs <;> omega

/-- Slots behind differ from the hand. -/
theorem behind_succ_ne (i : ℕ) {k : ℕ} (hk : k + 1 < n) : behind n i (k + 1) ≠ i := by
  unfold behind
  split_ifs <;> omega

/-- Every slot is at the hand or behind it. -/
theorem exists_behind {i j : ℕ} (hi : i < n) (hj : j < n) : ∃ k < n, behind n i k = j := by
  by_cases hle : j ≤ i
  · refine ⟨i - j, by omega, ?_⟩
    unfold behind
    rw [if_pos (Nat.sub_le i j)]
    omega
  · refine ⟨i + n - j, by omega, ?_⟩
    unfold behind
    rw [if_neg (by omega)]
    omega

/-! ### What the wheel knows -/

/-- The wheel agrees with a clock. -/
structure Dated (n : ℕ) (w : Wheel α) (c : Clock α) : Prop where
  /-- The hand is at a slot. -/
  hand : w.hand < n
  /-- An element is in the slot of its last mark. -/
  young : ∀ x k, c x = some k → k < n → x ∈ w.slots (behind n w.hand k)
  /-- The elements of a slot were marked there or later. -/
  old : ∀ k < n, ∀ x ∈ w.slots (behind n w.hand k), ∃ j ≤ k, c x = some j

/-- An empty wheel. -/
theorem dated_empty {i : ℕ} (hi : i < n) :
    Dated n (⟨i, fun _ => ∅⟩ : Wheel α) fun _ => none :=
  ⟨hi, fun _ _ h _ => (by cases h), fun _ _ _ h => absurd h (Set.notMem_empty _)⟩

variable {w : Wheel α} {c : Clock α} {x y : α}

/-- The wheel holds what was marked fewer than `n` turns ago. -/
theorem Dated.holds_iff (hw : Dated n w c) : w.Holds n x ↔ ∃ k < n, c x = some k := by
  constructor
  · rintro ⟨i, hi, hx⟩
    obtain ⟨k, hk, hbehind⟩ := exists_behind hw.hand hi
    obtain ⟨j, hj, hc⟩ := hw.old k hk x (hbehind ▸ hx)
    exact ⟨j, by omega, hc⟩
  · rintro ⟨k, hk, hc⟩
    exact ⟨_, behind_lt hw.hand hk, hw.young x k hc hk⟩

/-- Marking. -/
theorem Dated.mark [DecidableEq α] (hw : Dated n w c) (x : α) : Dated n (w.mark x) (c.mark x) := by
  refine ⟨hw.hand, fun y k hy hk => ?_, fun k hk y hy => ?_⟩
  · unfold Clock.mark at hy
    unfold Wheel.mark
    by_cases hyx : y = x
    · subst hyx
      rw [Function.update_self] at hy
      cases hy
      simp
    · rw [Function.update_of_ne hyx] at hy
      have hmem := hw.young y k hy hk
      by_cases hslot : behind n w.hand k = w.hand
      · rw [hslot] at hmem
        simp [hslot, hmem]
      · simpa [hslot] using hmem
  · unfold Clock.mark
    by_cases hyx : y = x
    · subst hyx
      exact ⟨0, Nat.zero_le k, Function.update_self y _ c⟩
    · rw [Function.update_of_ne hyx]
      refine hw.old k hk y ?_
      by_cases hslot : behind n w.hand k = w.hand
      · simpa [Wheel.mark, hslot, hyx] using hy
      · simpa [Wheel.mark, hslot] using hy

/-- Turning. -/
theorem Dated.turn (hw : Dated n w c) : Dated n (w.turn n) c.turn := by
  have hafter := after_lt hw.hand
  refine ⟨hafter, fun y k hy hk => ?_, fun k hk y hy => ?_⟩
  · obtain ⟨j, hj, rfl⟩ := Option.map_eq_some_iff.mp hy
    have hne := behind_succ_ne (after n w.hand) hk
    have hmem := hw.young y j hj (by omega)
    unfold Wheel.turn
    dsimp only
    rw [Function.update_of_ne hne, behind_after hk]
    exact hmem
  · cases k with
    | zero => simp [Wheel.turn] at hy
    | succ k =>
      -- the slot was not the one that was cleared
      have hne := behind_succ_ne (after n w.hand) hk
      unfold Wheel.turn at hy
      dsimp only at hy
      rw [Function.update_of_ne hne, behind_after hk] at hy
      obtain ⟨j, hj, hc⟩ := hw.old k (by omega) y hy
      exact ⟨j + 1, by omega, Option.map_eq_some_iff.mpr ⟨j, hc, rfl⟩⟩

/-- A turn drops the elements whose last mark is `n - 1` turns old, and only these. -/
theorem Dated.dropped_iff (hw : Dated n w c) :
    w.Holds n x ∧ ¬(w.turn n).Holds n x ↔ c x = some (n - 1) := by
  have hn : 0 < n := by have := hw.hand; omega
  rw [hw.holds_iff, hw.turn.holds_iff]
  unfold Clock.turn
  constructor
  · rintro ⟨⟨k, hk, hc⟩, hnot⟩
    have hge : ¬k + 1 < n := fun hlt => hnot ⟨k + 1, hlt, Option.map_eq_some_iff.mpr ⟨k, hc, rfl⟩⟩
    have hk' : k = n - 1 := by omega
    exact hk' ▸ hc
  · intro hc
    refine ⟨⟨n - 1, by omega, hc⟩, ?_⟩
    rintro ⟨k, hk, hmap⟩
    rw [hc] at hmap
    have hk' : n - 1 + 1 = k := Option.some.inj hmap
    omega

end KKNet.Wheels
