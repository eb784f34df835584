import KKNet.TimeWheel

/-!
# The life of a time wheel

A wheel is constructed, gets its number of slots, is used and destroyed. No code
assigns the current node, so the first `push` or `onTime` follows a pointer without
a value, or a null pointer if the storage was zeroed; and the list is circular, so
the walk of the destructor never meets a null pointer and comes back to the first
node, which it has deleted. Either way the life of a wheel ends in a fault.
-/

namespace KKNet.TimeWheels

open Arenas Wheels Results

/-- A use of a wheel. -/
inductive Use
  /-- `push` of an entry. -/
  | push (ptr : ℕ)
  /-- `onTime`. -/
  | onTime

/-- The uses of a wheel, one after another. -/
def TimeWheel.uses (w : TimeWheel) : List Use → Except Fault TimeWheel
  | [] => pure w
  | .push ptr :: rest => do
    let w ← w.push ptr
    w.uses rest
  | .onTime :: rest => do
    let (w, _) ← w.onTime
    w.uses rest

/-- Construction, `setMaxNum`, the uses, and the destructor with a bound on its walk. -/
def lifecycle (zeroed : Bool) (num : ℕ) (rest : List Use) (steps : ℕ) :
    Except Fault (TimeWheel × List ℕ) := do
  let w ← (TimeWheel.fresh zeroed).setMaxNum num
  let w ← w.uses rest
  w.destroy steps

/-- Every pointer that is followed was assigned to a live node, the walk of the
destructor ends, and every node and every set is deleted once. -/
def Safe (zeroed : Bool) (num : ℕ) (rest : List Use) : Prop :=
  ∃ steps w released, lifecycle zeroed num rest steps = .ok (w, released) ∧
    (∀ nd, some nd ∉ w.nodes) ∧ ∀ s, some s ∉ w.sets

variable {w : TimeWheel} {n i : ℕ}

/-- A pointer that is not to a node. -/
theorem node_fault {p : Pointer} (hp : ∀ a, p ≠ .ref a) : ∃ fault, w.node p = .error fault := by
  cases p with
  | unassigned => exact ⟨_, rfl⟩
  | null => exact ⟨_, rfl⟩
  | ref a => exact absurd rfl (hp a)

/-- The first use follows the pointer to the current node. -/
theorem uses_fault (hcur : ∀ a, w.currentNode_ ≠ .ref a) (use : Use) (rest : List Use) :
    ∃ fault, w.uses (use :: rest) = .error fault := by
  obtain ⟨fault, hfault⟩ := node_fault (w := w) hcur
  refine ⟨fault, ?_⟩
  cases use with
  | push ptr =>
    unfold TimeWheel.uses TimeWheel.push
    rw [hfault]
    rfl
  | onTime =>
    unfold TimeWheel.uses TimeWheel.onTime
    rw [hfault]
    rfl

/-- A step of the walk deletes a node and its set and goes on to the next node. -/
theorem destroyLoop_step {nd : WheelNode} {s : WheelSet} (hnode : read w.nodes i = some nd)
    (hset : read w.sets nd.set_ = some s) (released : List ℕ) (steps : ℕ) :
    w.destroyLoop released (steps + 1) (.ref i) =
      ({ w with nodes := delete w.nodes i, sets := delete w.sets nd.set_ } : TimeWheel).destroyLoop
        (released ++ s.items) steps nd.next_ := by
  rw [TimeWheel.destroyLoop, node_ref hnode, ok_bind]
  dsimp only
  rw [set_of_read hset, ok_bind]

/-- A step of the walk that meets a deleted node. -/
theorem destroyLoop_deleted (hnode : read w.nodes i = none) (released : List ℕ) (steps : ℕ) :
    w.destroyLoop released (steps + 1) (.ref i) = .error .deleted := by
  rw [TimeWheel.destroyLoop, TimeWheel.node]
  dsimp only
  rw [hnode]
  rfl

/-- The walk of the destructor deletes the nodes that are left and meets the first one
again, which is deleted. -/
theorem destroyLoop_fault {left : ℕ} (hleft : i + left + 1 = n)
    (hnodes : ∀ j, i ≤ j → j < n → read w.nodes j = some ⟨.ref (after n j), j⟩)
    (hsets : ∀ j, i ≤ j → j < n → read w.sets j = some .empty)
    (hfirst : 0 < i → read w.nodes 0 = none) (released : List ℕ) (steps : ℕ) :
    w.destroyLoop released steps (.ref i) =
      .error (if left + 1 < steps then .deleted else .endless) := by
  have hgone : read (delete w.nodes i) 0 = none := by
    by_cases hi : i = 0
    · rw [hi, read_delete]
    · rw [read_delete_of_ne hi, hfirst (Nat.pos_of_ne_zero hi)]
  induction left generalizing w i released steps with
  | zero =>
    cases steps with
    | zero => rfl
    | succ steps =>
      have hback : after n i = 0 := by
        unfold after
        rw [if_pos (by omega)]
      rw [destroyLoop_step (hnodes i (Nat.le_refl i) (by omega)) (hsets i (Nat.le_refl i) (by omega))]
      dsimp only
      rw [hback]
      cases steps with
      | zero => rfl
      | succ steps =>
        rw [destroyLoop_deleted hgone, if_pos (by omega)]
  | succ left ih =>
    cases steps with
    | zero => rfl
    | succ steps =>
      have hnext : after n i = i + 1 := by
        unfold after
        rw [if_neg (by omega)]
      rw [destroyLoop_step (hnodes i (Nat.le_refl i) (by omega)) (hsets i (Nat.le_refl i) (by omega))]
      dsimp only
      rw [hnext]
      have hnodes' : ∀ j, i + 1 ≤ j → j < n →
          read (delete w.nodes i) j = some ⟨.ref (after n j), j⟩ := fun j hij hj => by
        rw [read_delete_of_ne (by omega)]
        exact hnodes j (by omega) hj
      have hsets' : ∀ j, i + 1 ≤ j → j < n → read (delete w.sets i) j = some .empty :=
        fun j hij hj => by
          rw [read_delete_of_ne (by omega)]
          exact hsets j (by omega) hj
      rw [ih (by omega) hnodes' hsets' (fun _ => hgone) _ steps
        (by rw [read_delete_of_ne (Nat.succ_ne_zero i)]; exact hgone)]
      exact congrArg Except.error (if_congr (by omega) rfl rfl)

/-- The life of a wheel ends in a fault. -/
theorem lifecycle_fault (zeroed : Bool) (num : ℕ) (rest : List Use) (steps : ℕ) :
    ∃ fault, lifecycle zeroed num rest steps = .error fault := by
  obtain ⟨w, hbuild, hw⟩ := built_setMaxNum zeroed num
  unfold lifecycle
  rw [hbuild, ok_bind]
  cases rest with
  | nil =>
    unfold TimeWheel.uses TimeWheel.destroy
    rw [pure_eq_ok, ok_bind, hw.head_]
    have hall : 0 + (num - 1) + 1 = num - 1 + 1 := by omega
    exact ⟨_, destroyLoop_fault hall (fun j _ hj => hw.nodes j hj) (fun j _ hj => hw.sets j hj)
      (fun h => absurd h (Nat.lt_irrefl 0)) [] steps⟩
  | cons use rest =>
    obtain ⟨fault, hfault⟩ := uses_fault hw.currentNode_ use rest
    rw [hfault]
    exact ⟨fault, rfl⟩

/-- No wheel is safe, whatever its number of slots and its uses. -/
theorem never_safe (zeroed : Bool) (num : ℕ) (rest : List Use) : ¬Safe zeroed num rest := by
  rintro ⟨steps, w, released, h, _⟩
  obtain ⟨fault, hfault⟩ := lifecycle_fault zeroed num rest steps
  rw [hfault] at h
  cases h

/-- A wheel of eight slots that is pushed to once, and one that is not used at all. -/
theorem eight_slots_fault :
    lifecycle false 8 [.push 1] 100 = .error .unassigned ∧
      lifecycle false 8 [] 100 = .error .deleted ∧
      ¬Safe false 8 [.push 1] ∧ ¬Safe false 8 [] := by
  refine ⟨rfl, rfl, ?_, ?_⟩
  · rintro ⟨steps, w, released, h, _⟩
    obtain ⟨fault, hfault⟩ := lifecycle_fault false 8 [.push 1] steps
    rw [hfault] at h
    cases h
  · rintro ⟨steps, w, released, h, _⟩
    obtain ⟨fault, hfault⟩ := lifecycle_fault false 8 [] steps
    rw [hfault] at h
    cases h

end KKNet.TimeWheels
