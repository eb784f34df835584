import Mathlib.Tactic

/-!
# Results that may be faults

A program with undefined behaviour gives a result or a fault. A sequence gives a
result only if each of its parts does.
-/

namespace KKNet.Results

variable {ε α β : Type}

/-- A part that gives a result hands it on. -/
@[simp] theorem ok_bind (a : α) (f : α → Except ε β) : (Except.ok a >>= f) = f a := rfl

/-- A part that faults ends the sequence. -/
@[simp] theorem error_bind (e : ε) (f : α → Except ε β) :
    ((Except.error e : Except ε α) >>= f) = .error e := rfl

@[simp] theorem pure_eq_ok (a : α) : (pure a : Except ε α) = .ok a := rfl

variable {x : Except ε α}

/-- A sequence that succeeds succeeds in its first part. -/
theorem ok_of_bind {f : α → Except ε β} {b : β} (h : x >>= f = .ok b) :
    ∃ a, x = .ok a ∧ f a = .ok b := by
  cases x with
  | error e => cases h
  | ok a => exact ⟨a, rfl, h⟩

/-- Only a success has a result. -/
theorem ok_of_toOption {a : α} (h : x.toOption = some a) : x = .ok a := by
  cases x with
  | error e => cases h
  | ok b => exact congrArg Except.ok (Option.some.inj h)

/-- Only a success has a result that goes on. -/
theorem ok_of_toOption_map {f : α → β} {b : β} (h : x.toOption.map f = some b) :
    ∃ a, x = .ok a ∧ f a = b := by
  obtain ⟨a, ha, hf⟩ := Option.map_eq_some_iff.mp h
  exact ⟨a, ok_of_toOption ha, hf⟩

end KKNet.Results
