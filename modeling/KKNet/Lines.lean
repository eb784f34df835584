import Mathlib.Data.List.Basic
import Mathlib.Data.List.TakeWhile

/-!
# Lines of a stream

A line ends with a terminator and has none before it. A stream is cut into lines and a
rest without a terminator in one way only, so it does not matter in which pieces it came.
-/

namespace KKNet.Lines

variable {α : Type*} {nl : α} {l l' r r' : List α} {ls ls' : List (List α)}

/-- The terminator is the last element, and only that. -/
def IsLine (nl : α) (l : List α) : Prop := ∃ body, nl ∉ body ∧ l = body ++ [nl]

/-- Only one line can come first. -/
theorem front_unique (h : IsLine nl l) (h' : IsLine nl l') (heq : l ++ r = l' ++ r') :
    l = l' ∧ r = r' := by
  obtain ⟨body, hbody, rfl⟩ := h
  obtain ⟨body', hbody', rfl⟩ := h'
  induction body generalizing body' with
  | nil =>
    cases body' with
    | nil => exact ⟨rfl, List.append_cancel_left heq⟩
    | cons x body' =>
      cases heq
      exact absurd List.mem_cons_self hbody'
  | cons x body ih =>
    cases body' with
    | nil =>
      cases heq
      exact absurd List.mem_cons_self hbody
    | cons y body' =>
      obtain ⟨rfl, htail⟩ := List.cons_eq_cons.mp heq
      obtain ⟨hl, hr⟩ := ih (fun hmem => hbody (List.mem_cons_of_mem _ hmem)) body'
        (fun hmem => hbody' (List.mem_cons_of_mem _ hmem)) htail
      exact ⟨congrArg (x :: ·) hl, hr⟩

/-- No line can be found in a rest without a terminator. -/
theorem ne_append_of_notMem (h : IsLine nl l) (hr : nl ∉ r) : r ≠ l ++ r' := by
  rintro rfl
  obtain ⟨body, _, rfl⟩ := h
  exact hr (List.mem_append_left _ (List.mem_append_right _ List.mem_cons_self))

/-- The lines of a stream and its rest are determined by the stream. -/
theorem lines_unique (h : ∀ l ∈ ls, IsLine nl l) (h' : ∀ l ∈ ls', IsLine nl l) (hr : nl ∉ r)
    (hr' : nl ∉ r') (heq : ls.flatten ++ r = ls'.flatten ++ r') : ls = ls' ∧ r = r' := by
  induction ls generalizing ls' with
  | nil =>
    cases ls' with
    | nil => exact ⟨rfl, heq⟩
    | cons l' ls' =>
      rw [List.flatten_nil, List.nil_append, List.flatten_cons, List.append_assoc] at heq
      exact absurd heq (ne_append_of_notMem (h' l' List.mem_cons_self) hr)
  | cons l ls ih =>
    obtain ⟨hl, hls⟩ := List.forall_mem_cons.mp h
    cases ls' with
    | nil =>
      rw [List.flatten_nil, List.nil_append, List.flatten_cons, List.append_assoc] at heq
      exact absurd heq.symm (ne_append_of_notMem hl hr')
    | cons l' ls' =>
      obtain ⟨hl', hls'⟩ := List.forall_mem_cons.mp h'
      rw [List.flatten_cons, List.flatten_cons, List.append_assoc, List.append_assoc] at heq
      obtain ⟨rfl, hrest⟩ := front_unique hl hl' heq
      obtain ⟨rfl, hr⟩ := ih hls hls' hrest
      exact ⟨rfl, hr⟩

/-- What stands before the first terminator is a line with it. -/
theorem isLine_takeWhile [DecidableEq α] (nl : α) (q : List α) :
    IsLine nl (q.takeWhile (· ≠ nl) ++ [nl]) := by
  refine ⟨_, fun hmem => ?_, rfl⟩
  have hne := List.mem_takeWhile_imp hmem
  exact absurd rfl (of_decide_eq_true hne)

end KKNet.Lines
