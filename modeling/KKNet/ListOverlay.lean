import Mathlib.Tactic

/-!
# Overwriting a range of a list

`overlay xs off ys` is the list `xs` after the entries of `ys` have been
copied over it from position `off`, cut at the end of `xs`. The lemmas split
an overlay at a boundary inside the list and read the window it was appended
to.
-/

namespace KKNet.ListOverlay

variable {α : Type*}

/-- Copy `ys` over `xs` from position `off`, keeping the length of `xs`. -/
def overlay (xs : List α) (off : ℕ) (ys : List α) : List α :=
  xs.take off ++ ys.take (xs.length - off) ++ xs.drop (off + ys.length)

@[simp] theorem length_overlay (xs : List α) (off : ℕ) (ys : List α) :
    (overlay xs off ys).length = xs.length := by
  simp only [overlay, List.length_append, List.length_take, List.length_drop]
  omega

@[simp] theorem overlay_nil (xs : List α) (off : ℕ) : overlay xs off [] = xs := by
  simp [overlay]

/-- An overlay that ends inside the first part leaves the second part alone. -/
theorem overlay_append_left {xs ys : List α} {off : ℕ} (zs : List α)
    (h : off + ys.length ≤ xs.length) : overlay (xs ++ zs) off ys = overlay xs off ys ++ zs := by
  simp only [overlay, List.length_append]
  rw [List.take_append_of_le_length (by omega), List.drop_append_of_le_length h,
    List.take_of_length_le (by omega : ys.length ≤ xs.length + zs.length - off),
    List.take_of_length_le (by omega : ys.length ≤ xs.length - off)]
  simp only [List.append_assoc]

/-- An overlay that starts behind the first part leaves the first part alone. -/
theorem overlay_append_right (xs zs ys : List α) (k : ℕ) :
    overlay (xs ++ zs) (xs.length + k) ys = xs ++ overlay zs k ys := by
  simp only [overlay, List.length_append]
  rw [List.take_length_add_append, Nat.add_assoc, List.drop_length_add_append,
    Nat.add_sub_add_left]
  simp only [List.append_assoc]

/-- An overlay that crosses the boundary fills the first part to its end and
continues at the start of the second part. -/
theorem overlay_append_cross {xs ys : List α} {off : ℕ} (zs : List α) (hoff : off ≤ xs.length)
    (h : xs.length - off ≤ ys.length) :
    overlay (xs ++ zs) off ys =
      overlay xs off (ys.take (xs.length - off)) ++ overlay zs 0 (ys.drop (xs.length - off)) := by
  have hy : (ys.take (xs.length - off)).length = xs.length - off := by
    rw [List.length_take]
    omega
  have hxs : xs.drop (off + (ys.take (xs.length - off)).length) = [] :=
    List.drop_eq_nil_of_le (by omega)
  have hsplit : ys.take (xs.length + zs.length - off) =
      ys.take (xs.length - off) ++ (ys.drop (xs.length - off)).take zs.length := by
    rw [← List.take_add]
    congr 1
    omega
  have hrest : (xs ++ zs).drop (off + ys.length) =
      zs.drop (ys.drop (xs.length - off)).length := by
    rw [List.drop_append, List.drop_eq_nil_of_le (by omega), List.nil_append, List.length_drop]
    congr 1
    omega
  simp only [overlay, List.length_append, hxs, hsplit, hrest]
  rw [List.take_append_of_le_length hoff, List.take_take, Nat.min_self]
  simp

/-- Filling the first part and then the second with what is left is one overlay
of as much as both parts take. -/
theorem overlay_append_take {xs : List α} (off : ℕ) (zs ys : List α) (n : ℕ)
    (hoff : off ≤ xs.length) :
    overlay (xs ++ zs) off (ys.take (xs.length - off + n)) =
      overlay xs off (ys.take (xs.length - off)) ++
        overlay zs 0 ((ys.drop (xs.length - off)).take n) := by
  by_cases hy : ys.length ≤ xs.length - off
  · have hall : ys.take (xs.length - off + n) = ys := List.take_of_length_le (by omega)
    have hfirst : ys.take (xs.length - off) = ys := List.take_of_length_le hy
    have hrest : ys.drop (xs.length - off) = [] := List.drop_eq_nil_of_le hy
    rw [hall, hfirst, hrest, List.take_nil, overlay_nil, overlay_append_left zs (by omega)]
  · rw [overlay_append_cross zs hoff (by rw [List.length_take]; omega), List.take_take,
      Nat.min_eq_left (by omega), List.drop_take, Nat.add_sub_cancel_left]

/-- What stands before the overlay stays. -/
theorem getElem?_overlay_before {xs ys : List α} {off i : ℕ} (hi : i < off) :
    (overlay xs off ys)[i]? = xs[i]? := by
  unfold overlay
  by_cases hlen : i < xs.length
  · rw [List.append_assoc, List.getElem?_append_left (by rw [List.length_take]; omega),
      List.getElem?_take_of_lt hi]
  · rw [List.getElem?_eq_none (by simp only [List.length_append, List.length_take, List.length_drop]; omega),
      List.getElem?_eq_none (by omega)]

/-- Appending at the end of a window: the window grows by exactly the data
that was copied. -/
theorem window_overlay {xs ys : List α} {u r : ℕ} (h : u + r + ys.length ≤ xs.length) :
    ((overlay xs (u + r) ys).drop u).take (r + ys.length) = (xs.drop u).take r ++ ys := by
  have hys : ys.take (xs.length - (u + r)) = ys := List.take_of_length_le (by omega)
  have hd : ((xs.take (u + r) ++ ys) ++ xs.drop (u + r + ys.length)).drop u =
      ((xs.drop u).take r ++ ys) ++ xs.drop (u + r + ys.length) := by
    rw [List.drop_append_of_le_length (by simp only [List.length_append, List.length_take]; omega),
      List.drop_append_of_le_length (by rw [List.length_take]; omega), List.drop_take]
    congr 3
    omega
  have hl : ((xs.drop u).take r ++ ys).length = r + ys.length := by
    simp only [List.length_append, List.length_take, List.length_drop]
    omega
  rw [overlay, hys, hd, ← hl, List.take_left']
  rfl

end KKNet.ListOverlay
