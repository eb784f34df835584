import Mathlib.Tactic

/-!
# Doubly linked cells on a heap

A heap is a list of cells and an address is an index into it, so a new cell
always lies past every address in use. A segment relates an explicit list of
addresses and payloads to the links actually stored in the heap. Segments
split at any inner address, are framed by writes elsewhere, and are rotated
or extended by the usual link writes.
-/

namespace KKNet.LinkedCells

variable {α : Type*}

/-- A heap cell: its payload and its two links; `none` is the null pointer. -/
structure Cell (α : Type*) where
  /-- Payload, never inspected by the link operations. -/
  val : α
  /-- Link to the previous cell of the chain. -/
  last : Option ℕ
  /-- Link to the following cell of the chain. -/
  next : Option ℕ

/-- The cells allocated so far, in order of allocation. -/
abbrev Heap (α : Type*) := List (Cell α)

/-- Read through a pointer; following the null pointer has no result. -/
def cellAt (h : Heap α) (p : Option ℕ) : Option (Cell α) := p.bind fun a => h[a]?

/-- Change one cell through a pointer; following the null pointer has no result. -/
def modifyAt (h : Heap α) (p : Option ℕ) (f : Cell α → Cell α) : Option (Heap α) :=
  p.bind fun a => if a < h.length then some (h.modify a f) else none

/-- Store `p->next = q`. -/
def setNext (h : Heap α) (p q : Option ℕ) : Option (Heap α) :=
  modifyAt h p fun c => { c with next := q }

/-- Store `p->last = q`. -/
def setLast (h : Heap α) (p q : Option ℕ) : Option (Heap α) :=
  modifyAt h p fun c => { c with last := q }

/-- Store a payload. -/
def setVal (h : Heap α) (p : Option ℕ) (v : α) : Option (Heap α) :=
  modifyAt h p fun c => { c with val := v }

/-- Address of the first entry, or the given continuation. -/
def firstPtr : List (ℕ × α) → Option ℕ → Option ℕ
  | [], n => n
  | c :: _, _ => some c.1

/-- Address of the final entry, or the given predecessor. -/
def lastPtr : List (ℕ × α) → Option ℕ → Option ℕ
  | [], p => p
  | c :: xs, _ => lastPtr xs (some c.1)

/-- The entries of `xs` stand in the heap in this order, entered from `p` and
left towards `n`. -/
def Seg (h : Heap α) (p : Option ℕ) : List (ℕ × α) → Option ℕ → Prop
  | [], _ => True
  | c :: xs, n => h[c.1]? = some ⟨c.2, p, firstPtr xs n⟩ ∧ Seg h (some c.1) xs n

/-- The addresses of a segment. -/
abbrev addrs (xs : List (ℕ × α)) : List ℕ := xs.map Prod.fst

@[simp] theorem firstPtr_nil (n : Option ℕ) : firstPtr ([] : List (ℕ × α)) n = n := rfl

@[simp] theorem firstPtr_cons (c : ℕ × α) (xs : List (ℕ × α)) (n : Option ℕ) :
    firstPtr (c :: xs) n = some c.1 := rfl

@[simp] theorem lastPtr_nil (p : Option ℕ) : lastPtr ([] : List (ℕ × α)) p = p := rfl

@[simp] theorem lastPtr_cons (c : ℕ × α) (xs : List (ℕ × α)) (p : Option ℕ) :
    lastPtr (c :: xs) p = lastPtr xs (some c.1) := rfl

theorem firstPtr_append (xs ys : List (ℕ × α)) (n : Option ℕ) :
    firstPtr (xs ++ ys) n = firstPtr xs (firstPtr ys n) := by
  cases xs <;> rfl

theorem lastPtr_append (xs ys : List (ℕ × α)) (p : Option ℕ) :
    lastPtr (xs ++ ys) p = lastPtr ys (lastPtr xs p) := by
  induction xs generalizing p with
  | nil => rfl
  | cons c xs ih => exact ih (some c.1)

/-- On a null continuation the first pointer is the first address. -/
theorem firstPtr_eq (xs : List (ℕ × α)) : firstPtr xs none = (addrs xs)[0]? := by
  cases xs <;> rfl

/-- On a null predecessor the last pointer is the final address. -/
theorem lastPtr_eq (xs : List (ℕ × α)) (p : Option ℕ) :
    lastPtr xs p = ((addrs xs).getLast?).or p := by
  induction xs generalizing p with
  | nil => rfl
  | cons c xs ih =>
    rw [lastPtr_cons, ih]
    cases hx : (addrs xs).getLast? <;> simp [List.getLast?_cons, hx]

/-- A segment splits at every inner position, and two segments that meet
through their links join. -/
theorem seg_append {h : Heap α} {p n : Option ℕ} {xs ys : List (ℕ × α)} :
    Seg h p (xs ++ ys) n ↔ Seg h p xs (firstPtr ys n) ∧ Seg h (lastPtr xs p) ys n := by
  induction xs generalizing p with
  | nil => simp [Seg]
  | cons c xs ih => simp only [List.cons_append, Seg, lastPtr_cons, ih, firstPtr_append, and_assoc]

/-- What is stored at an inner address of a segment. -/
theorem seg_get {h : Heap α} {p n : Option ℕ} {xs ys : List (ℕ × α)} {c : ℕ × α}
    (hs : Seg h p (xs ++ c :: ys) n) :
    h[c.1]? = some ⟨c.2, lastPtr xs p, firstPtr ys n⟩ :=
  (seg_append.mp hs).2.1

/-- Every address of a segment is allocated. -/
theorem seg_lt {h : Heap α} {p n : Option ℕ} {xs : List (ℕ × α)} (hs : Seg h p xs n) :
    ∀ a ∈ addrs xs, a < h.length := by
  induction xs generalizing p with
  | nil => simp
  | cons c xs ih =>
    intro a ha
    rcases List.mem_cons.mp ha with rfl | ha
    · exact (List.getElem?_eq_some_iff.mp hs.1).1
    · exact ih hs.2 a ha

/-- A segment without repeated addresses is no longer than the heap. -/
theorem seg_length_le {h : Heap α} {p n : Option ℕ} {xs : List (ℕ × α)}
    (hs : Seg h p xs n) (hd : (addrs xs).Nodup) : xs.length ≤ h.length := by
  have hsub : addrs xs ⊆ List.range h.length :=
    fun a ha => List.mem_range.mpr (seg_lt hs a ha)
  simpa using (hd.subperm hsub).length_le

/-- Writes outside a segment leave it in place. -/
theorem seg_modify_frame {h : Heap α} {p n : Option ℕ} {xs : List (ℕ × α)} {a : ℕ}
    {f : Cell α → Cell α} (ha : a ∉ addrs xs) :
    Seg (h.modify a f) p xs n ↔ Seg h p xs n := by
  induction xs generalizing p with
  | nil => rfl
  | cons c xs ih =>
    obtain ⟨hne, hmem⟩ := not_or.mp (fun hc => ha (List.mem_cons.mpr hc))
    simp only [Seg, ih hmem, List.getElem?_modify, if_neg hne, Option.map_eq_map, Option.map_id_fun',
      id_eq]

/-- Allocation leaves a segment in place. -/
theorem seg_alloc_frame {h : Heap α} {p n : Option ℕ} {xs : List (ℕ × α)} (c : Cell α)
    (hs : Seg h p xs n) : Seg (h ++ [c]) p xs n := by
  induction xs generalizing p with
  | nil => trivial
  | cons d xs ih =>
    refine ⟨?_, ih hs.2⟩
    rw [List.getElem?_append_left (List.getElem?_eq_some_iff.mp hs.1).1]
    exact hs.1

/-- Rewriting the forward link of the final cell redirects the segment. -/
theorem seg_setNext_last {h : Heap α} {p n m : Option ℕ} {xs : List (ℕ × α)} {c : ℕ × α}
    (hs : Seg h p (xs ++ [c]) n) (hd : (addrs (xs ++ [c])).Nodup) :
    Seg (h.modify c.1 fun d => { d with next := m }) p (xs ++ [c]) m := by
  obtain ⟨hx, hc, _⟩ := seg_append.mp hs
  have hn : c.1 ∉ addrs xs := by
    have hp := (List.nodup_append.mp (by simpa using hd)).2.2
    exact fun hm => hp c.1 hm c.1 (by simp) rfl
  refine seg_append.mpr ⟨(seg_modify_frame hn).mpr hx, ?_, trivial⟩
  simp [hc]

/-- Rewriting the backward link of the first cell re-enters the segment. -/
theorem seg_setLast_first {h : Heap α} {p q n : Option ℕ} {xs : List (ℕ × α)} {c : ℕ × α}
    (hs : Seg h p (c :: xs) n) (hd : (addrs (c :: xs)).Nodup) :
    Seg (h.modify c.1 fun d => { d with last := q }) q (c :: xs) n := by
  have hn : c.1 ∉ addrs xs := (List.nodup_cons.mp hd).1
  refine ⟨?_, (seg_modify_frame hn).mpr hs.2⟩
  simp [hs.1]

/-- Rewriting a payload changes one entry of the segment. -/
theorem seg_setVal {h : Heap α} {p n : Option ℕ} {xs ys : List (ℕ × α)} {c : ℕ × α} {v : α}
    (hs : Seg h p (xs ++ c :: ys) n) (hd : (addrs (xs ++ c :: ys)).Nodup) :
    Seg (h.modify c.1 fun d => { d with val := v }) p (xs ++ (c.1, v) :: ys) n := by
  obtain ⟨hx, hc, hy⟩ := seg_append.mp hs
  have hsplit := List.nodup_append.mp (by simpa using hd)
  have hnx : c.1 ∉ addrs xs := fun hm => hsplit.2.2 c.1 hm c.1 (by simp) rfl
  have hny : c.1 ∉ addrs ys := (List.nodup_cons.mp hsplit.2.1).1
  refine seg_append.mpr ⟨(seg_modify_frame hnx).mpr ?_, ?_, (seg_modify_frame hny).mpr hy⟩
  · simpa using hx
  · simp [hc]

/-- A write through an allocated pointer succeeds and keeps the heap's size. -/
theorem modifyAt_some {h : Heap α} {a : ℕ} (ha : a < h.length) (f : Cell α → Cell α) :
    modifyAt h (some a) f = some (h.modify a f) := by
  simp [modifyAt, ha]

/-- A write through a pointer allocates nothing. -/
theorem modifyAt_length {h h' : Heap α} {p : Option ℕ} {f : Cell α → Cell α}
    (hm : modifyAt h p f = some h') : h'.length = h.length := by
  cases p with
  | none => cases hm
  | some a =>
    by_cases ha : a < h.length
    · rw [modifyAt_some ha, Option.some.injEq] at hm
      rw [← hm, List.length_modify]
    · simp [modifyAt, ha] at hm

/-- A heap is determined by a chain that uses up all its cells. -/
theorem seg_heap_ext {h h' : Heap α} {p n : Option ℕ} {xs : List (ℕ × α)} (hs : Seg h p xs n)
    (hs' : Seg h' p xs n) (hd : (addrs xs).Nodup) (hall : h.length = xs.length)
    (hlen : h'.length = h.length) : h' = h := by
  have hsub : addrs xs ⊆ List.range h.length := fun a ha => List.mem_range.mpr (seg_lt hs a ha)
  have hperm : (addrs xs).Perm (List.range h.length) :=
    (hd.subperm hsub).perm_of_length_le (by simp [hall])
  refine List.ext_getElem? fun a => ?_
  by_cases ha : a < h.length
  · obtain ⟨c, hc, rfl⟩ := List.mem_map.mp (hperm.mem_iff.mpr (List.mem_range.mpr ha))
    obtain ⟨pre, post, rfl⟩ := List.append_of_mem hc
    rw [seg_get hs, seg_get hs']
  · rw [List.getElem?_eq_none (by omega), List.getElem?_eq_none (by omega)]

/-- The final cell of a segment can be redirected; disjoint segments stay. -/
theorem setNext_lastPtr {h : Heap α} {p n m : Option ℕ} {xs : List (ℕ × α)}
    (hs : Seg h p xs n) (hd : (addrs xs).Nodup) (hx : xs ≠ []) :
    ∃ h', setNext h (lastPtr xs none) m = some h' ∧ Seg h' p xs m ∧ h'.length = h.length ∧
      ∀ ys q k, List.Disjoint (addrs xs) (addrs ys) → Seg h q ys k → Seg h' q ys k := by
  obtain ⟨init, c, rfl⟩ := (List.eq_nil_or_concat' xs).resolve_left hx
  have hlt : c.1 < h.length := seg_lt hs c.1 (by simp)
  refine ⟨_, ?_, seg_setNext_last hs hd, by simp, ?_⟩
  · rw [lastPtr_append]
    exact modifyAt_some hlt _
  · intro ys q k hdis hy
    exact (seg_modify_frame (fun hm => hdis (by simp) hm)).mpr hy

/-- The first cell of a segment can be re-entered; disjoint segments stay. -/
theorem setLast_firstPtr {h : Heap α} {p q n : Option ℕ} {xs : List (ℕ × α)}
    (hs : Seg h p xs n) (hd : (addrs xs).Nodup) (hx : xs ≠ []) :
    ∃ h', setLast h (firstPtr xs none) q = some h' ∧ Seg h' q xs n ∧ h'.length = h.length ∧
      ∀ ys r k, List.Disjoint (addrs xs) (addrs ys) → Seg h r ys k → Seg h' r ys k := by
  cases xs with
  | nil => exact absurd rfl hx
  | cons c xs =>
    have hlt : c.1 < h.length := seg_lt hs c.1 (by simp)
    refine ⟨_, modifyAt_some hlt _, seg_setLast_first hs hd, by simp, ?_⟩
    intro ys r k hdis hy
    exact (seg_modify_frame (fun hm => hdis (by simp) hm)).mpr hy

/-- Detaching the front part of a chain and hanging it behind the rest: the
four link writes turn `xs ++ ys` into `ys ++ xs`. -/
theorem seg_rotate {h : Heap α} {xs ys : List (ℕ × α)} (hs : Seg h none (xs ++ ys) none)
    (hd : (addrs (xs ++ ys)).Nodup) (hx : xs ≠ []) (hy : ys ≠ []) :
    ∃ h₁ h₂ h₃ h₄, setNext h (lastPtr xs none) none = some h₁ ∧
      setLast h₁ (firstPtr ys none) none = some h₂ ∧
      setLast h₂ (firstPtr xs none) (lastPtr ys none) = some h₃ ∧
      setNext h₃ (lastPtr ys none) (firstPtr xs none) = some h₄ ∧
      Seg h₄ none (ys ++ xs) none ∧ h₄.length = h.length := by
  obtain ⟨hdx, hdy, hne⟩ := List.nodup_append.mp (by simpa using hd)
  have hxy : List.Disjoint (addrs xs) (addrs ys) := fun a ha hb => hne a ha a hb rfl
  obtain ⟨hsx, hsy⟩ := seg_append.mp hs
  -- cut the front part off, then give both parts their new neighbours
  obtain ⟨h₁, e₁, hx₁, l₁, f₁⟩ := setNext_lastPtr (m := none) hsx hdx hx
  obtain ⟨h₂, e₂, hy₂, l₂, f₂⟩ := setLast_firstPtr (q := none) (f₁ _ _ _ hxy hsy) hdy hy
  have hx₂ := f₂ _ _ _ hxy.symm hx₁
  obtain ⟨h₃, e₃, hx₃, l₃, f₃⟩ := setLast_firstPtr (q := lastPtr ys none) hx₂ hdx hx
  have hy₃ := f₃ _ _ _ hxy hy₂
  obtain ⟨h₄, e₄, hy₄, l₄, f₄⟩ := setNext_lastPtr (m := firstPtr xs none) hy₃ hdy hy
  have hx₄ := f₄ _ _ _ hxy.symm hx₃
  exact ⟨h₁, h₂, h₃, h₄, e₁, e₂, e₃, e₄, seg_append.mpr ⟨hy₄, hx₄⟩, by omega⟩

/-- A new cell linked behind a nonempty chain extends it. -/
theorem seg_extend {h : Heap α} {p : Option ℕ} {xs : List (ℕ × α)} {v : α}
    (hs : Seg h p xs none) (hd : (addrs xs).Nodup) (hx : xs ≠ []) :
    ∃ h', setNext (h ++ [⟨v, lastPtr xs none, none⟩]) (lastPtr xs none) (some h.length) = some h' ∧
      Seg h' p (xs ++ [(h.length, v)]) none ∧ h'.length = h.length + 1 := by
  have hfresh : h.length ∉ addrs xs := fun hm => lt_irrefl _ (seg_lt hs _ hm)
  obtain ⟨h', e, hx', l, f⟩ := setNext_lastPtr (m := some h.length)
    (seg_alloc_frame ⟨v, lastPtr xs none, none⟩ hs) hd hx
  have hlast : lastPtr xs p = lastPtr xs none := by
    cases xs with
    | nil => exact absurd rfl hx
    | cons c xs => rfl
  have hnew : Seg (h ++ [⟨v, lastPtr xs none, none⟩]) (lastPtr xs p) [(h.length, v)] none :=
    ⟨by simp [hlast], trivial⟩
  have hdis : List.Disjoint (addrs xs) (addrs [(h.length, v)]) := by simpa using hfresh
  exact ⟨h', e, seg_append.mpr ⟨hx', f _ _ _ hdis hnew⟩, by simpa using l⟩

end KKNet.LinkedCells
