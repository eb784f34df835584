import KKNet.PollDescriptors
import Mathlib.Order.Bounds.Basic
import Mathlib.Tactic

/-!
# The bound of the descriptors

`PollSelect` keeps one number above all its descriptors: adding raises it where it
has to, and deleting the descriptor that it names only takes one off. The number
starts as whatever the memory held, and stays an upper bound from then on. What
`select` is given is the number after it, and there is none after `INT_MAX`: a
descriptor that is registered under that bound is never polled.
-/

namespace KKNet.PollBound

open OrderedSets PollSelects PollRegistry Runs

/-- `INT_MAX`. -/
def INT_MAX : ℤ := 2 ^ 31 - 1

/-- `static_cast<int>(maxfd_+1)`, the first argument of `select`; there is no value where
the sum overflows. -/
def nfds (p : PollSelect) : Option ℤ :=
  if p.maxfd_ + 1 ≤ INT_MAX then some (p.maxfd_ + 1) else none

/-- A poller that was just constructed; `maxfd` is what the memory of `maxfd_` held. -/
def fresh (maxfd : ℤ) : PollSelect := ⟨OrderedSet.empty, maxfd⟩

/-- One call. -/
def step (p : PollSelect) (c : Call) : Option PollSelect := some (perform p c).1

/-- Nothing that is registered is cut off. -/
structure Covered (p : PollSelect) : Prop where
  /-- `maxfd_` is at least every registered descriptor. -/
  bound : ∀ fd h, p.Registered fd h → fd ≤ p.maxfd_
  /-- What `wait` puts into the sets is below the first argument of `select`. -/
  polled : ∀ fd e, (fd, some e) ∈ p.events_ → ∃ n, nfds p = some n ∧ e.fd < n

variable {p p' : PollSelect} {fd : ℤ} {c : Call}

/-! ### Upper bounds of integers -/

/-- The greater of a bound and a new element bounds both. -/
theorem upperBounds_max {s : Set ℤ} {b : ℤ} (h : b ∈ upperBounds s) (a : ℤ) :
    (if a > b then a else b) ∈ upperBounds (insert a s) := by
  rw [upperBounds_insert]
  split
  · rename_i hgt
    exact ⟨le_refl a, fun x hx => (h hx).trans hgt.le⟩
  · rename_i hle
    exact ⟨not_lt.mp hle, h⟩

/-- Without the element that equals it, a bound is one too great. -/
theorem upperBounds_pred {s : Set ℤ} {b : ℤ} (h : b ∈ upperBounds s) (a : ℤ) :
    (if b = a then b - 1 else b) ∈ upperBounds (s \ {a}) := by
  intro x ⟨hx, hne⟩
  have hle := h hx
  have hne : x ≠ a := hne
  split <;> omega

/-! ### The bound of the poller -/

/-- What every call keeps. -/
structure Bounded (p : PollSelect) : Prop where
  /-- `maxfd_` is an upper bound. -/
  upper : p.maxfd_ ∈ upperBounds (p.fds : Set ℤ)
  /-- An entry is stored under its own descriptor. -/
  own : ∀ fd e, p.entry fd = some e → e.fd = fd

theorem bounded_fresh (maxfd : ℤ) : Bounded (fresh maxfd) :=
  ⟨fun fd hfd => absurd (Finset.mem_coe.mp hfd) (Finset.notMem_empty fd), fun fd e he => by cases he⟩

/-- Flags do not move the bound. -/
theorem maxfd_flag {type : EventType} (on : Bool) : (p.flag fd type on).maxfd_ = p.maxfd_ := by
  unfold PollSelect.flag
  cases p.entry fd <;> rfl

/-- Deleting moves the bound only if it names the descriptor. -/
theorem maxfd_deleteFd (h : fd ∈ p.fds) :
    (p.deleteFd fd).1.maxfd_ = if p.maxfd_ = fd then p.maxfd_ - 1 else p.maxfd_ := by
  unfold PollSelect.deleteFd
  rw [if_neg (mem_fds_iff_entry.mp h)]

/-- Deleting what is not registered does not move the bound. -/
theorem maxfd_deleteFd_of_notMem (h : fd ∉ p.fds) : (p.deleteFd fd).1.maxfd_ = p.maxfd_ := by
  rw [mem_fds_iff_entry, not_not] at h
  unfold PollSelect.deleteFd
  rw [if_pos h]
  rfl

/-- The bound stays above what is left. -/
theorem upper_deleteFd (h : p.maxfd_ ∈ upperBounds (p.fds : Set ℤ)) :
    (p.deleteFd fd).1.maxfd_ ∈ upperBounds ((p.deleteFd fd).1.fds : Set ℤ) := by
  rw [fds_deleteFd, Finset.coe_erase]
  by_cases hfd : fd ∈ p.fds
  · rw [maxfd_deleteFd hfd]
    exact upperBounds_pred h fd
  · rw [maxfd_deleteFd_of_notMem hfd]
    exact fun x hx => h hx.1

/-- Every call keeps an upper bound. -/
theorem upper_perform (h : p.maxfd_ ∈ upperBounds (p.fds : Set ℤ)) (c : Call) :
    (perform p c).1.maxfd_ ∈ upperBounds ((perform p c).1.fds : Set ℤ) := by
  cases c with
  | addFd fd name =>
    show _ ∈ upperBounds ((p.addFd fd name).fds : Set ℤ)
    rw [fds_addFd, Finset.coe_insert]
    exact upperBounds_max h fd
  | setEvent fd type =>
    show (p.flag fd type true).maxfd_ ∈ upperBounds ((p.flag fd type true).fds : Set ℤ)
    rw [fds_flag, maxfd_flag]
    exact h
  | deleteEvent fd type =>
    show (p.flag fd type false).maxfd_ ∈ upperBounds ((p.flag fd type false).fds : Set ℤ)
    rw [fds_flag, maxfd_flag]
    exact h
  | deleteFd fd => exact upper_deleteFd h

/-- Flags do not move an entry. -/
theorem fd_withFlag (e : FdEvent) (type : EventType) (on : Bool) :
    (e.withFlag type on).fd = e.fd := by
  cases type <;> rfl

/-- Nor does changing one of a registered descriptor. -/
theorem own_flag (h : ∀ e, p.entry fd = some e → e.fd = fd) (type : EventType) (on : Bool) :
    ∀ e, (p.flag fd type on).entry fd = some e → e.fd = fd := by
  intro e he
  rw [entry_flag] at he
  obtain ⟨e₀, he₀, rfl⟩ := Option.map_eq_some_iff.mp he
  rw [fd_withFlag]
  exact h e₀ he₀

/-- Every call stores an entry under its own descriptor. -/
theorem own_perform (h : ∀ fd e, p.entry fd = some e → e.fd = fd) (c : Call) :
    ∀ fd e, (perform p c).1.entry fd = some e → e.fd = fd := by
  intro fd e he
  by_cases hfd : fd = c.fd
  · subst hfd
    cases c with
    | addFd fd name =>
      rw [show (perform p (.addFd fd name)).1 = p.addFd fd name from rfl] at he
      rw [show Call.fd (.addFd fd name) = fd from rfl, entry_addFd] at he
      cases he
      rfl
    | setEvent fd type => exact own_flag (h fd) type true e he
    | deleteEvent fd type => exact own_flag (h fd) type false e he
    | deleteFd fd =>
      rw [show (perform p (.deleteFd fd)).1 = (p.deleteFd fd).1 from rfl] at he
      rw [show Call.fd (.deleteFd fd) = fd from rfl, entry_deleteFd] at he
      cases he
  · rw [entry_perform_of_ne hfd] at he
    exact h fd e he

theorem Bounded.perform (h : Bounded p) (c : Call) : Bounded (perform p c).1 :=
  ⟨upper_perform h.upper c, own_perform h.own c⟩

/-- Whatever the memory held, the bound is above every registered descriptor after every
sequence of calls. -/
theorem bounded_run {maxfd : ℤ} {calls : List Call} (hrun : run step (fresh maxfd) calls = some p) :
    Bounded p := by
  refine invariant Bounded (fun p c p' h he => ?_) (bounded_fresh maxfd) hrun
  cases he
  exact h.perform c

/-- A call leaves the bound, moves it to its descriptor or just below. -/
theorem maxfd_perform_cases (p : PollSelect) (c : Call) :
    (perform p c).1.maxfd_ = p.maxfd_ ∨ (perform p c).1.maxfd_ = c.fd ∨
      (perform p c).1.maxfd_ = c.fd - 1 := by
  cases c with
  | addFd fd name =>
    show (if fd > p.maxfd_ then fd else p.maxfd_) = p.maxfd_ ∨ _
    split
    · exact Or.inr (Or.inl (if_pos ‹_›))
    · exact Or.inl rfl
  | setEvent fd type => exact Or.inl (maxfd_flag true)
  | deleteEvent fd type => exact Or.inl (maxfd_flag false)
  | deleteFd fd =>
    show (p.deleteFd fd).1.maxfd_ = p.maxfd_ ∨ _ ∨ (p.deleteFd fd).1.maxfd_ = fd - 1
    by_cases hfd : fd ∈ p.fds
    · rw [maxfd_deleteFd hfd]
      split
      · rename_i heq
        rw [heq]
        exact Or.inr (Or.inr rfl)
      · exact Or.inl rfl
    · exact Or.inl (maxfd_deleteFd_of_notMem hfd)

/-- With descriptors that are not negative the bound never leaves the range of `int`. -/
theorem int_run {maxfd : ℤ} (hmaxfd : -2 ^ 31 ≤ maxfd ∧ maxfd ≤ INT_MAX) {calls : List Call}
    (hfds : ∀ c ∈ calls, 0 ≤ c.fd ∧ c.fd ≤ INT_MAX) (hrun : run step (fresh maxfd) calls = some p) :
    -2 ^ 31 ≤ p.maxfd_ ∧ p.maxfd_ ≤ INT_MAX := by
  have hmeets : Meets step (fun _ c => 0 ≤ c.fd ∧ c.fd ≤ INT_MAX) (fresh maxfd) calls :=
    meets_of_forall (fun c : Call => 0 ≤ c.fd ∧ c.fd ≤ INT_MAX) hfds (fresh maxfd)
  refine invariant_of_meets (fun p => -2 ^ 31 ≤ p.maxfd_ ∧ p.maxfd_ ≤ INT_MAX)
    (fun p c p' h hc he => ?_) hmaxfd hmeets hrun
  cases he
  have hcases := maxfd_perform_cases p c
  omega

/-! ### Reaching the last integer -/

/-- Adding raises the bound where it has to. -/
theorem maxfd_perform_of_adds (hadds : c.adds = true) :
    (perform p c).1.maxfd_ = max p.maxfd_ c.fd := by
  cases c with
  | addFd fd name =>
    show (if fd > p.maxfd_ then fd else p.maxfd_) = max p.maxfd_ fd
    rw [max_def]
    split <;> split <;> omega
  | setEvent fd type => cases hadds
  | deleteEvent fd type => cases hadds
  | deleteFd fd => cases hadds

/-- No other call raises it, and without descriptors none lowers it. -/
theorem maxfd_perform_of_not_adds (hadds : c.adds = false) :
    (perform p c).1.maxfd_ ≤ p.maxfd_ ∧ (p.fds = ∅ → (perform p c).1.maxfd_ = p.maxfd_) := by
  cases c with
  | addFd fd name => cases hadds
  | setEvent fd type => exact ⟨(maxfd_flag true).le, fun _ => maxfd_flag true⟩
  | deleteEvent fd type => exact ⟨(maxfd_flag false).le, fun _ => maxfd_flag false⟩
  | deleteFd fd =>
    show (p.deleteFd fd).1.maxfd_ ≤ p.maxfd_ ∧ (p.fds = ∅ → (p.deleteFd fd).1.maxfd_ = p.maxfd_)
    by_cases hfd : fd ∈ p.fds
    · rw [maxfd_deleteFd hfd]
      refine ⟨by split <;> omega, fun hempty => ?_⟩
      rw [hempty] at hfd
      exact absurd hfd (Finset.notMem_empty fd)
    · rw [maxfd_deleteFd_of_notMem hfd]
      exact ⟨le_refl _, fun _ => rfl⟩

/-- The descriptors after a call that adds. -/
theorem fds_perform_of_adds (hadds : c.adds = true) : (perform p c).1.fds = insert c.fd p.fds := by
  cases c with
  | addFd fd name => exact fds_addFd name
  | setEvent fd type => cases hadds
  | deleteEvent fd type => cases hadds
  | deleteFd fd => cases hadds

/-- Any other call registers nothing. -/
theorem fds_perform_of_not_adds (hadds : c.adds = false) : (perform p c).1.fds ⊆ p.fds := by
  cases c with
  | addFd fd name => cases hadds
  | setEvent fd type => exact (fds_setEvent (p := p)).subset
  | deleteEvent fd type => exact (fds_deleteEvent (p := p)).subset
  | deleteFd fd =>
    show (p.deleteFd fd).1.fds ⊆ p.fds
    rw [fds_deleteFd]
    exact Finset.erase_subset fd p.fds

/-- An upper bound covers what is registered unless it is the last integer. -/
theorem Bounded.covered_iff (h : Bounded p) : Covered p ↔ p.fds = ∅ ∨ p.maxfd_ < INT_MAX := by
  constructor
  · intro hcov
    rcases p.fds.eq_empty_or_nonempty with hempty | ⟨fd, hfd⟩
    · exact Or.inl hempty
    · obtain ⟨e, he⟩ := mem_fds.mp hfd
      obtain ⟨n, hn, _⟩ := hcov.polled fd e he
      unfold nfds at hn
      split at hn
      · exact Or.inr (by omega)
      · cases hn
  · intro hroom
    refine ⟨fun fd name hreg => h.upper (mem_fds_iff_registered.mpr ⟨name, hreg⟩), ?_⟩
    intro fd e he
    have hmem : fd ∈ p.fds := mem_fds.mpr ⟨e, he⟩
    have hlt : p.maxfd_ < INT_MAX := by
      refine hroom.resolve_left fun hempty => ?_
      rw [hempty] at hmem
      exact absurd hmem (Finset.notMem_empty fd)
    have hle : fd ≤ p.maxfd_ := h.upper hmem
    refine ⟨p.maxfd_ + 1, if_pos (by omega), ?_⟩
    rw [h.own fd e (entry_of_mem he)]
    omega

/-- There is room for the descriptor of a call below the last integer. -/
def Room (maxfd : ℤ) (c : Call) : Prop := c.adds = true → maxfd < INT_MAX ∧ c.fd < INT_MAX

/-- A call keeps the cover if there is room, and leaves as much room as there was. -/
theorem covered_perform_iff (h : Bounded p) (hcov : Covered p) (c : Call) :
    (Covered (perform p c).1 ↔ Room p.maxfd_ c) ∧
      (Room p.maxfd_ c → ((perform p c).1.maxfd_ < INT_MAX ↔ p.maxfd_ < INT_MAX)) := by
  rw [(h.perform c).covered_iff]
  rw [h.covered_iff] at hcov
  unfold Room
  cases hadds : c.adds with
  | true =>
    have hne : (perform p c).1.fds ≠ ∅ := by
      rw [fds_perform_of_adds hadds]
      exact Finset.insert_ne_empty _ _
    rw [maxfd_perform_of_adds hadds, or_iff_right hne, max_lt_iff]
    exact ⟨⟨fun hlt _ => hlt, fun hroom => hroom rfl⟩, fun hroom => and_iff_left (hroom rfl).2⟩
  | false =>
    obtain ⟨hle, hsame⟩ := maxfd_perform_of_not_adds (p := p) hadds
    rcases hcov with hempty | hlt
    · have hempty' : (perform p c).1.fds = ∅ :=
        Finset.subset_empty.mp (hempty ▸ fds_perform_of_not_adds hadds)
      rw [hsame hempty]
      exact ⟨iff_of_true (Or.inl hempty') (fun hfalse => by cases hfalse), fun _ => Iff.rfl⟩
    · have hlt' := hle.trans_lt hlt
      exact ⟨iff_of_true (Or.inr hlt') (fun hfalse => by cases hfalse), fun _ => iff_of_true hlt' hlt⟩

/-- A run from a covered poller keeps the cover exactly if there is room for every call. -/
theorem along_covered_iff (h : Bounded p) (hcov : Covered p) (calls : List Call) :
    Along step (fun _ _ p' => Covered p') p calls ↔ ∀ c ∈ calls, Room p.maxfd_ c := by
  induction calls generalizing p with
  | nil => exact iff_of_true trivial fun c hc => absurd hc List.not_mem_nil
  | cons c calls ih =>
    obtain ⟨hiff, hsame⟩ := covered_perform_iff h hcov c
    rw [List.forall_mem_cons]
    constructor
    · intro halong
      obtain ⟨hcov', hrest⟩ := halong (perform p c).1 rfl
      have hroom := hiff.mp hcov'
      refine ⟨hroom, fun d hd hadds => ?_⟩
      obtain ⟨hlt, hfd⟩ := (ih (h.perform c) hcov').mp hrest d hd hadds
      exact ⟨(hsame hroom).mp hlt, hfd⟩
    · rintro ⟨hroom, hrest⟩ p' he
      cases he
      have hcov' := hiff.mpr hroom
      refine ⟨hcov', (ih (h.perform c) hcov').mpr fun d hd hadds => ?_⟩
      obtain ⟨hlt, hfd⟩ := hrest d hd hadds
      exact ⟨(hsame hroom).mpr hlt, hfd⟩

/-- Nothing is cut off throughout a sequence of calls exactly if it adds nothing, or if
neither what the memory held nor a descriptor it adds is the last integer. -/
theorem select_covers_iff (maxfd : ℤ) (calls : List Call) :
    Along step (fun _ _ p' => Covered p') (fresh maxfd) calls ↔
      ∀ c ∈ calls, c.adds = true → maxfd < INT_MAX ∧ c.fd < INT_MAX :=
  have hbounded := bounded_fresh maxfd
  along_covered_iff hbounded (hbounded.covered_iff.mpr (Or.inl (fds_empty maxfd))) calls

/-- Over memory that held the last integer, the first descriptor that is added is cut off. -/
theorem overflowed :
    ¬Along step (fun _ _ p' => Covered p') (fresh INT_MAX) [.addFd 5 0] := by
  intro halong
  obtain ⟨hcov, _⟩ := halong _ rfl
  obtain ⟨n, hn, _⟩ := hcov.polled 5 ⟨5, false, false, false, 0⟩ (List.mem_singleton.mpr rfl)
  have hnone : nfds (perform (fresh INT_MAX) (.addFd 5 0)).1 = none := by decide
  rw [hnone] at hn
  cases hn

end KKNet.PollBound
