import KKNet.PollSelect
import KKNet.Runs

/-!
# The registry of the poller

What the calls on the poller are for is a partial function from descriptors to
interests. The registry represents it as long as every call names a descriptor
that is registered: the guard of the other calls reads the map with `operator[]`
and so leaves a null entry under a descriptor it then refuses, which the next
`wait` follows.
-/

namespace KKNet.PollRegistry

open OrderedSets PollSelects Runs

/-- A call on the poller. -/
inductive Call
  | addFd (fd : ℤ) (h : ℕ)
  | setEvent (fd : ℤ) (type : EventType)
  | deleteEvent (fd : ℤ) (type : EventType)
  | deleteFd (fd : ℤ)
  deriving DecidableEq

/-- The descriptor of a call. -/
def Call.fd : Call → ℤ
  | .addFd fd _ => fd
  | .setEvent fd _ => fd
  | .deleteEvent fd _ => fd
  | .deleteFd fd => fd

/-- The call registers its descriptor. -/
def Call.adds : Call → Bool
  | .addFd _ _ => true
  | _ => false

/-- The handler that a call registers. -/
def Call.handlers : Call → List ℕ
  | .addFd _ h => [h]
  | _ => []

/-- The poller after a call, and what the call returns. -/
def perform (p : PollSelect) : Call → PollSelect × Option Bool
  | .addFd fd h => (p.addFd fd h, some true)
  | .setEvent fd type => p.setEvent fd type
  | .deleteEvent fd type => ((p.deleteEvent fd type).1, some (p.deleteEvent fd type).2)
  | .deleteFd fd => ((p.deleteFd fd).1, some (p.deleteFd fd).2)

/-- The interest in each registered descriptor. -/
abbrev Interests := ℤ → Option FdEvent

/-- What a call is for. -/
def Call.meaning (b : Interests) : Call → Interests
  | .addFd fd h => Function.update b fd (some ⟨fd, false, false, false, h⟩)
  | .setEvent fd type => Function.update b fd ((b fd).map fun e => e.withFlag type true)
  | .deleteEvent fd type => Function.update b fd ((b fd).map fun e => e.withFlag type false)
  | .deleteFd fd => Function.update b fd none

/-- The map has an entry for exactly the registered descriptors, none of them
null and each with the interest in its descriptor. -/
def Exact (events : Events) (b : Interests) : Prop :=
  ∀ fd o, (fd, o) ∈ events ↔ ∃ e, o = some e ∧ b fd = some e

/-- The poller, and the registry its calls describe. -/
structure Registry where
  /-- The poller. -/
  poll : PollSelect
  /-- What is registered. -/
  interests : Interests

/-- A poller that was just constructed; `maxfd` is what the memory of `maxfd_` held. -/
def Registry.fresh (maxfd : ℤ) : Registry := ⟨⟨OrderedSet.empty, maxfd⟩, fun _ => none⟩

/-- One call. -/
def step (r : Registry) (c : Call) : Option Registry :=
  some ⟨(perform r.poll c).1, c.meaning r.interests⟩

/-- What a call should keep. -/
structure Kept (r : Registry) (c : Call) (r' : Registry) : Prop where
  /-- The map represents what is registered. -/
  exact : Exact r'.poll.events_ r'.interests
  /-- A call on a descriptor that is not registered returns `false` and leaves the map. -/
  refused : c.adds = false → r.interests c.fd = none →
    (perform r.poll c).2 = some false ∧ r'.poll.events_ = r.poll.events_
  /-- `wait` meets no null entry. -/
  waits : ∀ sel, (r'.poll.wait sel).isSome = true

/-- The call names a registered descriptor, or registers it. -/
def Addressed (r : Registry) (c : Call) : Prop := c.adds = true ∨ r.interests c.fd ≠ none

variable {events : Events} {b : Interests} {fd : ℤ}

/-- A call registers at most its own handler, under its own descriptor. -/
theorem registered_perform {p : PollSelect} {call : Call} {h : ℕ}
    (hreg : (perform p call).1.Registered fd h) :
    p.Registered fd h ∨ h ∈ call.handlers ∧ fd = call.fd := by
  cases call with
  | addFd fd' h' =>
    rcases registered_addFd hreg with ⟨hfd, hh⟩ | ⟨hold, _⟩
    · exact Or.inr ⟨List.mem_singleton.mpr hh, hfd⟩
    · exact Or.inl hold
  | setEvent fd' type => exact Or.inl (registered_flag hreg)
  | deleteEvent fd' type => exact Or.inl (registered_flag hreg)
  | deleteFd fd' => exact Or.inl (registered_deleteFd hreg).1

/-- A call leaves the entries of other descriptors. -/
theorem entry_perform_of_ne {p : PollSelect} {call : Call} (hne : fd ≠ call.fd) :
    (perform p call).1.entry fd = p.entry fd := by
  cases call with
  | addFd fd' h => exact entry_assign_of_ne hne _ _
  | setEvent fd' type => exact entry_flag_of_ne hne true
  | deleteEvent fd' type => exact entry_flag_of_ne hne false
  | deleteFd fd' => exact entry_deleteFd_of_ne hne

/-- Storing an entry. -/
theorem exact_assign (h : Exact events b) (e : FdEvent) :
    Exact (events.assign (fd, some e)) (Function.update b fd (some e)) := by
  intro fd' o
  rw [OrderedSet.mem_assign, Prod.mk.injEq, h]
  by_cases hfd : fd' = fd
  · subst hfd
    rw [Function.update_self]
    constructor
    · rintro (⟨_, ho⟩ | ⟨_, hne⟩)
      · exact ⟨e, ho, rfl⟩
      · exact absurd rfl hne
    · rintro ⟨e', ho, he⟩
      exact Or.inl ⟨rfl, ho.trans he.symm⟩
  · rw [Function.update_of_ne hfd]
    constructor
    · rintro (⟨heq, _⟩ | ⟨hold, _⟩)
      · exact absurd heq hfd
      · exact hold
    · exact fun hold => Or.inr ⟨hold, hfd⟩

/-- Erasing an entry. -/
theorem exact_erase (h : Exact events b) : Exact (events.erase fd) (Function.update b fd none) := by
  intro fd' o
  rw [OrderedSet.mem_erase, h]
  by_cases hfd : fd' = fd
  · subst hfd
    rw [Function.update_self]
    constructor
    · exact fun ⟨_, hne⟩ => absurd rfl hne
    · rintro ⟨_, _, he⟩
      cases he
  · rw [Function.update_of_ne hfd]
    exact ⟨fun hold => hold.1, fun hold => ⟨hold, hfd⟩⟩

/-- `operator[]` reads what is registered. -/
theorem entry_eq {p : PollSelect} (h : Exact p.events_ b) (fd : ℤ) : p.entry fd = b fd := by
  unfold PollSelect.entry
  cases hb : b fd with
  | none =>
    have hnone : p.events_.find fd = none := by
      rw [OrderedSet.find_eq_none]
      rintro ⟨fd', o⟩ hx hfd
      obtain ⟨e, _, he⟩ := (h fd' o).mp hx
      rw [show fd' = fd from hfd, hb] at he
      cases he
    rw [hnone]
    rfl
  | some e =>
    have hfind : p.events_.find fd = some (fd, some e) := by
      rw [OrderedSet.find_eq_some]
      exact ⟨(h fd (some e)).mpr ⟨e, rfl, hb⟩, rfl⟩
    rw [hfind]
    rfl

/-- Changing a flag of a registered descriptor. -/
theorem exact_flag {p : PollSelect} (h : Exact p.events_ b) (hfd : b fd ≠ none) (type : EventType)
    (on : Bool) : Exact (p.flag fd type on).events_
      (Function.update b fd ((b fd).map fun e => e.withFlag type on)) := by
  obtain ⟨e, he⟩ := Option.ne_none_iff_exists'.mp hfd
  unfold PollSelect.flag
  rw [entry_eq h, he]
  exact exact_assign h (e.withFlag type on)

/-- A call on a registered descriptor does what it is for. -/
theorem exact_perform {r : Registry} (h : Exact r.poll.events_ r.interests) {c : Call}
    (hc : Addressed r c) : Exact (perform r.poll c).1.events_ (c.meaning r.interests) := by
  cases c with
  | addFd fd name => exact exact_assign h _
  | setEvent fd type =>
    have hfd : r.interests fd ≠ none := hc.resolve_left Bool.false_ne_true
    exact exact_flag h hfd type true
  | deleteEvent fd type =>
    have hfd : r.interests fd ≠ none := hc.resolve_left Bool.false_ne_true
    exact exact_flag h hfd type false
  | deleteFd fd =>
    have hfd : r.interests fd ≠ none := hc.resolve_left Bool.false_ne_true
    unfold perform PollSelect.deleteFd
    dsimp only
    rw [entry_eq h, if_neg hfd]
    exact exact_erase h

/-- A call that is refused leaves a null entry behind. -/
theorem null_of_unaddressed {r : Registry} (h : Exact r.poll.events_ r.interests) {c : Call}
    (hc : ¬Addressed r c) : (c.fd, none) ∈ (perform r.poll c).1.events_ := by
  unfold Addressed at hc
  rw [not_or, not_not] at hc
  obtain ⟨hadds, hnone⟩ := hc
  have htouch : (c.fd, none) ∈ (r.poll.touch c.fd).events_ := by
    refine OrderedSet.mem_insert.mpr (Or.inr ⟨rfl, ?_⟩)
    rintro ⟨fd, o⟩ hx hfd
    obtain ⟨e, _, he⟩ := (h fd o).mp hx
    rw [show fd = c.fd from hfd, hnone] at he
    cases he
  cases c with
  | addFd fd name => exact absurd rfl hadds
  | setEvent fd type =>
    unfold perform PollSelect.setEvent PollSelect.flag
    dsimp only
    rw [entry_eq h, show r.interests fd = none from hnone]
    exact htouch
  | deleteEvent fd type =>
    unfold perform PollSelect.deleteEvent PollSelect.flag
    dsimp only
    rw [entry_eq h, show r.interests fd = none from hnone]
    exact htouch
  | deleteFd fd =>
    unfold perform PollSelect.deleteFd
    dsimp only
    rw [entry_eq h, if_pos (show r.interests fd = none from hnone)]
    exact htouch

/-- A traversal succeeds where every item has a result. -/
theorem mapM_isSome {α β : Type} {f : α → Option β} {xs : List α}
    (h : ∀ x ∈ xs, (f x).isSome = true) : (xs.mapM f).isSome = true := by
  induction xs with
  | nil => rfl
  | cons x xs ih =>
    obtain ⟨y, hy⟩ := Option.isSome_iff_exists.mp (h x List.mem_cons_self)
    obtain ⟨ys, hys⟩ := Option.isSome_iff_exists.mp (ih fun z hz => h z (List.mem_cons_of_mem x hz))
    rw [List.mapM_cons, hy, hys]
    rfl

/-- `wait` follows no null pointer where the registry has none. -/
theorem wait_isSome {p : PollSelect} (h : Exact p.events_ b) (sel : Selected) :
    (p.wait sel).isSome = true := by
  have hall : (p.events_.items.mapM Prod.snd).isSome = true := by
    refine mapM_isSome ?_
    rintro ⟨fd, o⟩ hx
    obtain ⟨e, ho, _⟩ := (h fd o).mp hx
    rw [ho]
    rfl
  obtain ⟨entries, hentries⟩ := Option.isSome_iff_exists.mp hall
  unfold PollSelect.wait
  rw [hentries]
  rfl

/-- From a registry without null entries a call keeps it exactly if it is
addressed to a registered descriptor. -/
theorem kept_iff {r r' : Registry} (h : Exact r.poll.events_ r.interests) {c : Call}
    (he : step r c = some r') : Kept r c r' ↔ Addressed r c := by
  cases he
  constructor
  · intro hkept
    by_contra hc
    obtain ⟨e, hnull, _⟩ := (hkept.exact c.fd none).mp (null_of_unaddressed h hc)
    cases hnull
  · intro hc
    have hexact := exact_perform h hc
    refine ⟨hexact, fun hadds hnone => ?_, fun sel => wait_isSome hexact sel⟩
    rcases hc with hc | hc
    · rw [hadds] at hc
      cases hc
    · exact absurd hnone hc

/-- The registry is kept throughout a sequence of calls exactly if each of them
registers its descriptor or names a registered one. -/
theorem registry_kept_iff (maxfd : ℤ) (calls : List Call) :
    Along step Kept (Registry.fresh maxfd) calls ↔
      Along step (fun r c _ => Addressed r c) (Registry.fresh maxfd) calls := by
  refine along_iff_along (fun r => Exact r.poll.events_ r.interests) ?_ ?_ ?_ calls
  · exact fun _ _ _ h he => kept_iff h he
  · intro r c r' h hc he
    cases he
    exact exact_perform h hc
  · intro fd o
    constructor
    · exact fun hx => absurd hx OrderedSet.not_mem_empty
    · rintro ⟨_, _, he⟩
      cases he

/-- An event is taken from a descriptor after it was deleted. -/
def stray : List Call := [.addFd 7 0, .setEvent 7 .kRead, .deleteFd 7, .deleteEvent 7 .kRead]

/-- The call that is refused leaves an entry, and `wait` follows its null pointer. -/
theorem stray_null : ¬Along step Kept (Registry.fresh 0) stray ∧
    ∃ r, run step (Registry.fresh 0) stray = some r ∧ r.interests 7 = none ∧
      (7, none) ∈ r.poll.events_ ∧ ∀ sel, r.poll.wait sel = none := by
  constructor
  · intro h
    have hkept := (((h _ rfl).2 _ rfl).2 _ rfl).2 _ rfl
    exact absurd (hkept.1.waits ⟨0, fun _ => false, fun _ => false, fun _ => false⟩) (by decide)
  · exact ⟨_, rfl, rfl, List.mem_singleton.mpr rfl, fun sel => rfl⟩

end KKNet.PollRegistry
