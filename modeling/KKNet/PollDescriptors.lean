import KKNet.PollRegistry
import Mathlib.Data.Finset.Card

/-!
# The registered descriptors

The descriptors the poller has an entry for, as a finite set. A null entry that
`operator[]` left behind is none. Adding and deleting are what their names say on
this set, and nothing else changes it.
-/

namespace KKNet.PollSelects

open OrderedSets

/-- The descriptors with an entry that is not null. -/
def PollSelect.fds (p : PollSelect) : Finset ℤ :=
  ((p.events_.items.filter fun x => x.2.isSome).map Prod.fst).toFinset

variable {p : PollSelect} {fd : ℤ} {type : EventType}

/-- A registered descriptor is the key of an entry. -/
theorem mem_fds : fd ∈ p.fds ↔ ∃ e, (fd, some e) ∈ p.events_ := by
  unfold PollSelect.fds
  rw [List.mem_toFinset, List.mem_map]
  constructor
  · rintro ⟨⟨key, o⟩, hx, hkey⟩
    obtain ⟨hmem, hsome⟩ := List.mem_filter.mp hx
    obtain ⟨e, he⟩ := Option.isSome_iff_exists.mp hsome
    cases show key = fd from hkey
    cases show o = some e from he
    exact ⟨e, hmem⟩
  · rintro ⟨e, he⟩
    exact ⟨(fd, some e), List.mem_filter.mpr ⟨he, rfl⟩, rfl⟩

/-- It is one that `operator[]` finds an entry for. -/
theorem mem_fds_iff_entry : fd ∈ p.fds ↔ p.entry fd ≠ none := by
  rw [mem_fds]
  constructor
  · rintro ⟨e, he⟩ hnone
    rw [entry_of_mem he] at hnone
    cases hnone
  · intro hentry
    obtain ⟨e, he⟩ := Option.ne_none_iff_exists'.mp hentry
    obtain ⟨⟨key, o⟩, hfind, ho⟩ := Option.bind_eq_some_iff.mp he
    obtain ⟨hmem, hkey⟩ := OrderedSet.find_eq_some.mp hfind
    cases show key = fd from hkey
    cases show o = some e from ho
    exact ⟨e, hmem⟩

/-- It has a handler. -/
theorem mem_fds_iff_registered : fd ∈ p.fds ↔ ∃ h, p.Registered fd h := by
  rw [mem_fds]
  constructor
  · exact fun ⟨e, he⟩ => ⟨e.handler, e, he, rfl⟩
  · exact fun ⟨_, e, he, _⟩ => ⟨e, he⟩

/-- A poller that was just constructed has no descriptor. -/
@[simp] theorem fds_empty (maxfd : ℤ) : (PollSelect.mk OrderedSet.empty maxfd).fds = ∅ := rfl

@[simp] theorem fds_addFd (h : ℕ) : (p.addFd fd h).fds = insert fd p.fds := by
  ext fd'
  rw [Finset.mem_insert, mem_fds_iff_entry, mem_fds_iff_entry]
  by_cases hfd : fd' = fd
  · subst hfd
    rw [entry_addFd]
    exact iff_of_true (Option.some_ne_none _) (Or.inl rfl)
  · have hentry : (p.addFd fd h).entry fd' = p.entry fd' := entry_assign_of_ne hfd _ _
    rw [hentry]
    exact (or_iff_right hfd).symm

@[simp] theorem fds_deleteFd : (p.deleteFd fd).1.fds = p.fds.erase fd := by
  ext fd'
  rw [Finset.mem_erase, mem_fds_iff_entry, mem_fds_iff_entry]
  by_cases hfd : fd' = fd
  · subst hfd
    rw [entry_deleteFd]
    exact iff_of_false (fun h => h rfl) fun h => h.1 rfl
  · rw [entry_deleteFd_of_ne hfd]
    exact (and_iff_right hfd).symm

@[simp] theorem fds_flag (on : Bool) : (p.flag fd type on).fds = p.fds := by
  ext fd'
  rw [mem_fds_iff_entry, mem_fds_iff_entry]
  by_cases hfd : fd' = fd
  · subst hfd
    rw [entry_flag, ne_eq, Option.map_eq_none_iff]
  · rw [entry_flag_of_ne hfd]

@[simp] theorem fds_setEvent : (p.setEvent fd type).1.fds = p.fds := fds_flag true

@[simp] theorem fds_deleteEvent : (p.deleteEvent fd type).1.fds = p.fds := fds_flag false

end KKNet.PollSelects
