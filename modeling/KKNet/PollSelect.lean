import KKNet.OrderedSet

/-!
# The select poller

Translation of `reactor/PollSelect.cpp` and `reactor/EventHandler.cpp`. The
registry `events_` is an ordered map from descriptors to entries; like the
source it is read with `operator[]`, which leaves a null entry behind under a
descriptor that was not registered. Handlers are named by numbers.
-/

namespace KKNet.PollSelects

open OrderedSets

/-- `EventType`. -/
inductive EventType
  | kRead
  | kWrite
  | kError
  | kClose
  deriving DecidableEq

/-- The event flags of `EventHandler`. -/
structure EventHandler where
  /-- A read event waits for its callback. -/
  read_ : Bool
  /-- A write event waits for its callback. -/
  write_ : Bool
  /-- An error event waits for its callback. -/
  error_ : Bool
  /-- A close event waits for its callback. -/
  close_ : Bool
  deriving DecidableEq

/-- `EventHandler::EventHandler`, and `clearEvent`. -/
def EventHandler.clear : EventHandler := ⟨false, false, false, false⟩

/-- `EventHandler::setEventFlag`. -/
def EventHandler.setEventFlag (h : EventHandler) : EventType → EventHandler
  | .kClose => { h with close_ := true }
  | .kRead => { h with read_ := true }
  | .kWrite => { h with write_ := true }
  | .kError => { h with error_ := true }

/-- `FdEvent`, the interest in one descriptor. -/
structure FdEvent where
  /-- The descriptor. -/
  fd : ℤ
  /-- Interest in read events. -/
  read : Bool
  /-- Interest in write events. -/
  write : Bool
  /-- Interest in error events. -/
  error : Bool
  /-- The handler to call. -/
  handler : ℕ
  deriving DecidableEq

/-- `std::map<int, std::unique_ptr<FdEvent>>`; `none` is the null pointer. -/
abbrev Events := OrderedSet (Prod.fst : ℤ × Option FdEvent → ℤ)

/-- The fields of `PollSelect`. -/
structure PollSelect where
  /-- The registry. -/
  events_ : Events
  /-- The largest descriptor seen; unset by the constructor. -/
  maxfd_ : ℤ

/-- `events_[fd]`: the entry, with a null one left behind where there was none. -/
def PollSelect.entry (p : PollSelect) (fd : ℤ) : Option FdEvent := (p.events_.find fd).bind Prod.snd

/-- The registry after `events_[fd]` was read. -/
def PollSelect.touch (p : PollSelect) (fd : ℤ) : PollSelect :=
  { p with events_ := p.events_.insert (fd, none) }

/-- `PollSelect::addFd`. -/
def PollSelect.addFd (p : PollSelect) (fd : ℤ) (h : ℕ) : PollSelect where
  events_ := p.events_.assign (fd, some ⟨fd, false, false, false, h⟩)
  maxfd_ := if fd > p.maxfd_ then fd else p.maxfd_

/-- The interest flag of a type; there is none for close events. -/
def FdEvent.withFlag (e : FdEvent) (type : EventType) (on : Bool) : FdEvent :=
  match type with
  | .kRead => { e with read := on }
  | .kWrite => { e with write := on }
  | .kError => { e with error := on }
  | .kClose => e

/-- What `setEvent` and `deleteEvent` do to the registry. -/
def PollSelect.flag (p : PollSelect) (fd : ℤ) (type : EventType) (on : Bool) : PollSelect :=
  match p.entry fd with
  | none => p.touch fd
  | some e => { p with events_ := p.events_.assign (fd, some (e.withFlag type on)) }

/-- `PollSelect::setEvent`, with its result: `none` where the source reaches the
end of the function without a `return`. -/
def PollSelect.setEvent (p : PollSelect) (fd : ℤ) (type : EventType) : PollSelect × Option Bool :=
  (p.flag fd type true, if p.entry fd = none then some false else none)

/-- `PollSelect::deleteEvent`. -/
def PollSelect.deleteEvent (p : PollSelect) (fd : ℤ) (type : EventType) : PollSelect × Bool :=
  (p.flag fd type false, if p.entry fd = none then false else true)

/-- `PollSelect::deleteFd`. -/
def PollSelect.deleteFd (p : PollSelect) (fd : ℤ) : PollSelect × Bool :=
  if p.entry fd = none then (p.touch fd, false)
  else ({ p with
    events_ := p.events_.erase fd
    maxfd_ := if p.maxfd_ = fd then p.maxfd_ - 1 else p.maxfd_ }, true)

/-- `Eventloop::deleteAllEvent`. -/
def PollSelect.deleteAllEvent (p : PollSelect) (fd : ℤ) : PollSelect :=
  ((((p.deleteEvent fd .kClose).1.deleteEvent fd .kError).1.deleteEvent fd .kRead).1.deleteEvent
    fd .kWrite).1

/-- What `select` reports: its result and the sets it leaves. -/
structure Selected where
  /-- The result. -/
  n : ℤ
  /-- Membership in `rset`. -/
  rset : ℤ → Bool
  /-- Membership in `wset`. -/
  wset : ℤ → Bool
  /-- Membership in `eset`. -/
  eset : ℤ → Bool

/-- The event flags `wait` sets for one entry. -/
def Selected.marks (sel : Selected) (e : FdEvent) : List EventType :=
  (if sel.rset e.fd && e.read then [.kRead] else []) ++
    (if sel.wset e.fd && e.write then [.kWrite] else []) ++
    (if sel.eset e.fd && e.error then [.kError] else [])

/-- `PollSelect::wait` after `select`: each handler of `srevents_` with the flags
set on it. There is no result where the registry holds a null entry. -/
def PollSelect.wait (p : PollSelect) (sel : Selected) : Option (List (ℕ × List EventType)) := do
  let entries ← p.events_.items.mapM Prod.snd
  pure ((entries.map fun e => (e.handler, sel.marks e)).filter fun m => m.2 ≠ [])

variable {p : PollSelect} {fd : ℤ} {type : EventType}

/-- The entry that was just stored is found. -/
theorem entry_assign (e : FdEvent) :
    PollSelect.entry { p with events_ := p.events_.assign (fd, some e) } fd = some e := by
  have hfind : (p.events_.assign (fd, some e)).find fd = some (fd, some e) := by
    rw [OrderedSet.find_eq_some, OrderedSet.mem_assign]
    exact ⟨Or.inl rfl, rfl⟩
  unfold PollSelect.entry
  rw [hfind]
  rfl

/-- A descriptor that was added has an entry without interest. -/
theorem entry_addFd (h : ℕ) : (p.addFd fd h).entry fd = some ⟨fd, false, false, false, h⟩ :=
  entry_assign (p := p) ⟨fd, false, false, false, h⟩

/-- A null entry reads as no entry. -/
theorem entry_touch (h : p.entry fd = none) : (p.touch fd).entry fd = none := by
  unfold PollSelect.entry PollSelect.touch at *
  cases hfind : (p.events_.insert (fd, none)).find fd with
  | none => rfl
  | some x =>
    obtain ⟨hx, hkey⟩ := OrderedSet.find_eq_some.mp hfind
    rcases OrderedSet.mem_insert.mp hx with hold | ⟨hnew, _⟩
    · rw [OrderedSet.find_eq_some.mpr ⟨hold, hkey⟩] at h
      exact h
    · rw [hnew]
      rfl

/-- Changing a flag of a registered descriptor changes its entry. -/
theorem entry_flag (on : Bool) :
    (p.flag fd type on).entry fd = (p.entry fd).map fun e => e.withFlag type on := by
  unfold PollSelect.flag
  cases h : p.entry fd with
  | none => exact entry_touch h
  | some e => exact entry_assign _

/-- A descriptor that was deleted has no entry. -/
theorem entry_deleteFd : (p.deleteFd fd).1.entry fd = none := by
  unfold PollSelect.deleteFd
  by_cases h : p.entry fd = none
  · rw [if_pos h]
    exact entry_touch h
  · rw [if_neg h]
    unfold PollSelect.entry
    have hnone : (p.events_.erase fd).find fd = none := by
      rw [OrderedSet.find_eq_none]
      exact fun x hx => (OrderedSet.mem_erase.mp hx).2
    rw [hnone]
    rfl

/-- There is no interest left in the descriptor. -/
def PollSelect.Quiet (p : PollSelect) (fd : ℤ) : Prop :=
  ∀ e, p.entry fd = some e → e.read = false ∧ e.write = false ∧ e.error = false

/-- `deleteAllEvent` leaves no interest. -/
theorem quiet_deleteAllEvent : (p.deleteAllEvent fd).Quiet fd := by
  intro e he
  unfold PollSelect.deleteAllEvent PollSelect.deleteEvent at he
  simp only [entry_flag, Option.map_map, Option.map_eq_some_iff, Function.comp_apply] at he
  obtain ⟨e₀, _, he⟩ := he
  subst he
  exact ⟨rfl, rfl, rfl⟩

/-- Reading or flagging a descriptor changes no other one. -/
theorem mem_flag {on : Bool} {x : ℤ × Option FdEvent} (h : x ∈ (p.flag fd type on).events_) :
    x ∈ p.events_ ∨ x.1 = fd := by
  unfold PollSelect.flag at h
  cases he : p.entry fd with
  | none =>
    rw [he] at h
    rcases OrderedSet.mem_insert.mp h with hold | ⟨hnew, _⟩
    · exact Or.inl hold
    · exact Or.inr (congrArg Prod.fst hnew)
  | some e =>
    rw [he] at h
    rcases OrderedSet.mem_assign.mp h with hnew | ⟨hold, _⟩
    · exact Or.inr (congrArg Prod.fst hnew)
    · exact Or.inl hold

/-- Deleting a descriptor changes no other one. -/
theorem mem_deleteFd {x : ℤ × Option FdEvent} (h : x ∈ (p.deleteFd fd).1.events_) :
    x ∈ p.events_ ∨ x.1 = fd := by
  unfold PollSelect.deleteFd at h
  by_cases he : p.entry fd = none
  · rw [if_pos he] at h
    rcases OrderedSet.mem_insert.mp h with hold | ⟨hnew, _⟩
    · exact Or.inl hold
    · exact Or.inr (congrArg Prod.fst hnew)
  · rw [if_neg he] at h
    exact Or.inl (OrderedSet.mem_erase.mp h).1

/-- Adding a descriptor changes no other one. -/
theorem mem_addFd {h : ℕ} {x : ℤ × Option FdEvent} (hx : x ∈ (p.addFd fd h).events_) :
    x ∈ p.events_ ∨ x.1 = fd := by
  rcases OrderedSet.mem_assign.mp hx with hnew | ⟨hold, _⟩
  · exact Or.inr (congrArg Prod.fst hnew)
  · exact Or.inl hold

/-- A stored entry is the entry of its descriptor. -/
theorem entry_of_mem {e : FdEvent} (h : (fd, some e) ∈ p.events_) : p.entry fd = some e := by
  unfold PollSelect.entry
  rw [OrderedSet.find_eq_some.mpr ⟨h, rfl⟩]
  rfl

/-- What a traversal yields comes from one of the items. -/
theorem mem_of_mapM {α β : Type} {f : α → Option β} {xs : List α} {ys : List β} {y : β}
    (h : xs.mapM f = some ys) (hy : y ∈ ys) : ∃ x ∈ xs, f x = some y := by
  induction xs generalizing ys with
  | nil =>
    cases h
    exact absurd hy List.not_mem_nil
  | cons x xs ih =>
    rw [List.mapM_cons] at h
    cases hx : f x with
    | none =>
      rw [hx] at h
      cases h
    | some z =>
      cases hxs : xs.mapM f with
      | none =>
        rw [hx, hxs] at h
        cases h
      | some zs =>
        rw [hx, hxs] at h
        cases h
        rcases List.mem_cons.mp hy with hy | hy
        · exact ⟨x, List.mem_cons_self, hy ▸ hx⟩
        · obtain ⟨w, hw, he⟩ := ih hxs hy
          exact ⟨w, List.mem_cons_of_mem x hw, he⟩

/-- What an item yields is in the result of the traversal. -/
theorem exists_of_mapM {α β : Type} {f : α → Option β} {xs : List α} {ys : List β} {x : α}
    (h : xs.mapM f = some ys) (hx : x ∈ xs) : ∃ y ∈ ys, f x = some y := by
  induction xs generalizing ys with
  | nil => exact absurd hx List.not_mem_nil
  | cons z xs ih =>
    rw [List.mapM_cons] at h
    obtain ⟨w, hz, h⟩ := Option.bind_eq_some_iff.mp h
    obtain ⟨ws, hxs, h⟩ := Option.bind_eq_some_iff.mp h
    cases h
    rcases List.mem_cons.mp hx with hx | hx
    · exact ⟨w, List.mem_cons_self, hx ▸ hz⟩
    · obtain ⟨y, hy, he⟩ := ih hxs hx
      exact ⟨y, List.mem_cons_of_mem w hy, he⟩

/-- Every handler `wait` reports belongs to an entry with interest in a reported
event. -/
theorem wait_mem {sel : Selected} {handlers : List (ℕ × List EventType)}
    (h : p.wait sel = some handlers) {m : ℕ × List EventType} (hm : m ∈ handlers) :
    ∃ fd e, (fd, some e) ∈ p.events_ ∧ m = (e.handler, sel.marks e) ∧ sel.marks e ≠ [] := by
  unfold PollSelect.wait at h
  cases hall : p.events_.items.mapM Prod.snd with
  | none =>
    rw [hall] at h
    cases h
  | some entries =>
    rw [hall] at h
    cases h
    obtain ⟨hmap, hne⟩ := List.mem_filter.mp hm
    obtain ⟨e, he, hmark⟩ := List.mem_map.mp hmap
    obtain ⟨x, hx, hentry⟩ := mem_of_mapM hall he
    rw [← hmark, decide_eq_true_eq] at hne
    exact ⟨x.1, e, hentry ▸ hx, hmark.symm, hne⟩

/-- The handler is registered under the descriptor. -/
def PollSelect.Registered (p : PollSelect) (fd : ℤ) (h : ℕ) : Prop :=
  ∃ e, (fd, some e) ∈ p.events_ ∧ e.handler = h

/-- Flags say nothing about the handler. -/
theorem handler_withFlag (e : FdEvent) (on : Bool) : (e.withFlag type on).handler = e.handler := by
  cases type <;> rfl

/-- Changing a flag registers nothing. -/
theorem registered_flag {on : Bool} {fd' : ℤ} {h : ℕ}
    (hreg : (p.flag fd type on).Registered fd' h) : p.Registered fd' h := by
  obtain ⟨e', he', hh⟩ := hreg
  unfold PollSelect.flag at he'
  cases he : p.entry fd with
  | none =>
    rw [he] at he'
    rcases OrderedSet.mem_insert.mp he' with hold | ⟨hnew, _⟩
    · exact ⟨e', hold, hh⟩
    · cases hnew
  | some e =>
    rw [he] at he'
    rcases OrderedSet.mem_assign.mp he' with hnew | ⟨hold, _⟩
    · cases hnew
      obtain ⟨x, hfind, hx⟩ := Option.bind_eq_some_iff.mp he
      obtain ⟨hmem, hkey⟩ := OrderedSet.find_eq_some.mp hfind
      rw [handler_withFlag] at hh
      refine ⟨e, ?_, hh⟩
      rw [← hkey, ← hx]
      exact hmem
    · exact ⟨e', hold, hh⟩

/-- Nor does `deleteAllEvent`. -/
theorem registered_deleteAllEvent {fd' : ℤ} {h : ℕ}
    (hreg : (p.deleteAllEvent fd).Registered fd' h) : p.Registered fd' h := by
  unfold PollSelect.deleteAllEvent PollSelect.deleteEvent at hreg
  exact registered_flag (registered_flag (registered_flag (registered_flag hreg)))

/-- A descriptor that was deleted has no handler. -/
theorem registered_deleteFd {fd' : ℤ} {h : ℕ} (hreg : (p.deleteFd fd).1.Registered fd' h) :
    p.Registered fd' h ∧ fd' ≠ fd := by
  obtain ⟨e', he', hh⟩ := hreg
  unfold PollSelect.deleteFd at he'
  by_cases he : p.entry fd = none
  · rw [if_pos he] at he'
    rcases OrderedSet.mem_insert.mp he' with hold | ⟨hnew, _⟩
    · refine ⟨⟨e', hold, hh⟩, fun hfd => ?_⟩
      rw [← hfd, entry_of_mem hold] at he
      cases he
    · cases hnew
  · rw [if_neg he] at he'
    obtain ⟨hold, hne⟩ := OrderedSet.mem_erase.mp he'
    exact ⟨⟨e', hold, hh⟩, hne⟩

/-- Adding a descriptor registers its handler alone. -/
theorem registered_addFd {fd' : ℤ} {h h' : ℕ} (hreg : (p.addFd fd h).Registered fd' h') :
    fd' = fd ∧ h' = h ∨ p.Registered fd' h' ∧ fd' ≠ fd := by
  obtain ⟨e', he', hh⟩ := hreg
  rcases OrderedSet.mem_assign.mp he' with hnew | ⟨hold, hne⟩
  · cases hnew
    exact Or.inl ⟨rfl, hh.symm⟩
  · exact Or.inr ⟨⟨e', hold, hh⟩, hne⟩

/-- An entry depends on what is stored under its descriptor. -/
theorem entry_congr {p' : PollSelect} (h : ∀ o, (fd, o) ∈ p'.events_ ↔ (fd, o) ∈ p.events_) :
    p'.entry fd = p.entry fd := by
  have hfind : p'.events_.find fd = p.events_.find fd := by
    refine Option.ext fun x => ?_
    rw [OrderedSet.find_eq_some, OrderedSet.find_eq_some]
    obtain ⟨key, o⟩ := x
    refine and_congr_left fun hkey => ?_
    cases show key = fd from hkey
    exact h o
  unfold PollSelect.entry
  rw [hfind]

/-- Reading another descriptor leaves the entry. -/
theorem entry_touch_of_ne {fd' : ℤ} (hne : fd ≠ fd') : (p.touch fd').entry fd = p.entry fd := by
  refine entry_congr fun o => ?_
  refine OrderedSet.mem_insert.trans (or_iff_left fun hnew => hne ?_)
  exact congrArg Prod.fst hnew.1

/-- Storing under another descriptor leaves the entry. -/
theorem entry_assign_of_ne {fd' : ℤ} (hne : fd ≠ fd') (o : Option FdEvent) (maxfd : ℤ) :
    (PollSelect.mk (p.events_.assign (fd', o)) maxfd).entry fd = p.entry fd := by
  refine entry_congr fun o' => ?_
  refine OrderedSet.mem_assign.trans ⟨fun hmem => ?_, fun hold => Or.inr ⟨hold, hne⟩⟩
  rcases hmem with hnew | ⟨hold, _⟩
  · exact absurd (congrArg Prod.fst hnew) hne
  · exact hold

/-- Flags of another descriptor leave the entry. -/
theorem entry_flag_of_ne {fd' : ℤ} (hne : fd ≠ fd') (on : Bool) :
    (p.flag fd' type on).entry fd = p.entry fd := by
  unfold PollSelect.flag
  cases p.entry fd' with
  | none => exact entry_touch_of_ne hne
  | some e => exact entry_assign_of_ne hne _ p.maxfd_

/-- Deleting another descriptor leaves the entry. -/
theorem entry_deleteFd_of_ne {fd' : ℤ} (hne : fd ≠ fd') :
    (p.deleteFd fd').1.entry fd = p.entry fd := by
  unfold PollSelect.deleteFd
  by_cases h : p.entry fd' = none
  · rw [if_pos h]
    exact entry_touch_of_ne hne
  · rw [if_neg h]
    exact entry_congr fun o => OrderedSet.mem_erase.trans (and_iff_left hne)

end KKNet.PollSelects
