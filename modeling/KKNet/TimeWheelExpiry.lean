import KKNet.Runs
import KKNet.TimeWheel

/-!
# Idle entries

Entries are shared by the user and by the sets of a wheel, and the last reference
to go destroys the entry, which shuts its connection down. Between any calls the
user makes entries, copies and drops references to them, and connections go away.

The sets with an entry are a wheel of sets, so they have it exactly as long as its
last `push` is fewer than `num` calls of `onTime` ago. An entry only the wheel refers
to is therefore destroyed by the `num`-th `onTime` after its last `push`.
-/

namespace KKNet.TimeWheels

open Arenas OrderedSets Wheels Runs

/-- A wheel, the entries and their connections. -/
structure World where
  /-- The wheel. -/
  wheel : TimeWheel
  /-- The entries made so far. -/
  made : List ℕ
  /-- The connection of each entry. -/
  weakPtr_ : ℕ → ℕ
  /-- The references of the user to each entry. -/
  copies : ℕ → ℕ
  /-- The entries destroyed so far, in order. -/
  destroyed : List ℕ
  /-- The connections that are still alive. -/
  alive : ℕ → Bool
  /-- The connections `shutdown()` was called on, in order. -/
  shutdowns : List ℕ

namespace World

/-- No entry was made, and a node is the current one. -/
def started (wheel : TimeWheel) (current : ℕ) : World :=
  ⟨{ wheel with currentNode_ := .ref current }, [], fun _ => 0, fun _ => 0, [], fun _ => true, []⟩

/-- `~TimeWheelEntry`. -/
def destroyEntry (w : World) (entry : ℕ) : World :=
  { w with
    destroyed := w.destroyed ++ [entry]
    shutdowns := w.shutdowns ++ if w.alive (w.weakPtr_ entry) then [w.weakPtr_ entry] else [] }

/-- Nothing refers to the entry. -/
def Unreferenced (w : World) (entry : ℕ) : Prop := w.copies entry = 0 ∧ ¬w.wheel.Refers entry

instance (w : World) (entry : ℕ) : Decidable (w.Unreferenced entry) :=
  inferInstanceAs (Decidable (_ ∧ ¬_))

/-- A reference went away; the last one destroys the entry. -/
def unref (w : World) (entry : ℕ) : World :=
  if w.Unreferenced entry then w.destroyEntry entry else w

/-- The user has one reference fewer. -/
def release (w : World) (entry : ℕ) : World :=
  { w with copies := Function.update w.copies entry (w.copies entry - 1) }

/-- The references of a deleted set go away, one after another. -/
def unrefAll (w : World) (entries : List ℕ) : World := entries.foldl unref w

end World

/-- What can happen next. -/
inductive Event
  /-- The user makes an entry for a connection. -/
  | make (entry conn : ℕ)
  /-- The user gets another reference to an entry, as from its weak pointer. -/
  | copy (entry : ℕ)
  /-- The user drops a reference to an entry. -/
  | drop (entry : ℕ)
  /-- A connection goes away. -/
  | close (conn : ℕ)
  /-- `push` of an entry the user has a reference to. -/
  | push (entry : ℕ)
  /-- `onTime`. -/
  | onTime
  deriving DecidableEq

/-- One step; a fault has no result. -/
def step (w : World) : Event → Option World
  | .make entry conn =>
    if entry ∈ w.made then none
    else some { w with
      made := entry :: w.made
      weakPtr_ := Function.update w.weakPtr_ entry conn
      copies := Function.update w.copies entry 1 }
  | .copy entry =>
    if entry ∈ w.made ∧ entry ∉ w.destroyed then
      some { w with copies := Function.update w.copies entry (w.copies entry + 1) }
    else none
  | .drop entry =>
    if w.copies entry = 0 then none
    else some ((w.release entry).unref entry)
  | .close conn => some { w with alive := Function.update w.alive conn false }
  | .push entry =>
    if w.copies entry = 0 then none
    else (w.wheel.push entry).toOption.map fun wheel => { w with wheel }
  | .onTime => w.wheel.onTime.toOption.map fun r => World.unrefAll { w with wheel := r.1 } r.2

/-- How an event moves the count of calls of `onTime` since the last `push` of an entry. -/
def tick (entry : ℕ) (since : Option ℕ) : Event → Option ℕ
  | .push x => if x = entry then some 0 else since
  | .onTime => since.map (· + 1)
  | _ => since

/-- The calls of `onTime` since the last `push` of an entry, if there was one. -/
def ticksSince (entry : ℕ) (events : List Event) : Option ℕ := events.foldl (tick entry) none

/-- The wheel refers to the entry, and the user does not. -/
def World.OnlyWheel (w : World) (entry : ℕ) : Prop := w.copies entry = 0 ∧ w.wheel.Refers entry

/-- The connections of entries that are still alive. -/
def World.connections (w : World) (entries : List ℕ) : List ℕ :=
  (entries.filter fun entry => w.alive (w.weakPtr_ entry)).map w.weakPtr_

/-- The step destroys the entries and shuts their connections down. -/
structure Destroys (w w' : World) (entries : List ℕ) : Prop where
  /-- The entries are destroyed. -/
  destroyed : w'.destroyed = w.destroyed ++ entries
  /-- Their connections are shut down, if they are alive. -/
  shutdowns : w'.shutdowns = w.shutdowns ++ w.connections entries

variable {w w' : World} {n : ℕ} {c : Clock ℕ} {entry : ℕ} {e : Event}

/-! ### References -/

/-- The entries of a list nothing refers to. -/
def World.expired (w : World) (entries : List ℕ) : List ℕ := entries.filter w.Unreferenced

theorem mem_expired {entries : List ℕ} :
    entry ∈ w.expired entries ↔ entry ∈ entries ∧ w.Unreferenced entry := by
  unfold World.expired
  rw [List.mem_filter, decide_eq_true_eq]

theorem connections_cons (w : World) (entry : ℕ) (entries : List ℕ) :
    w.connections (entry :: entries) =
      (if w.alive (w.weakPtr_ entry) then [w.weakPtr_ entry] else []) ++ w.connections entries := by
  unfold World.connections
  rw [List.filter_cons]
  split <;> rfl

/-- What is left of a list of references is what its unreferenced entries leave. -/
theorem unrefAll_eq (w : World) (entries : List ℕ) :
    w.unrefAll entries = { w with
      destroyed := w.destroyed ++ w.expired entries
      shutdowns := w.shutdowns ++ w.connections (w.expired entries) } := by
  induction entries generalizing w with
  | nil =>
    change w = { w with destroyed := w.destroyed ++ [], shutdowns := w.shutdowns ++ [] }
    rw [List.append_nil, List.append_nil]
  | cons entry entries ih =>
    have hcons : w.unrefAll (entry :: entries) = (w.unref entry).unrefAll entries := rfl
    rw [hcons]
    unfold World.unref
    by_cases hun : w.Unreferenced entry
    · -- the destructor changes nothing the other references depend on
      have hexpired : w.expired (entry :: entries) = entry :: w.expired entries :=
        List.filter_cons_of_pos (by simpa using hun)
      rw [if_pos hun, ih, hexpired, connections_cons, ← List.append_assoc w.shutdowns]
      change _ = { w with destroyed := w.destroyed ++ ([entry] ++ w.expired entries), shutdowns := _ }
      rw [← List.append_assoc w.destroyed]
      rfl
    · have hexpired : w.expired (entry :: entries) = w.expired entries :=
        List.filter_cons_of_neg (by simpa using hun)
      rw [if_neg hun, ih, hexpired]

/-! ### The wheel and the clock -/

/-- The sets of the nodes, as the slots of a wheel. -/
def slotsOf (contents : ℕ → WheelSet) (i : ℕ) : Set ℕ := {x | x ∈ contents i}

/-- Another set for a node. -/
theorem slotsOf_update (contents : ℕ → WheelSet) (i : ℕ) (s : WheelSet) :
    slotsOf (Function.update contents i s) =
      Function.update (slotsOf contents) i {x | x ∈ s} := by
  funext j
  unfold slotsOf
  by_cases hji : j = i
  · subst hji
    rw [Function.update_self, Function.update_self]
  · rw [Function.update_of_ne hji, Function.update_of_ne hji]

/-- A ring whose sets have what was pushed, by the clock. -/
def Turning (n : ℕ) (wheel : TimeWheel) (c : Clock ℕ) : Prop :=
  ∃ address contents i, Ring n wheel address contents ∧ wheel.currentNode_ = .ref i ∧
    Dated n ⟨i, slotsOf contents⟩ c

variable {wheel : TimeWheel} {x : ℕ}

/-- The wheel refers to what was pushed fewer than `n` ticks ago. -/
theorem Turning.refers_iff (h : Turning n wheel c) : wheel.Refers x ↔ ∃ k < n, c x = some k := by
  obtain ⟨address, contents, i, hring, _, hdated⟩ := h
  rw [← hdated.holds_iff, hring.refers_iff]
  exact Iff.rfl

/-- `push`. -/
theorem Turning.push (h : Turning n wheel c) (entry : ℕ) :
    ∃ wheel', wheel.push entry = .ok wheel' ∧ Turning n wheel' (c.mark entry) := by
  obtain ⟨address, contents, i, hring, hcur, hdated⟩ := h
  obtain ⟨wheel', hpush, hcur', hring'⟩ := hring.push hdated.hand hcur entry
  refine ⟨wheel', hpush, address, _, i, hring', hcur', ?_⟩
  have hinsert : {x | x ∈ (contents i).insert entry} = insert entry (slotsOf contents i) := by
    ext x
    change x ∈ (contents i).insert entry ↔ x ∈ insert entry (slotsOf contents i)
    rw [OrderedSet.mem_insert, Set.mem_insert_iff, or_comm]
    constructor
    · rintro (⟨hx, _⟩ | hx)
      · exact Or.inl hx
      · exact Or.inr hx
    · rintro (hx | hx)
      · by_cases hmem : entry ∈ contents i
        · exact Or.inr (hx ▸ hmem)
        · have hnew : ∀ z ∈ contents i, z ≠ entry := fun z hz hze => hmem (hze ▸ hz)
          exact Or.inl ⟨hx, hnew⟩
      · exact Or.inr hx
  rw [slotsOf_update, hinsert]
  exact hdated.mark entry

/-- `onTime` deletes a set, and with it the last references of the wheel to what was
pushed `n - 1` ticks ago. -/
theorem Turning.onTime (h : Turning n wheel c) :
    ∃ wheel' entries, wheel.onTime = .ok (wheel', entries) ∧ Turning n wheel' c.turn ∧
      entries.Nodup ∧ (∀ x ∈ entries, wheel.Refers x) ∧
      ∀ x, x ∈ entries ∧ ¬wheel'.Refers x ↔ c x = some (n - 1) := by
  obtain ⟨address, contents, i, hring, hcur, hdated⟩ := h
  obtain ⟨wheel', address', honTime, hcur', hring'⟩ := hring.onTime hdated.hand hcur
  have hempty : {x | x ∈ (OrderedSet.empty : WheelSet)} = ∅ :=
    Set.eq_empty_iff_forall_notMem.mpr fun x => OrderedSet.not_mem_empty
  have hafter := after_lt hdated.hand
  have hturn : Dated n ⟨after n i, slotsOf (Function.update contents (after n i) .empty)⟩ c.turn := by
    rw [slotsOf_update, hempty]
    exact hdated.turn
  refine ⟨wheel', _, honTime, ⟨address', _, _, hring', hcur', hturn⟩,
    (contents (after n i)).sorted.imp fun h => h.ne, fun x hx => ?_, fun x => ?_⟩
  · exact (hring.refers_iff x).mpr ⟨_, hafter, hx⟩
  · rw [← hdated.dropped_iff (x := x), hring'.refers_iff]
    unfold Wheel.Holds Wheel.turn
    rw [← hempty, ← slotsOf_update]
    refine and_congr_left fun hnot => ⟨fun hx => ⟨_, hafter, hx⟩, ?_⟩
    -- an element of another set is still there
    rintro ⟨j, hj, hx⟩
    by_cases hji : j = after n i
    · exact hji ▸ hx
    · refine absurd ⟨j, hj, ?_⟩ hnot
      change x ∈ Function.update contents (after n i) .empty j
      rw [Function.update_of_ne hji]
      exact hx

/-! ### The world -/

/-- The entry was made and not destroyed. -/
def World.Exists (w : World) (entry : ℕ) : Prop := entry ∈ w.made ∧ entry ∉ w.destroyed

/-- What holds in every reachable state. -/
structure Kept (n : ℕ) (w : World) (c : Clock ℕ) : Prop where
  /-- The wheel has what was pushed. -/
  turning : Turning n w.wheel c
  /-- References are to entries that exist. -/
  referenced : ∀ entry, w.copies entry ≠ 0 ∨ w.wheel.Refers entry → w.Exists entry
  /-- No entry is destroyed twice. -/
  once : w.destroyed.Nodup
  /-- Only entries that were made are destroyed. -/
  known : ∀ entry ∈ w.destroyed, entry ∈ w.made

/-- References to entries that exist go away. -/
theorem Kept.unrefAll {entries : List ℕ} (hw : Kept n w c) (hnodup : entries.Nodup)
    (hexist : ∀ x ∈ entries, w.Exists x) : Kept n (w.unrefAll entries) c := by
  rw [unrefAll_eq]
  refine ⟨hw.turning, fun x hx => ?_, ?_, fun x hx => ?_⟩
  · obtain ⟨hmade, hnot⟩ := hw.referenced x hx
    refine ⟨hmade, fun hmem => ?_⟩
    rcases List.mem_append.mp hmem with hmem | hmem
    · exact hnot hmem
    · obtain ⟨_, hcopies, hrefers⟩ := mem_expired.mp hmem
      rcases hx with hx | hx
      · exact hx hcopies
      · exact hrefers hx
  · refine List.nodup_append.mpr ⟨hw.once, hnodup.filter _, fun x hx y hy hxy => ?_⟩
    subst hxy
    exact (hexist x (mem_expired.mp hy).1).2 hx
  · rcases List.mem_append.mp hx with hx | hx
    · exact hw.known x hx
    · exact (hexist x (mem_expired.mp hx).1).1

/-- A step destroys what it does; of the entries only the wheel refers to, an `onTime`
destroys those whose last `push` was `n - 1` ticks ago. -/
def Expires (n : ℕ) (w w' : World) (c : Clock ℕ) (e : Event) : Prop :=
  ∃ entries, Destroys w w' entries ∧
    ∀ entry, w.OnlyWheel entry → (entry ∈ entries ↔ e = .onTime ∧ c entry = some (n - 1))

/-- A step other than `onTime` that destroys nothing. -/
theorem expires_nil (hne : e ≠ .onTime) (hdestroyed : w'.destroyed = w.destroyed)
    (hshutdowns : w'.shutdowns = w.shutdowns) : Expires n w w' c e := by
  refine ⟨[], ⟨?_, ?_⟩, fun entry _ => ⟨fun h => absurd h List.not_mem_nil, fun h => absurd h.1 hne⟩⟩
  · rw [hdestroyed, List.append_nil]
  · rw [hshutdowns]
    exact (List.append_nil _).symm

/-- `push`. -/
theorem Kept.push (hw : Kept n w c) (hcopies : w.copies entry ≠ 0) :
    ∃ wheel, w.wheel.push entry = .ok wheel ∧ Kept n { w with wheel } (c.mark entry) := by
  obtain ⟨wheel, hpush, hturning⟩ := hw.turning.push entry
  refine ⟨wheel, hpush, hturning, fun x hx => ?_, hw.once, hw.known⟩
  rcases hx with hx | hx
  · exact hw.referenced x (Or.inl hx)
  · by_cases hxe : x = entry
    · exact hw.referenced x (Or.inl (hxe ▸ hcopies))
    · obtain ⟨k, hk, hc⟩ := hturning.refers_iff.mp hx
      unfold Clock.mark at hc
      rw [Function.update_of_ne hxe] at hc
      exact hw.referenced x (Or.inr (hw.turning.refers_iff.mpr ⟨k, hk, hc⟩))

/-- `onTime`. -/
theorem Kept.onTime (hw : Kept n w c) :
    ∃ r, w.wheel.onTime = .ok r ∧ Kept n (World.unrefAll { w with wheel := r.1 } r.2) c.turn ∧
      Expires n w (World.unrefAll { w with wheel := r.1 } r.2) c .onTime := by
  obtain ⟨wheel, entries, honTime, hturning, hnodup, hrefers, hdropped⟩ := hw.turning.onTime
  have hkept : Kept n { w with wheel } c.turn := by
    refine ⟨hturning, fun x hx => ?_, hw.once, hw.known⟩
    rcases hx with hx | hx
    · exact hw.referenced x (Or.inl hx)
    · obtain ⟨k, hk, hc⟩ := hturning.refers_iff.mp hx
      obtain ⟨j, hj, rfl⟩ := Option.map_eq_some_iff.mp hc
      exact hw.referenced x (Or.inr (hw.turning.refers_iff.mpr ⟨j, by omega, hj⟩))
  refine ⟨(wheel, entries), honTime,
    hkept.unrefAll hnodup fun x hx => hw.referenced x (Or.inr (hrefers x hx)),
    World.expired { w with wheel } entries, ?_, fun entry honly => ?_⟩
  · rw [unrefAll_eq]
    exact ⟨rfl, rfl⟩
  · rw [mem_expired, ← hdropped entry]
    constructor
    · exact fun ⟨hmem, _, hnot⟩ => ⟨rfl, hmem, hnot⟩
    · exact fun ⟨_, hmem, hnot⟩ => ⟨hmem, honly.1, hnot⟩

/-- Dropping a reference. -/
theorem Kept.drop (hw : Kept n w c) (hcopies : w.copies entry ≠ 0) :
    Kept n ((w.release entry).unref entry) c ∧
      Expires n w ((w.release entry).unref entry) c (.drop entry) := by
  have hkept : Kept n (w.release entry) c := by
    refine ⟨hw.turning, fun x hx => ?_, hw.once, hw.known⟩
    rcases hx with hx | hx
    · refine hw.referenced x (Or.inl ?_)
      by_cases hxe : x = entry
      · exact hxe ▸ hcopies
      · unfold World.release at hx
        dsimp only at hx
        rwa [Function.update_of_ne hxe] at hx
    · exact hw.referenced x (Or.inr hx)
  have hexist : ∀ x ∈ [entry], w.Exists x := fun x hx =>
    List.mem_singleton.mp hx ▸ hw.referenced entry (Or.inl hcopies)
  have hone : (w.release entry).unref entry = (w.release entry).unrefAll [entry] := rfl
  rw [hone]
  refine ⟨hkept.unrefAll (List.nodup_singleton entry) hexist, (w.release entry).expired [entry],
    ?_, fun x honly => ?_⟩
  · rw [unrefAll_eq]
    exact ⟨rfl, rfl⟩
  · constructor
    · intro hmem
      have hx := List.mem_singleton.mp (mem_expired.mp hmem).1
      exact absurd honly.1 (hx ▸ hcopies)
    · exact fun h => by cases h.1

/-- Every step keeps the wheel by the clock and destroys entries on time. -/
theorem Kept.step (hw : Kept n w c) (h : step w e = some w') :
    Kept n w' (fun x => tick x (c x) e) ∧ Expires n w w' c e := by
  unfold TimeWheels.step at h
  cases e with
  | make entry conn =>
    dsimp only at h
    split at h
    · cases h
    · rename_i hnew
      cases h
      refine ⟨⟨hw.turning, fun x hx => ?_, hw.once, fun x hx => List.mem_cons_of_mem _ (hw.known x hx)⟩,
        expires_nil (fun h => by cases h) rfl rfl⟩
      by_cases hxe : x = entry
      · subst hxe
        exact ⟨List.mem_cons_self, fun hmem => hnew (hw.known x hmem)⟩
      · dsimp only at hx
        rw [Function.update_of_ne hxe] at hx
        obtain ⟨hmade, hnot⟩ := hw.referenced x hx
        exact ⟨List.mem_cons_of_mem _ hmade, hnot⟩
  | copy entry =>
    dsimp only at h
    split at h
    · rename_i hexists
      cases h
      refine ⟨⟨hw.turning, fun x hx => ?_, hw.once, hw.known⟩,
        expires_nil (fun h => by cases h) rfl rfl⟩
      by_cases hxe : x = entry
      · exact hxe ▸ hexists
      · dsimp only at hx
        rw [Function.update_of_ne hxe] at hx
        exact hw.referenced x hx
    · cases h
  | drop entry =>
    dsimp only at h
    split at h
    · cases h
    · rename_i hcopies
      cases h
      exact hw.drop hcopies
  | close conn =>
    cases h
    exact ⟨⟨hw.turning, hw.referenced, hw.once, hw.known⟩, expires_nil (fun h => by cases h) rfl rfl⟩
  | push entry =>
    dsimp only at h
    split at h
    · cases h
    · rename_i hcopies
      obtain ⟨wheel, hpush, hkept⟩ := hw.push hcopies
      rw [hpush] at h
      cases h
      refine ⟨?_, expires_nil (fun h => by cases h) rfl rfl⟩
      have hclock : (fun x => tick x (c x) (.push entry)) = c.mark entry := by
        funext x
        unfold tick Clock.mark Function.update
        simp [eq_comm]
      rw [hclock]
      exact hkept
  | onTime =>
    obtain ⟨r, honTime, hkept, hexpires⟩ := hw.onTime
    dsimp only at h
    rw [honTime] at h
    cases h
    exact ⟨hkept, hexpires⟩

/-! ### Every run -/

/-- A run keeps the wheel by the clock. -/
theorem kept_run {events : List Event} (hw : Kept n w c) (hrun : run step w events = some w') :
    Kept n w' fun x => events.foldl (tick x) (c x) := by
  induction events generalizing w c with
  | nil =>
    cases hrun
    exact hw
  | cons e events ih =>
    rw [run_cons] at hrun
    obtain ⟨w₁, he, hrest⟩ := Option.bind_eq_some_iff.mp hrun
    exact ih (hw.step he).1 hrest

/-- A world that was just started. -/
theorem kept_started {zeroed : Bool} {num current : ℕ} (hcurrent : current < num)
    (hbuild : (TimeWheel.fresh zeroed).setMaxNum num = .ok wheel) :
    Kept num (World.started wheel current) fun _ => none := by
  obtain ⟨w, hw, hbuilt⟩ := built_setMaxNum zeroed num
  rw [hbuild] at hw
  cases hw
  have hnum : num - 1 + 1 = num := by omega
  rw [hnum] at hbuilt
  have hring := hbuilt.ring (.ref current)
  refine ⟨⟨id, _, current, hring, rfl, ?_⟩, fun x hx => ?_, List.nodup_nil,
    fun x hx => absurd hx List.not_mem_nil⟩
  · have hempty : slotsOf (fun _ => .empty) = fun _ => ∅ := by
      funext i
      exact Set.eq_empty_iff_forall_notMem.mpr fun x => OrderedSet.not_mem_empty
    rw [hempty]
    exact dated_empty hcurrent
  · rcases hx with hx | hx
    · exact absurd rfl hx
    · obtain ⟨i, _, hi⟩ := (hring.refers_iff x).mp hx
      exact absurd hi OrderedSet.not_mem_empty

/-- From any ring and any current node, in every reachable state: an entry only the wheel
refers to exists and was pushed fewer than `num` ticks ago; the step that destroys it and
shuts its connection down is the `onTime` that is the `num`-th one since its last `push`,
which always happens, and no other step; and no entry is destroyed twice. -/
theorem expires_on_time {zeroed : Bool} {num current : ℕ} (hcurrent : current < num)
    (hbuild : (TimeWheel.fresh zeroed).setMaxNum num = .ok wheel) {events : List Event}
    (hrun : run step (World.started wheel current) events = some w) :
    w.destroyed.Nodup ∧ (∃ w', step w .onTime = some w') ∧
      (∀ entry, w.OnlyWheel entry →
        entry ∉ w.destroyed ∧ ∃ k < num, ticksSince entry events = some k) ∧
      ∀ e w', step w e = some w' →
        ∃ entries, w'.destroyed = w.destroyed ++ entries ∧
          w'.shutdowns = w.shutdowns ++ w.connections entries ∧
          ∀ entry, w.OnlyWheel entry →
            (entry ∈ entries ↔ e = .onTime ∧ ticksSince entry events = some (num - 1)) := by
  have hw : Kept num w fun x => ticksSince x events := kept_run (kept_started hcurrent hbuild) hrun
  refine ⟨hw.once, ?_, fun entry honly => ⟨?_, ?_⟩, fun e w' he => ?_⟩
  · obtain ⟨r, honTime, _⟩ := hw.onTime
    refine ⟨World.unrefAll { w with wheel := r.1 } r.2, ?_⟩
    unfold TimeWheels.step
    dsimp only
    rw [honTime]
    rfl
  · exact (hw.referenced entry (Or.inr honly.2)).2
  · exact hw.turning.refers_iff.mp honly.2
  · obtain ⟨entries, hdestroys, hexpires⟩ := (hw.step he).2
    exact ⟨entries, hdestroys.destroyed, hdestroys.shutdowns, hexpires⟩

/-- The ring of two nodes. -/
def twoSlots : TimeWheel :=
  ⟨[some ⟨.ref 1, 0⟩, some ⟨.ref 0, 1⟩], [some .empty, some .empty], some 2, .unassigned, .ref 0, .ref 1⟩

/-- An entry that is pushed and dropped is destroyed by the second `onTime`, which shuts its
connection down. -/
theorem expires_on_time_two :
    ∃ w, (TimeWheel.fresh false).setMaxNum 2 = .ok twoSlots ∧
      run step (World.started twoSlots 1) [.make 7 3, .push 7, .drop 7, .onTime] = some w ∧
      w.destroyed = [] ∧ w.OnlyWheel 7 ∧
      (step w .onTime).map (fun w' => (w'.destroyed, w'.shutdowns)) = some ([7], [3]) ∧
      ∃ w', step w .onTime = some w' := by
  have hcurrent : 1 < 2 := Nat.one_lt_two
  have hbuild : (TimeWheel.fresh false).setMaxNum 2 = .ok twoSlots := rfl
  have hrun : ∃ w, run step (World.started twoSlots 1) [.make 7 3, .push 7, .drop 7, .onTime] =
      some w ∧ w.destroyed = [] ∧ w.OnlyWheel 7 ∧
      (step w .onTime).map (fun w' => (w'.destroyed, w'.shutdowns)) = some ([7], [3]) :=
    ⟨_, rfl, rfl, ⟨rfl, by decide⟩, rfl⟩
  obtain ⟨w, hrun, hdestroyed, honly, hnext⟩ := hrun
  exact ⟨w, hbuild, hrun, hdestroyed, honly, hnext, (expires_on_time hcurrent hbuild hrun).2.1⟩

end KKNet.TimeWheels
