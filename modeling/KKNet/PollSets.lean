import KKNet.EventDispatch
import KKNet.FreeNumbers
import KKNet.PollBound

/-!
# The sets of `select`

An `fd_set` has a bit for each descriptor below `FD_SETSIZE`; setting or testing the bit
of another one touches memory that is not the set's. `wait` does not check, but the kernel
gives out the lowest free descriptor, so the sets are large enough as long as no more
descriptors are open at once than they have bits, and then `wait` is what it is for sets
without a limit. With more registered than that it leaves them.
-/

namespace KKNet.PollSets

open OrderedSets PollSelects PollRegistry PollBound EventDispatch Runs FreeNumbers

/-- `FD_SETSIZE`. -/
def FD_SETSIZE : ℕ := 1024

/-- `fd_set`, with all bits off after `FD_ZERO`. -/
abbrev FdSet := BitVec FD_SETSIZE

/-- The bit of a descriptor. -/
def bit (fd : ℤ) : Option ℕ := if 0 ≤ fd ∧ fd < FD_SETSIZE then some fd.toNat else none

/-- `FD_SET`. -/
def FD_SET (fd : ℤ) (set : FdSet) : Option FdSet :=
  (bit fd).map fun n => set ||| BitVec.twoPow FD_SETSIZE n

/-- `FD_ISSET`. -/
def FD_ISSET (fd : ℤ) (set : FdSet) : Option Bool := (bit fd).map fun n => set.getLsbD n

/-- The three sets of a call of `select`. -/
structure Sets where
  rset : FdSet
  wset : FdSet
  eset : FdSet

/-- The sets after `FD_ZERO`. -/
def Sets.zero : Sets := ⟨0, 0, 0⟩

/-- `if(flag) FD_SET(fd, &set)`. -/
def setIf (flag : Bool) (fd : ℤ) (set : FdSet) : Option FdSet :=
  if flag then FD_SET fd set else some set

/-- The loop of `wait` before `select`. -/
def fill : List (Option FdEvent) → Sets → Option Sets
  | [], sets => some sets
  | e :: entries, sets => do
    let e ← e
    let rset ← setIf e.read e.fd sets.rset
    let wset ← setIf e.write e.fd sets.wset
    let eset ← setIf e.error e.fd sets.eset
    fill entries ⟨rset, wset, eset⟩

/-- The event flags the loop of `wait` after `select` sets for one entry. -/
def marks (sets : Sets) (e : FdEvent) : Option (List EventType) := do
  let r ← FD_ISSET e.fd sets.rset
  let w ← FD_ISSET e.fd sets.wset
  let x ← FD_ISSET e.fd sets.eset
  pure ((if r && e.read then [.kRead] else []) ++ (if w && e.write then [.kWrite] else []) ++
    (if x && e.error then [.kError] else []))

/-- That loop: each handler of `srevents_` with its flags. -/
def collect (sets : Sets) : List (Option FdEvent) → Option (List (ℕ × List EventType))
  | [] => some []
  | e :: entries => do
    let e ← e
    let types ← marks sets e
    let rest ← collect sets entries
    pure (if types ≠ [] then (e.handler, types) :: rest else rest)

/-- `PollSelect::wait`, where `select` makes of the sets what it does. -/
def wait (p : PollSelect) (select : Sets → Sets) : Option (List (ℕ × List EventType)) := do
  let sets ← fill (p.events_.items.map Prod.snd) .zero
  collect (select sets) (p.events_.items.map Prod.snd)

/-- A bit of a set, for any descriptor. -/
def FdSet.has (set : FdSet) (fd : ℤ) : Bool := ((bit fd).map fun n => set.getLsbD n).getD false

/-- Membership in the set of a type of events. -/
def Sets.has (sets : Sets) : EventType → ℤ → Bool
  | .kRead => FdSet.has sets.rset
  | .kWrite => FdSet.has sets.wset
  | .kError => FdSet.has sets.eset
  | .kClose => fun _ => false

/-- The sets as `select` reports them without a limit. -/
def Sets.selected (n : ℤ) (sets : Sets) : Selected :=
  ⟨n, FdSet.has sets.rset, FdSet.has sets.wset, FdSet.has sets.eset⟩

/-- The descriptor has a bit. -/
def Within (fd : ℤ) : Prop := 0 ≤ fd ∧ fd < FD_SETSIZE

variable {fd fd' : ℤ} {set set' : FdSet} {sets : Sets} {e : FdEvent}
  {entries : List (Option FdEvent)} {p : PollSelect}

/-! ### Bits -/

/-- A descriptor with a bit. -/
theorem bit_of_within (h : Within fd) : bit fd = some fd.toNat := if_pos h

/-- A descriptor without one. -/
theorem bit_of_not_within (h : ¬Within fd) : bit fd = none := if_neg h

/-- `FD_ZERO` leaves no bit. -/
theorem has_zero (type : EventType) (fd : ℤ) : Sets.zero.has type fd = false := by
  have hzero : FdSet.has 0 fd = false := by
    unfold FdSet.has
    cases bit fd <;> simp
  cases type with
  | kClose => rfl
  | _ => exact hzero

/-- Setting a bit sets this one only. -/
theorem has_set (set : FdSet) (h : Within fd) :
    ∃ set', FD_SET fd set = some set' ∧ ∀ fd', set'.has fd' = (set.has fd' || decide (fd' = fd)) := by
  unfold FD_SET
  rw [bit_of_within h]
  refine ⟨_, rfl, fun fd' => ?_⟩
  by_cases h' : Within fd'
  · have hsame : fd.toNat = fd'.toNat ↔ fd' = fd := by
      obtain ⟨hpos, _⟩ := h
      obtain ⟨hpos', _⟩ := h'
      omega
    have hlt : fd'.toNat < FD_SETSIZE := by
      obtain ⟨hpos', hlt'⟩ := h'
      omega
    have hlt₀ : fd.toNat < FD_SETSIZE := by
      obtain ⟨hpos, hlt⟩ := h
      omega
    unfold FdSet.has
    rw [bit_of_within h']
    simp [BitVec.getLsbD_or, BitVec.getLsbD_twoPow, hlt, hlt₀, hsame]
  · have hne : fd' ≠ fd := fun heq => h' (heq ▸ h)
    unfold FdSet.has
    rw [bit_of_not_within h']
    simp [hne]

/-- Setting it under a condition. -/
theorem has_setIf (set : FdSet) (h : Within fd) (flag : Bool) : ∃ set', setIf flag fd set = some set' ∧
    ∀ fd', set'.has fd' = (set.has fd' || flag && decide (fd' = fd)) := by
  unfold setIf
  cases flag with
  | false => exact ⟨set, rfl, by simp⟩
  | true =>
    obtain ⟨set', hset, hhas⟩ := has_set set h
    exact ⟨set', hset, by simpa using hhas⟩

/-- An entry with a descriptor that has a bit. -/
def Fits (o : Option FdEvent) : Prop := ∃ e, o = some e ∧ Within e.fd

/-- An entry whose interest is in the set of a type. -/
def interested (type : EventType) (fd : ℤ) (o : Option FdEvent) : Bool :=
  o.any fun e => e.fd = fd && FdEvent.interest e type

/-! ### The loops of `wait` -/

/-- The first loop sets the bits of the interests. -/
theorem fill_fits (sets : Sets) (h : ∀ o ∈ entries, Fits o) : ∃ sets', fill entries sets = some sets' ∧
    ∀ type fd, sets'.has type fd = (sets.has type fd || entries.any (interested type fd)) := by
  induction entries generalizing sets with
  | nil => exact ⟨sets, rfl, by simp⟩
  | cons o entries ih =>
    obtain ⟨⟨e, rfl, hfd⟩, hrest⟩ := List.forall_mem_cons.mp h
    obtain ⟨rset, hr, hasr⟩ := has_setIf sets.rset hfd e.read
    obtain ⟨wset, hw, hasw⟩ := has_setIf sets.wset hfd e.write
    obtain ⟨eset, hx, hasx⟩ := has_setIf sets.eset hfd e.error
    obtain ⟨sets', hfill, hhas⟩ := ih ⟨rset, wset, eset⟩ hrest
    refine ⟨sets', ?_, fun type fd => ?_⟩
    · rw [fill]
      simp only [Option.bind_eq_bind, Option.bind_some, hr, hw, hx, hfill]
    · have hsame : decide (fd = e.fd) = decide (e.fd = fd) := by
        simp only [eq_comm]
      rw [hhas, List.any_cons, ← Bool.or_assoc]
      congr 1
      cases type with
      | kRead => simp [Sets.has, hasr, interested, FdEvent.interest, hsame, Bool.and_comm]
      | kWrite => simp [Sets.has, hasw, interested, FdEvent.interest, hsame, Bool.and_comm]
      | kError => simp [Sets.has, hasx, interested, FdEvent.interest, hsame, Bool.and_comm]
      | kClose => simp [Sets.has, interested, FdEvent.interest]

/-- Testing the bit of a descriptor that has one. -/
theorem isset_within (h : Within fd) : FD_ISSET fd set = some (set.has fd) := by
  unfold FD_ISSET FdSet.has
  rw [bit_of_within h]
  rfl

/-- The flags are those of the sets without a limit. -/
theorem marks_within (h : Within e.fd) (n : ℤ) :
    marks sets e = some ((sets.selected n).marks e) := by
  unfold marks
  rw [isset_within h, isset_within h, isset_within h]
  rfl

/-- The second loop reports what they do. -/
theorem collect_fits (h : ∀ o ∈ entries, Fits o) (n : ℤ) :
    collect sets entries = (entries.mapM id).map fun entries =>
      (entries.map fun e => (e.handler, (sets.selected n).marks e)).filter fun m => m.2 ≠ [] := by
  induction entries with
  | nil => rfl
  | cons o entries ih =>
    obtain ⟨⟨e, rfl, hfd⟩, hrest⟩ := List.forall_mem_cons.mp h
    rw [collect, ih hrest, List.mapM_cons]
    simp only [Option.bind_eq_bind, Option.bind_some, marks_within hfd n, id]
    cases entries.mapM id with
    | none => rfl
    | some es =>
      simp only [Option.map_some, Option.bind_some, Option.pure_def, List.map_cons,
        List.filter_cons, decide_eq_true_eq]

/-- A descriptor without a bit makes the second loop leave the sets, if the first has not. -/
theorem collect_outside (h : ∃ e, some e ∈ entries ∧ ¬Within e.fd) : collect sets entries = none := by
  induction entries with
  | nil =>
    obtain ⟨_, he, _⟩ := h
    exact absurd he List.not_mem_nil
  | cons o entries ih =>
    obtain ⟨e, he, hout⟩ := h
    rw [collect]
    cases o with
    | none => rfl
    | some e₀ =>
      rcases List.mem_cons.mp he with heq | he
      · cases heq
        have hnone : marks sets e = none := by
          unfold marks FD_ISSET
          rw [bit_of_not_within hout]
          rfl
        simp [hnone]
      · cases hm : marks sets e₀ with
        | none => simp [hm]
        | some types => simp [ih ⟨e, he, hout⟩]

/-! ### A process and its descriptors -/

/-- The open descriptors of a process, and the poller of a loop. -/
structure Process where
  /-- The descriptors. -/
  opened : Finset ℕ
  /-- The poller, and what its calls describe. -/
  registry : Registry

/-- What can happen next. -/
inductive Event
  /-- `socket`, `accept`, `eventfd` or `timerfd_create`. -/
  | open_
  /-- `close`. -/
  | close (fd : ℕ)
  /-- A call on the poller. -/
  | call (c : Call)

/-- One step. The kernel gives out the lowest descriptor that is free. -/
def step (s : Process) : Event → Option Process
  | .open_ => some { s with opened := insert (lowest s.opened) s.opened }
  | .close fd => some { s with opened := s.opened.erase fd }
  | .call c => (PollRegistry.step s.registry c).map fun r => { s with registry := r }

/-- A process with its standard descriptors and a new poller; `maxfd` is what the memory
of `maxfd_` held. -/
def start (maxfd : ℤ) : Process := ⟨{0, 1, 2}, Registry.fresh maxfd⟩

/-- A call registers a descriptor that is open, or names one that is registered. -/
def Proper (s : Process) : Event → Prop
  | .call c => Addressed s.registry c ∧ (c.adds = true → ∃ n ∈ s.opened, (n : ℤ) = c.fd)
  | _ => True

/-- No more descriptors are open than a set has bits. -/
def Few (s : Process) : Event → Prop
  | .open_ => s.opened.card < FD_SETSIZE
  | _ => True

/-- What every run of proper calls keeps. -/
structure Own (s : Process) : Prop where
  /-- The registry is what its calls describe. -/
  exact : Exact s.registry.poll.events_ s.registry.interests
  /-- An entry is stored under its own descriptor. -/
  own : ∀ fd e, s.registry.poll.entry fd = some e → e.fd = fd

/-- What it keeps if few descriptors are open. -/
structure Sized (s : Process) : Prop where
  /-- Every open descriptor has a bit. -/
  opened : ∀ n ∈ s.opened, n < FD_SETSIZE
  /-- Every registered descriptor has one. -/
  fds : ∀ fd ∈ s.registry.poll.fds, Within fd

variable {s s' : Process} {ev : Event}

theorem own_step (h : Own s) (hproper : Proper s ev) (he : step s ev = some s') : Own s' := by
  cases ev with
  | open_ =>
    cases he
    exact ⟨h.exact, h.own⟩
  | close fd =>
    cases he
    exact ⟨h.exact, h.own⟩
  | call c =>
    cases he
    exact ⟨exact_perform h.exact hproper.1, own_perform h.own c⟩

theorem sized_step (h : Sized s) (hproper : Proper s ev) (hfew : Few s ev)
    (he : step s ev = some s') : Sized s' := by
  cases ev with
  | open_ =>
    cases he
    exact ⟨fun n hn => lt_of_mem_insert_lowest h.opened hfew hn, h.fds⟩
  | close fd =>
    cases he
    exact ⟨fun n hn => h.opened n (Finset.mem_of_mem_erase hn), h.fds⟩
  | call c =>
    cases he
    refine ⟨h.opened, fun fd hfd => ?_⟩
    dsimp only at hfd
    cases hadds : c.adds with
    | true =>
      rw [fds_perform_of_adds hadds] at hfd
      rcases Finset.mem_insert.mp hfd with rfl | hfd
      · obtain ⟨n, hn, heq⟩ := hproper.2 hadds
        have hlt := h.opened n hn
        exact ⟨by omega, by omega⟩
      · exact h.fds fd hfd
    | false => exact h.fds fd (fds_perform_of_not_adds hadds hfd)

/-- With a bit for every registered descriptor all entries fit. -/
theorem Own.fits (h : Own s) (hfds : ∀ fd ∈ s.registry.poll.fds, Within fd) :
    ∀ o ∈ s.registry.poll.events_.items.map Prod.snd, Fits o := by
  intro o ho
  obtain ⟨⟨fd, o⟩, hmem, rfl⟩ := List.mem_map.mp ho
  obtain ⟨e, rfl, hb⟩ := (h.exact fd o).mp hmem
  refine ⟨e, rfl, ?_⟩
  rw [h.own fd e ((entry_eq h.exact fd).trans hb)]
  exact hfds fd (mem_fds.mpr ⟨e, hmem⟩)

/-- `wait` passes the interests, and does what it does with sets without a limit. -/
def Faithful (p : PollSelect) : Prop :=
  ∃ sets, fill (p.events_.items.map Prod.snd) .zero = some sets ∧
    (∀ type fd, sets.has type fd = passed p type fd) ∧
    ∀ n select, wait p select = p.wait ((select sets).selected n) ∧
      (wait p select).isSome = true

theorem Own.faithful (h : Own s) (hfds : ∀ fd ∈ s.registry.poll.fds, Within fd) :
    Faithful s.registry.poll := by
  have hfits := h.fits hfds
  obtain ⟨sets, hfill, hhas⟩ := fill_fits .zero hfits
  refine ⟨sets, hfill, fun type fd => ?_, fun n select => ?_⟩
  · rw [hhas, has_zero, Bool.false_or, List.any_map]
    rfl
  · have heq : wait s.registry.poll select = s.registry.poll.wait ((select sets).selected n) := by
      unfold wait PollSelect.wait
      rw [hfill]
      simp only [Option.bind_eq_bind, Option.bind_some]
      rw [collect_fits hfits n, List.mapM_map, Function.id_comp]
      cases s.registry.poll.events_.items.mapM Prod.snd <;> rfl
    exact ⟨heq, heq ▸ wait_isSome h.exact _⟩

/-- With more descriptors registered than a set has bits `wait` leaves the sets. -/
theorem wait_overrun (hown : ∀ fd e, p.entry fd = some e → e.fd = fd)
    (hmany : FD_SETSIZE < p.fds.card) (select : Sets → Sets) : wait p select = none := by
  obtain ⟨fd, hfd, hout⟩ := exists_ge_of_card_lt hmany
  obtain ⟨e, he⟩ := mem_fds.mp hfd
  have hsame := hown fd e (entry_of_mem he)
  have hnot : ¬Within e.fd := by
    rintro ⟨hpos, hlt⟩
    omega
  unfold wait
  cases fill (p.events_.items.map Prod.snd) .zero with
  | none => rfl
  | some sets => exact collect_outside ⟨e, List.mem_map.mpr ⟨_, he, rfl⟩, hnot⟩

/-- In a run of a process that registers open descriptors only: as long as no more than
`FD_SETSIZE` descriptors are open at once, `wait` passes `select` exactly the interests
and reports what it answers; with more than that registered, it leaves its sets. -/
theorem sets_suffice (maxfd : ℤ) (events : List Event) (s : Process)
    (hrun : run step (start maxfd) events = some s)
    (hproper : Meets step Proper (start maxfd) events) :
    (Meets step Few (start maxfd) events → Faithful s.registry.poll) ∧
      (FD_SETSIZE < s.registry.poll.fds.card → ∀ select, wait s.registry.poll select = none) := by
  have hnew : Own (start maxfd) := by
    refine ⟨fun fd o => ⟨fun hx => absurd hx OrderedSet.not_mem_empty, ?_⟩, nofun⟩
    rintro ⟨_, _, he⟩
    cases he
  have hown : Own s :=
    invariant_of_meets Own (fun _ _ _ h hp he => own_step h hp he) hnew hproper hrun
  refine ⟨fun hfew => ?_, wait_overrun hown.own⟩
  have hstd : Sized (start maxfd) := by
    refine ⟨fun n hn => ?_, fun fd hfd => absurd hfd (Finset.notMem_empty fd)⟩
    simp only [start, Finset.mem_insert, Finset.mem_singleton] at hn
    unfold FD_SETSIZE
    omega
  have hsized : Sized s := invariant_of_meets Sized
    (fun _ _ _ h hp he => sized_step h hp.1 hp.2 he) hstd (hproper.and hfew) hrun
  exact hown.faithful hsized.fds

/-- The standard input is registered and read, and a descriptor is opened meanwhile. -/
def stdin : List Event :=
  [.call (.addFd 0 7), .open_, .call (.setEvent 0 .kRead), .close 2]

/-- Four descriptors have their bits. -/
theorem sets_suffice_stdin :
    ∃ s, run step (start 0) stdin = some s ∧ Faithful s.registry.poll := by
  obtain ⟨s, hrun⟩ : ∃ s, run step (start 0) stdin = some s := ⟨_, rfl⟩
  have hproper : Meets step Proper (start 0) stdin := by
    refine meets_cons_of_step rfl ⟨Or.inl rfl, fun _ => ⟨0, by decide, rfl⟩⟩ ?_
    refine meets_cons_of_step rfl trivial ?_
    refine meets_cons_of_step rfl ⟨Or.inr ?_, nofun⟩ ?_
    · exact nofun
    · exact meets_cons_of_step rfl trivial trivial
  have hfew : Meets step Few (start 0) stdin := by
    refine meets_cons_of_step rfl trivial ?_
    refine meets_cons_of_step rfl (by unfold Few; decide) ?_
    refine meets_cons_of_step rfl trivial ?_
    exact meets_cons_of_step rfl trivial trivial
  exact ⟨s, hrun, (sets_suffice 0 stdin s hrun hproper).1 hfew⟩

end KKNet.PollSets
