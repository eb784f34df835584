import KKNet.TimerRuns

/-!
# The memory of the timers

Every timer that is alive is in the sets of the queue, in the batch that
`handleRead` is processing, or on its way to be added. So the destructor, which
deletes the timers of one set, deletes each of them once and leaves behind those
that were not yet added, and nothing else.
-/

namespace KKNet.TimerRelease

open OrderedSets Runs TimerQueues TimerBook TimerRuns Results

variable {q q' : TimerQueue} {p : TimerPtr} {out : List TimerPtr} {timer : Timer}
variable {w w' : World} {e : Event}

/-- The loop of `~TimerQueue` over the entries. -/
def deleteAll (q : TimerQueue) : List Entry → Except Fault TimerQueue
  | [] => pure q
  | e :: entries => do
    let q ← q.delete e.timer
    deleteAll q entries

/-- `~TimerQueue`, without its poller. -/
def destroy (q : TimerQueue) : Except Fault TimerQueue := deleteAll q q.timers_.items

/-- Every live timer is in the sets or outside. -/
def Accounted (q : TimerQueue) (out : List TimerPtr) : Prop :=
  ∀ p t, q.at? p = some t → p ∈ out ∨ ∃ e ∈ q.timers_, e.timer = p

/-- The order of the timers outside does not matter. -/
theorem Accounted.mono (h : Accounted q out) {out' : List TimerPtr} (hsub : out ⊆ out')
    (hheap : q'.heap = q.heap) (htimers : ∀ e ∈ q.timers_, e ∈ q'.timers_) :
    Accounted q' out' := by
  intro p t hp
  rw [at?_congr hheap] at hp
  exact (h p t hp).imp (fun hmem => hsub hmem) fun ⟨e, he, hep⟩ => ⟨e, htimers e he, hep⟩

/-- A timer outside gets its entry. -/
theorem Accounted.inserted (h : Accounted q (p :: out)) (hbook : Book q (p :: out)) :
    Accounted (inserted q timer p) out := by
  intro p' t hp'
  rcases h p' t hp' with hmem | ⟨e, he, hep⟩
  · rcases List.mem_cons.mp hmem with rfl | hmem
    · exact Or.inr ⟨_, (mem_inserted hbook).mpr (Or.inr rfl), rfl⟩
    · exact Or.inl hmem
  · exact Or.inr ⟨e, (mem_inserted hbook).mpr (Or.inl he), hep⟩

/-- A timer outside is deleted. -/
theorem Accounted.deleted (h : Accounted q (p :: out)) :
    Accounted { q with heap := Function.update q.heap p.addr none } out := by
  intro p' t hp'
  obtain ⟨hlive, haddr⟩ := (at?_deleted rfl).mp hp'
  refine (h p' t hlive).imp_left fun hmem => (List.mem_cons.mp hmem).resolve_left ?_
  rintro rfl
  exact haddr rfl

/-- A timer of the sets is deleted. -/
theorem Accounted.removed (h : Accounted q out) (hbook : Book q out) {x : ActiveTimer}
    (hat : q.at? x.timer_ = some timer) : Accounted (removed q timer x) out := by
  intro p t hp
  obtain ⟨hlive, haddr⟩ := (at?_deleted rfl).mp hp
  refine (h p t hlive).imp_right fun ⟨e, he, hep⟩ => ⟨e, (mem_removed hbook hat).mpr ⟨he, ?_⟩, hep⟩
  rintro het
  exact haddr (by rw [← hep, het])

/-- A timer outside is overwritten. -/
theorem Accounted.rewritten (h : Accounted q (p :: out)) (hat : q.at? p = some timer)
    (timer' : Timer) (hseq : timer'.sequence_ = timer.sequence_) :
    Accounted (rewritten q p timer') (p :: out) := by
  intro p' t hp'
  rw [at?_rewritten hat timer' hseq] at hp'
  split at hp'
  case isTrue heq => exact Or.inl (heq ▸ List.mem_cons_self)
  case isFalse => exact h p' t hp'

/-- One turn of `reset` accounts for its timer. -/
theorem accounted_resetOne {x : Entry} {now : ℤ} (hbook : Book q (x.timer :: out))
    (h : Accounted q (x.timer :: out)) (hone : q.resetOne now x = .ok q') : Accounted q' out := by
  obtain ⟨t, hat⟩ := hbook.alive x.timer List.mem_cons_self
  unfold TimerQueue.resetOne at hone
  rw [deref_of_at? hat, ok_bind] at hone
  split at hone
  case isTrue =>
    have hnew := hbook.rewritten hat (t.restart now) rfl
    have hat' := (at?_rewritten hat (t.restart now) rfl x.timer).trans (if_pos rfl)
    have hinsert : TimerQueue.insert { q with
        heap := Function.update q.heap x.timer.addr (some (t.restart now)) } x.timer =
        .ok (inserted (rewritten q x.timer (t.restart now)) (t.restart now) x.timer, _) :=
      insert_ok hat'
    rw [hinsert, ok_bind] at hone
    cases hone
    exact (h.rewritten hat (t.restart now) rfl).inserted hnew
  case isFalse =>
    unfold TimerQueue.delete at hone
    rw [deref_of_at? hat, ok_bind] at hone
    cases hone
    exact h.deleted

/-- `reset` accounts for its batch. -/
theorem accounted_resetLoop {expired : List Entry} {now : ℤ}
    (hbook : Book q (expired.map Entry.timer ++ out))
    (h : Accounted q (expired.map Entry.timer ++ out)) (hloop : q.resetLoop now expired = .ok q') :
    Accounted q' out := by
  induction expired generalizing q with
  | nil =>
    cases hloop
    exact h
  | cons x expired ih =>
    obtain ⟨q₁, hone, hrest⟩ := ok_of_bind hloop
    obtain ⟨q₂, hone', _, hbook'⟩ := resetOne_ok (expired.map Entry.timer ++ out) hbook now
    cases hone.symm.trans hone'
    exact ih hbook' (accounted_resetOne hbook h hone) hrest

/-- The timers that are outside the sets. -/
def outside (w : World) : List TimerPtr := w.phase.expired.map Entry.timer ++ w.waiting

/-- The end of `handleRead` accounts for its batch. -/
theorem accounted_finishRead {expired : List Entry} {now clock : ℤ}
    (hbook : Book q (expired.map Entry.timer ++ out))
    (h : Accounted q (expired.map Entry.timer ++ out))
    (hfinish : q.finishRead expired now clock = .ok q') : Accounted q' out := by
  have hflag : Book { q with callingExpiredTimers_ := false } (expired.map Entry.timer ++ out) :=
    hbook.of_same rfl le_rfl rfl rfl
  obtain ⟨q₁, hloop, hrearm⟩ := ok_of_bind hfinish
  obtain ⟨q₂, hloop', _, hbook'⟩ := resetLoop_ok hflag now
  cases hloop.symm.trans hloop'
  have hq : rearmed q₁ clock = q' := Except.ok.inj ((rearm_ok hbook' clock).symm.trans hrearm)
  have hacc : Accounted q₁ out :=
    accounted_resetLoop hflag (h.mono (List.Subset.refl _) rfl fun _ he => he) hloop
  rw [← hq]
  refine hacc.mono (List.Subset.refl _) (rearmed_heap q₁ clock) fun e he => ?_
  rw [rearmed_timers_]
  exact he

/-- Every step accounts for the timers. -/
theorem accounted_step (hinv : Inv w) (h : Accounted w.queue (outside w))
    (he : step w e = some w') : Accounted w'.queue (outside w') := by
  cases moves_of_step hinv he with
  | @construct addr time interval hfree haddr =>
    intro p t hp
    rcases (at?_construct hfree).mp hp with hold | ⟨rfl, _⟩
    · refine (h p t hold).imp_left fun hmem => ?_
      unfold outside World.waiting at hmem ⊢
      simp only [List.mem_append] at hmem ⊢
      tauto
    · refine Or.inl (List.mem_append_right _ ?_)
      exact List.mem_append_left _ (List.mem_append_right _ (List.mem_singleton_self _))
  | elsewhere => exact h.mono (List.Subset.refl _) rfl fun _ he => he
  | @queueAdd i p hp =>
    refine h.mono (fun p' hp' => ?_) rfl fun _ he => he
    unfold outside at hp' ⊢
    rcases List.mem_append.mp hp' with hmem | hmem
    · exact List.mem_append_left _ hmem
    · refine List.mem_append_right _ ?_
      rcases List.mem_cons.mp ((waiting_eraseIdx hp).mem_iff.mp hmem) with rfl | hmem
      · unfold World.waiting
        simp [Task.adds]
      · unfold World.waiting at hmem ⊢
        simp only [List.filterMap_append, List.mem_append] at hmem ⊢
        tauto
  | @add _ p timer clock built tasks hadds hwait hat =>
    have hmoved : w.phase.expired.map Entry.timer ++ w.waiting ⊆ p :: outside
        { w with built := built, tasks_ := tasks } := by
      refine ((List.Perm.append_left _ hwait).trans List.perm_middle).subset
    have hbook := hinv.book.perm ((List.Perm.append_left _ hwait).trans List.perm_middle)
    have hmine : Accounted (inserted w.queue timer p) _ :=
      (h.mono hmoved rfl fun _ he => he).inserted hbook
    refine hmine.mono (List.Subset.refl _) (added_heap w.queue timer p clock) fun e he => ?_
    rw [added_timers_]
    exact he
  | @queueCancel id =>
    refine h.mono (List.Perm.of_eq ?_).subset rfl fun _ he => he
    unfold outside
    rw [waiting_queueCancel]
  | @cancel _ id x timer tasks hid hwait hx hkey hat =>
    refine (h.removed hinv.book hat).mono (List.Perm.of_eq ?_).subset rfl fun _ he => he
    unfold outside World.waiting
    dsimp only
    rw [hwait]
  | @note _ id tasks hid hwait hno =>
    refine h.mono (List.Perm.of_eq ?_).subset (noted_heap w.queue id) fun e he => ?_
    · unfold outside World.waiting
      dsimp only
      rw [hwait]
    · rw [noted_timers_]
      exact he
  | fire harmed => exact h.mono (List.Subset.refl _) rfl fun _ he => he
  | read hread =>
    cases hread with
    | @start now q expired hph hs hb =>
      intro p t hp
      rw [at?_congr hs.heap] at hp
      rcases h p t hp with hmem | ⟨e, he, rfl⟩
      · refine Or.inl (List.mem_append_right _ ?_)
        unfold outside at hmem
        rw [hph] at hmem
        exact hmem
      · by_cases hbatch : e ∈ expired
        · exact Or.inl (List.mem_append_left _ (List.mem_map_of_mem hbatch))
        · exact Or.inr ⟨e, (hs.rest e).mpr ⟨he, hbatch⟩, rfl⟩
    | @next now expired todo x timer hph hat =>
      refine h.mono (List.Perm.of_eq ?_).subset rfl fun _ he => he
      unfold outside
      rw [hph]
      rfl
    | @finish now clock expired q hph hr hb =>
      have hbook : Book w.queue (expired.map Entry.timer ++ w.waiting) := by
        have hall := hinv.book
        rw [hph] at hall
        exact hall
      unfold outside at h
      rw [hph] at h
      obtain ⟨q', hfinish, _⟩ := finishRead_ok hbook now clock
      unfold step perform at he
      rw [hph] at he
      dsimp only [World.onQueue] at he
      rw [hfinish] at he
      have hq : rearmed q' clock = rearmed q clock := congrArg World.queue (Option.some.inj he)
      have hacc := accounted_finishRead hbook h hfinish
      rw [hq] at hacc
      exact hacc

/-- Every run accounts for the timers. -/
theorem accounted_run {events : List Event} (hrun : run step World.fresh events = some w) :
    Inv w ∧ Accounted w.queue (outside w) :=
  invariant (fun w => Inv w ∧ Accounted w.queue (outside w))
    (fun _ _ _ h he => ⟨inv_moves h.1 (moves_of_step h.1 he), accounted_step h.1 h.2 he⟩)
    ⟨inv_fresh, fun _ _ hp => by cases hp⟩ hrun

/-- Deleting different live timers leaves the others. -/
theorem deleteAll_ok {entries : List Entry} (hlive : ∀ e ∈ entries, ∃ t, q.at? e.timer = some t)
    (hnodup : (entries.map Entry.timer).Nodup) :
    ∃ q', deleteAll q entries = .ok q' ∧ ∀ p t, q'.at? p = some t ↔
      q.at? p = some t ∧ p ∉ entries.map Entry.timer := by
  induction entries generalizing q with
  | nil => exact ⟨q, rfl, fun p t => (and_iff_left List.not_mem_nil).symm⟩
  | cons x entries ih =>
    obtain ⟨t₀, hat⟩ := hlive x List.mem_cons_self
    rw [List.map_cons, List.nodup_cons] at hnodup
    have hdeleted : ∀ p t, TimerQueue.at? { q with
        heap := Function.update q.heap x.timer.addr none } p = some t ↔
        q.at? p = some t ∧ p ≠ x.timer := by
      intro p t
      refine (at?_deleted rfl).trans (and_congr_right fun hp => not_congr ⟨fun haddr => ?_, ?_⟩)
      · exact eq_of_addr hp hat haddr
      · rintro rfl
        rfl
    obtain ⟨q', hrest, hleft⟩ := ih (fun e he => by
      obtain ⟨t, ht⟩ := hlive e (List.mem_cons_of_mem x he)
      refine ⟨t, (hdeleted e.timer t).mpr ⟨ht, fun heq => hnodup.1 ?_⟩⟩
      rw [← heq]
      exact List.mem_map_of_mem he) hnodup.2
    refine ⟨q', ?_, fun p t => ?_⟩
    · unfold deleteAll TimerQueue.delete
      rw [deref_of_at? hat]
      exact hrest
    · rw [hleft, hdeleted, List.map_cons, List.mem_cons, not_or, and_assoc]

/-- The entries of the queue are of different timers. -/
theorem nodup_timers (h : Book q out) : (q.timers_.items.map Entry.timer).Nodup := by
  refine List.Nodup.map_on (fun e he e' he' ht => h.entry_unique he he' ht) ?_
  exact q.timers_.sorted.imp fun hlt heq => (heq ▸ hlt).false

/-- In every reachable state a timer is alive exactly if it has an entry, is in the batch
being processed, or was not yet added. The destructor deletes those with an entry, each
once, and leaves the others. -/
theorem timers_not_leaked (events : List Event) (w : World)
    (hrun : run step World.fresh events = some w) :
    (∀ p, (∃ t, w.queue.at? p = some t) ↔ (∃ e ∈ w.queue.timers_, e.timer = p) ∨
      p ∈ w.phase.expired.map Entry.timer ∨ p ∈ w.waiting) ∧
    ∃ q, destroy w.queue = .ok q ∧ ∀ p, (∃ t, q.at? p = some t) ↔
      p ∈ w.phase.expired.map Entry.timer ∨ p ∈ w.waiting := by
  obtain ⟨hinv, hacc⟩ := accounted_run hrun
  have hbook := hinv.book
  have hout : ∀ {p}, p ∈ outside w ↔ p ∈ w.phase.expired.map Entry.timer ∨ p ∈ w.waiting :=
    List.mem_append
  constructor
  · intro p
    rw [← hout]
    constructor
    · rintro ⟨t, hp⟩
      exact (hacc p t hp).symm
    · rintro (⟨e, he, rfl⟩ | hmem)
      · obtain ⟨t, hat, _⟩ := hbook.current e he
        exact ⟨t, hat⟩
      · exact hbook.alive p hmem
  · have hlive : ∀ e ∈ w.queue.timers_.items, ∃ t, w.queue.at? e.timer = some t :=
      fun e he => (hbook.current e he).imp fun t ht => ht.1
    obtain ⟨q, hdestroy, hleft⟩ := deleteAll_ok hlive (nodup_timers hbook)
    refine ⟨q, hdestroy, fun p => ?_⟩
    rw [← hout]
    constructor
    · rintro ⟨t, hp⟩
      obtain ⟨hlive, hnot⟩ := (hleft p t).mp hp
      refine (hacc p t hlive).resolve_right fun ⟨e, he, hep⟩ => hnot ?_
      exact hep ▸ List.mem_map_of_mem he
    · intro hmem
      obtain ⟨t, hp⟩ := hbook.alive p hmem
      refine ⟨t, (hleft p t).mpr ⟨hp, fun hentry => ?_⟩⟩
      obtain ⟨e, he, hep⟩ := List.mem_map.mp hentry
      exact hbook.apart p hmem e he hep

/-- One timer repeats, one is on its way. -/
def leaving : List Event :=
  [.construct 16 5 (.every 3), .construct 32 6 .zero, .runAdd 0 1, .fire, .startRead 7, .runNext,
    .finishRead 8, .queueAdd 0]

/-- The timer that was not yet added is left behind. -/
theorem timers_not_leaked_leaving :
    ∃ w q, run step World.fresh leaving = some w ∧ w.queue.timers_.items = [⟨10, ⟨16, 1⟩⟩] ∧
      destroy w.queue = .ok q ∧ ∀ p, (∃ t, q.at? p = some t) ↔ p = ⟨32, 2⟩ := by
  obtain ⟨w, hrun, hitems, hbatch, hwaiting⟩ : ∃ w, run step World.fresh leaving = some w ∧
      w.queue.timers_.items = [⟨10, ⟨16, 1⟩⟩] ∧ w.phase.expired = [] ∧ w.waiting = [⟨32, 2⟩] :=
    ⟨_, rfl, rfl, rfl, rfl⟩
  obtain ⟨q, hdestroy, hleft⟩ := (timers_not_leaked leaving w hrun).2
  refine ⟨w, q, hrun, hitems, hdestroy, fun p => (hleft p).trans ?_⟩
  rw [hbatch, hwaiting, List.mem_singleton]
  exact or_iff_right List.not_mem_nil

end KKNet.TimerRelease
