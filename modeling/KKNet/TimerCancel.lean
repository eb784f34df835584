import KKNet.TimerRuns

/-!
# Cancellation of timers

Once `cancelInLoop` was executed for a timer that had been added, the timer is
armed no more, and its callback is started no more, except that a callback which
stands in the batch being processed and was not started yet still runs. A
cancellation that overtakes the addition of its timer does nothing.
-/

namespace KKNet.TimerCancel

open OrderedSets Runs TimerQueues TimerBook TimerRuns

variable {w w' : World} {e : Event} {p : TimerPtr}

/-- How often the callback of a timer was started. -/
def firings (w : World) (p : TimerPtr) : ℕ := w.history.countP fun f => f.sequence = p.origin

/-- How often the callback of a timer still has to run in the batch. -/
def pending (w : World) (p : TimerPtr) : ℕ := w.phase.todo.countP fun x => x.timer = p

/-- The timer was added and cancelled. -/
structure Gone (w : World) (p : TimerPtr) : Prop where
  /-- It is not armed. -/
  disarmed : ∀ e ∈ w.queue.timers_, e.timer ≠ p
  /-- It is not on its way. -/
  arrived : p ∉ w.waiting
  /-- It was constructed. -/
  issued : p ∈ w.issued
  /-- If it is in the batch, its cancellation is noted. -/
  noted : ∀ x ∈ w.phase.expired, x.timer = p →
    ∃ y ∈ w.queue.cancelingTimers_, y.key = ActiveTimer.key ⟨p, p.origin⟩

/-- A live timer with the number of an issued one is that one. -/
theorem eq_of_issued (h : Inv w) (hp : p ∈ w.issued) {p' : TimerPtr} {timer : Timer}
    (hat : w.queue.at? p' = some timer) (ho : p'.origin = p.origin) : p' = p := by
  obtain ⟨hheap, hseq⟩ := at?_eq_some.mp hat
  have hmem := h.issued _ _ hheap
  rw [hseq] at hmem
  exact h.distinct p' hmem p hp ho

/-- A callback still has to run at most once. -/
theorem pending_le_one (h : Inv w) (p : TimerPtr) : pending w p ≤ 1 := by
  have hnodup : (w.phase.todo.map Entry.timer).Nodup :=
    (h.todo.sublist.map _).nodup (List.nodup_append.mp h.book.once).1
  have hcount : pending w p = (w.phase.todo.map Entry.timer).count p := by
    unfold pending
    rw [List.count, List.countP_map]
    rfl
  rw [hcount]
  exact List.nodup_iff_count_le_one.mp hnodup p

/-- Outside `handleRead` no callback has to run. -/
theorem pending_of_idle (hidle : w.phase = .idle) (p : TimerPtr) : pending w p = 0 := by
  unfold pending
  rw [hidle]
  rfl

/-- A step executes `cancelInLoop` for one timer. -/
theorem cancels_unique {id id' : ActiveTimer} (h : Cancels w e id) (h' : Cancels w e id') :
    id = id' := by
  rcases h with h | ⟨clock, tasks, h, _, htasks⟩
  · rcases h' with h' | ⟨clock', tasks', h', _, _⟩
    · rw [h, Event.runCancel.injEq] at h'
      exact h'
    · rw [h] at h'
      cases h'
  · rcases h' with h' | ⟨clock', tasks', h', _, htasks'⟩
    · rw [h] at h'
      cases h'
    · rw [htasks, List.cons.injEq, Task.cancelInLoop.injEq] at htasks'
      exact htasks'.1

/-- A step that executes `cancelInLoop` removes an active timer or takes a note. -/
theorem moves_of_cancels {id : ActiveTimer} (hcancel : Cancels w e id) (hm : Moves w e w') :
    ∃ tasks, tasks.filterMap Task.adds = w.tasks_.filterMap Task.adds ∧
      ((∃ x timer, x ∈ w.queue.activeTimers_ ∧ x.key = id.key ∧
        w.queue.at? x.timer_ = some timer ∧
        w' = { w with queue := removed w.queue timer x, tasks_ := tasks }) ∨
      (∀ x ∈ w.queue.activeTimers_, x.key ≠ id.key) ∧
        w' = { w with queue := noted w.queue id, tasks_ := tasks }) := by
  cases hm with
  | @cancel _ id' x timer tasks hid hwait hx hkey hat =>
    rw [cancels_unique hid hcancel] at hkey
    exact ⟨tasks, hwait, Or.inl ⟨x, timer, hx, hkey, hat, rfl⟩⟩
  | @note _ id' tasks hid hwait hno =>
    rw [cancels_unique hid hcancel] at hno ⊢
    exact ⟨tasks, hwait, Or.inr ⟨hno, rfl⟩⟩
  | read hread =>
    rcases hcancel with h | ⟨clock, tasks, h, _⟩
    · subst h
      cases hread
    · subst h
      cases hread
  | add hadds hwait hat =>
    rcases hcancel with h | ⟨clock, tasks, h, _, htasks⟩
    · rcases hadds with ⟨i, h'⟩ | ⟨tasks, h', _⟩
      · rw [h] at h'
        cases h'
      · rw [h] at h'
        cases h'
    · rcases hadds with ⟨i, h'⟩ | ⟨tasks', _, htasks'⟩
      · rw [h] at h'
        cases h'
      · rw [htasks] at htasks'
        cases htasks'
  | construct hfree haddr => rcases hcancel with h | ⟨clock, tasks, h, _⟩ <;> cases h
  | elsewhere => rcases hcancel with h | ⟨clock, tasks, h, _⟩ <;> cases h
  | queueAdd hp => rcases hcancel with h | ⟨clock, tasks, h, _⟩ <;> cases h
  | queueCancel => rcases hcancel with h | ⟨clock, tasks, h, _⟩ <;> cases h
  | fire harmed => rcases hcancel with h | ⟨clock, tasks, h, _⟩ <;> cases h

/-- While callbacks run a cancellation is noted. -/
theorem mem_noted {q : TimerQueue} (hcalling : q.callingExpiredTimers_ = true) (id : ActiveTimer) :
    ∃ y ∈ (noted q id).cancelingTimers_, y.key = id.key := by
  unfold noted
  rw [if_pos hcalling]
  dsimp only
  cases hfind : q.cancelingTimers_.find id.key with
  | some y =>
    obtain ⟨hy, hkey⟩ := OrderedSet.find_eq_some.mp hfind
    exact ⟨y, OrderedSet.mem_insert.mpr (Or.inl hy), hkey⟩
  | none =>
    have hno := OrderedSet.find_eq_none.mp hfind
    exact ⟨id, OrderedSet.mem_insert.mpr (Or.inr ⟨rfl, hno⟩), rfl⟩

/-- The step that executes `cancelInLoop` for a timer that was added. -/
theorem gone_of_cancels (hinv : Inv w) (hp : p ∈ w.issued) (hadded : p ∉ w.waiting)
    (hcancel : Cancels w e ⟨p, p.origin⟩) (hm : Moves w e w') : Gone w' p := by
  obtain ⟨tasks, hwait, hdone⟩ := moves_of_cancels hcancel hm
  have harrived : p ∉ w.built ++ tasks.filterMap Task.adds := by
    rw [hwait]
    exact hadded
  rcases hdone with ⟨x, timer, hx, hkey, hat, hw⟩ | ⟨hno, hw⟩
  · subst hw
    obtain ⟨hseq, e, he, het⟩ := hinv.book.active x hx
    have hxp : x.timer_ = p := by
      refine eq_of_issued hinv hp hat ?_
      rw [← hseq]
      exact congrArg Prod.snd (toLex.injective hkey)
    exact { disarmed := fun e he => hxp ▸ ((mem_removed hinv.book hat).mp he).2
            arrived := harrived
            issued := hp
            noted := by
              intro y hy hyp
              have hout : y.timer ∈ w.phase.expired.map Entry.timer ++ w.waiting :=
                List.mem_append_left _ (List.mem_map_of_mem hy)
              exact absurd (het.trans (hxp.trans hyp.symm)) (hinv.book.apart y.timer hout e he) }
  · subst hw
    exact { disarmed := by
              intro e he hep
              dsimp only at he
              rw [noted_timers_] at he
              refine hno _ (hinv.book.listed e he) ?_
              rw [hep]
            arrived := harrived
            issued := hp
            noted := by
              intro y hy _
              have hcalling := hinv.calling
              cases hph : w.phase with
              | idle =>
                rw [hph] at hy
                exact absurd hy List.not_mem_nil
              | calling now expired todo =>
                rw [hph] at hcalling
                exact mem_noted hcalling ⟨p, p.origin⟩ }

/-- A cancelled timer stays cancelled, and its callback is started as often as it
still had to run. -/
theorem gone_moves (hinv : Inv w) (h : Gone w p) (hm : Moves w e w') :
    Gone w' p ∧ firings w' p + pending w' p = firings w p + pending w p := by
  rcases aside_or_reads hinv hm with ha | hread
  · constructor
    · exact { disarmed := by
                intro e he
                rcases ha.entries e he with hold | hnew
                · exact h.disarmed e hold
                · exact fun hep => h.arrived (hep ▸ hnew)
              arrived := by
                intro hp
                rcases ha.waiting p hp with hold | hnew
                · exact h.arrived hold
                · exact absurd (hinv.numbers p h.issued) (not_le.mpr hnew)
              issued := ha.issued p h.issued
              noted := by
                intro x hx hxp
                obtain ⟨y, hy, hkey⟩ := h.noted x (ha.phase ▸ hx) hxp
                exact ⟨y, ha.canceling y hy, hkey⟩ }
    · unfold firings pending
      rw [ha.history, ha.phase]
  · cases hread with
    | @start now q expired hidle hs hb =>
      have hmem : ∀ x ∈ expired, x.timer ≠ p := by
        intro x hx
        rw [hs.batch] at hx
        exact h.disarmed x (OrderedSet.mem_below.mp hx).1
      constructor
      · exact { disarmed := fun e he => h.disarmed e ((hs.rest e).mp he).1
                arrived := h.arrived
                issued := h.issued
                noted := fun x hx hxp => absurd hxp (hmem x hx) }
      · rw [pending_of_idle hidle]
        have hzero : expired.countP (fun x => x.timer = p) = 0 := by
          refine List.countP_eq_zero.mpr fun x hx => ?_
          rw [decide_eq_true_eq]
          exact hmem x hx
        unfold firings pending
        dsimp only [Phase.todo]
        rw [hzero]
    | @next now expired todo x timer hph hat =>
      constructor
      · exact { disarmed := h.disarmed
                arrived := h.arrived
                issued := h.issued
                noted := by
                  have hnoted := h.noted
                  rw [hph] at hnoted
                  exact hnoted }
      · have hiff : timer.sequence_ = p.origin ↔ x.timer = p := by
          rw [(at?_eq_some.mp hat).2]
          exact ⟨eq_of_issued hinv h.issued hat, fun hxp => congrArg TimerPtr.origin hxp⟩
        unfold firings pending
        rw [hph]
        dsimp only [Phase.todo]
        rw [List.countP_append, List.countP_singleton, List.countP_cons]
        simp only [decide_eq_true_eq, hiff]
        omega
    | @finish now clock expired q hph hr hb =>
      constructor
      · exact { disarmed := by
                  intro e he hep
                  dsimp only at he
                  rw [rearmed_timers_] at he
                  rcases (hr.entries e).mp he with hold | ⟨x, hx, t, hat, _, hfind, hnew⟩
                  · exact h.disarmed e hold hep
                  · rw [hnew] at hep
                    dsimp only at hep
                    obtain ⟨y, hy, hkey⟩ := h.noted x (by rw [hph]; exact hx) hep
                    rw [hep] at hfind
                    exact OrderedSet.find_eq_none.mp hfind y hy hkey
                arrived := h.arrived
                issued := h.issued
                noted := fun x hx => absurd hx List.not_mem_nil }
      · unfold firings pending
        rw [hph]
        rfl

/-- A run after the cancellation. -/
theorem gone_run (hinv : Inv w) (h : Gone w p) {events : List Event}
    (hrun : run step w events = some w') :
    Inv w' ∧ Gone w' p ∧ firings w' p + pending w' p = firings w p + pending w p := by
  refine invariant (fun w' => Inv w' ∧ Gone w' p ∧
    firings w' p + pending w' p = firings w p + pending w p) ?_ ⟨hinv, h, rfl⟩ hrun
  intro w₁ e w₂ hw he
  have hm := moves_of_step hw.1 he
  obtain ⟨hgone, hcount⟩ := gone_moves hw.1 hw.2.1 hm
  exact ⟨inv_moves hw.1 hm, hgone, hcount.trans hw.2.2⟩

/-- Once `cancelInLoop` was executed for an issued timer that had been added, the
timer is never armed again; its callback is started at most once more, only if it
stands in the batch being processed and was not started yet, and never after the
end of that batch. -/
theorem cancelled_is_final (before : List Event) (w₀ : World)
    (hbefore : run step World.fresh before = some w₀) (p : TimerPtr) (hp : p ∈ w₀.issued)
    (hadded : p ∉ w₀.waiting) (e : Event) (hcancel : Cancels w₀ e ⟨p, p.origin⟩) (w : World)
    (hstep : step w₀ e = some w) (after : List Event) (w' : World)
    (hafter : run step w after = some w') :
    (∀ x ∈ w'.queue.timers_, x.timer ≠ p) ∧ firings w' p ≤ firings w p + pending w p ∧
      pending w p ≤ 1 ∧
      ∀ later w'', w'.phase = .idle → run step w' later = some w'' → firings w'' p = firings w' p := by
  have hinv₀ := inv_run hbefore
  have hm := moves_of_step hinv₀ hstep
  have hinv := inv_moves hinv₀ hm
  have hgone := gone_of_cancels hinv₀ hp hadded hcancel hm
  obtain ⟨hinv', hgone', hcount⟩ := gone_run hinv hgone hafter
  refine ⟨hgone'.disarmed, by omega, pending_le_one hinv p, fun later w'' hidle hlater => ?_⟩
  obtain ⟨hinv'', hgone'', hcount'⟩ := gone_run hinv' hgone' hlater
  have hnone := pending_of_idle hidle p
  have hstarted : firings w' p ≤ firings w'' p :=
    (history_run hinv' hlater).2.sublist.countP_le
  omega

/-- Two timers that expire together; the callback of the first is running. -/
def together : List Event :=
  [.construct 16 5 .zero, .construct 32 5 (.every 3), .runAdd 0 1, .runAdd 0 1, .fire,
    .startRead 10, .runNext]

/-- The second timer of `together`. -/
def second : TimerPtr := ⟨32, 2⟩

/-- The first callback cancels the second timer, which still runs and is not armed
again. -/
theorem cancelled_is_final_together :
    ∃ w₀ w w', run step World.fresh together = some w₀ ∧
      step w₀ (.runCancel ⟨second, second.origin⟩) = some w ∧
      run step w [.runNext, .finishRead 11] = some w' ∧
      (∀ x ∈ w'.queue.timers_, x.timer ≠ second) ∧
      firings w' second ≤ firings w second + pending w second ∧ pending w second ≤ 1 ∧
      ∀ later w'', w'.phase = .idle → run step w' later = some w'' →
        firings w'' second = firings w' second :=
  ⟨_, _, _, rfl, rfl, rfl, cancelled_is_final together _ rfl second (by decide) (by decide)
    (.runCancel ⟨second, second.origin⟩) (Or.inl rfl) _ rfl [.runNext, .finishRead 11] _ rfl⟩

/-- A timer whose addition is on its way to the loop. -/
def underway : List Event := [.construct 16 5 (.every 3), .queueAdd 0]

/-- A callback still runs after its timer was cancelled, if it stands in the batch;
and a timer that was cancelled before it was added is armed and fires. -/
theorem cancelled_timer_fires :
    (∃ w₀ w w', run step World.fresh together = some w₀ ∧
      step w₀ (.runCancel ⟨second, second.origin⟩) = some w ∧ run step w [.runNext] = some w' ∧
      second ∈ w₀.issued ∧ second ∉ w₀.waiting ∧ firings w second < firings w' second) ∧
    ∃ w₀ w w', run step World.fresh underway = some w₀ ∧
      step w₀ (.runCancel ⟨⟨16, 1⟩, 1⟩) = some w ∧
      run step w [.runTask 2, .fire, .startRead 10, .runNext] = some w' ∧
      ⟨16, 1⟩ ∈ w₀.issued ∧ firings w ⟨16, 1⟩ < firings w' ⟨16, 1⟩ :=
  ⟨⟨_, _, _, rfl, rfl, rfl, by decide, by decide, by decide⟩,
    ⟨_, _, _, rfl, rfl, rfl, by decide, by decide⟩⟩

end KKNet.TimerCancel
