import KKNet.TimerRuns

/-!
# Arming the timerfd

Between the steps of the loop the one-shot timerfd is due in time for every
entry of the queue: it fired, or its deadline is at most the expiry of the entry
or the shortest delay after it was armed. While callbacks run this holds for the
entries the end of `handleRead` does not arm for, those that are not valid.
-/

namespace KKNet.TimerArm

open OrderedSets Runs TimerQueues TimerBook TimerRuns

variable {w w' : World} {e : Event}

/-- The timerfd fires in time for an expiry. -/
def Reaches (fd : Timerfd) (time : ℤ) : Prop :=
  match fd with
  | .disarmed => False
  | .armed now deadline => deadline ≤ max time (now + 100)
  | .fired => True

/-- What reaches an expiry reaches later ones. -/
theorem Reaches.mono {fd : Timerfd} {time time' : ℤ} (h : Reaches fd time) (hle : time ≤ time') :
    Reaches fd time' := by
  cases fd with
  | disarmed => exact h
  | armed now deadline => exact le_trans h (max_le_max_right _ hle)
  | fired => trivial

/-- The delay that is programmed is the time left, and at least 100 microseconds. -/
theorem howMuchTimeFromNow_micros {when' now : ℤ} (hfits : Fits (when' - now)) :
    (howMuchTimeFromNow when' now).micros = max (when' - now) 100 := by
  have hsplit : ∀ n : ℤ, n / kMicroSecondsPerSecond * kMicroSecondsPerSecond +
      n % kMicroSecondsPerSecond * 1000 / 1000 = n := by
    intro n
    rw [Int.mul_ediv_cancel _ (by decide)]
    exact Int.ediv_mul_add_emod n kMicroSecondsPerSecond
  unfold howMuchTimeFromNow Timespec.micros
  dsimp only
  rw [hsplit, int64_of_fits hfits]
  by_cases hshort : when' - now < 100
  · rw [if_pos hshort, max_eq_right hshort.le]
  · rw [if_neg hshort, max_eq_left (not_lt.mp hshort)]

/-- Arming for an expiry reaches it. -/
theorem reaches_resetTimerfd (q : TimerQueue) {expiration now : ℤ}
    (hfits : Fits (expiration - now)) :
    Reaches (q.resetTimerfd expiration now).timerfd_ expiration := by
  unfold TimerQueue.resetTimerfd Reaches
  dsimp only
  rw [howMuchTimeFromNow_micros hfits]
  omega

/-- An expiry that is an interval after a reading is past it, if it does not differ from
it by more than an `int64_t` holds: a sum that wrapped around would. -/
theorem addTime_of_fits {now : ℤ} {interval : Interval} (hpos : 0 < now) (hnow : Fits now)
    (hrepeat : interval.positive = true) (hfits : Fits (addTime now interval - now)) :
    addTime now interval = now + interval.micros := by
  have hnonneg := interval.nonneg hrepeat
  have hmicros := interval.fits
  unfold addTime at hfits ⊢
  refine int64_of_fits ?_
  unfold Fits int64 Int.bmod at *
  dsimp only at hfits
  split at hfits <;> omega

/-- The timerfd reaches every entry, or while callbacks run every one that is not
valid. -/
structure Guarded (w : World) : Prop where
  /-- The entries that have to be reached are. -/
  reaches : ∀ e ∈ w.queue.timers_, w.phase = .idle ∨ ¬valid e.time →
    Reaches w.queue.timerfd_ e.time
  /-- `handleRead` started at a positive reading. -/
  clock : ∀ now expired todo, w.phase = .calling now expired todo → 0 < now

/-- `handleRead` starts at a positive reading. -/
def Clocked : Event → Prop
  | .startRead now => 0 < now
  | _ => True

/-- The readings of the clock a step goes by. -/
def readings (w : World) : Event → List ℤ
  | .runAdd _ clock => [clock]
  | .runTask clock =>
    match w.tasks_ with
    | .addTimerInLoop _ :: _ => [clock]
    | _ => []
  | .finishRead clock =>
    match w.phase with
    | .calling now _ _ => [now, clock]
    | .idle => [clock]
  | _ => []

/-- No time difference overflows: the earliest expiry the step leaves in `timers_` is no
further from a reading it goes by than an `int64_t` holds. -/
def InRange (w : World) (e : Event) (w' : World) : Prop :=
  ∀ now ∈ readings w e, Fits now ∧ ∀ x ∈ w'.queue.timers_.first, Fits (x.time - now)

instance (w w' : World) (e : Event) : Decidable (InRange w e w') :=
  inferInstanceAs (Decidable (∀ now ∈ readings w e, _ ∧ ∀ x ∈ w'.queue.timers_.first, _))

/-- `addTimerInLoop` goes by the reading it takes. -/
theorem mem_readings_of_adds {p : TimerPtr} {clock : ℤ} (h : Adds w e p clock) :
    clock ∈ readings w e := by
  rcases h with ⟨i, rfl⟩ | ⟨tasks, rfl, htasks⟩
  · exact List.mem_singleton_self clock
  · unfold readings
    dsimp only
    rw [htasks]
    exact List.mem_singleton_self clock

/-- The end of `handleRead` goes by the reading it started with and one it takes. -/
theorem readings_finishRead {now clock : ℤ} {expired : List Entry}
    (hph : w.phase = .calling now expired []) :
    readings w (.finishRead clock) = [now, clock] := by
  unfold readings
  dsimp only
  rw [hph]

/-- A timer that expires before every other one is the first when it is added. -/
theorem first_inserted {q : TimerQueue} {timer : Timer} {p : TimerPtr} {out : List TimerPtr}
    (hbook : Book q (p :: out)) (hearly : isEarliest q timer.time_ = true) :
    (inserted q timer p).timers_.first = some ⟨timer.time_, p⟩ := by
  have hnew : (⟨timer.time_, p⟩ : Entry) ∈ (inserted q timer p).timers_ :=
    (mem_inserted hbook).mpr (Or.inr rfl)
  cases hfirst : (inserted q timer p).timers_.first with
  | none => exact absurd hnew (OrderedSet.first_eq_none.mp hfirst _)
  | some x =>
    rcases (mem_inserted hbook).mp (OrderedSet.first_mem hfirst) with hold | hx
    · have hlt := isEarliest_iff.mp hearly x hold
      exact absurd (first_time_le hfirst hnew) (not_le.mpr hlt)
    · rw [hx]

/-- Adding a timer arms the timerfd if no earlier entry has armed it. -/
theorem reaches_added {q : TimerQueue} {timer : Timer} {p : TimerPtr} {clock : ℤ}
    (due : Entry → Prop) (hdue : ∀ e e', due e → e'.time ≤ e.time → due e') {out : List TimerPtr}
    (hbook : Book q (p :: out))
    (hfits : ∀ x ∈ (added q timer p clock).timers_.first, Fits (x.time - clock))
    (h : ∀ e ∈ q.timers_, due e → Reaches q.timerfd_ e.time) :
    ∀ e ∈ (added q timer p clock).timers_, due e →
      Reaches (added q timer p clock).timerfd_ e.time := by
  intro e he hd
  unfold added at he hfits ⊢
  by_cases hearly : isEarliest q timer.time_ = true
  · rw [if_pos hearly] at he hfits ⊢
    refine (reaches_resetTimerfd _ (hfits _ (first_inserted hbook hearly))).mono ?_
    rcases (mem_inserted hbook).mp he with hold | hnew
    · exact (isEarliest_iff.mp hearly e hold).le
    · rw [hnew]
  · rw [if_neg hearly] at he ⊢
    rcases (mem_inserted hbook).mp he with hold | hnew
    · exact h e hold hd
    · rw [isEarliest_iff] at hearly
      push Not at hearly
      obtain ⟨e', he', hle⟩ := hearly
      have hle' : e'.time ≤ e.time := by
        rw [hnew]
        exact hle
      exact (h e' he' (hdue e e' hd hle')).mono hle'

/-- A step of `handleRead` keeps the timerfd due in time. -/
theorem guarded_reads (hinv : Inv w) (h : Guarded w) (hclock : Clocked e)
    (hrange : InRange w e w') (hm : Reads w e w') : Guarded w' := by
  cases hm with
  | @start now q expired hph hs hb =>
    refine ⟨fun e he hd => ?_, fun now' expired' todo' hph' => ?_⟩
    · obtain ⟨hold, hlate⟩ := (hs.rest e).mp he
      have hnow : now < e.time := by
        by_contra hdue
        refine hlate ?_
        rw [hs.batch]
        exact OrderedSet.mem_below.mpr ⟨hold, (lt_sentry_iff hinv.book hold).mpr (not_lt.mp hdue)⟩
      rcases hd with hidle | hbad
      · cases hidle
      · exact absurd (hclock.trans hnow) hbad
    · cases hph'
      exact hclock
  | @next now expired todo x timer hph hat =>
    refine ⟨fun e he hd => ?_, fun now' expired' todo' hph' => ?_⟩
    · rcases hd with hidle | hbad
      · cases hidle
      · exact h.reaches e he (Or.inr hbad)
    · cases hph'
      exact h.clock now expired _ hph
  | @finish now clock expired q hph hr hb =>
    refine ⟨fun e he _ => ?_, fun now' expired' todo' hph' => by cases hph'⟩
    have hpos := h.clock now expired [] hph
    unfold InRange at hrange
    rw [readings_finishRead hph] at hrange
    dsimp only at he hrange ⊢
    rw [rearmed_timers_] at he hrange
    obtain ⟨hnow, hsince⟩ := hrange now List.mem_cons_self
    have hleft := (hrange clock (List.mem_cons_of_mem now (List.mem_singleton_self clock))).2
    unfold rearmed
    cases hfirst : q.timers_.first with
    | none => exact absurd he (OrderedSet.first_eq_none.mp hfirst e)
    | some first =>
      have hle := first_time_le hfirst he
      dsimp only
      by_cases hvalid : valid first.time
      · rw [if_pos hvalid]
        exact (reaches_resetTimerfd _ (hleft first hfirst)).mono hle
      · rw [if_neg hvalid, hr.timerfd_]
        rcases (hr.entries first).mp (OrderedSet.first_mem hfirst) with hold | ⟨x, _, t, _, ht, _, hx⟩
        · exact (h.reaches first hold (Or.inr hvalid)).mono hle
        · refine absurd ?_ hvalid
          have hnonneg := t.interval_.nonneg ht
          have hfits := hsince first hfirst
          rw [hx] at hfits ⊢
          dsimp only at hfits ⊢
          rw [addTime_of_fits hpos hnow ht hfits]
          unfold valid
          omega

/-- A step keeps the timerfd due in time. -/
theorem guarded_moves (hinv : Inv w) (h : Guarded w) (hclock : Clocked e)
    (hrange : InRange w e w') (hm : Moves w e w') : Guarded w' := by
  cases hm with
  | construct hfree haddr => exact ⟨h.reaches, h.clock⟩
  | elsewhere => exact ⟨h.reaches, h.clock⟩
  | queueAdd hp => exact ⟨h.reaches, h.clock⟩
  | @add _ p timer clock built tasks hadds hwait hat =>
    have hbook : Book w.queue (p :: (w.phase.expired.map Entry.timer ++
        World.waiting { w with built := built, tasks_ := tasks })) :=
      hinv.book.perm ((List.Perm.append_left _ hwait).trans List.perm_middle)
    have hfits := (hrange clock (mem_readings_of_adds hadds)).2
    refine ⟨reaches_added (fun e => w.phase = .idle ∨ ¬valid e.time) ?_ hbook hfits h.reaches,
      h.clock⟩
    rintro e e' (hidle | hbad) hle
    · exact Or.inl hidle
    · refine Or.inr fun hgood => hbad ?_
      unfold valid at *
      omega
  | queueCancel => exact ⟨h.reaches, h.clock⟩
  | cancel hid hwait hx hkey hat =>
    exact ⟨fun e he => h.reaches e ((mem_removed hinv.book hat).mp he).1, h.clock⟩
  | @note _ id tasks hid hwait hno =>
    refine ⟨fun e he hd => ?_, h.clock⟩
    dsimp only at he ⊢
    rw [noted_timers_] at he
    rw [noted_timerfd_]
    exact h.reaches e he hd
  | read hread => exact guarded_reads hinv h hclock hrange hread
  | fire harmed => exact ⟨fun _ _ _ => trivial, h.clock⟩

/-- As long as `handleRead` starts at positive readings of the clock and no time
difference overflows: between the steps of the loop a queue that is not empty has its
timerfd fired, or armed to fire by the earliest expiry or 100 microseconds after the
reading it was armed at. -/
theorem timers_not_forgotten (events : List Event) (hclock : ∀ e ∈ events, Clocked e)
    (hrange : Along step InRange World.fresh events) (w : World)
    (hrun : run step World.fresh events = some w) (hidle : w.phase = .idle) (first : Entry)
    (hfirst : w.queue.timers_.first = some first) :
    w.queue.timerfd_ = .fired ∨ ∃ now deadline, w.queue.timerfd_ = .armed now deadline ∧
      deadline ≤ max first.time (now + 100) := by
  have h : Inv w ∧ Guarded w := by
    refine invariant_of_along (fun w => Inv w ∧ Guarded w) ?_ ⟨inv_fresh, ?_⟩
      ((along_of_forall Clocked hclock World.fresh).and hrange) hrun
    · intro w e w' hw hc he
      have hm := moves_of_step hw.1 he
      exact ⟨inv_moves hw.1 hm, guarded_moves hw.1 hw.2 hc.1 hc.2 hm⟩
    · exact ⟨fun e he => absurd he List.not_mem_nil, fun _ _ _ hph => by cases hph⟩
  have hreach := h.2.reaches first (OrderedSet.first_mem hfirst) (Or.inl hidle)
  cases hfd : w.queue.timerfd_ with
  | disarmed =>
    rw [hfd] at hreach
    exact absurd hreach id
  | armed now deadline =>
    rw [hfd] at hreach
    exact Or.inr ⟨now, deadline, rfl, hreach⟩
  | fired => exact Or.inl rfl

/-- A callback adds a timer that expired long ago, and another one, and cancels
the first. -/
def backdated : List Event :=
  [.construct 16 5 .zero, .runAdd 0 1, .fire, .startRead 10, .runNext, .construct 32 (-7) .zero,
    .runAdd 0 20, .construct 48 (-3) .zero, .runAdd 0 21, .runCancel ⟨⟨32, 2⟩, 2⟩, .finishRead 30]

/-- The timer that is left has the deadline of the one that was cancelled. -/
theorem timers_not_forgotten_backdated :
    ∃ w, run step World.fresh backdated = some w ∧ w.queue.timerfd_ = .armed 20 120 ∧
      (w.queue.timerfd_ = .fired ∨ ∃ now deadline, w.queue.timerfd_ = .armed now deadline ∧
        deadline ≤ max (-3) (now + 100)) := by
  have hclock : ∀ e ∈ backdated, Clocked e := by
    unfold backdated
    simp only [List.forall_mem_cons, Clocked]
    simp
  have hrange : Along step InRange World.fresh backdated := by
    refine along_cons_of_step rfl (by decide) ?_
    refine along_cons_of_step rfl (by decide) ?_
    refine along_cons_of_step rfl (by decide) ?_
    refine along_cons_of_step rfl (by decide) ?_
    refine along_cons_of_step rfl (by decide) ?_
    refine along_cons_of_step rfl (by decide) ?_
    refine along_cons_of_step rfl (by decide) ?_
    refine along_cons_of_step rfl (by decide) ?_
    refine along_cons_of_step rfl (by decide) ?_
    refine along_cons_of_step rfl (by decide) ?_
    exact along_cons_of_step rfl (by decide) trivial
  exact ⟨_, rfl, rfl, timers_not_forgotten backdated hclock hrange _ rfl rfl ⟨-3, ⟨48, 3⟩⟩ rfl⟩

end KKNet.TimerArm
