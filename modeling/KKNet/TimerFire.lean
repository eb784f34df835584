import KKNet.TimerRuns

/-!
# Firings of timers

A batch of `handleRead` is what was due when it began, in order of expiry. Over a
whole run, whatever the clock reads, a timer that does not repeat fires at most
once, and a timer that repeats fires again no earlier than its interval after, as
long as the sum of the reading and the interval is an `int64_t`: a sum that wraps
around is an expiry long past.
-/

namespace KKNet.TimerFire

open OrderedSets Runs TimerQueues TimerBook TimerRuns

variable {w w' : World} {e : Event}

/-- Of two firings of one timer the second comes its interval after the first. -/
def Spaced (f g : Firing) : Prop :=
  f.sequence = g.sequence →
    f.interval = g.interval ∧ f.interval.positive = true ∧ f.now + f.interval.micros ≤ g.now

/-- If the entry is for the timer that fired, it expires its interval after. -/
def Rests (f : Firing) (e : Entry) : Prop :=
  e.timer.origin = f.sequence →
    f.interval.positive = true ∧ f.now + f.interval.micros ≤ e.time

/-- What holds of the firings in every reachable state. -/
structure Fired (w : World) : Prop where
  /-- Firings of one timer are spaced. -/
  spaced : w.history.Pairwise Spaced
  /-- A timer that fired was constructed. -/
  old : ∀ f ∈ w.history, f.sequence ≤ w.queue.num_
  /-- A timer that fired is not on its way. -/
  waiting : ∀ f ∈ w.history, ∀ p ∈ w.waiting, p.origin ≠ f.sequence
  /-- A timer that fired keeps its interval. -/
  interval : ∀ f ∈ w.history, ∀ p t, w.queue.at? p = some t → p.origin = f.sequence →
    t.interval_ = f.interval
  /-- A timer that fired is armed for later. -/
  armed : ∀ f ∈ w.history, ∀ e ∈ w.queue.timers_, Rests f e
  /-- A callback that still has to run was armed for later. -/
  todo : ∀ f ∈ w.history, ∀ e ∈ w.phase.todo, Rests f e
  /-- The batch is due, and its timers fired before or now. -/
  batch : ∀ now expired todo, w.phase = .calling now expired todo → ∀ e ∈ expired,
    e.time ≤ now ∧ ∀ f ∈ w.history, e.timer.origin = f.sequence → f.now ≤ now

/-- A step aside from `handleRead` keeps the firings in order. -/
theorem fired_aside (h : Fired w) (ha : Aside w w') : Fired w' where
  spaced := ha.history ▸ h.spaced
  old := fun f hf => (h.old f (ha.history ▸ hf)).trans ha.num_
  waiting := by
    intro f hf p hp
    rw [ha.history] at hf
    rcases ha.waiting p hp with hold | hnew
    · exact h.waiting f hf p hold
    · exact ((h.old f hf).trans_lt hnew).ne'
  interval := by
    intro f hf p t' hp ho
    rw [ha.history] at hf
    rcases ha.kept p t' hp with ⟨t, hat, hi⟩ | hnew
    · exact hi.trans (h.interval f hf p t hat ho)
    · exact absurd ho ((h.old f hf).trans_lt hnew).ne'
  armed := by
    intro f hf e he ho
    rw [ha.history] at hf
    rcases ha.entries e he with hold | hnew
    · exact h.armed f hf e hold ho
    · exact absurd ho (h.waiting f hf e.timer hnew)
  todo := by
    rw [ha.history, ha.phase]
    exact h.todo
  batch := by
    rw [ha.history, ha.phase]
    exact h.batch

/-- Starting a callback keeps the firings in order. -/
theorem fired_next (hinv : Inv w) (h : Fired w) {now : ℤ} {expired todo : List Entry} {x : Entry}
    {timer : Timer} (hph : w.phase = .calling now expired (x :: todo))
    (hat : w.queue.at? x.timer = some timer) : Fired { w with
      phase := .calling now expired todo
      history := w.history ++ [⟨timer.sequence_, timer.interval_, now⟩] } := by
  have hbook := hinv.book
  have hself := (at?_eq_some.mp hat).2
  have htodo := hinv.todo
  rw [hph] at htodo hbook
  have hx : x ∈ expired := htodo.subset List.mem_cons_self
  obtain ⟨hdue, hbefore⟩ := h.batch now expired _ hph x hx
  have hrests : ∀ f ∈ w.history, ∀ y ∈ x :: todo, Rests f y := by
    intro f hf y hy
    refine h.todo f hf y ?_
    rw [hph]
    exact hy
  have hone : ∀ p t, w.queue.at? p = some t → p.origin = timer.sequence_ → p = x.timer :=
    fun p t hp ho => hbook.eq_of_origin hp hat (ho.trans hself)
  have hnodup : (expired.map Entry.timer).Nodup := (List.nodup_append.mp hbook.once).1
  have hlive : ∀ y ∈ expired, ∃ t, w.queue.at? y.timer = some t :=
    fun y hy => hbook.alive y.timer (List.mem_append_left _ (List.mem_map_of_mem hy))
  have hfresh : ∀ y ∈ todo, y.timer ≠ x.timer := by
    intro y hy hyx
    have hsub : ((x :: todo).map Entry.timer).Sublist (expired.map Entry.timer) :=
      htodo.sublist.map _
    have hcons := List.nodup_cons.mp (hsub.nodup hnodup)
    exact hcons.1 (hyx ▸ List.mem_map_of_mem hy)
  have hcases : ∀ f ∈ w.history ++ [⟨timer.sequence_, timer.interval_, now⟩],
      f ∈ w.history ∨ f = ⟨timer.sequence_, timer.interval_, now⟩ := by
    intro f hf
    rcases List.mem_append.mp hf with hf | hf
    · exact Or.inl hf
    · exact Or.inr (List.mem_singleton.mp hf)
  exact { spaced := by
            refine List.pairwise_append.mpr ⟨h.spaced, List.pairwise_singleton _ _, ?_⟩
            intro f hf g hg ho
            rw [List.mem_singleton.mp hg] at ho ⊢
            have hox : x.timer.origin = f.sequence := hself.symm.trans ho.symm
            obtain ⟨hpos, hle⟩ := hrests f hf x List.mem_cons_self hox
            exact ⟨(h.interval f hf x.timer timer hat hox).symm, hpos, hle.trans hdue⟩
          old := by
            intro f hf
            rcases hcases f hf with hf | hf
            · exact h.old f hf
            · rw [hf]
              exact (hbook.numbered _ _ (at?_eq_some.mp hat).1).1
          waiting := by
            intro f hf p hp ho
            rcases hcases f hf with hf | hf
            · exact h.waiting f hf p hp ho
            · rw [hf] at ho
              obtain ⟨t, hpt⟩ := hbook.alive p (List.mem_append_right _ hp)
              have hpx := hone p t hpt ho
              exact (List.nodup_append.mp hbook.once).2.2 x.timer (List.mem_map_of_mem hx) p hp
                hpx.symm
          interval := by
            intro f hf p t hp ho
            rcases hcases f hf with hf | hf
            · exact h.interval f hf p t hp ho
            · rw [hf] at ho ⊢
              have hpx := hone p t hp ho
              rw [hpx, hat, Option.some.injEq] at hp
              rw [hp]
          armed := by
            intro f hf e he ho
            rcases hcases f hf with hf | hf
            · exact h.armed f hf e he ho
            · rw [hf] at ho
              obtain ⟨t, het, _⟩ := hbook.current e he
              refine absurd (hone e.timer t het ho) ?_
              exact hbook.apart x.timer (List.mem_append_left _ (List.mem_map_of_mem hx)) e he
          todo := by
            intro f hf y hy ho
            rcases hcases f hf with hf | hf
            · exact hrests f hf y (List.mem_cons_of_mem x hy) ho
            · rw [hf] at ho
              obtain ⟨t, hyt⟩ := hlive y (htodo.subset (List.mem_cons_of_mem x hy))
              exact absurd (hone y.timer t hyt ho) (hfresh y hy)
          batch := by
            intro now' expired' todo' hph' y hy
            cases hph'
            obtain ⟨hdue', hbefore'⟩ := h.batch now expired _ hph y hy
            refine ⟨hdue', fun f hf ho => ?_⟩
            rcases hcases f hf with hf | hf
            · exact hbefore' f hf ho
            · rw [hf] }

/-- No sum overflows where `reset` restarts a timer: the reading of the batch and the
interval of each timer that it is going to put back fit `int64_t` together. -/
def SumsFit (w : World) : Event → Prop
  | .finishRead _ =>
    ∀ now expired todo, w.phase = .calling now expired todo → ∀ x ∈ expired, ∀ timer,
      w.queue.at? x.timer = some timer → timer.repeat_ = true →
      w.queue.cancelingTimers_.find (ActiveTimer.key ⟨x.timer, x.timer.origin⟩) = none →
      Fits (now + timer.interval_.micros)
  | _ => True

/-- A step of `handleRead` whose sums fit keeps the firings in order. -/
theorem fired_reads (hinv : Inv w) (h : Fired w) (hfit : SumsFit w e) (hm : Reads w e w') :
    Fired w' := by
  have hbook := hinv.book
  cases hm with
  | @start now q expired hph hs hb =>
    have hmem : ∀ e ∈ expired, e ∈ w.queue.timers_ ∧ e.time ≤ now := by
      intro e he
      rw [hs.batch] at he
      obtain ⟨hold, hlt⟩ := OrderedSet.mem_below.mp he
      exact ⟨hold, (lt_sentry_iff hbook hold).mp hlt⟩
    exact { spaced := h.spaced
            old := fun f hf => (h.old f hf).trans_eq hs.num_.symm
            waiting := h.waiting
            interval := by
              intro f hf p t hp ho
              dsimp only at hp
              rw [at?_congr hs.heap] at hp
              exact h.interval f hf p t hp ho
            armed := fun f hf e he => h.armed f hf e ((hs.rest e).mp he).1
            todo := fun f hf e he => h.armed f hf e (hmem e he).1
            batch := by
              intro now' expired' todo' hph' e he
              cases hph'
              obtain ⟨hold, hdue⟩ := hmem e he
              refine ⟨hdue, fun f hf ho => ?_⟩
              obtain ⟨hpos, hle⟩ := h.armed f hf e hold ho
              have hnonneg := f.interval.nonneg hpos
              omega }
  | next hph hat => exact fired_next hinv h hph hat
  | @finish now clock expired q hph hr hb =>
    exact { spaced := h.spaced
            old := fun f hf => (h.old f hf).trans_eq ((rearmed_num_ q clock).trans hr.num_).symm
            waiting := h.waiting
            interval := by
              intro f hf p t' hp ho
              dsimp only at hp
              rw [at?_congr (rearmed_heap q clock)] at hp
              obtain ⟨t, hat, hi⟩ := hr.kept p t' hp
              exact hi.trans (h.interval f hf p t hat ho)
            armed := by
              intro f hf e he ho
              dsimp only at he
              rw [rearmed_timers_] at he
              rcases (hr.entries e).mp he with hold | ⟨x, hx, t, hat, hrepeat, hfind, hnew⟩
              · exact h.armed f hf e hold ho
              · rw [hnew] at ho ⊢
                have hi : t.interval_ = f.interval := h.interval f hf x.timer t hat ho
                have hpos : f.interval.positive = true := hi ▸ hrepeat
                have hle := (h.batch now expired [] hph x hx).2 f hf ho
                have hsum := hfit now expired [] hph x hx t hat hrepeat hfind
                refine ⟨hpos, ?_⟩
                unfold addTime
                dsimp only
                rw [int64_of_fits hsum, hi]
                omega
            todo := fun f hf y hy => absurd hy List.not_mem_nil
            batch := fun now' expired' todo' hph' => by cases hph' }

/-- A step whose sums fit keeps the firings in order. -/
theorem fired_moves (hinv : Inv w) (h : Fired w) (hfit : SumsFit w e) (hm : Moves w e w') :
    Fired w' := by
  rcases aside_or_reads hinv hm with ha | hread
  · exact fired_aside h ha
  · exact fired_reads hinv h hfit hread

/-- The entries that are due, in order. -/
def due (w : World) (now : ℤ) : List Entry := w.queue.timers_.items.filter fun e => e.time ≤ now

/-- A batch is what is due. -/
theorem batch_eq_due (hinv : Inv w) {q : TimerQueue} {now : ℤ} {expired : List Entry}
    (hs : Started w.queue q now expired) : expired = due w now := by
  rw [hs.batch]
  refine List.filter_congr fun e he => decide_eq_decide.mpr ?_
  exact lt_sentry_iff hinv.book he

/-- What is due comes in order of expiry. -/
theorem sorted_due (w : World) (now : ℤ) : (due w now).Pairwise fun x y => x.time ≤ y.time := by
  refine (w.queue.timers_.sorted.filter _).imp fun {x y} hlt => ?_
  unfold Entry.key at hlt
  rcases Prod.Lex.toLex_lt_toLex.mp hlt with hlt | ⟨heq, _⟩
  · exact hlt.le
  · exact heq.le

/-- The callbacks of entries, started at a reading. -/
def starts (entries : List Entry) (now : ℤ) : List (ℕ × ℤ) :=
  entries.map fun e => (e.timer.origin, now)

/-- How far a batch is, and what it has started since the firings before it. -/
def Progress (before : List Firing) (now : ℤ) (expired : List Entry) (w : World) : Prop :=
  ∃ done todo firings, w.phase = .calling now expired todo ∧ expired = done ++ todo ∧
    w.history = before ++ firings ∧
    firings.map (fun f => (f.sequence, f.now)) = starts done now

/-- A step other than the end of `handleRead` goes on with the batch. -/
theorem progress_moves (hinv : Inv w) {before : List Firing} {now : ℤ} {expired : List Entry}
    (h : Progress before now expired w) (hm : Moves w e w') (he : ∀ clock, e ≠ .finishRead clock) :
    Progress before now expired w' := by
  obtain ⟨done, todo, firings, hph, hsplit, hhistory, hfirings⟩ := h
  rcases aside_or_reads hinv hm with ha | hread
  · exact ⟨done, todo, firings, ha.phase.trans hph, hsplit, ha.history.trans hhistory, hfirings⟩
  · cases hread with
    | start hidle hs hb =>
      rw [hph] at hidle
      cases hidle
    | @next now' expired' todo' x timer hph' hat =>
      rw [hph, Phase.calling.injEq] at hph'
      obtain ⟨hnow, hexpired, htodo⟩ := hph'
      subst hnow hexpired htodo
      refine ⟨done ++ [x], todo', firings ++ [⟨timer.sequence_, timer.interval_, now⟩], rfl, ?_, ?_, ?_⟩
      · rw [hsplit, List.append_assoc]
        rfl
      · dsimp only
        rw [hhistory, List.append_assoc]
      · unfold starts at hfirings ⊢
        rw [List.map_append, List.map_append, hfirings]
        simp only [List.map_cons, List.map_nil, (at?_eq_some.mp hat).2]
    | @finish now' clock expired' q hph' hr hb => exact absurd rfl (he clock)

/-- What a run says about firings. -/
structure FiresOnTime (w : World) : Prop where
  /-- Firings of one timer are spaced by its interval, which is positive. -/
  spaced : w.history.Pairwise Spaced
  /-- A `handleRead` from its begin to its end starts what is due when it begins, each
  entry once and in order of expiry. -/
  batch : ∀ now w₁ steps w₂ clock w₃, step w (.startRead now) = some w₁ →
    run step w₁ steps = some w₂ → (∀ clock, .finishRead clock ∉ steps) →
    step w₂ (.finishRead clock) = some w₃ →
    (∃ firings, w₃.history = w.history ++ firings ∧
      firings.map (fun f => (f.sequence, f.now)) = starts (due w now) now) ∧
    (due w now).Pairwise fun x y => x.time ≤ y.time

/-- In every run whose sums fit `int64_t` timers fire on time. -/
theorem timers_fire_on_time (events : List Event)
    (hfit : Meets step SumsFit World.fresh events) (w : World)
    (hrun : run step World.fresh events = some w) : FiresOnTime w := by
  obtain ⟨hinv, hfired⟩ : Inv w ∧ Fired w := by
    refine invariant_of_meets (fun w => Inv w ∧ Fired w) ?_ ⟨inv_fresh, ?_⟩ hfit hrun
    · intro w e w' hw hfit he
      have hm := moves_of_step hw.1 he
      exact ⟨inv_moves hw.1 hm, fired_moves hw.1 hw.2 hfit hm⟩
    · exact { spaced := List.Pairwise.nil
              old := fun f hf => absurd hf List.not_mem_nil
              waiting := fun f hf => absurd hf List.not_mem_nil
              interval := fun f hf => absurd hf List.not_mem_nil
              armed := fun f hf => absurd hf List.not_mem_nil
              todo := fun f hf => absurd hf List.not_mem_nil
              batch := fun _ _ _ hph => by cases hph }
  refine ⟨hfired.spaced, fun now w₁ steps w₂ clock w₃ hstart hsteps hno hfinish => ?_⟩
  refine ⟨?_, sorted_due w now⟩
  have hm₁ := moves_of_step hinv hstart
  have hinv₁ := inv_moves hinv hm₁
  have hprogress₁ : Progress w.history now (due w now) w₁ := by
    cases reads_of_isRead hm₁ rfl with
    | start hidle hs hb =>
      exact ⟨[], _, [], congrArg (fun l => Phase.calling now l l) (batch_eq_due hinv hs), rfl,
        (List.append_nil _).symm, rfl⟩
  have hprogress₂ : Inv w₂ ∧ Progress w.history now (due w now) w₂ := by
    refine invariant_of_meets (fun w' => Inv w' ∧ Progress w.history now (due w now) w') ?_
      ⟨hinv₁, hprogress₁⟩ (meets_of_forall (fun e => ∀ clock, e ≠ .finishRead clock) ?_ w₁) hsteps
    · intro w e w' hw hne he
      have hm := moves_of_step hw.1 he
      exact ⟨inv_moves hw.1 hm, progress_moves hw.1 hw.2 hm hne⟩
    · exact fun e he clock heq => hno clock (heq ▸ he)
  obtain ⟨hinv₂, done, todo, firings, hph, hsplit, hhistory, hfirings⟩ := hprogress₂
  cases reads_of_isRead (moves_of_step hinv₂ hfinish) rfl with
  | finish hph' hr hb =>
    rw [hph, Phase.calling.injEq] at hph'
    rw [hph'.2.2, List.append_nil] at hsplit
    refine ⟨firings, hhistory, ?_⟩
    rw [hsplit]
    exact hfirings

/-- A timer fires, is not due when the clock went back, and fires again when it is. -/
def backwards : List Event :=
  [.construct 16 5 (.every 3), .runAdd 0 1, .fire, .startRead 10, .runNext,
    .finishRead 11, .startRead 4, .finishRead 5, .startRead 13, .runNext, .finishRead 14]

/-- The batch is one entry, for a timer of this interval. -/
theorem sumsFit_single {now clock : ℤ} {x : Entry} {todo : List Entry} {timer : Timer}
    (hph : w.phase = .calling now [x] todo) (hat : w.queue.at? x.timer = some timer)
    (hfits : Fits (now + timer.interval_.micros)) : SumsFit w (.finishRead clock) := by
  intro now' expired' todo' hph' y hy timer' hat' _ _
  rw [hph, Phase.calling.injEq] at hph'
  obtain ⟨rfl, rfl, _⟩ := hph'
  rw [List.mem_singleton.mp hy, hat, Option.some.injEq] at hat'
  exact hat' ▸ hfits

/-- Its firings are its interval apart. -/
theorem timers_fire_on_time_backwards :
    ∃ w, run step World.fresh backwards = some w ∧ w.history.map Firing.now = [10, 13] ∧
      FiresOnTime w := by
  have hfit : Meets step SumsFit World.fresh backwards := by
    refine meets_cons_of_step rfl trivial ?_
    refine meets_cons_of_step rfl trivial ?_
    refine meets_cons_of_step rfl trivial ?_
    refine meets_cons_of_step rfl trivial ?_
    refine meets_cons_of_step rfl trivial ?_
    refine meets_cons_of_step rfl (sumsFit_single rfl rfl (by decide)) ?_
    refine meets_cons_of_step rfl trivial ?_
    refine meets_cons_of_step rfl (fun now expired todo hph x hx => ?_) ?_
    · cases hph
      cases hx
    refine meets_cons_of_step rfl trivial ?_
    refine meets_cons_of_step rfl trivial ?_
    exact meets_cons_of_step rfl (sumsFit_single rfl rfl (by decide)) trivial
  exact ⟨_, rfl, rfl, timers_fire_on_time backwards hfit _ rfl⟩

/-- A timer of 9223 billion seconds fires in the year 2023. The sum that is to be its
next expiry wraps around, and it fires again with a timer its callback has added. -/
def wrapped : List Event :=
  [.construct 16 1700000000000000 (.every 9223000000000000000),
    .runAdd 0 1699999999000000, .fire, .startRead 1700000000000000, .runNext,
    .construct 32 1700000001000000 .zero, .runAdd 0 1700000000000010,
    .finishRead 1700000000000020, .fire, .startRead 1700000001000000, .runNext]

/-- It fires again after one second. -/
theorem fires_early_wrapped :
    ∃ w, run step World.fresh wrapped = some w ∧
      w.history.map (fun f => (f.sequence, f.now)) =
        [(1, 1700000000000000), (1, 1700000001000000)] ∧ ¬FiresOnTime w := by
  refine ⟨_, rfl, rfl, fun h => ?_⟩
  have hspaced := List.rel_of_pairwise_cons h.spaced (List.mem_singleton_self _) rfl
  exact absurd hspaced.2.2 (by decide)

end KKNet.TimerFire
