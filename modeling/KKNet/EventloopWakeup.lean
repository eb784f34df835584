import KKNet.Eventloop

/-!
# Wakeups of the event loop

`queueInLoop` wakes the loop up before it adds the task. A task is not kept
waiting as long as no call on another thread is caught between the two when the
loop looks at its tasks with the eventfd already read, and the loop does not
start with tasks its own thread queued. A look that does not meet this can be
continued to a loop that waits with a task and without a wakeup.
-/

namespace KKNet.EventloopWakeup

open Runs Eventloops

variable {τ : Type} {w : System τ}

/-- A thread blocked in `poll_->wait` with no call in progress has no tasks, or
the eventfd is readable. -/
def NoLostWakeup (w : System τ) : Prop :=
  w.phase = .waiting → w.calls = [] → w.own = none → w.loop.tasks_ ≠ [] → 0 < w.loop.wakeupFd_

/-- The last look of the thread at `tasks_` before it waits, the test that finds
it empty or the swap, meets no call on another thread in progress or an eventfd
that is readable; and `loop` does not start with tasks and an unreadable eventfd. -/
def Timely (w : System τ) : Event τ → Prop
  | .advance _ =>
    match w.phase with
    | .before => w.loop.tasks_ = [] ∨ 0 < w.loop.wakeupFd_
    | .looking => w.loop.tasks_ = [] → w.calls = [] ∨ 0 < w.loop.wakeupFd_
    | .swapping => w.calls = [] ∨ 0 < w.loop.wakeupFd_
    | _ => True
  | _ => True

/-- What holds in every reachable state. -/
structure Inv (w : System τ) : Prop where
  /-- `eventHandling_` is set around `runTasks`. -/
  handling : w.loop.eventHandling_ = w.phase.inTasks
  /-- The thread makes calls in user code. -/
  own : w.own.isSome = true → w.phase.inCallback = true
  /-- Before `loop` nobody reads the eventfd. -/
  before : w.phase = .before → w.calls ≠ [] → 0 < w.loop.wakeupFd_

/-- After its look at `tasks_` the thread is due to be woken up for whatever is
queued or about to be. -/
def Covered (w : System τ) : Prop :=
  w.phase.looked = true → (w.loop.tasks_ ≠ [] ∨ w.calls ≠ [] ∨ w.own ≠ none) → 0 < w.loop.wakeupFd_

/-- The thread of the loop keeps the invariant. -/
theorem inv_advance (h : Inv w) (hown : w.own.isNone = true) {woken : Bool} {w' : System τ}
    (he : w.advance woken = some w') : Inv w' := by
  have hnone : w.own.isSome = false := by
    rw [Option.isSome_eq_false_iff]
    exact hown
  have hfree : ∀ phase : Phase τ, w.own.isSome = true → phase.inCallback = true := by
    intro phase hsome
    rw [hnone] at hsome
    cases hsome
  have hhandling := h.handling
  cases advances_of_advance he with
  | enter hph =>
    rw [hph] at hhandling
    cases hq : w.loop.quit_ with
    | false => exact ⟨hhandling, hfree _, fun hb => by cases hb⟩
    | true => exact ⟨hhandling, hfree _, fun hb => by cases hb⟩
  | look hph =>
    rw [hph] at hhandling
    cases hempty : w.loop.tasks_.isEmpty with
    | false => exact ⟨hhandling, hfree _, fun hb => by cases hb⟩
    | true => exact ⟨hhandling, hfree _, fun hb => by cases hb⟩
  | again hph =>
    cases hq : w.loop.quit_ with
    | false => exact ⟨rfl, hfree _, fun hb => by cases hb⟩
    | true => exact ⟨rfl, hfree _, fun hb => by cases hb⟩
  | handled hph => exact ⟨rfl, hfree _, fun hb => by cases hb⟩
  | wake hph | readWakeup hph | swap hph | start hph | finish hph | leave hph =>
    rw [hph] at hhandling
    exact ⟨hhandling, hfree _, fun hb => by cases hb⟩

/-- Every step keeps the invariant. -/
theorem inv_step (h : Inv w) {e : Event τ} {w' : System τ} (he : step w e = some w') : Inv w' := by
  unfold step at he
  cases e with
  | call task =>
    cases he
    exact ⟨(queueInLoop_eventHandling false).trans h.handling, h.own, fun _ _ => queueInLoop_wakes⟩
  | add i =>
    obtain ⟨task, htask, hw⟩ := Option.map_eq_some_iff.mp he
    subst hw
    refine ⟨h.handling, h.own, fun hb _ => h.before hb ?_⟩
    exact List.ne_nil_of_mem (List.mem_of_getElem? htask)
  | ownCall task =>
    dsimp only at he
    by_cases hcan : w.phase.inCallback = true ∧ w.own.isNone = true
    · rw [if_pos hcan] at he
      cases he
      exact ⟨(queueInLoop_eventHandling true).trans h.handling, fun _ => hcan.1,
        fun hb hc => queueInLoop_keeps (h.before hb hc) true⟩
    · rw [if_neg hcan] at he
      cases he
  | ownAdd =>
    obtain ⟨task, _, hw⟩ := Option.map_eq_some_iff.mp he
    subst hw
    exact ⟨h.handling, fun hsome => (by cases hsome), h.before⟩
  | setQuit =>
    cases he
    exact ⟨h.handling, h.own, h.before⟩
  | advance woken =>
    dsimp only at he
    by_cases hown : w.own.isNone = true
    · rw [if_pos hown] at he
      exact inv_advance h hown he
    · rw [if_neg hown] at he
      cases he

/-- The thread of the loop stays covered if it is timely. -/
theorem covered_advance (h : Covered w) (hown : w.own.isNone = true) {woken : Bool}
    (hinv : Inv w) (ht : Timely w (.advance woken)) {w' : System τ}
    (he : w.advance woken = some w') : Covered w' := by
  have hnone : w.own = none := Option.isNone_iff_eq_none.mp hown
  unfold Timely at ht
  cases advances_of_advance he with
  | enter hph =>
    simp only [hph] at ht
    intro _ hdue
    rcases hdue with htasks | hcalls | hsome
    · rcases ht with hempty | hpos
      · exact absurd hempty htasks
      · exact hpos
    · exact hinv.before hph hcalls
    · exact absurd hnone hsome
  | wake hph | readWakeup hph | handled hph =>
    intro hl
    cases hl
  | look hph =>
    simp only [hph] at ht
    by_cases hempty : w.loop.tasks_ = []
    · intro _ hdue
      rcases hdue with htasks | hcalls | hsome
      · exact absurd hempty htasks
      · rcases ht hempty with hfree | hpos
        · exact absurd hfree hcalls
        · exact hpos
      · exact absurd hnone hsome
    · intro hl
      dsimp only at hl
      rw [if_neg (by rwa [List.isEmpty_iff])] at hl
      cases hl
  | swap hph =>
    simp only [hph] at ht
    intro _ hdue
    rcases hdue with htasks | hcalls | hsome
    · exact absurd rfl htasks
    · rcases ht with hfree | hpos
      · exact absurd hfree hcalls
      · exact hpos
    · exact absurd hnone hsome
  | start hph | finish hph | leave hph | again hph =>
    have hnow := h (by rw [hph]; rfl)
    exact fun _ => hnow

/-- User code that runs after the look is a task. -/
theorem inTasks_of_looked {phase : Phase τ} (hl : phase.looked = true)
    (hc : phase.inCallback = true) : phase.inTasks = true := by
  cases phase with
  | task taskings => rfl
  | batch taskings => cases hc
  | head => cases hc
  | waiting => cases hc
  | before => cases hl
  | handling due => cases hl
  | looking => cases hl
  | swapping => cases hl
  | exited => cases hl

/-- A timely step keeps the thread covered. -/
theorem covered_step (hinv : Inv w) (h : Covered w) {e : Event τ} (ht : Timely w e)
    {w' : System τ} (he : step w e = some w') : Covered w' := by
  unfold step at he
  cases e with
  | call task =>
    cases he
    exact fun _ _ => queueInLoop_wakes
  | add i =>
    obtain ⟨task, htask, hw⟩ := Option.map_eq_some_iff.mp he
    subst hw
    intro hl _
    exact h hl (Or.inr (Or.inl (List.ne_nil_of_mem (List.mem_of_getElem? htask))))
  | ownCall task =>
    dsimp only at he
    by_cases hcan : w.phase.inCallback = true ∧ w.own.isNone = true
    · rw [if_pos hcan] at he
      cases he
      intro hl _
      refine queueInLoop_wakes_of_handling ?_ true
      rw [hinv.handling]
      exact inTasks_of_looked hl hcan.1
    · rw [if_neg hcan] at he
      cases he
  | ownAdd =>
    obtain ⟨task, hown, hw⟩ := Option.map_eq_some_iff.mp he
    subst hw
    intro hl _
    refine h hl (Or.inr (Or.inr ?_))
    rw [hown]
    exact Option.some_ne_none task
  | setQuit =>
    cases he
    exact h
  | advance woken =>
    dsimp only at he
    by_cases hown : w.own.isNone = true
    · rw [if_pos hown] at he
      exact covered_advance h hown hinv ht he
    · rw [if_neg hown] at he
      cases he

/-- A loop that was just constructed has the invariant. -/
theorem inv_fresh : Inv (System.fresh : System τ) where
  handling := rfl
  own := fun hsome => by cases hsome
  before := fun _ hcalls => absurd rfl hcalls

/-- In every run whose steps are timely no wakeup is lost. -/
theorem no_lost_wakeup (events : List (Event τ)) (ht : Meets step Timely System.fresh events)
    (w : System τ) (hrun : run step System.fresh events = some w) : NoLostWakeup w := by
  have h : Inv w ∧ Covered w := by
    refine invariant_of_meets (fun w => Inv w ∧ Covered w) ?_ ⟨inv_fresh, ?_⟩ ht hrun
    · exact fun _ _ _ h ht he => ⟨inv_step h.1 he, covered_step h.1 h.2 ht he⟩
    · intro hl
      cases hl
  intro hph _ _ htasks
  exact h.2 (by rw [hph]; rfl) (Or.inl htasks)

/-- A task that is added without a race, and one that a task adds. -/
def raceless : List (Event ℕ) :=
  [.advance false, .call 7, .add 0, .advance true, .advance false, .advance false, .advance false,
    .advance false, .advance false, .ownCall 8, .ownAdd, .advance false, .advance false,
    .advance false]

/-- The task that was added while the first one ran has its wakeup. -/
theorem no_lost_wakeup_raceless :
    ∃ w, run step System.fresh raceless = some w ∧ w.loop.tasks_ = [8] ∧ NoLostWakeup w := by
  have htimely : Meets step Timely System.fresh raceless :=
    meets_cons_of_step rfl (Or.inl rfl) <| meets_cons_of_step rfl trivial <|
    meets_cons_of_step rfl trivial <| meets_cons_of_step rfl trivial <|
    meets_cons_of_step rfl trivial <| meets_cons_of_step rfl trivial <|
    meets_cons_of_step rfl (fun _ => Or.inl rfl) <| meets_cons_of_step rfl (Or.inl rfl) <|
    meets_cons_of_step rfl trivial <| meets_cons_of_step rfl trivial <|
    meets_cons_of_step rfl trivial <| meets_cons_of_step rfl trivial <|
    meets_cons_of_step rfl trivial <| meets_cons_of_step rfl trivial trivial
  exact ⟨_, rfl, rfl, no_lost_wakeup raceless htimely _ rfl⟩

/-- A call whose wakeup the loop reads before the call adds its task. -/
def overtaken : List (Event ℕ) :=
  [.advance false, .call 7, .advance true, .advance false, .advance false, .advance false,
    .advance false, .add 0]

/-- The thread of the loop queues a task before it calls `loop`. -/
def early : List (Event ℕ) := [.ownCall 7, .ownAdd, .advance false]

/-- In both runs the loop waits with a task and without a wakeup. -/
theorem wakeup_lost :
    (∃ w, run step System.fresh overtaken = some w ∧ ¬NoLostWakeup w) ∧
      ∃ w, run step System.fresh early = some w ∧ ¬NoLostWakeup w := by
  constructor
  · refine ⟨_, rfl, fun h => absurd (h rfl rfl rfl ?_) (by decide)⟩
    decide
  · refine ⟨_, rfl, fun h => absurd (h rfl rfl rfl ?_) (by decide)⟩
    decide

/-- The calls in progress add their tasks, in order. -/
theorem add_all (w : System τ) :
    run step w (List.replicate w.calls.length (.add 0)) =
      some { w with loop := { w.loop with tasks_ := w.loop.tasks_ ++ w.calls }, calls := [] } := by
  obtain ⟨l, phase, calls, own⟩ := w
  induction calls generalizing l with
  | nil =>
    rw [List.append_nil]
    rfl
  | cons task calls ih =>
    have hstep : step ⟨l, phase, task :: calls, own⟩ (.add 0) =
        some ⟨l.addTask task, phase, calls, own⟩ := rfl
    rw [List.length_cons, List.replicate_succ, run_cons_of_step hstep, ih]
    unfold Eventloop.addTask
    dsimp only
    rw [List.append_assoc]
    rfl

/-- A batch whose tasks make no calls comes to its end. -/
theorem run_batch (w : System τ) (hown : w.own = none) (taskings : List τ) :
    run step { w with phase := .batch taskings }
      (List.replicate (2 * taskings.length + 1) (.advance false)) =
      some { w with phase := .head } := by
  obtain ⟨l, phase, calls, own⟩ := w
  cases hown
  induction taskings with
  | nil => rfl
  | cons task taskings ih =>
    have hlength : 2 * (task :: taskings).length + 1 = 2 * taskings.length + 1 + 1 + 1 := by
      rw [List.length_cons]
      omega
    have hrun : step ⟨l, .batch (task :: taskings), calls, none⟩ (.advance false) =
        some ⟨l, .task taskings, calls, none⟩ := rfl
    have hdone : step ⟨l, .task taskings, calls, none⟩ (.advance false) =
        some ⟨l, .batch taskings, calls, none⟩ := rfl
    rw [hlength, List.replicate_succ, List.replicate_succ, run_cons_of_step hrun,
      run_cons_of_step hdone]
    exact ih

/-- After `runTasks`, calls in progress and an unreadable eventfd lead to a lost
wakeup. -/
theorem lost_of_head (w : System τ) (hph : w.phase = .head) (hown : w.own = none)
    (hquit : w.loop.quit_ = false) (hcalls : w.calls ≠ []) (hread : w.loop.wakeupFd_ = 0) :
    ∃ events w', run step w events = some w' ∧ ¬NoLostWakeup w' := by
  obtain ⟨l, phase, calls, own⟩ := w
  dsimp only at hph hown hquit hcalls hread
  subst hph hown
  have hwait : step ⟨l, .head, calls, none⟩ (.advance false) =
      some ⟨{ l with eventHandling_ := false }, .waiting, calls, none⟩ := by
    unfold step System.advance
    dsimp only
    rw [hquit]
    rfl
  refine ⟨.advance false :: List.replicate calls.length (.add 0), _,
    (run_cons_of_step hwait _).trans (add_all _), fun h => ?_⟩
  have hpos := h rfl rfl rfl (List.append_ne_nil_of_right_ne_nil _ hcalls)
  dsimp only at hpos
  omega

/-- A reachable loop about to take a step that is not timely can go on to a lost
wakeup, unless it is told to quit. -/
theorem lost_of_untimely {events : List (Event τ)} (hrun : run step System.fresh events = some w)
    (hquit : w.loop.quit_ = false) (hown : w.own = none) (ht : ¬Timely w (.advance false)) :
    ∃ more w', run step w more = some w' ∧ ¬NoLostWakeup w' := by
  have hinv : Inv w := invariant Inv (fun _ _ _ h he => inv_step h he) inv_fresh hrun
  have hbefore := hinv.before
  obtain ⟨l, phase, calls, own⟩ := w
  dsimp only at hquit hown hbefore
  subst hown
  unfold Timely at ht
  cases phase with
  | before =>
    dsimp only at ht
    rw [not_or] at ht
    have hcalls : calls = [] := by
      by_contra hne
      exact ht.2 (hbefore rfl hne)
    have hwait : step ⟨l, .before, calls, none⟩ (.advance false) =
        some ⟨l, .waiting, calls, none⟩ := by
      unfold step System.advance
      dsimp only
      rw [hquit]
      rfl
    exact ⟨[.advance false], _, run_cons_of_step hwait [],
      fun h => ht.2 (h rfl hcalls rfl ht.1)⟩
  | looking =>
    dsimp only at ht
    rw [Classical.not_imp, not_or] at ht
    obtain ⟨hempty, hcalls, hpos⟩ := ht
    have hhead : step ⟨l, .looking, calls, none⟩ (.advance false) =
        some ⟨l, .head, calls, none⟩ := by
      unfold step System.advance
      dsimp only
      rw [hempty]
      rfl
    obtain ⟨more, w', hmore, hlost⟩ := lost_of_head ⟨l, .head, calls, none⟩ rfl rfl hquit hcalls
      (Nat.eq_zero_of_not_pos hpos)
    exact ⟨.advance false :: more, w', (run_cons_of_step hhead more).trans hmore, hlost⟩
  | swapping =>
    dsimp only at ht
    rw [not_or] at ht
    obtain ⟨hcalls, hpos⟩ := ht
    have hswap : step ⟨l, .swapping, calls, none⟩ (.advance false) =
        some ⟨{ l with tasks_ := [] }, .batch l.tasks_, calls, none⟩ := rfl
    have hbatch := run_batch ⟨{ l with tasks_ := [] }, .swapping, calls, none⟩ rfl l.tasks_
    obtain ⟨more, w', hmore, hlost⟩ := lost_of_head ⟨{ l with tasks_ := [] }, .head, calls, none⟩
      rfl rfl hquit hcalls (Nat.eq_zero_of_not_pos hpos)
    exact ⟨.advance false :: (List.replicate (2 * l.tasks_.length + 1) (.advance false) ++ more), w',
      (run_cons_of_step hswap _).trans ((run_append_of_run hbatch more).trans hmore), hlost⟩
  | waiting => exact absurd trivial ht
  | handling due => exact absurd trivial ht
  | batch taskings => exact absurd trivial ht
  | task taskings => exact absurd trivial ht
  | head => exact absurd trivial ht
  | exited => exact absurd trivial ht

end KKNet.EventloopWakeup
