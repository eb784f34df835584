import KKNet.Progress
import KKNet.EventloopTasks

/-!
# How long a task waits

Unless the loop is told to quit, a task that was added is started after a number of
steps of the loop's thread that depends on the tasks before it alone, whatever other
threads add or call in between. Once the loop is told to quit it ends within the batch
it has begun; the tasks still queued are not run any more.
-/

namespace KKNet.EventloopTasks

open Runs Eventloops

variable {τ : Type}

/-- The steps the thread may take before it starts the task that `d` others precede. -/
def stepsTo (d : ℕ) : Phase τ → ℕ
  | .before => 2 * d + 7
  | .waiting => 2 * d + 6
  | .handling true => 2 * d + 5
  | .handling false => 2 * d + 4
  | .looking => 2 * d + 3
  | .swapping => 2 * d + 2
  | .batch taskings => if d < taskings.length then 2 * d + 1 else 2 * d + 8
  | .task taskings => if d < taskings.length then 2 * d + 2 else 2 * d + 9
  | .head => 2 * d + 7
  | .exited => 0

/-- The steps before the loop ends, once it is told to quit. -/
def stepsToExit (l : Eventloop τ) : Phase τ → ℕ
  | .before => 1
  | .waiting => 2 * l.tasks_.length + 7
  | .handling true => 2 * l.tasks_.length + 6
  | .handling false => 2 * l.tasks_.length + 5
  | .looking => 2 * l.tasks_.length + 4
  | .swapping => 2 * l.tasks_.length + 3
  | .batch taskings => 2 * taskings.length + 2
  | .task taskings => 2 * taskings.length + 3
  | .head => 1
  | .exited => 0

/-- The thread of the loop takes a step. -/
def Action.advances : Action τ → ℕ
  | .event (.advance _) => 1
  | _ => 0

/-- A task is added. -/
def Action.adds : Action τ → ℕ
  | .addTask _ => 1
  | .event (.add _) => 1
  | .event .ownAdd => 1
  | _ => 0

/-- How many steps the thread of the loop takes. -/
def advances (actions : List (Action τ)) : ℕ := (actions.map Action.advances).sum

/-- How many tasks are added. -/
def adds (actions : List (Action τ)) : ℕ := (actions.map Action.adds).sum

variable {h h' : History τ} {a : Action τ} {actions more : List (Action τ)}

/-- In every reachable state what was started, followed by what waits, is what was added. -/
theorem inOrder_run (hrun : run step History.fresh actions = some h) : InOrder h :=
  have hfresh : InOrder (History.fresh : History τ) := rfl
  invariant InOrder (fun _ _ _ hin he => inOrder_step hin he) hfresh hrun

/-- What only other threads and calls in user code do. -/
structure Beside (h h' : History τ) (a : Action τ) : Prop where
  /-- The thread takes no step. -/
  idle : a.advances = 0
  /-- The thread stays where it is. -/
  phase : h'.system.phase = h.system.phase
  /-- No task is started. -/
  executed : h'.executed = h.executed
  /-- At most one task is queued. -/
  tasks : h'.system.loop.tasks_.length = h.system.loop.tasks_.length + a.adds
  /-- The loop is told to quit, or not. -/
  quit : h'.system.loop.quit_ = true ↔ h.system.loop.quit_ = true ∨ a = .event .setQuit

/-- Before its `addTask`, a call leaves `quit_` alone. -/
theorem queueInLoop_quit (l : Eventloop τ) (own : Bool) : (l.queueInLoop own).quit_ = l.quit_ := by
  unfold Eventloop.queueInLoop
  split <;> rfl

/-- Every step is one of the thread of the loop, or beside it. -/
theorem beside_or_advances (he : step h a = some h') :
    Beside h h' a ∨ ∃ woken w, a = .event (.advance woken) ∧ Advances h.system woken w ∧
      h' = ⟨w, h.added, h.executed ++ startedBy h.system (.advance woken)⟩ := by
  cases a with
  | addTask task =>
    cases he
    refine Or.inl ⟨rfl, rfl, rfl, List.length_append, ?_⟩
    dsimp only [Eventloop.addTask]
    simp
  | event e =>
    obtain ⟨w, hw, rfl⟩ := Option.map_eq_some_iff.mp he
    unfold Eventloops.step at hw
    cases e with
    | call task =>
      cases hw
      refine Or.inl ⟨rfl, rfl, List.append_nil _, ?_, ?_⟩
      · rw [queueInLoop_tasks]
        rfl
      · dsimp only
        rw [queueInLoop_quit]
        simp
    | add i =>
      obtain ⟨task, _, rfl⟩ := Option.map_eq_some_iff.mp hw
      refine Or.inl ⟨rfl, rfl, List.append_nil _, List.length_append, ?_⟩
      dsimp only [Eventloop.addTask]
      simp
    | ownCall task =>
      dsimp only at hw
      split at hw
      · cases hw
        refine Or.inl ⟨rfl, rfl, List.append_nil _, ?_, ?_⟩
        · rw [queueInLoop_tasks]
          rfl
        · dsimp only
          rw [queueInLoop_quit]
          simp
      · cases hw
    | ownAdd =>
      obtain ⟨task, _, rfl⟩ := Option.map_eq_some_iff.mp hw
      refine Or.inl ⟨rfl, rfl, List.append_nil _, List.length_append, ?_⟩
      dsimp only [Eventloop.addTask]
      simp
    | setQuit =>
      cases hw
      refine Or.inl ⟨rfl, rfl, List.append_nil _, rfl, ?_⟩
      simp [Eventloop.setQuit]
    | advance woken =>
      dsimp only at hw
      split at hw
      · refine Or.inr ⟨woken, w, rfl, advances_of_advance hw, ?_⟩
        rw [show addedBy h.system (.advance woken) = [] from rfl, List.append_nil]
      · cases hw

/-- What was added stays, in order. -/
theorem added_step (he : step h a = some h') : h.added <+: h'.added := by
  cases a with
  | addTask task =>
    cases he
    exact List.prefix_append _ _
  | event e =>
    obtain ⟨w, _, rfl⟩ := Option.map_eq_some_iff.mp he
    exact List.prefix_append _ _

/-- Until it ends, the thread can always go on. -/
theorem exists_advance (w : System τ) (hph : w.phase ≠ .exited) :
    ∃ w', w.advance false = some w' := by
  unfold System.advance
  split
  case h_2 =>
    rw [if_neg (fun hwoken => absurd hwoken.1 Bool.false_ne_true)]
    exact ⟨_, rfl⟩
  case h_11 hexit => exact absurd hexit hph
  all_goals exact ⟨_, rfl⟩

/-- The thread of the loop, or the call it is in, can go on. -/
theorem exists_own_step (h : History τ) (hph : h.system.phase ≠ .exited) :
    ∃ e h', (e = .ownAdd ∨ ∃ woken, e = .advance woken) ∧ step h (.event e) = some h' := by
  cases hown : h.system.own with
  | some task =>
    have hadd : Eventloops.step h.system .ownAdd =
        some { h.system with loop := h.system.loop.addTask task, own := none } := by
      unfold Eventloops.step
      dsimp only
      rw [hown]
      rfl
    exact ⟨.ownAdd, _, Or.inl rfl, Option.map_eq_some_iff.mpr ⟨_, hadd, rfl⟩⟩
  | none =>
    obtain ⟨w, hw⟩ := exists_advance h.system hph
    have hadvance : Eventloops.step h.system (.advance false) = some w := by
      unfold Eventloops.step
      dsimp only
      rw [hown]
      exact hw
    exact ⟨.advance false, _, Or.inr ⟨false, rfl⟩, Option.map_eq_some_iff.mpr ⟨w, hadvance, rfl⟩⟩

/-- The loop ends only if it is told to. -/
def Quits (h : History τ) : Prop := h.system.phase = .exited → h.system.loop.quit_ = true

/-- Every step keeps this. -/
theorem quits_step (hq : Quits h) (he : step h a = some h') : Quits h' := by
  unfold Quits at *
  rcases beside_or_advances he with hb | ⟨woken, w, rfl, hadv, rfl⟩
  · rw [hb.phase, hb.quit]
    exact fun hexit => Or.inl (hq hexit)
  · dsimp only
    cases hadv with
    | enter hph | again hph =>
      dsimp only
      split
      · rename_i hquit
        exact fun _ => hquit
      · exact fun hexit => by cases hexit
    | look hph =>
      dsimp only
      split <;> exact fun hexit => by cases hexit
    | wake hph | readWakeup hph | handled hph | swap hph | start hph | finish hph | leave hph =>
      exact fun hexit => by cases hexit

/-- In every reachable state. -/
theorem quits_run (hrun : run step History.fresh actions = some h) : Quits h :=
  invariant Quits (fun _ _ _ hq he => quits_step hq he) (fun hexit => by cases hexit) hrun

/-! ### Unless the loop is told to quit -/

/-- The task number `k` has been added, and the loop goes on. -/
structure Added (k : ℕ) (h : History τ) : Prop where
  /-- Nothing was lost or overtaken. -/
  inOrder : InOrder h
  /-- The task is one of those that were added. -/
  lt : k < h.added.length
  /-- The loop does not end. -/
  goesOn : h.system.loop.quit_ = false

/-- What waits is what was added and not started. -/
theorem Added.length {k : ℕ} (hk : Added k h) :
    h.executed.length + (Phase.taskings h.system.phase).length +
      h.system.loop.tasks_.length = h.added.length := by
  have hlen := congrArg List.length hk.inOrder
  unfold History.waiting at hlen
  rw [List.length_append, List.length_append] at hlen
  omega

/-- A step of the thread brings it closer to the task. -/
theorem Added.advances {k : ℕ} {woken : Bool} {w : System τ} (hk : Added k h)
    (hnot : h.executed.length ≤ k) (he : Advances h.system woken w) :
    k < (h.executed ++ startedBy h.system (.advance woken)).length ∨
      stepsTo (k - (h.executed ++ startedBy h.system (.advance woken)).length) w.phase + 1 ≤
        stepsTo (k - h.executed.length) h.system.phase := by
  have hlen := hk.length
  have hlt := hk.lt
  have hquit := hk.goesOn
  unfold startedBy
  cases he with
  | enter hph | again hph =>
    rw [hph, hquit]
    refine Or.inr ?_
    dsimp only [stepsTo]
    rw [List.append_nil]
    exact le_rfl
  | wake hph =>
    rw [hph]
    refine Or.inr ?_
    dsimp only
    rw [List.append_nil]
    cases woken with
    | true => exact le_rfl
    | false => exact Nat.le_succ _
  | readWakeup hph | handled hph =>
    rw [hph]
    refine Or.inr ?_
    dsimp only [stepsTo]
    rw [List.append_nil]
  | look hph =>
    -- the task is in the queue, for there is no batch
    rw [hph] at hlen
    have hne : h.system.loop.tasks_.isEmpty = false := by
      rw [List.isEmpty_eq_false_iff]
      rintro hnil
      rw [hnil] at hlen
      dsimp only [Phase.taskings, List.length_nil] at hlen
      omega
    rw [hph, hne]
    refine Or.inr ?_
    dsimp only
    rw [List.append_nil]
    exact le_rfl
  | swap hph =>
    rw [hph] at hlen ⊢
    refine Or.inr ?_
    dsimp only [Phase.taskings, List.length_nil] at hlen
    dsimp only [stepsTo]
    rw [List.append_nil, if_pos (by omega)]
  | start hph =>
    rw [hph] at hlen ⊢
    dsimp only [Phase.taskings] at hlen
    dsimp only [stepsTo]
    rw [List.length_append, List.length_singleton, List.length_cons]
    by_cases hnext : k = h.executed.length
    · exact Or.inl (by omega)
    · refine Or.inr ?_
      split <;> split <;> omega
  | finish hph =>
    rw [hph]
    refine Or.inr ?_
    dsimp only [stepsTo]
    rw [List.append_nil]
    split <;> omega
  | leave hph =>
    rw [hph]
    refine Or.inr ?_
    dsimp only [stepsTo]
    rw [List.append_nil, List.length_nil, if_neg (Nat.not_lt_zero _)]

/-- Every step that does not tell the loop to quit keeps the task among those added, and
brings the thread closer to it or leaves it where it is. -/
theorem Added.step {k : ℕ} (hk : Added k h) (hquit : a ≠ .event .setQuit)
    (he : EventloopTasks.step h a = some h') :
    Added k h' ∧ (k < h'.executed.length ∨ ¬k < h.executed.length ∧
      stepsTo (k - h'.executed.length) h'.system.phase + a.advances ≤
        stepsTo (k - h.executed.length) h.system.phase) := by
  have hin := inOrder_step hk.inOrder he
  have hlt := hk.lt.trans_le (added_step he).length_le
  rcases beside_or_advances he with hb | ⟨woken, w, rfl, hadv, rfl⟩
  · have hgoes : h'.system.loop.quit_ = false := by
      rw [← Bool.not_eq_true, hb.quit, hk.goesOn]
      simpa using hquit
    refine ⟨⟨hin, hlt, hgoes⟩, ?_⟩
    rw [hb.executed, hb.phase, hb.idle]
    exact (lt_or_ge k h.executed.length).imp_right fun hle => ⟨not_lt.mpr hle, le_rfl⟩
  · have hgoes : w.loop.quit_ = false := by
      cases hadv with
      | _ => exact hk.goesOn
    refine ⟨⟨hin, hlt, hgoes⟩, ?_⟩
    rcases lt_or_ge k h.executed.length with hdone | hle
    · refine Or.inl (hdone.trans_le ?_)
      rw [List.length_append]
      exact Nat.le_add_right _ _
    · exact (hk.advances hle hadv).imp_right fun hrank => ⟨not_lt.mpr hle, hrank⟩

/-- Before it starts a task the thread takes two steps for each task before it, and nine. -/
theorem stepsTo_le (d : ℕ) (phase : Phase τ) : stepsTo d phase ≤ 2 * d + 9 := by
  unfold stepsTo
  split <;> (try split) <;> omega

/-- What was started is a prefix of what was added. -/
theorem InOrder.getElem {k : ℕ} (hin : InOrder h) (hk : k < h.executed.length) :
    h.executed[k]? = h.added[k]? := by
  rw [← hin, List.getElem?_append_left hk]

/-- Unless the loop is told to quit, a task that was added is started before the thread
of the loop has taken more than nine steps and two for each task before it, whatever
else happens in between; and until then the thread can go on. -/
theorem started_in_time (actions more : List (Action τ)) (h h' : History τ) (k : ℕ)
    (hrun : run step History.fresh actions = some h) (hk : k < h.added.length)
    (hgoes : h.system.loop.quit_ = false) (hquit : .event .setQuit ∉ more)
    (hmore : run step h more = some h') :
    k < h'.executed.length ∧ h'.executed[k]? = h.added[k]? ∨
      advances more ≤ 2 * (k - h.executed.length) + 9 ∧
        ∃ e h'', (e = .ownAdd ∨ ∃ woken, e = .advance woken) ∧ step h' (.event e) = some h'' := by
  have hadded : Added k h := ⟨inOrder_run hrun, hk, hgoes⟩
  have hok : ∀ a ∈ more, a ≠ .event .setQuit := fun a ha heq => hquit (heq ▸ ha)
  obtain ⟨later, hlater⟩ : h.added <+: h'.added :=
    invariant (fun g => h.added <+: g.added) (fun _ _ _ hg he => hg.trans (added_step he))
      (List.prefix_refl _) hmore
  obtain ⟨hadded', hdone | ⟨_, hle⟩⟩ :=
    goal_or_cost_le (fun g => stepsTo (k - g.executed.length) g.system.phase) Action.advances
      (fun g a g' hg ha he => hg.step ha he) hadded hok hmore
  · refine Or.inl ⟨hdone, ?_⟩
    rw [hadded'.inOrder.getElem hdone, ← hlater, List.getElem?_append_left hk]
  · refine Or.inr ⟨?_, ?_⟩
    · have hbound := stepsTo_le (k - h.executed.length) h.system.phase
      unfold EventloopTasks.advances
      omega
    · have hquits : Quits h' := quits_run ((run_append_of_run hrun more).trans hmore)
      refine exists_own_step h' fun hexit => ?_
      cases hadded'.goesOn.symm.trans (hquits hexit)

/-- Two batches, the second one of a single task. -/
def untilThird : List (Action ℕ) :=
  List.replicate 5 (.event (.advance false)) ++ .event (.advance true) ::
    List.replicate 6 (.event (.advance false))

/-- The loop when the third task has ended. -/
def third : History ℕ := ⟨⟨⟨[], true, false, 0⟩, .batch [], [], none⟩, [1, 2, 3], [1, 2, 3]⟩

/-- The task that was added while the batch before it ran is started with the twelfth step. -/
theorem started_in_time_nested :
    run step first untilThird = some third ∧ 2 < third.executed.length ∧
      third.executed[2]? = some 3 := by
  have hrun : run step History.fresh nested = some first := rfl
  have hmore : run step first untilThird = some third := rfl
  refine ⟨hmore, ?_⟩
  rcases started_in_time nested untilThird first third 2 hrun (by decide) rfl
      (by simp [untilThird]) hmore with hstarted | ⟨hle, _⟩
  · exact hstarted
  · exact absurd hle (by decide)

/-! ### Once the loop is told to quit -/

/-- A step of the thread brings it closer to the end of `loop`. -/
theorem stepsToExit_advances {w w' : System τ} {woken : Bool} (hquit : w.loop.quit_ = true)
    (he : Advances w woken w') :
    stepsToExit w'.loop w'.phase + 1 ≤ stepsToExit w.loop w.phase := by
  cases he with
  | enter hph | again hph =>
    rw [hph, hquit]
    exact le_rfl
  | wake hph =>
    rw [hph]
    dsimp only [stepsToExit]
    cases woken with
    | true => exact le_rfl
    | false => exact Nat.le_succ _
  | readWakeup hph | handled hph | leave hph =>
    rw [hph]
    exact le_rfl
  | look hph =>
    rw [hph]
    dsimp only
    split
    · dsimp only [stepsToExit]
      omega
    · exact le_rfl
  | swap hph =>
    rw [hph]
    exact le_rfl
  | start hph | finish hph =>
    rw [hph]
    dsimp only [stepsToExit, List.length_cons]
    omega

/-- Another task in the queue is two steps at most. -/
theorem stepsToExit_tasks {l l' : Eventloop τ} {n : ℕ} (h : l'.tasks_.length = l.tasks_.length + n)
    (phase : Phase τ) : stepsToExit l' phase ≤ stepsToExit l phase + 2 * n := by
  unfold stepsToExit
  split <;> omega

/-- Once the loop is told to quit, it stays so, and steps of the thread are paid for by
those that are left and by the tasks that are added. -/
theorem stepsToExit_step (hquit : h.system.loop.quit_ = true) (he : step h a = some h') :
    h'.system.loop.quit_ = true ∧
      stepsToExit h'.system.loop h'.system.phase + a.advances ≤
        stepsToExit h.system.loop h.system.phase + 2 * a.adds := by
  rcases beside_or_advances he with hb | ⟨woken, w, rfl, hadv, rfl⟩
  · refine ⟨hb.quit.mpr (Or.inl hquit), ?_⟩
    rw [hb.idle, hb.phase]
    exact stepsToExit_tasks hb.tasks _
  · refine ⟨?_, stepsToExit_advances hquit hadv⟩
    cases hadv with
    | _ => exact hquit

/-- A loop that has ended starts nothing any more. -/
theorem exited_step (hexit : h.system.phase = .exited) (he : step h a = some h') :
    h'.system.phase = .exited ∧ h'.executed = h.executed := by
  rcases beside_or_advances he with hb | ⟨woken, w, rfl, hadv, rfl⟩
  · exact ⟨hb.phase.trans hexit, hb.executed⟩
  · cases hadv with
    | enter hph | wake hph | readWakeup hph | handled hph | look hph | swap hph | start hph
      | finish hph | leave hph | again hph => cases hexit.symm.trans hph

/-- What the end is away, in terms of what waits. -/
theorem stepsToExit_le (h : History τ) :
    stepsToExit h.system.loop h.system.phase ≤ 2 * h.waiting.length + 7 := by
  unfold History.waiting Phase.taskings stepsToExit
  rw [List.length_append]
  cases h.system.phase with
  | handling woken => cases woken <;> (dsimp only; omega)
  | _ => dsimp only; omega

/-- Once the loop is told to quit, it ends before its thread has taken more than seven
steps and two for each task that waits or is added meanwhile, and until then the thread
can go on. When it has ended, what was started and what is still queued are all that
was added, and whatever happens then nothing of it is started. -/
theorem quits_in_time (actions more : List (Action τ)) (h h' : History τ)
    (hrun : run step History.fresh actions = some h) (hquit : h.system.loop.quit_ = true)
    (hmore : run step h more = some h') :
    advances more ≤ 2 * (h.waiting.length + adds more) + 7 ∧
      (h'.system.phase ≠ .exited → ∃ e h'', (e = .ownAdd ∨ ∃ woken, e = .advance woken) ∧
        step h' (.event e) = some h'') ∧
      (h'.system.phase = .exited → h'.executed ++ h'.system.loop.tasks_ = h'.added ∧
        ∀ later h'', run step h' later = some h'' → h''.executed = h'.executed) := by
  refine ⟨?_, exists_own_step h', fun hexit => ⟨?_, fun later h'' hlater => ?_⟩⟩
  · obtain ⟨_, hle⟩ := cost_le_potential
      (fun g : History τ => stepsToExit g.system.loop g.system.phase) Action.advances
      (fun a => 2 * a.adds) (fun g a g' hg he => stepsToExit_step hg he) hquit hmore
    have hbound := stepsToExit_le h
    rw [List.sum_map_mul_left] at hle
    unfold advances adds
    omega
  · have hin := inOrder_run ((run_append_of_run hrun more).trans hmore)
    unfold InOrder History.waiting at hin
    rw [hexit] at hin
    exact hin
  · have hend := invariant (fun g => g.system.phase = .exited ∧ g.executed = h'.executed)
      (fun g a g' hg he => ?_) ⟨hexit, rfl⟩ hlater
    · exact hend.2
    · obtain ⟨hphase, hexecuted⟩ := exited_step hg.1 he
      exact ⟨hphase, hexecuted.trans hg.2⟩

/-- The loop that ended after the second task. -/
def ended : History ℕ := ⟨⟨⟨[3], false, true, 1⟩, .exited, [], none⟩, [1, 2, 3], [1, 2]⟩

/-- The task that was added while the last batch ran is lost. -/
theorem quits_in_time_nested :
    ended.executed = [1, 2] ∧ ended.executed ++ ended.system.loop.tasks_ = ended.added := by
  have hrun : run step History.fresh (nested ++ [.event .setQuit]) =
    some ⟨⟨⟨[3], true, true, 1⟩, .task [2], [], none⟩, [1, 2, 3], [1]⟩ := rfl
  have hmore : run step ⟨⟨⟨[3], true, true, 1⟩, .task [2], [], none⟩, [1, 2, 3], [1]⟩
    (List.replicate 5 (.event (.advance false))) = some ended := rfl
  exact ⟨rfl, ((quits_in_time _ _ _ _ hrun rfl hmore).2.2 rfl).1⟩

end KKNet.EventloopTasks
