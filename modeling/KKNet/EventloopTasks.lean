import KKNet.Eventloop

/-!
# The tasks of the event loop

`runTasks` swaps the queue out and runs it in order while other threads and the
tasks themselves add to the queue. What was started, followed by the rest of the
batch and by the queue, is at any time what was added, in the order in which
`addTask` held the mutex; and until the next swap nothing joins the batch.
-/

namespace KKNet.EventloopTasks

open Runs Eventloops

variable {τ : Type}

/-- The tasks of the batch that still have to be started. -/
def Phase.taskings : Phase τ → List τ
  | .batch taskings => taskings
  | .task taskings => taskings
  | _ => []

/-- The system with the history of its tasks. -/
structure History (τ : Type) where
  /-- The loop, its thread and the calls in progress. -/
  system : System τ
  /-- The tasks in the order in which `addTask` held the mutex. -/
  added : List τ
  /-- The tasks that were started, in order. -/
  executed : List τ

/-- A loop that was just constructed. -/
def History.fresh : History τ := ⟨.fresh, [], []⟩

/-- The batch and the queue. -/
def History.waiting (h : History τ) : List τ :=
  Phase.taskings h.system.phase ++ h.system.loop.tasks_

/-- A step with its history. -/
inductive Action (τ : Type)
  /-- A call of `addTask` itself, on any thread. -/
  | addTask (task : τ)
  /-- A step of the system. -/
  | event (e : Event τ)

/-- The tasks a step of the system adds. -/
def addedBy (w : System τ) : Event τ → List τ
  | .add i => (w.calls[i]?).toList
  | .ownAdd => w.own.toList
  | _ => []

/-- The tasks a step of the system starts. -/
def startedBy (w : System τ) : Event τ → List τ
  | .advance _ =>
    match w.phase with
    | .batch (task :: _) => [task]
    | _ => []
  | _ => []

/-- The step swaps the queue out. -/
def Swaps (w : System τ) : Event τ → Prop
  | .advance _ => w.phase = .swapping
  | _ => False

/-- One step. -/
def step (h : History τ) : Action τ → Option (History τ)
  | .addTask task => some { h with
      system := { h.system with loop := h.system.loop.addTask task }
      added := h.added ++ [task] }
  | .event e => (Eventloops.step h.system e).map fun w =>
      ⟨w, h.added ++ addedBy h.system e, h.executed ++ startedBy h.system e⟩

/-- The action does not swap the queue out. -/
def Keeps (h : History τ) : Action τ → Prop
  | .addTask _ => True
  | .event e => ¬Swaps h.system e

variable {w w' : System τ}

/-- The thread of the loop starts the first task of the batch, or moves the queue
into an empty batch. -/
theorem advance_tasks {woken : Bool} (he : w.advance woken = some w') :
    startedBy w (.advance woken) ++ (Phase.taskings w'.phase ++ w'.loop.tasks_) =
        Phase.taskings w.phase ++ w.loop.tasks_ ∧
      (w.phase ≠ .swapping →
        startedBy w (.advance woken) ++ Phase.taskings w'.phase = Phase.taskings w.phase) := by
  unfold startedBy
  cases advances_of_advance he with
  | enter hph =>
    simp only [hph]
    cases w.loop.quit_ with
    | false => exact ⟨rfl, fun _ => rfl⟩
    | true => exact ⟨rfl, fun _ => rfl⟩
  | look hph =>
    simp only [hph]
    cases w.loop.tasks_.isEmpty with
    | false => exact ⟨rfl, fun _ => rfl⟩
    | true => exact ⟨rfl, fun _ => rfl⟩
  | swap hph =>
    simp only [hph]
    exact ⟨List.append_nil _, fun hne => absurd rfl hne⟩
  | again hph =>
    simp only [hph]
    cases w.loop.quit_ with
    | false => exact ⟨rfl, fun _ => rfl⟩
    | true => exact ⟨rfl, fun _ => rfl⟩
  | wake hph | readWakeup hph | handled hph | start hph | finish hph | leave hph =>
    rw [hph]
    exact ⟨rfl, fun _ => rfl⟩

/-- Before its `addTask`, a call leaves the queue alone. -/
theorem queueInLoop_tasks (l : Eventloop τ) (own : Bool) : (l.queueInLoop own).tasks_ = l.tasks_ := by
  unfold Eventloop.queueInLoop
  split <;> rfl

/-- What a step of the system starts comes off the front of what waits, and what
it adds goes to the end; a step that swaps nothing leaves the rest of the batch. -/
theorem step_tasks {e : Event τ} (he : Eventloops.step w e = some w') :
    startedBy w e ++ (Phase.taskings w'.phase ++ w'.loop.tasks_) =
        Phase.taskings w.phase ++ w.loop.tasks_ ++ addedBy w e ∧
      (¬Swaps w e → startedBy w e ++ Phase.taskings w'.phase = Phase.taskings w.phase) := by
  unfold Eventloops.step at he
  cases e with
  | call task =>
    cases he
    refine ⟨?_, fun _ => rfl⟩
    dsimp only [startedBy, addedBy]
    rw [queueInLoop_tasks, List.nil_append, List.append_nil]
  | add i =>
    obtain ⟨task, htask, hw⟩ := Option.map_eq_some_iff.mp he
    subst hw
    refine ⟨?_, fun _ => rfl⟩
    dsimp only [startedBy, addedBy, Eventloop.addTask]
    rw [htask, List.nil_append, List.append_assoc]
    rfl
  | ownCall task =>
    dsimp only at he
    split at he
    · cases he
      refine ⟨?_, fun _ => rfl⟩
      dsimp only [startedBy, addedBy]
      rw [queueInLoop_tasks, List.nil_append, List.append_nil]
    · cases he
  | ownAdd =>
    obtain ⟨task, hown, hw⟩ := Option.map_eq_some_iff.mp he
    subst hw
    refine ⟨?_, fun _ => rfl⟩
    dsimp only [startedBy, addedBy, Eventloop.addTask]
    rw [hown, List.nil_append, List.append_assoc]
    rfl
  | setQuit =>
    cases he
    exact ⟨(List.append_nil _).symm, fun _ => rfl⟩
  | advance woken =>
    dsimp only at he
    split at he
    · obtain ⟨hall, hbatch⟩ := advance_tasks he
      exact ⟨hall.trans (List.append_nil _).symm, hbatch⟩
    · cases he

/-- What was started, followed by what waits, is what was added. -/
def InOrder (h : History τ) : Prop := h.executed ++ h.waiting = h.added

variable {h h' : History τ} {a : Action τ}

/-- Every step keeps the order. -/
theorem inOrder_step (hin : InOrder h) (he : step h a = some h') : InOrder h' := by
  unfold InOrder History.waiting at *
  cases a with
  | addTask task =>
    cases he
    dsimp only [Eventloop.addTask]
    rw [← hin, List.append_assoc, List.append_assoc]
  | event e =>
    obtain ⟨w, hw, hh⟩ := Option.map_eq_some_iff.mp he
    subst hh
    dsimp only
    rw [List.append_assoc, (step_tasks hw).1, ← hin, List.append_assoc h.executed]

/-- A step that swaps nothing takes what it starts from the batch. -/
theorem batch_step (hkeep : Keeps h a) (he : step h a = some h') :
    h'.executed ++ Phase.taskings h'.system.phase =
      h.executed ++ Phase.taskings h.system.phase := by
  cases a with
  | addTask task =>
    cases he
    rfl
  | event e =>
    obtain ⟨w, hw, hh⟩ := Option.map_eq_some_iff.mp he
    subst hh
    dsimp only
    rw [List.append_assoc, (step_tasks hw).2 hkeep]

/-- In every reachable state what was started, followed by the rest of the batch
and by the queue, is what was added, in order; and however the run goes on, until
the next swap exactly the rest of the batch is started. -/
theorem tasks_in_order (actions : List (Action τ)) (h : History τ)
    (hrun : run step History.fresh actions = some h) :
    h.executed ++ Phase.taskings h.system.phase ++ h.system.loop.tasks_ = h.added ∧
      ∀ more h', Along step (fun h a _ => Keeps h a) h more → run step h more = some h' →
        h'.executed ++ Phase.taskings h'.system.phase =
          h.executed ++ Phase.taskings h.system.phase := by
  constructor
  · have hfresh : InOrder (History.fresh : History τ) := rfl
    have hin : InOrder h := invariant InOrder (fun _ _ _ hin he => inOrder_step hin he) hfresh hrun
    rw [List.append_assoc]
    exact hin
  · intro more h' hkeeps hmore
    refine invariant_of_along (fun g => g.executed ++ Phase.taskings g.system.phase =
      h.executed ++ Phase.taskings h.system.phase) ?_ rfl hkeeps hmore
    exact fun g a g' hg hkeep he => (batch_step hkeep he).trans hg

/-- Two tasks are queued and swapped out; the first one adds a third while it runs. -/
def nested : List (Action ℕ) :=
  [.event (.advance false), .event (.call 1), .event (.add 0), .addTask 2, .event (.advance true),
    .event (.advance false), .event (.advance false), .event (.advance false),
    .event (.advance false), .event (.advance false), .event (.ownCall 3), .event .ownAdd]

/-- The loop while the first task runs, with the third one queued. -/
def first : History ℕ := ⟨⟨⟨[3], true, false, 1⟩, .task [2], [], none⟩, [1, 2, 3], [1]⟩

/-- The loop at the end of the batch. -/
def second : History ℕ := ⟨⟨⟨[3], true, false, 1⟩, .batch [], [], none⟩, [1, 2, 3], [1, 2]⟩

/-- The third task waits behind the batch, and is not started when the batch ends. -/
theorem tasks_in_order_nested :
    run step History.fresh nested = some first ∧
      first.executed ++ Phase.taskings first.system.phase ++ first.system.loop.tasks_ = [1, 2, 3] ∧
      second.executed ++ Phase.taskings second.system.phase =
        first.executed ++ Phase.taskings first.system.phase := by
  obtain ⟨hall, hmore⟩ := tasks_in_order nested first rfl
  refine ⟨rfl, hall, hmore (List.replicate 3 (.event (.advance false))) second ?_ rfl⟩
  intro h₁ he₁
  cases he₁
  refine ⟨fun hs => (by cases hs), fun h₂ he₂ => ?_⟩
  cases he₂
  refine ⟨fun hs => (by cases hs), fun h₃ he₃ => ?_⟩
  cases he₃
  exact ⟨fun hs => (by cases hs), trivial⟩

end KKNet.EventloopTasks
