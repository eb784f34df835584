import KKNet.Runs

/-!
# The event loop

Translation of `reactor/Eventloop.cpp` and of the wakeup functions of
`reactor/Eventloop.h`. `queueInLoop` is two statements, a conditional `wakeup`
and `addTask`, and other threads run between them, so a call in progress is part
of the state. The thread of the loop goes through `loop` in steps of its own; its
event handlers and tasks may call `queueInLoop` as well. A task is a value of an
arbitrary type.
-/

namespace KKNet.Eventloops

variable {τ : Type}

/-- The largest value of an eventfd counter; a write that would exceed it fails. -/
def EVENTFD_MAX : ℕ := 0xfffffffffffffffe

/-- The fields of `Eventloop` that tasks and wakeups use. -/
structure Eventloop (τ : Type) where
  /-- The queued tasks. -/
  tasks_ : List τ
  /-- Set around `runTasks`. -/
  eventHandling_ : Bool
  /-- The loop ends at its next test. -/
  quit_ : Bool
  /-- The counter of the eventfd `wakeupFd_`. -/
  wakeupFd_ : ℕ

namespace Eventloop

/-- `Eventloop::Eventloop`. -/
def fresh : Eventloop τ := ⟨[], false, false, 0⟩

/-- `wakeup`. -/
def wakeup (l : Eventloop τ) : Eventloop τ :=
  { l with wakeupFd_ := if l.wakeupFd_ < EVENTFD_MAX then l.wakeupFd_ + 1 else l.wakeupFd_ }

/-- `wakeupReadCallback`. -/
def wakeupReadCallback (l : Eventloop τ) : Eventloop τ := { l with wakeupFd_ := 0 }

/-- `addTask`. -/
def addTask (l : Eventloop τ) (task : τ) : Eventloop τ := { l with tasks_ := l.tasks_ ++ [task] }

/-- `setQuit`. -/
def setQuit (l : Eventloop τ) : Eventloop τ := { l with quit_ := true }

/-- `queueInLoop` up to its call of `addTask`. -/
def queueInLoop (l : Eventloop τ) (isInLoopThread : Bool) : Eventloop τ :=
  if isInLoopThread = false ∨ l.eventHandling_ = true then l.wakeup else l

end Eventloop

/-- Where the thread of the loop is. -/
inductive Phase (τ : Type)
  /-- It has not called `loop` yet. -/
  | before
  /-- In `poll_->wait`. -/
  | waiting
  /-- Calling `handleEvents`; whether the read event of `wakeupFd_` is due. -/
  | handling (woken : Bool)
  /-- Before the test `tasks_.empty()`. -/
  | looking
  /-- In `runTasks`, before the swap. -/
  | swapping
  /-- In `runTasks`, between two tasks, with the tasks still to run. -/
  | batch (taskings : List τ)
  /-- In a task, with the tasks to run after it. -/
  | task (taskings : List τ)
  /-- After `runTasks`. -/
  | head
  /-- `loop` returned. -/
  | exited

/-- The thread runs user code, which may call `queueInLoop`. -/
def Phase.inCallback : Phase τ → Bool
  | .before => true
  | .handling _ => true
  | .task _ => true
  | _ => false

/-- `eventHandling_` is set. -/
def Phase.inTasks : Phase τ → Bool
  | .looking => true
  | .swapping => true
  | .batch _ => true
  | .task _ => true
  | .head => true
  | _ => false

/-- The thread looks at `tasks_` no more before it has waited. -/
def Phase.looked : Phase τ → Bool
  | .batch _ => true
  | .task _ => true
  | .head => true
  | .waiting => true
  | _ => false

/-- The loop, its thread, and the calls of `queueInLoop` in progress. -/
structure System (τ : Type) where
  /-- The loop. -/
  loop : Eventloop τ
  /-- Where its thread is. -/
  phase : Phase τ
  /-- The tasks of calls on other threads that have to reach `addTask`. -/
  calls : List τ
  /-- The task of a call on the thread of the loop that has to reach `addTask`. -/
  own : Option τ

/-- A loop that was just constructed. -/
def System.fresh : System τ := ⟨.fresh, .before, [], none⟩

/-- A step of the system. -/
inductive Event (τ : Type)
  /-- Another thread calls `queueInLoop` and gets to its `addTask`. -/
  | call (task : τ)
  /-- The `addTask` of one of these calls. -/
  | add (i : ℕ)
  /-- The thread of the loop calls `queueInLoop` and gets to its `addTask`. -/
  | ownCall (task : τ)
  /-- The `addTask` of that call. -/
  | ownAdd
  /-- `setQuit()`. -/
  | setQuit
  /-- The thread of the loop goes on with `loop`. If it returns from
  `poll_->wait`, `woken` tells whether `wakeupFd_` was reported. -/
  | advance (woken : Bool)

/-- The next step of `loop`. -/
def System.advance (w : System τ) (woken : Bool) : Option (System τ) :=
  match w.phase with
  | .before => some { w with phase := if w.loop.quit_ then .exited else .waiting }
  | .waiting =>
    if woken = true ∧ w.loop.wakeupFd_ = 0 then none else some { w with phase := .handling woken }
  | .handling true => some { w with loop := w.loop.wakeupReadCallback, phase := .handling false }
  | .handling false => some { w with loop := { w.loop with eventHandling_ := true }, phase := .looking }
  | .looking => some { w with phase := if w.loop.tasks_.isEmpty then .head else .swapping }
  | .swapping => some { w with loop := { w.loop with tasks_ := [] }, phase := .batch w.loop.tasks_ }
  | .batch (_ :: taskings) => some { w with phase := .task taskings }
  | .task taskings => some { w with phase := .batch taskings }
  | .batch [] => some { w with phase := .head }
  | .head => some { w with
      loop := { w.loop with eventHandling_ := false }
      phase := if w.loop.quit_ then .exited else .waiting }
  | .exited => none

/-- One step; there is none where the event cannot happen. -/
def step (w : System τ) : Event τ → Option (System τ)
  | .call task => some { w with loop := w.loop.queueInLoop false, calls := w.calls ++ [task] }
  | .add i =>
    (w.calls[i]?).map fun task => { w with loop := w.loop.addTask task, calls := w.calls.eraseIdx i }
  | .ownCall task =>
    if w.phase.inCallback = true ∧ w.own.isNone = true then
      some { w with loop := w.loop.queueInLoop true, own := some task }
    else none
  | .ownAdd => w.own.map fun task => { w with loop := w.loop.addTask task, own := none }
  | .setQuit => some { w with loop := w.loop.setQuit }
  | .advance woken => if w.own.isNone then w.advance woken else none

/-- What the thread of the loop can do, by where it is. -/
inductive Advances (w : System τ) (woken : Bool) : System τ → Prop
  | enter (hph : w.phase = .before) :
    Advances w woken { w with phase := if w.loop.quit_ then .exited else .waiting }
  | wake (hph : w.phase = .waiting) : Advances w woken { w with phase := .handling woken }
  | readWakeup (hph : w.phase = .handling true) :
    Advances w woken { w with loop := w.loop.wakeupReadCallback, phase := .handling false }
  | handled (hph : w.phase = .handling false) :
    Advances w woken { w with loop := { w.loop with eventHandling_ := true }, phase := .looking }
  | look (hph : w.phase = .looking) :
    Advances w woken { w with phase := if w.loop.tasks_.isEmpty then .head else .swapping }
  | swap (hph : w.phase = .swapping) :
    Advances w woken
      { w with loop := { w.loop with tasks_ := [] }, phase := .batch w.loop.tasks_ }
  | start {task : τ} {taskings : List τ} (hph : w.phase = .batch (task :: taskings)) :
    Advances w woken { w with phase := .task taskings }
  | finish {taskings : List τ} (hph : w.phase = .task taskings) :
    Advances w woken { w with phase := .batch taskings }
  | leave (hph : w.phase = .batch []) : Advances w woken { w with phase := .head }
  | again (hph : w.phase = .head) :
    Advances w woken { w with
      loop := { w.loop with eventHandling_ := false }
      phase := if w.loop.quit_ then .exited else .waiting }

/-- A step of the thread is one of these. -/
theorem advances_of_advance {w w' : System τ} {woken : Bool} (he : w.advance woken = some w') :
    Advances w woken w' := by
  unfold System.advance at he
  split at he
  case h_1 hph =>
    cases he
    exact .enter hph
  case h_2 hph =>
    split at he
    · cases he
    · cases he
      exact .wake hph
  case h_3 hph =>
    cases he
    exact .readWakeup hph
  case h_4 hph =>
    cases he
    exact .handled hph
  case h_5 hph =>
    cases he
    exact .look hph
  case h_6 hph =>
    cases he
    exact .swap hph
  case h_7 hph =>
    cases he
    exact .start hph
  case h_8 hph =>
    cases he
    exact .finish hph
  case h_9 hph =>
    cases he
    exact .leave hph
  case h_10 hph =>
    cases he
    exact .again hph
  case h_11 => cases he

variable {l : Eventloop τ}

/-- After a wakeup the eventfd is readable. -/
theorem wakeup_pos : 0 < l.wakeup.wakeupFd_ := by
  unfold Eventloop.wakeup EVENTFD_MAX
  dsimp only
  split <;> omega

/-- Before `addTask`, `queueInLoop` leaves the flag alone. -/
@[simp] theorem queueInLoop_eventHandling (own : Bool) :
    (l.queueInLoop own).eventHandling_ = l.eventHandling_ := by
  unfold Eventloop.queueInLoop
  split <;> rfl

/-- A call on another thread wakes the loop up. -/
theorem queueInLoop_wakes : 0 < (l.queueInLoop false).wakeupFd_ := by
  unfold Eventloop.queueInLoop
  rw [if_pos (Or.inl rfl)]
  exact wakeup_pos

/-- A call from a task wakes the loop up. -/
theorem queueInLoop_wakes_of_handling (h : l.eventHandling_ = true) (own : Bool) :
    0 < (l.queueInLoop own).wakeupFd_ := by
  unfold Eventloop.queueInLoop
  rw [if_pos (Or.inr h)]
  exact wakeup_pos

/-- A call never makes the eventfd unreadable. -/
theorem queueInLoop_keeps (h : 0 < l.wakeupFd_) (own : Bool) : 0 < (l.queueInLoop own).wakeupFd_ := by
  unfold Eventloop.queueInLoop
  split
  · exact wakeup_pos
  · exact h

end KKNet.Eventloops
