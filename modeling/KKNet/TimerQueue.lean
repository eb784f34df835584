import KKNet.OrderedSet
import KKNet.Results
import KKNet.Runs
import Mathlib.Data.Prod.Lex

/-!
# The timer queue

Translation of `reactor/TimeEvent.cpp`. A timer is memory at an address that a
later timer may get again, so a pointer carries, next to its address, the number
of the timer it was made for. The code compares addresses only; following a
pointer to memory that was freed, or that another timer has got, is a fault.
Around the queue stand the thread of the loop, which calls `handleRead` and runs
the callbacks, and the timers and cancellations on their way from other threads.

Two races of `addTimer` are left out. It reads the number of the timer once more after
handing it over, when the thread of the loop may have deleted it; the identifier it
returns is taken to have the number of the timer that was constructed. And it counts up
`Timer::num_`, which all threads share and which is not atomic, in one step.
-/

namespace KKNet.TimerQueues

open OrderedSets

/-- `UINTPTR_MAX`; no timer lies at this address. -/
def UINTPTR_MAX : ℕ := 2 ^ 64 - 1

/-- `Timestamp::kMicroSecondsPerSecond`. -/
def kMicroSecondsPerSecond : ℤ := 1000 * 1000

/-- The number is a value of `int64_t`. -/
def Fits (n : ℤ) : Prop := -2 ^ 63 ≤ n ∧ n < 2 ^ 63

instance (n : ℤ) : Decidable (Fits n) := inferInstanceAs (Decidable (_ ∧ _))

/-- What is left of a sum or a difference of two `int64_t`, in two's complement; the source
has no check. -/
def int64 (n : ℤ) : ℤ := n.bmod (2 ^ 64)

/-- Nothing is lost of what fits. -/
theorem int64_of_fits {n : ℤ} (h : Fits n) : int64 n = n := by
  obtain ⟨hle, hlt⟩ := h
  exact Int.bmod_eq_of_le (by omega) (by omega)

/-- A `double` number of seconds, as far as the source looks at it. -/
structure Interval where
  /-- It is `> 0.0`. -/
  positive : Bool
  /-- `static_cast<int64_t>(seconds * kMicroSecondsPerSecond)`. -/
  micros : ℤ
  /-- The conversion has a result in `int64_t` alone. -/
  fits : Fits micros
  /-- A positive number of seconds has no negative number of microseconds. -/
  nonneg : positive = true → 0 ≤ micros

/-- `0.0`, the interval of a timer that does not repeat. -/
def Interval.zero : Interval := ⟨false, 0, by decide, fun h => by cases h⟩

/-- A positive number of seconds that is this many microseconds. -/
def Interval.every (micros : BitVec 63) : Interval where
  positive := true
  micros := micros.toNat
  fits := by
    have hlt := micros.isLt
    unfold Fits
    omega
  nonneg := fun _ => Int.natCast_nonneg micros.toNat

/-- `addTime`. -/
def addTime (timestamp : ℤ) (seconds : Interval) : ℤ := int64 (timestamp + seconds.micros)

/-- `Timestamp::valid`. -/
def valid (timestamp : ℤ) : Prop := timestamp > 0

instance (timestamp : ℤ) : Decidable (valid timestamp) := inferInstanceAs (Decidable (_ > _))

/-- The fields of `Timer`. Its callback is left to the events of a run. -/
structure Timer where
  /-- The expiry. -/
  time_ : ℤ
  /-- The interval. -/
  interval_ : Interval
  /-- The number of the timer. -/
  sequence_ : ℕ

/-- `repeat`: the constructor sets `repeat_` to `interval > 0.0`. -/
def Timer.repeat_ (timer : Timer) : Bool := timer.interval_.positive

/-- `restart`; `Timestamp::invalid()` is zero. -/
def Timer.restart (timer : Timer) (now : ℤ) : Timer :=
  { timer with time_ := if timer.repeat_ then addTime now timer.interval_ else 0 }

/-- A `Timer*`. -/
structure TimerPtr where
  /-- The address. -/
  addr : ℕ
  /-- The number of the timer it was made for. -/
  origin : ℕ
  deriving DecidableEq

/-- `Entry`, a `std::pair<Timestamp, Timer*>`. -/
structure Entry where
  /-- The first component. -/
  time : ℤ
  /-- The second component. -/
  timer : TimerPtr
  deriving DecidableEq

/-- Entries are ordered by time, then by address. -/
def Entry.key (e : Entry) : ℤ ×ₗ ℕ := toLex (e.time, e.timer.addr)

/-- `ActiveTimer`, a `std::pair<Timer*, int64_t>`; also a `TimerId`. -/
structure ActiveTimer where
  /-- The first component. -/
  timer_ : TimerPtr
  /-- The second component. -/
  sequence_ : ℕ
  deriving DecidableEq

/-- Active timers are ordered by address, then by number. -/
def ActiveTimer.key (x : ActiveTimer) : ℕ ×ₗ ℕ := toLex (x.timer_.addr, x.sequence_)

/-- The timerfd, one-shot, with times in microseconds. -/
inductive Timerfd
  /-- It was never armed, or it was read after it fired. -/
  | disarmed
  /-- Armed at the reading `now`, to fire at `deadline`. -/
  | armed (now deadline : ℤ)
  /-- It fired and was not read. -/
  | fired

/-- `struct timespec`. -/
structure Timespec where
  /-- Seconds. -/
  tv_sec : ℤ
  /-- Nanoseconds. -/
  tv_nsec : ℤ

/-- The microseconds of a `timespec`. -/
def Timespec.micros (ts : Timespec) : ℤ := ts.tv_sec * kMicroSecondsPerSecond + ts.tv_nsec / 1000

/-- `howMuchTimeFromNow`, with the reading of `Timestamp::now()`. -/
def howMuchTimeFromNow (when' now : ℤ) : Timespec :=
  let microseconds := if int64 (when' - now) < 100 then 100 else int64 (when' - now)
  ⟨microseconds / kMicroSecondsPerSecond, microseconds % kMicroSecondsPerSecond * 1000⟩

/-- The faults of the code. -/
inductive Fault
  /-- A pointer to a timer that was deleted is followed. -/
  | dangling
  deriving DecidableEq

/-- The fields of `TimerQueue`, with the memory and the timerfd it uses. -/
structure TimerQueue where
  /-- The timers that are alive, by address. -/
  heap : ℕ → Option Timer
  /-- `Timer::num_`. -/
  num_ : ℕ
  /-- The timerfd. -/
  timerfd_ : Timerfd
  /-- Timers by expiry. -/
  timers_ : OrderedSet Entry.key
  /-- The same timers by address. -/
  activeTimers_ : OrderedSet ActiveTimer.key
  /-- `handleRead` is running callbacks. -/
  callingExpiredTimers_ : Bool
  /-- Timers cancelled by these callbacks. -/
  cancelingTimers_ : OrderedSet ActiveTimer.key

namespace TimerQueue

/-- `TimerQueue::TimerQueue`. -/
def fresh : TimerQueue :=
  ⟨fun _ => none, 0, .disarmed, OrderedSet.empty, OrderedSet.empty, false, OrderedSet.empty⟩

/-- The timer a pointer was made for, if it is alive. -/
def at? (q : TimerQueue) (p : TimerPtr) : Option Timer :=
  (q.heap p.addr).filter fun timer => timer.sequence_ = p.origin

/-- Following a pointer. -/
def deref (q : TimerQueue) (p : TimerPtr) : Except Fault Timer :=
  match q.at? p with
  | some timer => .ok timer
  | none => .error .dangling

/-- `delete`. -/
def delete (q : TimerQueue) (p : TimerPtr) : Except Fault TimerQueue := do
  let _ ← q.deref p
  pure { q with heap := Function.update q.heap p.addr none }

/-- `new Timer`, at an address of the allocator's choice. The numbers are given out as if
`++num_` were atomic. -/
def construct (q : TimerQueue) (addr : ℕ) (time : ℤ) (interval : Interval) : TimerQueue :=
  { q with
    heap := Function.update q.heap addr (some ⟨time, interval, q.num_ + 1⟩)
    num_ := q.num_ + 1 }

/-- `readTimerfd`: a timerfd that did not fire answers `EAGAIN`. -/
def readTimerfd (q : TimerQueue) : TimerQueue :=
  match q.timerfd_ with
  | .fired => { q with timerfd_ := .disarmed }
  | _ => q

/-- `resetTimerfd`. -/
def resetTimerfd (q : TimerQueue) (expiration now : ℤ) : TimerQueue :=
  { q with timerfd_ := .armed now (now + (howMuchTimeFromNow expiration now).micros) }

/-- `insert`. -/
def insert (q : TimerQueue) (p : TimerPtr) : Except Fault (TimerQueue × Bool) := do
  let timer ← q.deref p
  let earliestChanged := match q.timers_.first with
    | none => true
    | some e => decide (timer.time_ < e.time)
  pure ({ q with
    timers_ := q.timers_.insert ⟨timer.time_, p⟩
    activeTimers_ := q.activeTimers_.insert ⟨p, timer.sequence_⟩ }, earliestChanged)

/-- `addTimerInLoop`. -/
def addTimerInLoop (q : TimerQueue) (p : TimerPtr) (now : ℤ) : Except Fault TimerQueue := do
  let out ← q.insert p
  if out.2 then do
    let timer ← out.1.deref p
    pure (out.1.resetTimerfd timer.time_ now)
  else pure out.1

/-- `cancelInLoop`. -/
def cancelInLoop (q : TimerQueue) (id : ActiveTimer) : Except Fault TimerQueue :=
  match q.activeTimers_.find id.key with
  | some x => do
    let timer ← q.deref x.timer_
    let q := { q with timers_ := q.timers_.erase (Entry.key ⟨timer.time_, x.timer_⟩) }
    let q ← q.delete x.timer_
    pure { q with activeTimers_ := q.activeTimers_.erase x.key }
  | none =>
    if q.callingExpiredTimers_ then pure { q with cancelingTimers_ := q.cancelingTimers_.insert id }
    else pure q

/-- `sentry`, which orders after every entry that is due. -/
def sentry (now : ℤ) : ℤ ×ₗ ℕ := toLex (now, UINTPTR_MAX)

/-- The loop of `getExpired` over the entries that were moved out of `timers_`. -/
def deactivate (q : TimerQueue) : List Entry → Except Fault TimerQueue
  | [] => pure q
  | e :: expired => do
    let timer ← q.deref e.timer
    deactivate { q with
      activeTimers_ := q.activeTimers_.erase (ActiveTimer.key ⟨e.timer, timer.sequence_⟩) } expired

/-- `getExpired`. -/
def getExpired (q : TimerQueue) (now : ℤ) : Except Fault (TimerQueue × List Entry) := do
  let expired := q.timers_.below (sentry now)
  let q ← deactivate { q with timers_ := q.timers_.dropBelow (sentry now) } expired
  pure (q, expired)

/-- `handleRead` up to its loop over the callbacks. -/
def startRead (q : TimerQueue) (now : ℤ) : Except Fault (TimerQueue × List Entry) := do
  let out ← q.readTimerfd.getExpired now
  pure ({ out.1 with callingExpiredTimers_ := true, cancelingTimers_ := OrderedSet.empty }, out.2)

/-- One turn of the loop of `reset`. -/
def resetOne (q : TimerQueue) (now : ℤ) (e : Entry) : Except Fault TimerQueue := do
  let timer ← q.deref e.timer
  if timer.repeat_ = true ∧
      (q.cancelingTimers_.find (ActiveTimer.key ⟨e.timer, timer.sequence_⟩)).isNone = true then do
    let out ← insert { q with
      heap := Function.update q.heap e.timer.addr (some (timer.restart now)) } e.timer
    pure out.1
  else q.delete e.timer

/-- The loop of `reset`. -/
def resetLoop (q : TimerQueue) (now : ℤ) : List Entry → Except Fault TimerQueue
  | [] => pure q
  | e :: expired => do
    let q ← q.resetOne now e
    resetLoop q now expired

/-- The end of `reset`, with the reading `clock` of the clock. -/
def rearm (q : TimerQueue) (clock : ℤ) : Except Fault TimerQueue := do
  let nextExpire ← match q.timers_.first with
    | some e => do
      let timer ← q.deref e.timer
      pure timer.time_
    | none => pure 0
  pure (if valid nextExpire then q.resetTimerfd nextExpire clock else q)

/-- `reset`. -/
def reset (q : TimerQueue) (expired : List Entry) (now clock : ℤ) : Except Fault TimerQueue := do
  let q ← q.resetLoop now expired
  q.rearm clock

/-- The end of `handleRead`, after its loop over the callbacks. -/
def finishRead (q : TimerQueue) (expired : List Entry) (now clock : ℤ) :
    Except Fault TimerQueue :=
  reset { q with callingExpiredTimers_ := false } expired now clock

end TimerQueue

/-- What the thread of the loop is doing. -/
inductive Phase
  /-- It is not in `handleRead`. -/
  | idle
  /-- It is in the loop over the callbacks, with those still to run. -/
  | calling (now : ℤ) (expired todo : List Entry)

/-- The batch `handleRead` is processing. -/
def Phase.expired : Phase → List Entry
  | .idle => []
  | .calling _ expired _ => expired

/-- The part of the batch whose callbacks still have to run. -/
def Phase.todo : Phase → List Entry
  | .idle => []
  | .calling _ _ todo => todo

/-- A function bound to the queue and handed to the loop. -/
inductive Task
  | addTimerInLoop (timer : TimerPtr)
  | cancelInLoop (id : ActiveTimer)

/-- The timer a task is going to add. -/
def Task.adds : Task → Option TimerPtr
  | .addTimerInLoop timer => some timer
  | .cancelInLoop _ => none

/-- A callback that was started. -/
structure Firing where
  /-- The number of the timer. -/
  sequence : ℕ
  /-- Its interval. -/
  interval : Interval
  /-- The reading of the clock `handleRead` started with. -/
  now : ℤ

/-- The queue, the thread of its loop, and what other threads have begun. -/
structure World where
  /-- The queue. -/
  queue : TimerQueue
  /-- What the thread of the loop is doing. -/
  phase : Phase
  /-- Timers that `addTimer` has constructed and not handed over. -/
  built : List TimerPtr
  /-- The tasks of the queue on its loop. -/
  tasks_ : List Task
  /-- The timers that were ever constructed. -/
  issued : List TimerPtr
  /-- The callbacks that were started. -/
  history : List Firing

/-- A queue that was just constructed. -/
def World.fresh : World := ⟨.fresh, .idle, [], [], [], []⟩

/-- The timers that still have to be added. -/
def World.waiting (w : World) : List TimerPtr := w.built ++ w.tasks_.filterMap Task.adds

/-- A step of the system. -/
inductive Event
  /-- `new Timer` in `addTimer`, on any thread. -/
  | construct (addr : ℕ) (time : ℤ) (interval : Interval)
  /-- A timer of another queue is constructed. -/
  | elsewhere
  /-- `addTimer` queues `addTimerInLoop`. -/
  | queueAdd (i : ℕ)
  /-- `addTimer` on the thread of the loop calls `addTimerInLoop`. -/
  | runAdd (i : ℕ) (clock : ℤ)
  /-- `cancel` queues `cancelInLoop`. -/
  | queueCancel (id : ActiveTimer)
  /-- `cancel` on the thread of the loop calls `cancelInLoop`. -/
  | runCancel (id : ActiveTimer)
  /-- The loop runs the next of these tasks. -/
  | runTask (clock : ℤ)
  /-- `handleRead` begins. -/
  | startRead (now : ℤ)
  /-- `handleRead` starts the next callback. -/
  | runNext
  /-- `handleRead` ends. -/
  | finishRead (clock : ℤ)
  /-- The timerfd fires. -/
  | fire

/-- A step on the thread of the loop that changes the queue. -/
def World.onQueue (w : World) (out : Except Fault TimerQueue) : Except Fault World :=
  out.map fun q => { w with queue := q }

/-- One step, which may fault; there is none where the event cannot happen. What `addTimer`
does after it has handed the timer over is no step. -/
def perform (w : World) : Event → Option (Except Fault World)
  | .construct addr time interval =>
    if (w.queue.heap addr).isNone = true ∧ addr < UINTPTR_MAX then
      some (.ok { w with
        queue := w.queue.construct addr time interval
        built := w.built ++ [⟨addr, w.queue.num_ + 1⟩]
        issued := w.issued ++ [⟨addr, w.queue.num_ + 1⟩] })
    else none
  | .elsewhere => some (.ok { w with queue := { w.queue with num_ := w.queue.num_ + 1 } })
  | .queueAdd i =>
    (w.built[i]?).map fun p => .ok { w with
      built := w.built.eraseIdx i
      tasks_ := w.tasks_ ++ [.addTimerInLoop p] }
  | .runAdd i clock =>
    (w.built[i]?).map fun p =>
      { w with built := w.built.eraseIdx i }.onQueue (w.queue.addTimerInLoop p clock)
  | .queueCancel id => some (.ok { w with tasks_ := w.tasks_ ++ [.cancelInLoop id] })
  | .runCancel id => some (w.onQueue (w.queue.cancelInLoop id))
  | .runTask clock =>
    match w.phase, w.tasks_ with
    | .idle, .addTimerInLoop p :: tasks =>
      some ({ w with tasks_ := tasks }.onQueue (w.queue.addTimerInLoop p clock))
    | .idle, .cancelInLoop id :: tasks =>
      some ({ w with tasks_ := tasks }.onQueue (w.queue.cancelInLoop id))
    | _, _ => none
  | .startRead now =>
    match w.phase with
    | .idle => some ((w.queue.startRead now).map fun out =>
        { w with queue := out.1, phase := .calling now out.2 out.2 })
    | _ => none
  | .runNext =>
    match w.phase with
    | .calling now expired (e :: todo) => some ((w.queue.deref e.timer).map fun timer => { w with
        phase := .calling now expired todo
        history := w.history ++ [⟨timer.sequence_, timer.interval_, now⟩] })
    | _ => none
  | .finishRead clock =>
    match w.phase with
    | .calling now expired [] =>
      some ({ w with phase := .idle }.onQueue (w.queue.finishRead expired now clock))
    | _ => none
  | .fire =>
    match w.queue.timerfd_ with
    | .armed _ _ => some (.ok { w with queue := { w.queue with timerfd_ := .fired } })
    | _ => none

/-- One step that does not fault. -/
def step (w : World) (e : Event) : Option World := (perform w e).bind Except.toOption

end KKNet.TimerQueues
