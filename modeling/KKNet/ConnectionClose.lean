import KKNet.Connection
import KKNet.Runs

/-!
# Closing a server connection

One connection with the thread of its loop, the task queue of that loop, and
the loop of its server, which may be another thread. Close events reach
`handleClose` from a read event or from the task `forceClose` queues; the
close callback then takes the connection through the server's loop back to
`connectDestroyed`. A run in which no read event closes the connection while
it is connected, or while a queued close is waiting, closes it at most once.
-/

namespace KKNet.ConnectionClose

open OrderedSets BlockBuffer PollSelects Connections Runs

/-- Where the thread of the connection's loop is. -/
inductive Phase
  /-- In `poll_->wait`. -/
  | waiting
  /-- In `handleEvents` of the connection, before its read test. -/
  | reading
  /-- In `handleEvents` of the connection, before its write test. -/
  | writing
  /-- In `runTasks`, with the rest of the swapped tasks. -/
  | running (taskings : List Task)

/-- The swapped tasks that still have to run. -/
def Phase.taskings : Phase → List Task
  | .running ts => ts
  | _ => []

/-- The thread is blocked. -/
def Phase.isWaiting : Phase → Bool
  | .waiting => true
  | _ => false

/-- The connection, its loop and its server. -/
structure World where
  /-- The connection. -/
  conn : Connection
  /-- Its descriptor. -/
  fd_ : ℤ
  /-- The name of its `eventHandler_` in the poller. -/
  eventHandler : ℕ
  /-- The flags of its `eventHandler_`. -/
  flags : EventHandler
  /-- The poller of its loop. -/
  poll_ : PollSelect
  /-- What the thread of its loop is doing. -/
  phase : Phase
  /-- The tasks queued on its loop. -/
  tasks_ : List Task
  /-- The server runs on the loop of the connection. -/
  sameLoop : Bool
  /-- Calls of `removeConnectionInLoop` queued on another server loop. -/
  removals : ℕ
  /-- How often `handleClose` ran. -/
  closes : ℕ
  /-- How often `closeCallback_` was invoked. -/
  notified : ℕ
  /-- How often `connectDestroyed` ran. -/
  destroyed : ℕ

namespace World

/-- `Server::removeConnectionInLoop`, as far as the connection is concerned. -/
def removeConnectionInLoop (w : World) : World := { w with tasks_ := w.tasks_ ++ [.connectDestroyed] }

/-- `Server::removeConnection`, the `closeCallback_` of the connection. -/
def removeConnection (w : World) : World :=
  if w.sameLoop then w.removeConnectionInLoop else { w with removals := w.removals + 1 }

/-- An effect of a member function. A `runInLoop` comes from another thread. -/
def apply (w : World) : Effect → World
  | .addFd => { w with poll_ := w.poll_.addFd w.fd_ w.eventHandler }
  | .setEvent type => { w with poll_ := (w.poll_.setEvent w.fd_ type).1 }
  | .deleteEvent type => { w with poll_ := (w.poll_.deleteEvent w.fd_ type).1 }
  | .deleteAllEvent => { w with poll_ := w.poll_.deleteAllEvent w.fd_, closes := w.closes + 1 }
  | .deleteFd => { w with poll_ := (w.poll_.deleteFd w.fd_).1, destroyed := w.destroyed + 1 }
  | .queueInLoop task => { w with tasks_ := w.tasks_ ++ [task] }
  | .runInLoop task => { w with tasks_ := w.tasks_ ++ [task] }
  | .closeCallback => { w with notified := w.notified + 1 }.removeConnection
  | .written _ => w
  | .shutdownWrite => w
  | .connectionCallback => w
  | .messageCallback => w

/-- A member function that returned. -/
def returned (w : World) (out : Connection × List Effect) : World :=
  out.2.foldl apply { w with conn := out.1 }

/-- A task runs; `res` is what the socket answers to a `sendInLoop`. -/
def execute (w : World) (res : WriteResult) : Task → Option World
  | .sendInLoop data => (w.conn.sendInLoop data res).toOption.map w.returned
  | .shutdownInLoop => some (w.returned w.conn.shutdownInLoop)
  | .handleClose => some (w.returned w.conn.handleClose)
  | .connectDestroyed => some (w.returned w.conn.connectDestroyed)
  | .writeComplete => some w

/-- A call of `send` or `shutdown`: on the loop's own thread, which makes calls
only while it is not blocked, the bound function runs at once. -/
def call (w : World) (inLoop : Bool) (res : WriteResult) (out : Connection × List Effect) :
    Option World :=
  if inLoop then
    if w.phase.isWaiting then none
    else match out.2 with
      | [.runInLoop task] => { w with conn := out.1 }.execute res task
      | _ => some (w.returned out)
  else some (w.returned out)

/-- The connection after `completeConnect` ran as a task of its loop. -/
def completeConnect (conn : Connection) (fd : ℤ) (eventHandler : ℕ) (poll : PollSelect)
    (sameLoop : Bool) : World :=
  returned ⟨conn, fd, eventHandler, .clear, poll, .running [], [], sameLoop, 0, 0, 0, 0⟩
    conn.completeConnect

end World

/-- A step of the system. -/
inductive Event
  /-- `poll_->wait` returns. -/
  | wait (sel : Selected)
  /-- The close and the read test of `handleEvents`. -/
  | read (res : ReadResult)
  /-- The write test of `handleEvents`, and its end. -/
  | write (beyond : List UInt8) (res : WriteResult)
  /-- The next swapped task runs. -/
  | runTask (res : WriteResult)
  /-- `runTasks` returns. -/
  | tasksDone
  /-- The server's own loop runs a queued `removeConnectionInLoop`. -/
  | removal
  /-- `forceClose()`, on any thread. -/
  | forceClose
  /-- `shutdown()`. -/
  | shutdown (inLoop : Bool) (res : WriteResult)
  /-- `send(data)`. -/
  | send (inLoop : Bool) (data : List UInt8) (res : WriteResult)

/-- One step; there is none where the event cannot happen or the code faults. -/
def step (w : World) : Event → Option World
  | .wait sel =>
    match w.phase with
    | .waiting => do
      let handlers ← w.poll_.wait sel
      let mine := handlers.filter fun m => m.1 = w.eventHandler
      let flags := (mine.flatMap Prod.snd).foldl EventHandler.setEventFlag w.flags
      if sel.n > 0 ∧ mine ≠ [] then pure { w with flags := flags, phase := .reading }
      else pure { w with flags := flags, phase := .running w.tasks_, tasks_ := [] }
    | _ => none
  | .read res =>
    match w.phase with
    | .reading =>
      let w := { w with phase := .writing }
      let w := if w.flags.close_ then w.returned w.conn.handleClose else w
      if w.flags.read_ then (w.conn.handleRead res).toOption.map w.returned else some w
    | _ => none
  | .write beyond res =>
    match w.phase with
    | .writing => do
      let w ← if w.flags.write_ then (w.conn.handleWrite beyond res).toOption.map w.returned
        else some w
      pure { w with flags := .clear, phase := .running w.tasks_, tasks_ := [] }
    | _ => none
  | .runTask res =>
    match w.phase with
    | .running (task :: taskings) => { w with phase := .running taskings }.execute res task
    | _ => none
  | .tasksDone =>
    match w.phase with
    | .running [] => some { w with phase := .waiting }
    | _ => none
  | .removal =>
    if w.removals > 0 then some { w with removals := w.removals - 1 }.removeConnectionInLoop
    else none
  | .forceClose => some (w.returned w.conn.forceClose)
  | .shutdown inLoop res => w.call inLoop res w.conn.shutdown
  | .send inLoop data res => w.call inLoop res (w.conn.send data)

/-- The input makes `handleRead` close the connection: `readFd` returns zero, or
fails with anything but `EAGAIN`. -/
def Ends (c : Connection) : ReadResult → Prop
  | .received avail => ∃ s, c.inputBuffer_.readFd (some avail) = .ok (s, 0)
  | .failed errno ret => ret = 0 ∨ ret < 0 ∧ errno ≠ .EAGAIN

/-- A read event that ends the stream finds the connection neither connected nor
with a queued close waiting. -/
def Calm (w : World) : Event → Prop
  | .read res => w.phase = .reading → w.flags.read_ = true → Ends w.conn res →
      w.conn.state_ ≠ .kConnected ∧ .handleClose ∉ w.tasks_
  | _ => True

/-- How often a task is waiting on the loop. -/
def World.queued (w : World) (task : Task) : ℕ := (w.phase.taskings ++ w.tasks_).count task

/-- What holds in every state of a calm run. -/
structure Inv (w : World) : Prop where
  /-- `close_` is never set. -/
  close : w.flags.close_ = false
  /-- Only the descriptor of the connection is handled by its handler. -/
  own : ∀ x ∈ w.poll_.events_, ∀ e, x.2 = some e → e.handler = w.eventHandler → x.1 = w.fd_
  /-- One close has run or is waiting. -/
  once : w.queued .handleClose + w.closes ≤ 1
  /-- A waiting close finds the connection disconnecting. -/
  disconnecting : 0 < w.queued .handleClose → w.conn.state_ = .kDisconnecting
  /-- The connection is disconnected once a close has run. -/
  disconnected : 0 < w.closes ↔ w.conn.state_ = .kDisconnected
  /-- The handshake is over. -/
  connected : w.conn.state_ ≠ .kConnecting
  /-- After a close the descriptor has no interest. -/
  quiet : 0 < w.closes → w.poll_.Quiet w.fd_
  /-- After a close no read test is due. -/
  unread : 0 < w.closes → w.phase ≠ .reading
  /-- The close callback is invoked by closes. -/
  callbacks : w.notified ≤ w.closes
  /-- Every removal and destruction stems from a close callback. -/
  removed : w.destroyed + w.queued .connectDestroyed + w.removals ≤ w.notified

/-- Effects that neither close nor destroy, and only take interest away. -/
def Mild : Effect → Prop
  | .addFd => False
  | .setEvent _ => False
  | .deleteAllEvent => False
  | .deleteFd => False
  | .closeCallback => False
  | .queueInLoop task => task ≠ .handleClose ∧ task ≠ .connectDestroyed
  | .runInLoop task => task ≠ .handleClose ∧ task ≠ .connectDestroyed
  | _ => True

variable {w : World}

/-- Queueing a task counts it. -/
theorem queued_append (w : World) (task other : Task) :
    { w with tasks_ := w.tasks_ ++ [task] }.queued other =
      w.queued other + if task = other then 1 else 0 := by
  unfold World.queued
  simp only [List.count_append, List.count_singleton, beq_iff_eq]
  omega

/-- Member functions leave the thread where it is. -/
theorem phase_returned (w : World) (out : Connection × List Effect) :
    (w.returned out).phase = w.phase := by
  have happly : ∀ w : World, ∀ e, (w.apply e).phase = w.phase := by
    intro w e
    cases e with
    | closeCallback =>
      unfold World.apply World.removeConnection
      by_cases hsame : w.sameLoop = true
      · rw [if_pos hsame]
        rfl
      · rw [if_neg hsame]
    | _ => rfl
  have hfold : ∀ effects : List Effect, ∀ w : World, (effects.foldl World.apply w).phase = w.phase := by
    intro effects
    induction effects with
    | nil => exact fun w => rfl
    | cons e effects ih => exact fun w => (ih (w.apply e)).trans (happly w e)
  exact hfold out.2 _

/-- Taking interest away keeps a quiet descriptor quiet. -/
theorem quiet_deleteEvent {p : PollSelect} {fd : ℤ} (h : p.Quiet fd) (type : EventType) :
    (p.deleteEvent fd type).1.Quiet fd := by
  intro e he
  unfold PollSelect.deleteEvent at he
  rw [entry_flag, Option.map_eq_some_iff] at he
  obtain ⟨e₀, he₀, he⟩ := he
  obtain ⟨hr, hw, hx⟩ := h e₀ he₀
  subst he
  unfold FdEvent.withFlag
  cases type with
  | kRead => exact ⟨rfl, hw, hx⟩
  | kWrite => exact ⟨hr, rfl, hx⟩
  | kError => exact ⟨hr, hw, rfl⟩
  | kClose => exact ⟨hr, hw, hx⟩

/-- A change of the poller at the descriptor that keeps it quiet after a close. -/
theorem inv_poll (h : Inv w) {p : PollSelect}
    (hmem : ∀ x ∈ p.events_, x ∈ w.poll_.events_ ∨ x.1 = w.fd_)
    (hquiet : 0 < w.closes → p.Quiet w.fd_) : Inv { w with poll_ := p } where
  close := h.close
  own := by
    intro x hx e he hh
    rcases hmem x hx with hold | hfd
    · exact h.own x hold e he hh
    · exact hfd
  once := h.once
  disconnecting := h.disconnecting
  disconnected := h.disconnected
  connected := h.connected
  quiet := hquiet
  unread := h.unread
  callbacks := h.callbacks
  removed := h.removed

/-- Queueing a task that neither closes nor destroys. -/
theorem inv_queue (h : Inv w) {task : Task} (hc : task ≠ .handleClose)
    (hd : task ≠ .connectDestroyed) : Inv { w with tasks_ := w.tasks_ ++ [task] } where
  close := h.close
  own := h.own
  once := by
    rw [queued_append, if_neg hc]
    exact h.once
  disconnecting := by
    rw [queued_append, if_neg hc]
    exact h.disconnecting
  disconnected := h.disconnected
  connected := h.connected
  quiet := h.quiet
  unread := h.unread
  callbacks := h.callbacks
  removed := by
    rw [queued_append, if_neg hd]
    exact h.removed

/-- A mild effect, or setting interest before any close. -/
theorem inv_apply (h : Inv w) {e : Effect}
    (he : Mild e ∨ w.closes = 0 ∧ ∃ type, e = .setEvent type) :
    Inv (w.apply e) ∧ (w.apply e).closes = w.closes := by
  rcases he with he | ⟨hz, type, he⟩
  · cases e with
    | addFd => exact absurd he id
    | setEvent type => exact absurd he id
    | deleteEvent type =>
      exact ⟨inv_poll h (fun x hx => mem_flag hx) fun hc => quiet_deleteEvent (h.quiet hc) type, rfl⟩
    | deleteAllEvent => exact absurd he id
    | deleteFd => exact absurd he id
    | written bytes => exact ⟨h, rfl⟩
    | shutdownWrite => exact ⟨h, rfl⟩
    | queueInLoop task => exact ⟨inv_queue h he.1 he.2, rfl⟩
    | runInLoop task => exact ⟨inv_queue h he.1 he.2, rfl⟩
    | connectionCallback => exact ⟨h, rfl⟩
    | messageCallback => exact ⟨h, rfl⟩
    | closeCallback => exact absurd he id
  · subst he
    exact ⟨inv_poll h (fun x hx => mem_flag hx) fun hc => by omega, rfl⟩

/-- A list of such effects. -/
theorem inv_effects (h : Inv w) {effects : List Effect}
    (he : ∀ e ∈ effects, Mild e ∨ w.closes = 0 ∧ ∃ type, e = .setEvent type) :
    Inv (effects.foldl World.apply w) := by
  induction effects generalizing w with
  | nil => exact h
  | cons e effects ih =>
    obtain ⟨hinv, hsame⟩ := inv_apply h (he e List.mem_cons_self)
    refine ih hinv fun e' he' => ?_
    rw [hsame]
    exact he e' (List.mem_cons_of_mem e he')

/-- A member function that keeps the state of the connection and has such effects. -/
theorem inv_returned (h : Inv w) {out : Connection × List Effect}
    (hs : out.1.state_ = w.conn.state_)
    (he : ∀ e ∈ out.2, Mild e ∨ w.closes = 0 ∧ ∃ type, e = .setEvent type) :
    Inv (w.returned out) := by
  refine inv_effects (w := { w with conn := out.1 }) ?_ he
  exact { close := h.close, own := h.own, once := h.once
          disconnecting := fun hq => hs.trans (h.disconnecting hq)
          disconnected := by
            dsimp only
            rw [hs]
            exact h.disconnected
          connected := by
            dsimp only
            rw [hs]
            exact h.connected
          quiet := h.quiet, unread := h.unread, callbacks := h.callbacks, removed := h.removed }

/-- The close callback, invoked less often than closes ran. -/
theorem inv_closeCallback (h : Inv w) (hn : w.notified < w.closes) :
    Inv (w.apply .closeCallback) := by
  have hremoved := h.removed
  unfold World.apply World.removeConnection
  by_cases hsame : w.sameLoop = true
  · have hdestroy := queued_append w .connectDestroyed .connectDestroyed
    have hclose := queued_append w .connectDestroyed .handleClose
    rw [if_pos rfl] at hdestroy
    rw [if_neg (by decide), Nat.add_zero] at hclose
    rw [if_pos hsame]
    refine { close := h.close, own := h.own, once := ?_, disconnecting := ?_
             disconnected := h.disconnected, connected := h.connected, quiet := h.quiet
             unread := h.unread, callbacks := hn, removed := ?_ }
    · exact (congrArg (· + w.closes) hclose).trans_le h.once
    · exact fun hq => h.disconnecting (hclose ▸ hq)
    · have hcount : World.queued { w with
          notified := w.notified + 1
          tasks_ := w.tasks_ ++ [.connectDestroyed] } .connectDestroyed =
          w.queued .connectDestroyed + 1 := hdestroy
      dsimp only [World.removeConnectionInLoop]
      omega
  · rw [if_neg hsame]
    refine { close := h.close, own := h.own, once := h.once, disconnecting := h.disconnecting
             disconnected := h.disconnected, connected := h.connected, quiet := h.quiet
             unread := h.unread, callbacks := hn, removed := ?_ }
    have hcount : World.queued { w with
        notified := w.notified + 1
        removals := w.removals + 1 } .connectDestroyed = w.queued .connectDestroyed := rfl
    dsimp only
    omega

/-- Closing a disconnecting connection with no other close waiting. -/
theorem inv_handleClose (h : Inv w) (hs : w.conn.state_ = .kDisconnecting)
    (hq : w.queued .handleClose = 0) (hp : w.phase ≠ .reading) :
    Inv (w.returned w.conn.handleClose) := by
  have hz : w.closes = 0 := by
    by_contra hne
    have hd := h.disconnected.mp (Nat.pos_of_ne_zero hne)
    rw [hs] at hd
    cases hd
  have hn := h.callbacks
  have hclosed : Inv { w with
      conn := { w.conn with state_ := .kDisconnected }
      poll_ := w.poll_.deleteAllEvent w.fd_
      closes := w.closes + 1 } :=
    { close := h.close
      own := by
        intro x hx e he hh
        unfold PollSelect.deleteAllEvent at hx
        rcases mem_flag hx with hx | hfd
        · rcases mem_flag hx with hx | hfd
          · rcases mem_flag hx with hx | hfd
            · rcases mem_flag hx with hx | hfd
              · exact h.own x hx e he hh
              · exact hfd
            · exact hfd
          · exact hfd
        · exact hfd
      once := (congrArg (· + (w.closes + 1)) hq).trans_le (by omega)
      disconnecting := fun hpos => absurd (hq ▸ hpos) (lt_irrefl 0)
      disconnected := ⟨fun _ => rfl, fun _ => Nat.succ_pos _⟩
      connected := fun hc => by cases hc
      quiet := fun _ => quiet_deleteAllEvent
      unread := fun _ => hp
      callbacks := by
        dsimp only
        omega
      removed := h.removed }
  unfold World.returned Connection.handleClose
  rw [if_pos hs]
  by_cases hcb : w.conn.closeCallback_ = true
  · rw [if_pos hcb]
    have hlt : w.notified < w.closes + 1 := by omega
    exact inv_closeCallback hclosed hlt
  · rw [if_neg hcb]
    exact hclosed

/-- The effects of `sendInLoop`. -/
theorem sendInLoop_effects {c : Connection} {data : List UInt8} {res : WriteResult}
    {out : Connection × List Effect} (h : c.sendInLoop data res = .ok out) :
    out.1.state_ = c.state_ ∧
      ∀ e ∈ out.2, Mild e ∨ c.state_ ≠ .kDisconnected ∧ ∃ type, e = .setEvent type := by
  obtain rfl | ⟨hs, _, rest, done, hrest, hdone⟩ := Connection.sendInLoop_cases h
  · exact ⟨rfl, fun e he => absurd he List.not_mem_nil⟩
  have hmild : ∀ e ∈ done, Mild e := by
    intro e he
    obtain ⟨bytes, rfl⟩ | rfl := hdone e he
    · trivial
    · exact ⟨by decide, by decide⟩
  obtain rfl | ⟨s, rfl⟩ := Connection.bufferRest_cases hrest
  · exact ⟨rfl, fun e he => Or.inl (hmild e he)⟩
  · refine ⟨rfl, fun e he => ?_⟩
    rcases List.mem_append.mp he with he | he
    · exact Or.inl (hmild e he)
    · exact Or.inr ⟨hs, .kWrite, List.mem_singleton.mp he⟩

/-- The effects of the end of `handleWrite`. -/
theorem finishWrite_effects (c : Connection) :
    c.finishWrite.1.state_ = c.state_ ∧ ∀ e ∈ c.finishWrite.2, Mild e := by
  unfold Connection.finishWrite Connection.disableWriting Connection.shutdownInLoop
  refine ⟨rfl, fun e he => ?_⟩
  rcases List.mem_append.mp he with he | he
  · rcases List.mem_append.mp he with he | he
    · exact List.mem_singleton.mp he ▸ trivial
    · by_cases hcb : c.writeCompleteCallback_ = true
      · rw [if_pos hcb, List.mem_singleton] at he
        exact he ▸ ⟨by decide, by decide⟩
      · rw [if_neg hcb] at he
        exact absurd he List.not_mem_nil
  · by_cases hst : c.state_ = .kDisconnecting
    · rw [if_pos hst] at he
      exact List.mem_singleton.mp he ▸ trivial
    · rw [if_neg hst] at he
      exact absurd he List.not_mem_nil

/-- The effects of `handleWrite`. -/
theorem handleWrite_effects {c : Connection} {beyond : List UInt8} {res : WriteResult}
    {out : Connection × List Effect} (h : c.handleWrite beyond res = .ok out) :
    out.1.state_ = c.state_ ∧ ∀ e ∈ out.2, Mild e := by
  obtain rfl | ⟨_, s, bytes, ⟨_, rfl⟩ | ⟨_, rfl⟩⟩ := Connection.handleWrite_cases h
  · exact ⟨rfl, fun e he => absurd he List.not_mem_nil⟩
  · obtain ⟨hstate, heff⟩ := finishWrite_effects { c with outputBuffer_ := s }
    refine ⟨hstate, fun e he => ?_⟩
    rcases List.mem_cons.mp he with he | he
    · exact he ▸ trivial
    · exact heff e he
  · exact ⟨rfl, fun e he => List.mem_singleton.mp he ▸ trivial⟩

/-- A `sendInLoop` that returns keeps the invariant. -/
theorem inv_sendInLoop (h : Inv w) {data : List UInt8} {res : WriteResult}
    {out : Connection × List Effect} (hout : w.conn.sendInLoop data res = .ok out) :
    Inv (w.returned out) := by
  obtain ⟨hstate, heff⟩ := sendInLoop_effects hout
  refine inv_returned h hstate fun e he => ?_
  rcases heff e he with hm | ⟨hs, hset⟩
  · exact Or.inl hm
  · refine Or.inr ⟨?_, hset⟩
    by_contra hne
    exact hs (h.disconnected.mp (Nat.pos_of_ne_zero hne))

/-- The half-close keeps the invariant. -/
theorem inv_shutdownInLoop (h : Inv w) : Inv (w.returned w.conn.shutdownInLoop) := by
  refine inv_returned h rfl fun e he => ?_
  unfold Connection.shutdownInLoop at he
  by_cases hw : w.conn.isWriting = true
  · rw [if_pos hw] at he
    exact absurd he List.not_mem_nil
  · rw [if_neg hw] at he
    exact Or.inl (List.mem_singleton.mp he ▸ trivial)

/-- Taking a task off the batch uncounts it. -/
theorem queued_running {task : Task} {taskings : List Task}
    (hph : w.phase = .running (task :: taskings)) (other : Task) :
    w.queued other = { w with phase := .running taskings }.queued other +
      if task = other then 1 else 0 := by
  unfold World.queued
  rw [hph]
  simp only [Phase.taskings, List.cons_append, List.count_cons, beq_iff_eq]

/-- Taking a task off the batch keeps the invariant. -/
theorem inv_taken (h : Inv w) {task : Task} {taskings : List Task}
    (hph : w.phase = .running (task :: taskings)) : Inv { w with phase := .running taskings } := by
  have hclose := queued_running hph .handleClose
  have hdestroy := queued_running hph .connectDestroyed
  have honce := h.once
  have hremoved := h.removed
  exact { close := h.close, own := h.own
          once := by
            dsimp only
            omega
          disconnecting := fun hq => h.disconnecting (by omega)
          disconnected := h.disconnected, connected := h.connected, quiet := h.quiet
          unread := fun _ hp => by cases hp
          callbacks := h.callbacks
          removed := by
            dsimp only
            omega }

/-- Running a task that neither closes nor destroys keeps the invariant. -/
theorem inv_inline (h : Inv w) {task : Task} (hc : task ≠ .handleClose)
    (hd : task ≠ .connectDestroyed) {res : WriteResult} {w' : World}
    (he : w.execute res task = some w') : Inv w' := by
  unfold World.execute at he
  cases task with
  | sendInLoop data =>
    dsimp only at he
    cases hsend : w.conn.sendInLoop data res with
    | error e =>
      rw [hsend] at he
      cases he
    | ok out =>
      rw [hsend] at he
      cases he
      exact inv_sendInLoop h hsend
  | shutdownInLoop =>
    cases he
    exact inv_shutdownInLoop h
  | handleClose => exact absurd rfl hc
  | connectDestroyed => exact absurd rfl hd
  | writeComplete =>
    cases he
    exact h

/-- Running the task just taken off the batch keeps the invariant. -/
theorem inv_runTask (h : Inv w) {task : Task} {taskings : List Task}
    (hph : w.phase = .running (task :: taskings)) {res : WriteResult} {w' : World}
    (he : { w with phase := .running taskings }.execute res task = some w') : Inv w' := by
  have htaken := inv_taken h hph
  cases task with
  | sendInLoop data => exact inv_inline htaken (fun hc => by cases hc) (fun hc => by cases hc) he
  | shutdownInLoop => exact inv_inline htaken (fun hc => by cases hc) (fun hc => by cases hc) he
  | writeComplete => exact inv_inline htaken (fun hc => by cases hc) (fun hc => by cases hc) he
  | handleClose =>
    cases he
    have hclose := queued_running hph .handleClose
    rw [if_pos rfl] at hclose
    have honce := h.once
    exact inv_handleClose htaken (h.disconnecting (by omega)) (by omega) fun hp => by cases hp
  | connectDestroyed =>
    cases he
    have hdestroy := queued_running hph .connectDestroyed
    rw [if_pos rfl] at hdestroy
    have hremoved := h.removed
    have hgone := inv_poll htaken (fun x hx => mem_deleteFd hx) fun _ e hent => by
      rw [entry_deleteFd] at hent
      cases hent
    have hcount : World.queued (World.returned { w with phase := .running taskings }
        w.conn.connectDestroyed) .connectDestroyed =
        { w with phase := .running taskings }.queued .connectDestroyed := rfl
    exact { close := hgone.close, own := hgone.own, once := hgone.once
            disconnecting := hgone.disconnecting, disconnected := hgone.disconnected
            connected := hgone.connected, quiet := hgone.quiet, unread := hgone.unread
            callbacks := hgone.callbacks
            removed := by
              rw [hcount]
              dsimp only [World.returned, Connection.connectDestroyed, List.foldl, World.apply]
              omega }

/-- Moving the thread on, with the same tasks waiting and not into a read test
after a close. -/
theorem inv_moved (h : Inv w) {flags : EventHandler} {phase : Phase} {tasks : List Task}
    (hf : flags.close_ = false)
    (hsame : phase.taskings ++ tasks = w.phase.taskings ++ w.tasks_)
    (hread : 0 < w.closes → phase ≠ .reading) :
    Inv { w with flags := flags, phase := phase, tasks_ := tasks } := by
  have hqueued : ∀ task, World.queued { w with flags := flags, phase := phase, tasks_ := tasks } task =
      w.queued task := fun task => congrArg (List.count task) hsame
  exact { close := hf, own := h.own
          once := by
            rw [hqueued]
            exact h.once
          disconnecting := by
            rw [hqueued]
            exact h.disconnecting
          disconnected := h.disconnected, connected := h.connected, quiet := h.quiet
          unread := hread, callbacks := h.callbacks
          removed := by
            rw [hqueued]
            exact h.removed }

/-- A new batch: what was queued is swapped out. -/
theorem inv_swap (h : Inv w) (hph : w.phase.taskings = []) {flags : EventHandler}
    (hf : flags.close_ = false) :
    Inv { w with flags := flags, phase := .running w.tasks_, tasks_ := [] } := by
  refine inv_moved h hf ?_ fun _ hp => by cases hp
  rw [hph, List.nil_append]
  exact List.append_nil w.tasks_

/-- Moving between phases without a batch. -/
theorem inv_phase (h : Inv w) (hph : w.phase.taskings = []) {phase : Phase}
    (hnew : phase.taskings = []) (hread : 0 < w.closes → phase ≠ .reading) {flags : EventHandler}
    (hf : flags.close_ = false) : Inv { w with flags := flags, phase := phase } := by
  refine inv_moved h hf ?_ hread
  rw [hph, hnew]

/-- No event flag `wait` sets is the close flag. -/
theorem close_flags {p : PollSelect} {sel : Selected} {handlers : List (ℕ × List EventType)}
    (h : p.wait sel = some handlers) (id : ℕ) {flags : EventHandler} (hf : flags.close_ = false) :
    (((handlers.filter fun m => m.1 = id).flatMap Prod.snd).foldl EventHandler.setEventFlag
      flags).close_ = false := by
  have hall : ∀ t ∈ (handlers.filter fun m => m.1 = id).flatMap Prod.snd, t ≠ .kClose := by
    intro t ht
    obtain ⟨m, hm, ht⟩ := List.mem_flatMap.mp ht
    obtain ⟨fd, e, _, hmark, _⟩ := wait_mem h (List.mem_filter.mp hm).1
    rw [hmark] at ht
    unfold Selected.marks at ht
    rcases List.mem_append.mp ht with ht | ht
    · rcases List.mem_append.mp ht with ht | ht
      · split at ht <;> simp_all
      · split at ht <;> simp_all
    · split at ht <;> simp_all
  generalize (handlers.filter fun m => m.1 = id).flatMap Prod.snd = types at hall
  induction types generalizing flags with
  | nil => exact hf
  | cons t types ih =>
    refine ih ?_ fun t' ht' => hall t' (List.mem_cons_of_mem t ht')
    have hne := hall t List.mem_cons_self
    cases t with
    | kRead => exact hf
    | kWrite => exact hf
    | kError => exact hf
    | kClose => exact absurd rfl hne

/-- Waiting keeps the invariant: after a close the handler is not reported. -/
theorem inv_wait (h : Inv w) {sel : Selected} {w' : World} (he : step w (.wait sel) = some w') :
    Inv w' := by
  unfold step at he
  cases hph : w.phase with
  | waiting =>
    simp only [hph] at he
    cases hwait : w.poll_.wait sel with
    | none =>
      rw [hwait] at he
      cases he
    | some handlers =>
      rw [hwait] at he
      dsimp only [Option.bind_eq_bind, Option.bind_some] at he
      have htask : w.phase.taskings = [] := by
        rw [hph]
        rfl
      have hflags := close_flags hwait w.eventHandler h.close
      by_cases hdisp : sel.n > 0 ∧ (handlers.filter fun m => m.1 = w.eventHandler) ≠ []
      · rw [if_pos hdisp] at he
        cases he
        refine inv_phase h htask rfl (fun hc _ => ?_) hflags
        obtain ⟨m, hm⟩ := List.exists_mem_of_ne_nil _ hdisp.2
        obtain ⟨hmem, hid⟩ := List.mem_filter.mp hm
        obtain ⟨fd, e, hfd, hmark, hne⟩ := wait_mem hwait hmem
        rw [decide_eq_true_eq, hmark] at hid
        have hown : fd = w.fd_ := h.own _ hfd e rfl hid
        obtain ⟨hr, hw, hx⟩ := h.quiet hc e (entry_of_mem (hown ▸ hfd))
        refine hne ?_
        unfold Selected.marks
        rw [hr, hw, hx]
        simp
      · rw [if_neg hdisp] at he
        cases he
        exact inv_swap h htask hflags
  | reading =>
    simp only [hph] at he
    cases he
  | writing =>
    simp only [hph] at he
    cases he
  | running taskings =>
    simp only [hph] at he
    cases he

/-- What follows `readFd` keeps the invariant, if a close finds the connection
disconnecting with no other close waiting. -/
theorem inv_afterRead (h : Inv w) (hp : w.phase ≠ .reading) {c : Connection}
    (hs : c.state_ = w.conn.state_) {n : ℤ} {errno : Errno}
    (hclose : n = 0 ∨ n < 0 ∧ errno ≠ .EAGAIN →
      w.conn.state_ = .kDisconnecting ∧ w.queued .handleClose = 0) :
    Inv (w.returned (c.afterRead n errno)) := by
  have hconn : Inv (w.returned (c, [])) :=
    inv_returned h hs fun e he => absurd he List.not_mem_nil
  obtain hread | ⟨hn, hread⟩ | hread := c.afterRead_cases n errno
  · rw [hread]
    refine inv_returned h hs fun e he => Or.inl ?_
    exact List.mem_singleton.mp (List.mem_ite_nil_right.mp he).2 ▸ trivial
  · rw [hread]
    obtain ⟨hd, hq⟩ := hclose hn
    exact inv_handleClose hconn (hs.trans hd) hq hp
  · rw [hread]
    exact hconn

/-- A calm read event keeps the invariant. -/
theorem inv_read (h : Inv w) {res : ReadResult} (hcalm : Calm w (.read res)) {w' : World}
    (he : step w (.read res) = some w') : Inv w' := by
  unfold step at he
  cases hph : w.phase with
  | waiting =>
    simp only [hph] at he
    cases he
  | writing =>
    simp only [hph] at he
    cases he
  | running taskings =>
    simp only [hph] at he
    cases he
  | reading =>
    simp only [hph, h.close, Bool.false_eq_true, if_false] at he
    have htask : w.phase.taskings = [] := by
      rw [hph]
      rfl
    have hopen : w.closes = 0 := by
      by_contra hne
      exact h.unread (Nat.pos_of_ne_zero hne) hph
    have hnext : Inv { w with phase := .writing } :=
      inv_phase h htask rfl (fun hc => by omega) h.close
    by_cases hread : w.flags.read_ = true
    · rw [if_pos hread] at he
      have hclose : Ends w.conn res → w.conn.state_ = .kDisconnecting ∧
          World.queued { w with phase := .writing } .handleClose = 0 := by
        intro hends
        obtain ⟨hnot, hfree⟩ := hcalm hph hread hends
        refine ⟨?_, List.count_eq_zero.mpr hfree⟩
        cases hstate : w.conn.state_ with
        | kDisconnected =>
          have hpos := h.disconnected.mpr hstate
          omega
        | kConnecting => exact absurd hstate h.connected
        | kConnected => exact absurd hstate hnot
        | kDisconnecting => rfl
      have hphase : Phase.writing ≠ .reading := fun hp => by cases hp
      unfold Connection.handleRead at he
      cases res with
      | received avail =>
        cases hfd : w.conn.inputBuffer_.readFd (some avail) with
        | error e =>
          simp only [hfd] at he
          cases he
        | ok out =>
          simp only [hfd] at he
          cases he
          refine inv_afterRead (c := { w.conn with inputBuffer_ := out.1 }) hnext hphase rfl
            fun hn => hclose ?_
          refine ⟨out.1, ?_⟩
          have hzero : out.2 = 0 := by omega
          rw [hfd, ← hzero]
      | failed errno ret =>
        cases he
        exact inv_afterRead hnext hphase rfl hclose
    · rw [if_neg hread] at he
      cases he
      exact hnext

/-- A write test keeps the invariant. -/
theorem inv_write (h : Inv w) {beyond : List UInt8} {res : WriteResult} {w' : World}
    (he : step w (.write beyond res) = some w') : Inv w' := by
  unfold step at he
  cases hph : w.phase with
  | waiting =>
    simp only [hph] at he
    cases he
  | reading =>
    simp only [hph] at he
    cases he
  | running taskings =>
    simp only [hph] at he
    cases he
  | writing =>
    simp only [hph] at he
    have hdone : ∀ w₁ : World, Inv w₁ → w₁.phase.taskings = [] →
        Inv { w₁ with flags := .clear, phase := .running w₁.tasks_, tasks_ := [] } :=
      fun w₁ h₁ htask => inv_swap h₁ htask rfl
    by_cases hwrite : w.flags.write_ = true
    · rw [if_pos hwrite] at he
      cases hw : w.conn.handleWrite beyond res with
      | error e =>
        rw [hw] at he
        cases he
      | ok out =>
        rw [hw] at he
        cases he
        obtain ⟨hstate, heff⟩ := handleWrite_effects hw
        refine hdone _ (inv_returned h hstate fun e he => Or.inl (heff e he)) ?_
        rw [phase_returned, hph]
        rfl
    · rw [if_neg hwrite] at he
      cases he
      refine hdone w h ?_
      rw [hph]
      rfl

/-- A connected connection has no close behind it, and may start disconnecting. -/
theorem inv_disconnecting (h : Inv w) (hc : w.conn.state_ = .kConnected) :
    w.closes = 0 ∧ w.queued .handleClose = 0 ∧
      Inv { w with conn := { w.conn with state_ := .kDisconnecting } } := by
  have hz : w.closes = 0 := by
    by_contra hne
    have hd := h.disconnected.mp (Nat.pos_of_ne_zero hne)
    rw [hc] at hd
    cases hd
  have hq : w.queued .handleClose = 0 := by
    by_contra hne
    have hd := h.disconnecting (Nat.pos_of_ne_zero hne)
    rw [hc] at hd
    cases hd
  refine ⟨hz, hq, ?_⟩
  exact { close := h.close, own := h.own, once := h.once, disconnecting := fun _ => rfl
          disconnected := by
            constructor
            · intro hpos
              dsimp only at hpos
              omega
            · intro hd
              cases hd
          connected := fun hd => by cases hd
          quiet := h.quiet, unread := h.unread, callbacks := h.callbacks, removed := h.removed }

/-- Closing by force queues a close, once, and only while connected. -/
theorem inv_forceClose (h : Inv w) : Inv (w.returned w.conn.forceClose) := by
  unfold Connection.forceClose
  by_cases hc : w.conn.state_ = .kConnected
  · rw [if_pos hc]
    obtain ⟨hz, hq, hd⟩ := inv_disconnecting h hc
    have hclose := queued_append { w with conn := { w.conn with state_ := .kDisconnecting } }
      .handleClose .handleClose
    have hdestroy := queued_append { w with conn := { w.conn with state_ := .kDisconnecting } }
      .handleClose .connectDestroyed
    have hsame : World.queued { w with
        conn := { w.conn with state_ := .kDisconnecting } } .handleClose = 0 := hq
    rw [if_pos rfl, hsame] at hclose
    rw [if_neg (fun hc => by cases hc)] at hdestroy
    exact { close := hd.close, own := hd.own
            once := (congrArg (· + w.closes) hclose).trans_le (by omega)
            disconnecting := fun _ => rfl
            disconnected := hd.disconnected, connected := hd.connected, quiet := hd.quiet
            unread := hd.unread, callbacks := hd.callbacks
            removed := (congrArg (fun n => w.destroyed + n + w.removals) hdestroy).trans_le h.removed }
  · rw [if_neg hc]
    exact inv_returned h rfl fun e he => absurd he List.not_mem_nil

/-- A bound function that neither closes nor destroys, called on either thread. -/
theorem inv_call {c : Connection} (hinv : Inv { w with conn := c }) {task : Task}
    (hc : task ≠ .handleClose) (hd : task ≠ .connectDestroyed) {inLoop : Bool} {res : WriteResult}
    {w' : World} (he : w.call inLoop res (c, [.runInLoop task]) = some w') : Inv w' := by
  unfold World.call at he
  by_cases hin : inLoop = true
  · rw [if_pos hin] at he
    by_cases hwait : w.phase.isWaiting = true
    · rw [if_pos hwait] at he
      cases he
    · rw [if_neg hwait] at he
      exact inv_inline hinv hc hd he
  · rw [if_neg hin] at he
    cases he
    exact inv_queue hinv hc hd

/-- A calm step keeps the invariant. -/
theorem inv_step (h : Inv w) {e : Event} (hcalm : Calm w e) {w' : World}
    (he : step w e = some w') : Inv w' := by
  cases e with
  | wait sel => exact inv_wait h he
  | read res => exact inv_read h hcalm he
  | write beyond res => exact inv_write h he
  | runTask res =>
    unfold step at he
    dsimp only at he
    split at he
    · rename_i task taskings hph
      exact inv_runTask h hph he
    · cases he
  | tasksDone =>
    unfold step at he
    dsimp only at he
    split at he
    · rename_i hph
      cases he
      exact inv_phase h (by rw [hph]; rfl) rfl (fun _ hp => by cases hp) h.close
    · cases he
  | removal =>
    unfold step at he
    dsimp only at he
    by_cases hpos : w.removals > 0
    · rw [if_pos hpos] at he
      cases he
      have hdestroy := queued_append { w with removals := w.removals - 1 }
        .connectDestroyed .connectDestroyed
      have hclose := queued_append { w with removals := w.removals - 1 }
        .connectDestroyed .handleClose
      rw [if_pos rfl] at hdestroy
      rw [if_neg (fun hc => by cases hc)] at hclose
      have hremoved := h.removed
      have hle : w.destroyed + (w.queued .connectDestroyed + 1) + (w.removals - 1) ≤ w.notified := by
        omega
      exact { close := h.close, own := h.own
              once := (congrArg (· + w.closes) hclose).trans_le h.once
              disconnecting := fun hq => h.disconnecting (lt_of_lt_of_eq hq hclose)
              disconnected := h.disconnected, connected := h.connected, quiet := h.quiet
              unread := h.unread, callbacks := h.callbacks
              removed := (congrArg (fun n => w.destroyed + n + (w.removals - 1)) hdestroy).trans_le
                hle }
    · rw [if_neg hpos] at he
      cases he
  | forceClose =>
    cases he
    exact inv_forceClose h
  | shutdown inLoop res =>
    unfold step at he
    dsimp only at he
    unfold Connection.shutdown at he
    by_cases hc : w.conn.state_ = .kConnected
    · rw [if_pos hc] at he
      exact inv_call (inv_disconnecting h hc).2.2 (fun hc => by cases hc)
        (fun hc => by cases hc) he
    · rw [if_neg hc] at he
      unfold World.call at he
      split at he
      · split at he
        · cases he
        · cases he
          exact h
      · cases he
        exact h
  | send inLoop data res =>
    exact inv_call h (fun hc => by cases hc) (fun hc => by cases hc) he

/-- The connection right after `completeConnect`, with a handler of its own. -/
theorem inv_completeConnect (conn : Connection) (fd : ℤ) (eventHandler : ℕ) (poll : PollSelect)
    (sameLoop : Bool)
    (hown : ∀ x ∈ poll.events_, ∀ e, x.2 = some e → e.handler = eventHandler → x.1 = fd) :
    Inv (World.completeConnect conn fd eventHandler poll sameLoop) := by
  have hstart : Inv ⟨{ conn with reading_ := true, state_ := .kConnected }, fd, eventHandler,
      .clear, poll.addFd fd eventHandler, .running [], [], sameLoop, 0, 0, 0, 0⟩ :=
    { close := rfl
      own := by
        intro x hx e he hh
        rcases mem_addFd hx with hold | hfd
        · exact hown x hold e he hh
        · exact hfd
      once := Nat.zero_le 1
      disconnecting := fun hq => absurd hq (lt_irrefl 0)
      disconnected := ⟨fun hc => absurd hc (lt_irrefl 0), fun hd => by cases hd⟩
      connected := fun hc => by cases hc
      quiet := fun hc => absurd hc (lt_irrefl 0)
      unread := fun hc => absurd hc (lt_irrefl 0)
      callbacks := le_refl 0
      removed := le_refl 0 }
  have hrest : ∀ e ∈ Effect.setEvent .kRead :: if conn.connectionCallback_ then
      [Effect.connectionCallback] else [], Mild e ∨ 0 = 0 ∧ ∃ type, e = .setEvent type := by
    intro e he
    rcases List.mem_cons.mp he with he | he
    · exact Or.inr ⟨rfl, .kRead, he⟩
    · by_cases hcb : conn.connectionCallback_ = true
      · rw [if_pos hcb] at he
        exact Or.inl (List.mem_singleton.mp he ▸ trivial)
      · rw [if_neg hcb] at he
        exact absurd he List.not_mem_nil
  exact inv_effects hstart hrest

/-- The connection is closed once: one close callback, one destruction, and
after the first close it is disconnected and can no more be closed or shut down. -/
structure ClosedOnce (w : World) : Prop where
  /-- `closeCallback_` was invoked at most once. -/
  notified : w.notified ≤ 1
  /-- `connectDestroyed` ran at most once. -/
  destroyed : w.destroyed ≤ 1
  /-- After `handleClose` the state is `kDisconnected`. -/
  disconnected : 0 < w.closes → w.conn.state_ = .kDisconnected
  /-- After `handleClose` the connection is not connected. -/
  isConnected : 0 < w.closes → w.conn.isConnected = false
  /-- After `handleClose` a forced close has no effect. -/
  forceClose : 0 < w.closes → w.conn.forceClose = (w.conn, [])
  /-- After `handleClose` a shutdown has no effect. -/
  shutdown : 0 < w.closes → w.conn.shutdown = (w.conn, [])

/-- In every run whose steps are calm the connection is closed once. -/
theorem closed_once (conn : Connection) (fd : ℤ) (eventHandler : ℕ) (poll : PollSelect)
    (sameLoop : Bool)
    (hown : ∀ x ∈ poll.events_, ∀ e, x.2 = some e → e.handler = eventHandler → x.1 = fd)
    (events : List Event)
    (hcalm : Meets step Calm (World.completeConnect conn fd eventHandler poll sameLoop) events)
    (w : World)
    (hrun : run step (World.completeConnect conn fd eventHandler poll sameLoop) events = some w) :
    ClosedOnce w := by
  have h : Inv w := invariant_of_meets Inv (fun _ _ _ h hcalm he => inv_step h hcalm he)
    (inv_completeConnect conn fd eventHandler poll sameLoop hown) hcalm hrun
  have honce := h.once
  have hcallbacks := h.callbacks
  have hremoved := h.removed
  have hstate : 0 < w.closes → w.conn.state_ ≠ .kConnected := by
    intro hpos hc
    rw [h.disconnected.mp hpos] at hc
    cases hc
  exact { notified := by omega
          destroyed := by omega
          disconnected := h.disconnected.mp
          isConnected := fun hpos => decide_eq_false (hstate hpos)
          forceClose := fun hpos => if_neg (hstate hpos)
          shutdown := fun hpos => if_neg (hstate hpos) }

/-- A connection of a server with callbacks, before its handshake. -/
def accepted : Connection :=
  ⟨.kConnecting, true, false, KBuffer.fresh, KBuffer.fresh, true, true, true, true⟩

/-- It is completed on descriptor `5` of an empty poller, for a server on another loop. -/
def served : World := World.completeConnect accepted 5 0 ⟨OrderedSet.empty, 0⟩ false

/-- `select` reports the descriptor `5` readable. -/
def readable : Selected := ⟨1, fun fd => fd = 5, fun _ => false, fun _ => false⟩

/-- `select` runs into its timeout. -/
def timeout : Selected := ⟨0, fun _ => false, fun _ => false, fun _ => false⟩

/-- A shutdown, the end of the stream and the removal that follows. -/
def orderly : List Event :=
  [.tasksDone, .shutdown false (.accepted 0), .wait readable, .read (.received []),
    .write [] (.accepted 0), .runTask (.accepted 0), .tasksDone, .removal, .forceClose,
    .wait timeout, .runTask (.accepted 0)]

/-- The end of the stream after a shutdown closes the connection once. -/
theorem closed_once_orderly : ∃ w, run step served orderly = some w ∧ ClosedOnce w := by
  have hcalm : Meets step Calm served orderly := by
    refine ⟨trivial, fun w hw => ?_⟩
    cases hw
    refine ⟨trivial, fun w hw => ?_⟩
    cases hw
    refine ⟨trivial, fun w hw => ?_⟩
    cases hw
    refine ⟨fun _ _ _ => ⟨by decide, by decide⟩, fun w hw => ?_⟩
    cases hw
    refine ⟨trivial, fun w hw => ?_⟩
    cases hw
    exact ⟨trivial, fun _ _ => ⟨trivial, fun _ _ => ⟨trivial, fun _ _ => ⟨trivial, fun _ _ =>
      ⟨trivial, fun _ _ => ⟨trivial, fun _ _ => trivial⟩⟩⟩⟩⟩⟩
  exact ⟨_, rfl, closed_once accepted 5 0 ⟨OrderedSet.empty, 0⟩ false
    (fun x hx => absurd hx List.not_mem_nil) orderly hcalm _ rfl⟩

/-- The end of the stream on a connected connection, and a forced close after it. -/
def abrupt : List Event :=
  [.tasksDone, .wait readable, .read (.received []), .write [] (.accepted 0), .forceClose,
    .tasksDone, .wait timeout, .runTask (.accepted 0)]

/-- The end of the stream on a connected connection leaves it connected, so that
a forced close closes it again. -/
theorem closed_twice :
    (∃ w, run step served (abrupt.take 3) = some w ∧ w.closes = 1 ∧ w.conn.isConnected = true) ∧
      ∃ w, run step served abrupt = some w ∧ w.notified = 2 ∧ ¬ClosedOnce w := by
  constructor
  · exact ⟨_, rfl, rfl, rfl⟩
  · exact ⟨_, rfl, rfl, fun h => absurd h.notified (by decide)⟩

end KKNet.ConnectionClose
