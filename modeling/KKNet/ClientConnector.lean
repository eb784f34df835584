import KKNet.PollRegistry

/-!
# The connector of a client

Translation of `reactor/ClientConnector.cpp` with the parts of its loop that it
uses: the poller, the task queue and the timers. The kernel hands out the number
of a socket again once the socket is closed, so every socket `connect` creates
has an entry of its own in a ledger, the newest first.
-/

namespace KKNet.ClientConnector

open OrderedSets PollSelects PollRegistry Runs

/-- `ClientConnector::States`. -/
inductive State
  | kDisconnected
  | kConnecting
  | kConnected
  deriving DecidableEq

/-- The values of `errno` that `connect` distinguishes. -/
inductive Errno
  /-- The connection is established at once. -/
  | zero
  | EINPROGRESS
  | EINTR
  | EISCONN
  | EAGAIN
  | EADDRINUSE
  | EADDRNOTAVAIL
  | ECONNREFUSED
  | ENETUNREACH
  /-- Any other value. -/
  | other
  deriving DecidableEq

/-- What the kernel answers to `connect`. -/
inductive Answer
  /-- No socket is created; connecting descriptor `-1` then fails with `EBADF`. -/
  | noSocket
  /-- A socket is created, and connecting it gives this value. -/
  | socket (fd : ℤ) (errno : Errno)
  deriving DecidableEq

/-- A function bound to the connector and handed to its loop. -/
inductive Task
  | startInLoop
  | stopInLoop
  | resetChannel
  deriving DecidableEq

/-- A socket that `connect` created. -/
structure Socket where
  /-- Its descriptor. -/
  fd : ℤ
  /-- How often it was closed by the connector. -/
  closes : ℕ
  /-- How often it was handed to `newConnectionCallback_`. -/
  hands : ℕ
  /-- Its new owner closed it. -/
  released : Bool
  deriving DecidableEq

/-- The socket holds its descriptor. -/
def Socket.isOpen (s : Socket) : Bool := s.closes = 0 && !s.released

/-- The socket was neither closed nor handed over. -/
def Socket.pending (s : Socket) : Bool := s.closes + s.hands = 0

/-- What happens to a descriptor happens to the newest socket that has it. -/
def newest (fd : ℤ) (change : Socket → Socket) : List Socket → List Socket
  | [] => []
  | s :: sockets => if s.fd = fd then change s :: sockets else s :: newest fd change sockets

/-- `kInitRetryDelayMs`. -/
def kInitRetryDelayMs : ℕ := 500

/-- `kMaxRetryDelayMs`. -/
def kMaxRetryDelayMs : ℕ := 30 * 1000

/-- The connector with its loop and its sockets. -/
structure World where
  connect_ : Bool
  state_ : State
  /-- The constructor leaves this unset. -/
  sockfd_ : ℤ
  /-- The handler it owns, by name. -/
  handler_ : Option ℕ
  retryDelayMs_ : ℕ
  /-- The poller of the loop. -/
  poll_ : PollSelect
  /-- The task queue of the loop. -/
  tasks_ : List Task
  /-- The rest of the batch of tasks that runs. -/
  batch : List Task
  /-- The pending retry timers, by their delay. -/
  timers : List ℕ
  /-- The sockets `connect` created. -/
  sockets : List Socket
  /-- The handlers `connecting` created. -/
  created : List ℕ
  /-- The handlers others registered. -/
  foreign : List ℕ

/-- A connector that was just constructed; `sockfd` is what the memory of `sockfd_`
held. -/
def World.fresh (sockfd : ℤ) : World :=
  ⟨false, .kDisconnected, sockfd, none, kInitRetryDelayMs, ⟨OrderedSet.empty, 0⟩, [], [], [], [], [],
    []⟩

namespace World

variable (w : World)

/-- `socket::close`. -/
def close (fd : ℤ) : World :=
  { w with sockets := newest fd (fun s => { s with closes := s.closes + 1 }) w.sockets }

/-- `newConnectionCallback_`. -/
def newConnectionCallback (fd : ℤ) : World :=
  { w with sockets := newest fd (fun s => { s with hands := s.hands + 1 }) w.sockets }

/-- `loop_->queueInLoop`. -/
def queueInLoop (t : Task) : World := { w with tasks_ := w.tasks_ ++ [t] }

/-- `ClientConnector::connecting`, with the name of the new handler. -/
def connecting (h : ℕ) : World := { w with
  state_ := .kConnecting
  handler_ := some h
  created := h :: w.created
  poll_ := ((w.poll_.addFd w.sockfd_ h).setEvent w.sockfd_ .kWrite).1 }

/-- `ClientConnector::retry`. -/
def retry : World :=
  let w' := { w.close w.sockfd_ with state_ := .kDisconnected }
  if w'.connect_ then { w' with
    timers := w'.timers ++ [w'.retryDelayMs_]
    retryDelayMs_ := min (w'.retryDelayMs_ * 2) kMaxRetryDelayMs }
  else w'

/-- `ClientConnector::connect`. -/
def connect (a : Answer) (h : ℕ) : World :=
  match a with
  | .noSocket => { w with sockfd_ := -1 } -- closing `-1` does nothing
  | .socket fd errno =>
    let w' := { w with sockfd_ := fd, sockets := ⟨fd, 0, 0, false⟩ :: w.sockets }
    match errno with
    | .zero | .EINPROGRESS | .EINTR | .EISCONN => w'.connecting h
    | .EAGAIN | .EADDRINUSE | .EADDRNOTAVAIL | .ECONNREFUSED | .ENETUNREACH => w'.retry
    | .other => w'.close fd

/-- `ClientConnector::startInLoop`. -/
def startInLoop (a : Answer) (h : ℕ) : World := if w.connect_ then w.connect a h else w

/-- `ClientConnector::start`; `inLoop` tells whether the loop's own thread calls it. -/
def start (inLoop : Bool) (a : Answer) (h : ℕ) : World :=
  let w' := { w with connect_ := true }
  if inLoop then w'.startInLoop a h else w'.queueInLoop .startInLoop

/-- `ClientConnector::restart`. -/
def restart (a : Answer) (h : ℕ) : World :=
  { w with
    state_ := .kDisconnected
    retryDelayMs_ := kInitRetryDelayMs
    connect_ := true }.startInLoop a h

/-- `ClientConnector::removeAndResetChannel`. -/
def removeAndResetChannel : World :=
  { w with poll_ := (w.poll_.deleteFd w.sockfd_).1 }.queueInLoop .resetChannel

/-- `ClientConnector::resetChannel`. -/
def resetChannel : World := { w with handler_ := none }

/-- `ClientConnector::handleWrite`; `err` tells whether `getSocketError` finds one. -/
def handleWrite (err : Bool) : World :=
  if w.state_ = .kConnecting then
    let w' := w.removeAndResetChannel
    if err then w'.retry
    else
      let w' := { w' with state_ := .kConnected }
      if w'.connect_ then w'.newConnectionCallback w'.sockfd_ else w'.close w'.sockfd_
  else w

/-- `ClientConnector::handleError`. -/
def handleError : World :=
  if w.state_ = .kConnecting then w.removeAndResetChannel.retry else w

/-- `ClientConnector::stop`. -/
def stop : World := { w with connect_ := false }.queueInLoop .stopInLoop

/-- `ClientConnector::stopInLoop`. -/
def stopInLoop : World :=
  if w.state_ = .kConnecting then
    let w' := { w with state_ := .kDisconnected }.removeAndResetChannel
    w'.close w'.sockfd_
  else w

/-- A task runs. -/
def execute (t : Task) (a : Answer) (h : ℕ) : World :=
  match t with
  | .startInLoop => w.startInLoop a h
  | .stopInLoop => w.stopInLoop
  | .resetChannel => w.resetChannel

/-- What the kernel and the allocator can give: a socket has a descriptor that is not
open, a handler its own name. -/
def Admits (a : Answer) (h : ℕ) : Prop :=
  (∀ fd errno, a = .socket fd errno → 0 ≤ fd ∧ ∀ s ∈ w.sockets, s.isOpen = true → s.fd ≠ fd) ∧
    h ∉ w.created ∧ h ∉ w.foreign

instance (a : Answer) (h : ℕ) : Decidable (w.Admits a h) :=
  match a with
  | .noSocket => decidable_of_iff (h ∉ w.created ∧ h ∉ w.foreign)
      ⟨fun hh => ⟨fun _ _ heq => (by cases heq), hh⟩, fun hh => hh.2⟩
  | .socket fd _ => decidable_of_iff
      ((0 ≤ fd ∧ ∀ s ∈ w.sockets, s.isOpen = true → s.fd ≠ fd) ∧ h ∉ w.created ∧ h ∉ w.foreign)
      ⟨fun hh => ⟨fun _ _ heq => (by cases heq; exact hh.1), hh.2⟩, fun hh => ⟨hh.1 fd _ rfl, hh.2⟩⟩

end World

/-- A call of the connector, by its loop or by another thread; each is one step. The
callbacks of the user come last in the functions that invoke them, so what they call
follows as events of its own. (A `start` from inside `newConnectionCallback_` destroys
the handler whose `handleWrite` has called it.) -/
inductive Event
  /-- `start()`. -/
  | start (inLoop : Bool) (a : Answer) (h : ℕ)
  /-- `restart()`. -/
  | restart (a : Answer) (h : ℕ)
  /-- `stop()`. -/
  | stop
  /-- A write event. -/
  | handleWrite (err : Bool)
  /-- An error event. -/
  | handleError
  /-- A retry timer expires. -/
  | timer (i : ℕ) (a : Answer) (h : ℕ)
  /-- The loop takes the queue. -/
  | swap
  /-- The next task runs. -/
  | runTask (a : Answer) (h : ℕ)
  /-- The owner of a socket that was handed over closes it. -/
  | release (fd : ℤ)
  /-- Another part of the program calls the poller, on a descriptor of its own. -/
  | poll (call : Call)

/-- One step; there is none where the event cannot happen. Events and timers come
before the batch of the round. -/
def step (w : World) : Event → Option World
  | .start inLoop a h => if w.Admits a h then some (w.start inLoop a h) else none
  | .restart a h => if w.Admits a h then some (w.restart a h) else none
  | .stop => some w.stop
  | .handleWrite err => if w.batch = [] then some (w.handleWrite err) else none
  | .handleError => if w.batch = [] then some w.handleError else none
  | .timer i a h =>
    if w.batch = [] ∧ i < w.timers.length ∧ w.Admits a h then
      some ({ w with timers := w.timers.eraseIdx i }.startInLoop a h)
    else none
  | .swap => if w.batch = [] then some { w with batch := w.tasks_, tasks_ := [] } else none
  | .runTask a h =>
    match w.batch with
    | [] => none
    | t :: batch => if w.Admits a h then some ({ w with batch := batch }.execute t a h) else none
  | .release fd =>
    if ∃ s ∈ w.sockets, s.fd = fd ∧ s.hands = 1 ∧ s.released = false then
      some { w with sockets := w.sockets.map fun s =>
        if s.fd = fd ∧ s.hands = 1 then { s with released := true } else s }
    else none
  | .poll call =>
    if (∀ s ∈ w.sockets, s.pending = true → s.fd ≠ call.fd) ∧ ∀ h ∈ call.handlers, h ∉ w.created then
      some { w with poll_ := (perform w.poll_ call).1, foreign := call.handlers ++ w.foreign }
    else none

/-- The step runs `startInLoop` with `connect_` set: the retry timers that are pending
then, and what the kernel answers to `connect`. -/
def launch (w : World) : Event → Option (List ℕ × Answer)
  | .start true a _ => some (w.timers, a)
  | .restart a _ => some (w.timers, a)
  | .timer i a _ => if w.connect_ then some (w.timers.eraseIdx i, a) else none
  | .runTask a _ =>
    if w.connect_ ∧ w.batch.head? = some .startInLoop then some (w.timers, a) else none
  | _ => none

/-- The connector when `connect` is called. -/
structure Prepared (w : World) (left : List ℕ) (w₁ : World) : Prop where
  /-- Connecting is wanted. -/
  connect_ : w₁.connect_ = true
  /-- `restart` resets the state before. -/
  state_ : w₁.state_ = w.state_ ∨ w₁.state_ = .kDisconnected
  /-- The timer that expired is gone. -/
  timers : w₁.timers = left
  /-- No timer is new. -/
  fewer : left.length ≤ w.timers.length
  /-- The sockets are those the step finds. -/
  sockets : w₁.sockets = w.sockets
  /-- So is the poller. -/
  poll_ : w₁.poll_ = w.poll_
  /-- So are the handlers. -/
  created : w₁.created = w.created
  /-- So are those of others. -/
  foreign : w₁.foreign = w.foreign

/-- Where there is no attempt in progress, there is none when `connect` is called. -/
theorem Prepared.idle {w w₁ : World} {timers : List ℕ} (h : Prepared w timers w₁)
    (hidle : w.state_ ≠ .kConnecting) : w₁.state_ ≠ .kConnecting := by
  rcases h.state_ with hsame | hreset
  · rw [hsame]
    exact hidle
  · rw [hreset]
    exact fun hs => by cases hs

/-- A step that launches an attempt runs `connect`. -/
theorem launch_step {w w' : World} {e : Event} {timers : List ℕ} {a : Answer}
    (he : step w e = some w') (hlaunch : launch w e = some (timers, a)) :
    ∃ w₁ h, w.Admits a h ∧ w' = w₁.connect a h ∧ Prepared w timers w₁ := by
  unfold step at he
  unfold launch at hlaunch
  cases e with
  | start inLoop answer h =>
    cases inLoop with
    | false => cases hlaunch
    | true =>
      cases hlaunch
      dsimp only at he
      split at he
      case isTrue hadmits =>
        cases he
        exact ⟨_, h, hadmits, rfl, rfl, Or.inl rfl, rfl, le_rfl, rfl, rfl, rfl, rfl⟩
      case isFalse => cases he
  | restart answer h =>
    cases hlaunch
    dsimp only at he
    split at he
    case isTrue hadmits =>
      cases he
      exact ⟨_, h, hadmits, rfl, rfl, Or.inr rfl, rfl, le_rfl, rfl, rfl, rfl, rfl⟩
    case isFalse => cases he
  | timer i answer h =>
    dsimp only at he hlaunch
    split at hlaunch
    case isTrue hconnect =>
      cases hlaunch
      split at he
      case isTrue hguard =>
        cases he
        refine ⟨{ w with timers := w.timers.eraseIdx i }, h, hguard.2.2, ?_, hconnect, Or.inl rfl, rfl,
          (List.eraseIdx_sublist w.timers i).length_le, rfl, rfl, rfl, rfl⟩
        unfold World.startInLoop
        rw [if_pos hconnect]
      case isFalse => cases he
    case isFalse => cases hlaunch
  | runTask answer h =>
    dsimp only at he hlaunch
    split at hlaunch
    case isTrue hguard =>
      cases hlaunch
      obtain ⟨hconnect, hhead⟩ := hguard
      split at he
      case h_1 => cases he
      case h_2 t batch hbatch =>
        rw [hbatch] at hhead
        cases hhead
        split at he
        case isTrue hadmits =>
          cases he
          refine ⟨{ w with batch := batch }, h, hadmits, ?_, hconnect, Or.inl rfl, rfl, le_rfl, rfl,
            rfl, rfl, rfl⟩
          unfold World.execute World.startInLoop
          dsimp only
          rw [if_pos hconnect]
        case isFalse => cases he
    case isFalse => cases hlaunch
  | stop => cases hlaunch
  | handleWrite err => cases hlaunch
  | handleError => cases hlaunch
  | swap => cases hlaunch
  | release fd => cases hlaunch
  | poll call => cases hlaunch

/-- The step leaves the attempt, the sockets and the handlers alone. -/
structure Kept (w w' : World) : Prop where
  state_ : w'.state_ = w.state_
  sockfd_ : w'.sockfd_ = w.sockfd_
  handler_ : w'.handler_ = w.handler_
  poll_ : w'.poll_ = w.poll_
  sockets : w'.sockets = w.sockets
  created : w'.created = w.created
  foreign : w'.foreign = w.foreign
  /-- No timer is new. -/
  timers : w'.timers.Sublist w.timers

/-- What a step can do that does not run `connect`. -/
inductive Unlaunched (w : World) : Event → World → Prop
  | kept (e : Event) (w' : World) (hkept : Kept w w') : Unlaunched w e w'
  | handleWrite (err : Bool) : Unlaunched w (.handleWrite err) (w.handleWrite err)
  | handleError : Unlaunched w .handleError w.handleError
  | stopInLoop (a : Answer) (h : ℕ) (batch : List Task) :
      Unlaunched w (.runTask a h) (World.stopInLoop { w with batch := batch })
  | resetChannel (a : Answer) (h : ℕ) (batch : List Task)
      (hhead : w.batch.head? = some .resetChannel) :
      Unlaunched w (.runTask a h) (World.resetChannel { w with batch := batch })
  | release (fd : ℤ) : Unlaunched w (.release fd) { w with sockets := w.sockets.map fun s =>
      if s.fd = fd ∧ s.hands = 1 then { s with released := true } else s }
  | poll (call : Call) (hother : ∀ s ∈ w.sockets, s.pending = true → s.fd ≠ call.fd)
      (hfree : ∀ h ∈ call.handlers, h ∉ w.created) : Unlaunched w (.poll call) { w with
        poll_ := (perform w.poll_ call).1, foreign := call.handlers ++ w.foreign }

/-- A step that does not launch an attempt is one of these. -/
theorem unlaunched_step {w w' : World} {e : Event} (he : step w e = some w')
    (hlaunch : launch w e = none) : Unlaunched w e w' := by
  have hrefl : (w.timers).Sublist w.timers := List.Sublist.refl _
  unfold step at he
  unfold launch at hlaunch
  cases e with
  | start inLoop a h =>
    cases inLoop with
    | true => cases hlaunch
    | false =>
      dsimp only at he
      split at he <;> cases he
      exact .kept _ _ ⟨rfl, rfl, rfl, rfl, rfl, rfl, rfl, hrefl⟩
  | restart a h => cases hlaunch
  | stop =>
    cases he
    exact .kept _ _ ⟨rfl, rfl, rfl, rfl, rfl, rfl, rfl, hrefl⟩
  | handleWrite err =>
    dsimp only at he
    split at he <;> cases he
    exact .handleWrite err
  | handleError =>
    dsimp only at he
    split at he <;> cases he
    exact .handleError
  | timer i a h =>
    dsimp only at he hlaunch
    split at hlaunch
    case isTrue => cases hlaunch
    case isFalse hconnect =>
      split at he <;> cases he
      unfold World.startInLoop
      rw [if_neg hconnect]
      exact .kept _ _ ⟨rfl, rfl, rfl, rfl, rfl, rfl, rfl, List.eraseIdx_sublist w.timers i⟩
  | swap =>
    dsimp only at he
    split at he <;> cases he
    exact .kept _ _ ⟨rfl, rfl, rfl, rfl, rfl, rfl, rfl, hrefl⟩
  | runTask a h =>
    dsimp only at he hlaunch
    split at he
    case h_1 => cases he
    case h_2 t batch hbatch =>
      rw [hbatch] at hlaunch
      split at he <;> cases he
      cases t with
      | startInLoop =>
        split at hlaunch
        case isTrue => cases hlaunch
        case isFalse hno =>
          have hconnect : ¬w.connect_ = true := fun hc => hno ⟨hc, rfl⟩
          unfold World.execute World.startInLoop
          dsimp only
          rw [if_neg hconnect]
          exact .kept _ _ ⟨rfl, rfl, rfl, rfl, rfl, rfl, rfl, hrefl⟩
      | stopInLoop => exact .stopInLoop a h batch
      | resetChannel => exact .resetChannel a h batch (by rw [hbatch]; rfl)
  | release fd =>
    dsimp only at he
    split at he <;> cases he
    exact .release fd
  | poll call =>
    dsimp only at he
    split at he
    case isTrue hguard =>
      cases he
      exact .poll call hguard.1 hguard.2
    case isFalse => cases he

/-- Running the batch keeps the rest. -/
theorem kept_batch (w : World) (batch : List Task) : Kept w { w with batch := batch } :=
  ⟨rfl, rfl, rfl, rfl, rfl, rfl, rfl, List.Sublist.refl _⟩

end KKNet.ClientConnector
