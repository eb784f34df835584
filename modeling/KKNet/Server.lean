import KKNet.Connection
import KKNet.PollRegistry

/-!
# Servers

Translation of `reactor/Server.cpp` with the parts of `Connection` and
`Eventloop` that decide how long a connection lives. One loop accepts, and each
connection lives on one of the loops of the pool. A connection is kept by copies
of its pointer: in `connections_`, in the tasks bound to it and in the hands of
the user. The pollers hold its handler without keeping it.
-/

namespace KKNet.Server

open OrderedSets PollSelects PollRegistry Runs
open Connections (State)

/-- A function that is bound to a connection and handed to a loop. -/
inductive Work
  /-- `Connection::completeConnect`. -/
  | completeConnect
  /-- `Server::removeConnectionInLoop`. -/
  | removeConnectionInLoop
  /-- `Connection::connectDestroyed`. -/
  | connectDestroyed
  /-- `Connection::handleClose`. -/
  | handleClose
  /-- Any other, such as `sendInLoop` or a function of the user. -/
  | other
  deriving DecidableEq

/-- A task, which holds a copy of the pointer to its connection. -/
structure Task where
  /-- The function. -/
  work : Work
  /-- The connection. -/
  conn : ℕ
  deriving DecidableEq

/-- Where a loop is. -/
inductive Phase
  /-- It waits for events. -/
  | waiting
  /-- It calls `handleEvents`: the handler in progress and those still to come. -/
  | handling (current : Option ℕ) (due : List ℕ)
  /-- It runs a batch of tasks, which lives until the last has run. -/
  | running (done todo : List Task)

/-- The parts of `Eventloop` that hold connections or their handlers. -/
structure Loop where
  /-- The poller; the handler of a connection has the name of the connection. -/
  poll_ : PollSelect
  /-- Where the loop is. -/
  phase : Phase
  /-- The queue. -/
  tasks_ : List Task

/-- The tasks that have not run. -/
def Loop.pending (L : Loop) : List Task :=
  match L.phase with
  | .running _ todo => todo ++ L.tasks_
  | _ => L.tasks_

/-- The connections kept by tasks. -/
def Loop.holds (L : Loop) : List ℕ :=
  match L.phase with
  | .running done todo => (done ++ todo ++ L.tasks_).map Task.conn
  | _ => L.tasks_.map Task.conn

/-- The handlers whose events the loop handles in this round. -/
def Loop.due (L : Loop) : List ℕ :=
  match L.phase with
  | .handling current due => current.toList ++ due
  | _ => []

/-- A connection on one of `n` loops. -/
structure Conn (n : ℕ) where
  /-- The descriptor. -/
  fd_ : ℤ
  /-- The loop of the connection. -/
  loop_ : Fin n
  /-- The state. -/
  state_ : State
  /-- `connectDestroyed` has run. -/
  removed : Bool
  /-- The destructor has run. -/
  freed : Bool

/-- A server with its loops. -/
structure World (n : ℕ) where
  /-- `loop_`, the loop that accepts. -/
  base : Fin n
  /-- The loops of the pool. -/
  loops : Fin n → Loop
  /-- The connections made so far. -/
  conns : ℕ → Option (Conn n)
  /-- The registry of the server. -/
  connections_ : OrderedSet (Prod.fst : ℤ × ℕ → ℤ)
  /-- The copies of pointers that the user keeps. -/
  copies : List ℕ
  /-- The descriptors of connections that are open. -/
  descriptors : List ℤ
  /-- The handlers registered by other parts of the program. -/
  foreign : List ℕ

variable {n : ℕ}

/-- The connection after `handleClose` has looked at its state. -/
def Conn.closed (k : Conn n) : Conn n :=
  if k.state_ = .kDisconnecting then { k with state_ := .kDisconnected } else k

/-- A loop that was just constructed. -/
def Loop.fresh : Loop := ⟨⟨OrderedSet.empty, 0⟩, .waiting, []⟩

/-- A server that was just started. -/
def World.start (base : Fin n) : World n :=
  ⟨base, fun _ => .fresh, fun _ => none, OrderedSet.empty, [], [], []⟩

namespace World

variable (w : World n) (l : Fin n) (c : ℕ) (k : Conn n)

/-- The connection is kept. -/
def Referenced : Prop :=
  c ∈ w.connections_.items.map Prod.snd ∨ c ∈ w.copies ∨ ∃ l, c ∈ (w.loops l).holds

instance : Decidable (w.Referenced c) :=
  inferInstanceAs (Decidable (_ ∨ _ ∨ ∃ l, c ∈ (w.loops l).holds))

/-- A change of one loop. -/
def setLoop (L : Loop) : World n := { w with loops := Function.update w.loops l L }

/-- A change of one connection. -/
def setConn : World n := { w with conns := Function.update w.conns c (some k) }

/-- The loop that changed. -/
@[simp] theorem loops_setLoop (L : Loop) : (w.setLoop l L).loops l = L := by simp [setLoop]

/-- The other loops are left alone. -/
theorem loops_setLoop_of_ne {l' : Fin n} (h : l' ≠ l) (L : Loop) :
    (w.setLoop l L).loops l' = w.loops l' := by simp [setLoop, h]

/-- The connection that changed. -/
@[simp] theorem conns_setConn : (w.setConn c k).conns c = some k := by simp [setConn]

/-- The other connections are left alone. -/
theorem conns_setConn_of_ne {c' : ℕ} (h : c' ≠ c) : (w.setConn c k).conns c' = w.conns c' := by
  simp [setConn, h]

/-- A change of the poller of a loop. -/
def setPoll (p : PollSelect) : World n := w.setLoop l { w.loops l with poll_ := p }

/-- A change of where a loop is. -/
def setPhase (phase : Phase) : World n := w.setLoop l { w.loops l with phase := phase }

/-- `Eventloop::queueInLoop`. -/
def queueInLoop (t : Task) : World n :=
  w.setLoop l { w.loops l with tasks_ := (w.loops l).tasks_ ++ [t] }

/-- `Connection::completeConnect`. -/
def completeConnect : World n :=
  (w.setPoll k.loop_ (((w.loops k.loop_).poll_.addFd k.fd_ c).setEvent k.fd_ .kRead).1).setConn c
    { k with state_ := .kConnected }

/-- `Connection::connectDestroyed`. -/
def connectDestroyed : World n :=
  (w.setPoll k.loop_ ((w.loops k.loop_).poll_.deleteFd k.fd_).1).setConn c
    { k with removed := true }

/-- `Server::removeConnectionInLoop`. -/
def removeConnectionInLoop : World n :=
  { w with connections_ := w.connections_.erase k.fd_ }.queueInLoop k.loop_ ⟨.connectDestroyed, c⟩

/-- `Server::removeConnection`, called on the thread of the loop `l`. -/
def removeConnection : World n :=
  if l = w.base then w.removeConnectionInLoop c k
  else w.queueInLoop w.base ⟨.removeConnectionInLoop, c⟩

/-- `Connection::handleClose`, called on the thread of the loop `l`. -/
def handleClose : World n :=
  ((w.setPoll k.loop_ ((w.loops k.loop_).poll_.deleteAllEvent k.fd_)).setConn c
    k.closed).removeConnection l c k.closed

/-- A task runs on the loop `l`. -/
def execute (t : Task) : World n :=
  match t.work with
  | .completeConnect => w.completeConnect t.conn k
  | .removeConnectionInLoop => w.removeConnectionInLoop t.conn k
  | .connectDestroyed => w.connectDestroyed t.conn k
  | .handleClose => w.handleClose l t.conn k
  | .other => w

/-- `Server::newConnection`, with the name `c` for the new connection. -/
def newConnection (fd : ℤ) (ioLoop : Fin n) : World n :=
  let k : Conn n := ⟨fd, ioLoop, .kConnecting, false, false⟩
  let w' := { w.setConn c k with
    descriptors := fd :: w.descriptors
    connections_ := w.connections_.assign (fd, c) }
  if ioLoop = w.base then w'.completeConnect c k
  else w'.queueInLoop ioLoop ⟨.completeConnect, c⟩

/-- `Connection::~Connection`. -/
def destroy : World n :=
  { w.setConn c { k with freed := true } with descriptors := w.descriptors.erase k.fd_ }

end World

/-- A step of one of the threads. -/
inductive Event (n : ℕ)
  /-- The acceptor accepts the descriptor `fd`; the new connection is called `c`. -/
  | newConnection (fd : ℤ) (c : ℕ) (ioLoop : Fin n)
  /-- `PollSelect::wait` returns. -/
  | wait (l : Fin n) (sel : Selected)
  /-- The next `handleEvents` is called. -/
  | handleEvents (l : Fin n)
  /-- The connection whose events are handled meets the end of the stream or an error. -/
  | handleClose (l : Fin n)
  /-- The `handleEvents` in progress returns. -/
  | handled (l : Fin n)
  /-- `runTasks` takes the queue. -/
  | swap (l : Fin n)
  /-- The next task of the batch runs. -/
  | runTask (l : Fin n)
  /-- The batch is destroyed. -/
  | tasksDone (l : Fin n)
  /-- Any other call on the poller of a loop, by a connection, the loop itself or the user. -/
  | poll (l : Fin n) (call : Call)
  /-- `Connection::shutdown`. -/
  | shutdown (c : ℕ)
  /-- `Connection::forceClose`. -/
  | forceClose (c : ℕ)
  /-- A function bound to the connection is queued, by one of its own or by the user. -/
  | queueInLoop (l : Fin n) (c : ℕ)
  /-- The user copies a pointer. -/
  | keep (c : ℕ)
  /-- The user drops a copy. -/
  | drop (c : ℕ)
  /-- The last copy went, at some time before. -/
  | destroy (c : ℕ)

/-- One step; there is none where the step cannot happen, or `wait` follows a null
entry. A new connection has a descriptor that is not open, and a handler of its own. -/
def step (w : World n) : Event n → Option (World n)
  | .newConnection fd c ioLoop =>
    if fd ∉ w.descriptors ∧ c ∉ w.foreign ∧ (w.conns c).isNone then
      some (w.newConnection c fd ioLoop)
    else none
  | .wait l sel =>
    match (w.loops l).phase with
    | .waiting => ((w.loops l).poll_.wait sel).map fun srevents =>
      w.setPhase l (.handling none (if sel.n > 0 then srevents.map Prod.fst else []))
    | _ => none
  | .handleEvents l =>
    match (w.loops l).phase with
    | .handling none (h :: due) => some (w.setPhase l (.handling (some h) due))
    | _ => none
  | .handleClose l =>
    match (w.loops l).phase with
    | .handling (some c) _ => (w.conns c).map (w.handleClose l c)
    | _ => none
  | .handled l =>
    match (w.loops l).phase with
    | .handling (some _) due => some (w.setPhase l (.handling none due))
    | _ => none
  | .swap l =>
    match (w.loops l).phase with
    | .handling none [] =>
      some (w.setLoop l { w.loops l with phase := .running [] (w.loops l).tasks_, tasks_ := [] })
    | _ => none
  | .runTask l =>
    match (w.loops l).phase with
    | .running done (t :: todo) => (w.conns t.conn).map fun k =>
      (w.setPhase l (.running (done ++ [t]) todo)).execute l k t
    | _ => none
  | .tasksDone l =>
    match (w.loops l).phase with
    | .running _ [] => some (w.setPhase l .waiting)
    | _ => none
  | .poll l call =>
    if ∀ h ∈ call.handlers, (w.conns h).isNone then
      some { w.setPoll l (perform (w.loops l).poll_ call).1 with
        foreign := call.handlers ++ w.foreign }
    else none
  | .shutdown c =>
    if w.Referenced c then
      (w.conns c).map fun k =>
        if k.state_ = .kConnected then w.setConn c { k with state_ := .kDisconnecting } else w
    else none
  | .forceClose c =>
    if w.Referenced c then
      (w.conns c).map fun k =>
        if k.state_ = .kConnected then
          (w.setConn c { k with state_ := .kDisconnecting }).queueInLoop k.loop_ ⟨.handleClose, c⟩
        else w
    else none
  | .queueInLoop l c => if w.Referenced c then some (w.queueInLoop l ⟨.other, c⟩) else none
  | .keep c => if w.Referenced c then some { w with copies := c :: w.copies } else none
  | .drop c => if c ∈ w.copies then some { w with copies := w.copies.erase c } else none
  | .destroy c =>
    if w.Referenced c then none
    else (w.conns c).bind fun k => if k.freed then none else some (w.destroy c k)

end KKNet.Server
