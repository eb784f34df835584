import KKNet.ClientConnector
import KKNet.ConnectionClose

/-!
# Clients

Translation of `reactor/Client.cpp`: the client, its connector and its
connections on one loop. The connector calls the client back with the socket it
established, and the client makes a connection of it. A connection calls the
client back at its close only where a close callback is set. Connections and
their handlers have one name; their destructors play no part here.
-/

namespace KKNet.Client

open PollSelects Connections Runs
open ClientConnector (Answer)

/-- A connection of the client. -/
structure Link where
  /-- The connection. -/
  conn : Connection
  /-- Its descriptor. -/
  fd_ : ℤ
  /-- `handleClose` has run. -/
  closed : Bool

/-- The client, its connector and its connections. -/
structure World where
  /-- The connector, with the loop and its poller. -/
  connector_ : ClientConnector.World
  connectionCallback_ : Bool
  messageCallback_ : Bool
  writeCompleteCallback_ : Bool
  retry_ : Bool
  connect_ : Bool
  /-- The connection of the client, by name. -/
  connection_ : Option ℕ
  /-- The connections made so far. -/
  conns : ℕ → Option Link
  /-- The tasks of connections in the queue of the loop. -/
  tasks_ : List (ℕ × Task)

namespace World

variable (w : World)

/-- A client that was just constructed; `sockfd` is what the memory of the connector's
`sockfd_` held. -/
def fresh (sockfd : ℤ) (connectionCallback messageCallback writeCompleteCallback : Bool) : World :=
  ⟨.fresh sockfd, connectionCallback, messageCallback, writeCompleteCallback, false, true, none,
    fun _ => none, []⟩

/-- A change of the poller. -/
def setPoll (p : PollSelect) : World :=
  { w with connector_ := { w.connector_ with poll_ := p } }

/-- A change of one connection. -/
def setLink (c : ℕ) (k : Link) : World := { w with conns := Function.update w.conns c (some k) }

/-- `Client::removeConnection`; the kernel answers `a` to the `connect` of a restart. -/
def removeConnection (c : ℕ) (a : Answer) (h : ℕ) : World :=
  let w' := { w with connection_ := none, tasks_ := w.tasks_ ++ [(c, .connectDestroyed)] }
  if w'.retry_ ∧ w'.connect_ then { w' with connector_ := w'.connector_.restart a h } else w'

/-- An effect of a member function of the connection `c`. -/
def apply (c : ℕ) (k : Link) (a : Answer) (h : ℕ) (w : World) : Effect → World
  | .addFd => { w with connector_ := { w.connector_ with
      poll_ := w.connector_.poll_.addFd k.fd_ c, foreign := c :: w.connector_.foreign } }
  | .setEvent type => w.setPoll (w.connector_.poll_.setEvent k.fd_ type).1
  | .deleteEvent type => w.setPoll (w.connector_.poll_.deleteEvent k.fd_ type).1
  | .deleteAllEvent => w.setPoll (w.connector_.poll_.deleteAllEvent k.fd_)
  | .deleteFd => w.setPoll (w.connector_.poll_.deleteFd k.fd_).1
  | .queueInLoop task => { w with tasks_ := w.tasks_ ++ [(c, task)] }
  | .runInLoop task => { w with tasks_ := w.tasks_ ++ [(c, task)] }
  | .closeCallback => w.removeConnection c a h
  | .written _ => w
  | .shutdownWrite => w
  | .connectionCallback => w
  | .messageCallback => w

/-- A member function of the connection `c` that returned. Only `handleClose` takes all
events off. -/
def returned (c : ℕ) (k : Link) (a : Answer) (h : ℕ) (out : Connection × List Effect) : World :=
  out.2.foldl (apply c k a h)
    (w.setLink c { k with conn := out.1, closed := k.closed || out.2.contains .deleteAllEvent })

/-- `Client::newConnection`, with the name `c` for the new connection; `writing` is what
the memory of its `writing_` held. No close callback is set on it. -/
def newConnection (sockfd : ℤ) (c : ℕ) (writing : Bool) : World :=
  let conn := Connection.construct writing
    ⟨w.connectionCallback_, w.messageCallback_, w.writeCompleteCallback_, false⟩
  let k : Link := ⟨conn, sockfd, false⟩
  { w with connection_ := some c }.returned c k .noSocket 0 conn.completeConnect

end World

/-- A call of a member function of a connection, by its loop or by the user. -/
inductive Op
  | handleRead (res : ReadResult)
  /-- `handleWrite`, with the memory behind the scratch array. -/
  | handleWrite (beyond : List UInt8) (res : WriteResult)
  | send (data : List UInt8)
  | shutdown
  | forceClose

/-- What the member function gives. -/
def Op.call (conn : Connection) : Op → Option (Connection × List Effect)
  | .handleRead res => (conn.handleRead res).toOption
  | .handleWrite beyond res => (conn.handleWrite beyond res).toOption
  | .send data => some (conn.send data)
  | .shutdown => some conn.shutdown
  | .forceClose => some conn.forceClose

/-- What a task bound to the connection gives; `res` is what the socket answers to a
`sendInLoop`. -/
def execute (conn : Connection) (res : WriteResult) : Task → Option (Connection × List Effect)
  | .sendInLoop data => (conn.sendInLoop data res).toOption
  | .shutdownInLoop => some conn.shutdownInLoop
  | .handleClose => some conn.handleClose
  | .connectDestroyed => some conn.connectDestroyed
  | .writeComplete => some (conn, [])

/-- A step of the client. -/
inductive Event
  /-- `Client::connect()`. -/
  | connect (inLoop : Bool) (a : Answer) (h : ℕ)
  /-- `Client::disconnect()`. -/
  | disconnect
  /-- `Client::stop()`. -/
  | stop
  /-- `Client::enableRetry()`. -/
  | enableRetry
  /-- A write event of the connector; a connection it establishes is called `c`. -/
  | handleWrite (err : Bool) (c : ℕ) (writing : Bool)
  /-- Any other event of the connector on its loop. -/
  | connector (e : ClientConnector.Event)
  /-- A call of a member function of the connection `c`. -/
  | conn (c : ℕ) (op : Op) (a : Answer) (h : ℕ)
  /-- A task of a connection runs; one that was handed over on the loop's own thread runs
  at once, so any may be the next. -/
  | task (i : ℕ) (res : WriteResult) (a : Answer) (h : ℕ)

/-- The event comes from the loop of the connector, or from other parts of the program. -/
def ofLoop : ClientConnector.Event → Bool
  | .handleError => true
  | .timer _ _ _ => true
  | .swap => true
  | .runTask _ _ => true
  | .release _ => true
  | .poll _ => true
  | _ => false

/-- One step; there is none where the event cannot happen or the code faults. -/
def step (w : World) : Event → Option World
  | .connect inLoop a h => (ClientConnector.step w.connector_ (.start inLoop a h)).map fun k =>
    { w with connect_ := true, connector_ := k }
  | .disconnect =>
    let w' := { w with connect_ := false }
    match w.connection_ with
    | none => some w'
    | some c => (w.conns c).map fun k => w'.returned c k .noSocket 0 k.conn.shutdown
  | .stop => (ClientConnector.step w.connector_ .stop).map fun k =>
    { w with connect_ := false, connector_ := k }
  | .enableRetry => some { w with retry_ := true }
  | .handleWrite err c writing =>
    if c ∉ w.connector_.created ∧ c ∉ w.connector_.foreign ∧ (w.conns c).isNone then
      (ClientConnector.step w.connector_ (.handleWrite err)).map fun k =>
        let w' := { w with connector_ := k }
        if w.connector_.state_ = .kConnecting ∧ err = false ∧ w.connector_.connect_ then
          w'.newConnection k.sockfd_ c writing
        else w'
    else none
  | .connector e =>
    if ofLoop e then
      (ClientConnector.step w.connector_ e).map fun k => { w with connector_ := k }
    else none
  | .conn c op a h =>
    if w.connector_.Admits a h then do
      let k ← w.conns c
      let out ← op.call k.conn
      pure (w.returned c k a h out)
    else none
  | .task i res a h =>
    if w.connector_.Admits a h then do
      let (c, task) ← w.tasks_[i]?
      let k ← w.conns c
      let out ← execute k.conn res task
      pure ({ w with tasks_ := w.tasks_.eraseIdx i }.returned c k a h out)
    else none

/-- `Client::isConnected`. -/
def World.isConnected (w : World) : Bool := w.connector_.state_ = .kConnected

end KKNet.Client
