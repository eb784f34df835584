import KKNet.BlockBuffer
import KKNet.PollSelect

/-!
# Connections

Translation of `reactor/Connection.cpp`. A member function takes the
connection and what the socket answers, and gives the connection afterwards
with the list of what it did outside itself, in order: calls on the loop and
its poller, bytes handed to the socket, and user callbacks.
-/

namespace KKNet.Connections

open BlockBuffer PollSelects Results

/-- `Connection::State`. -/
inductive State
  | kDisconnected
  | kConnecting
  | kConnected
  | kDisconnecting
  deriving DecidableEq

/-- The values of `errno` the source distinguishes. -/
inductive Errno
  | EAGAIN
  | EPIPE
  | ECONNRESET
  /-- Any other value. -/
  | other
  deriving DecidableEq

/-- What `socket::write` answers. -/
inductive WriteResult
  /-- It takes this many bytes, if it is offered so many. -/
  | accepted (n : ℕ)
  /-- It returns `-1`. -/
  | failed (errno : Errno)
  deriving DecidableEq

/-- What `readFd` meets. -/
inductive ReadResult
  /-- These bytes wait on the descriptor; none at the end of the stream. -/
  | received (avail : List UInt8)
  /-- `readv` fails. The source then returns nothing, so the caller sees an
  arbitrary `ret`. -/
  | failed (errno : Errno) (ret : ℤ)
  deriving DecidableEq

/-- A function bound to the connection and handed to a loop. -/
inductive Task
  | sendInLoop (data : List UInt8)
  | shutdownInLoop
  | handleClose
  | connectDestroyed
  | writeComplete
  deriving DecidableEq

/-- What a member function does outside the connection. -/
inductive Effect
  /-- `loop_->addFd(fd_, &eventHandler_)`. -/
  | addFd
  /-- `loop_->setEvent(fd_, type)`. -/
  | setEvent (type : EventType)
  /-- `loop_->deleteEvent(fd_, type)`. -/
  | deleteEvent (type : EventType)
  /-- `loop_->deleteAllEvent(fd_)`. -/
  | deleteAllEvent
  /-- `loop_->deleteFd(fd_)`. -/
  | deleteFd
  /-- Bytes taken by the socket. -/
  | written (bytes : List UInt8)
  /-- `socket::shutdownWrite(fd_)`. -/
  | shutdownWrite
  /-- `loop_->queueInLoop`. -/
  | queueInLoop (task : Task)
  /-- `loop_->runInLoop`. -/
  | runInLoop (task : Task)
  /-- `connectionCallback_`. -/
  | connectionCallback
  /-- `messageCallback_`. -/
  | messageCallback
  /-- `closeCallback_`. -/
  | closeCallback
  deriving DecidableEq

/-- The fields of `Connection` its member functions use. A callback is
represented by whether it is set. -/
structure Connection where
  state_ : State
  reading_ : Bool
  /-- The constructor leaves this unset. -/
  writing_ : Bool
  /-- Receive buffer. -/
  inputBuffer_ : KBuffer
  /-- Send buffer. -/
  outputBuffer_ : KBuffer
  connectionCallback_ : Bool
  messageCallback_ : Bool
  writeCompleteCallback_ : Bool
  closeCallback_ : Bool

/-- The callbacks that are set on a connection before `completeConnect`. -/
structure Callbacks where
  connectionCallback : Bool
  messageCallback : Bool
  writeCompleteCallback : Bool
  closeCallback : Bool

namespace Connection

/-- `Connection::Connection`, followed by the setters of the callbacks. `writing`
is what the memory of `writing_` held. -/
def construct (writing : Bool) (set : Callbacks) : Connection :=
  ⟨.kConnecting, false, writing, .fresh, .fresh, set.connectionCallback, set.messageCallback,
    set.writeCompleteCallback, set.closeCallback⟩

/-- `isConnected`. -/
def isConnected (c : Connection) : Bool := c.state_ = .kConnected

/-- `isWriting`. -/
def isWriting (c : Connection) : Bool := c.writing_

/-- `enableReading`. -/
def enableReading (c : Connection) : Connection × List Effect :=
  ({ c with reading_ := true }, [.setEvent .kRead])

/-- `enableWriting`. -/
def enableWriting (c : Connection) : Connection × List Effect :=
  ({ c with writing_ := true }, [.setEvent .kWrite])

/-- `disableWriting`. -/
def disableWriting (c : Connection) : Connection × List Effect :=
  ({ c with writing_ := false }, [.deleteEvent .kWrite])

/-- `completeConnect`. -/
def completeConnect (c : Connection) : Connection × List Effect :=
  let c' := c.enableReading
  ({ c'.1 with state_ := .kConnected },
    .addFd :: c'.2 ++ if c.connectionCallback_ then [.connectionCallback] else [])

/-- `handleClose`. -/
def handleClose (c : Connection) : Connection × List Effect :=
  (if c.state_ = .kDisconnecting then { c with state_ := .kDisconnected } else c,
    .deleteAllEvent :: if c.closeCallback_ then [.closeCallback] else [])

/-- `handleRead` after `readFd` returned `n`. -/
def afterRead (c : Connection) (n : ℤ) (errno : Errno) : Connection × List Effect :=
  if n > 0 then (c, if c.messageCallback_ then [.messageCallback] else [])
  else if n = 0 then c.handleClose
  else if errno ≠ .EAGAIN then c.handleClose
  else (c, [])

/-- `handleRead`. -/
def handleRead (c : Connection) : ReadResult → Except Fault (Connection × List Effect)
  | .received avail => do
    let out ← c.inputBuffer_.readFd (some avail)
    pure (afterRead { c with inputBuffer_ := out.1 } out.2 .other)
  | .failed errno ret => pure (c.afterRead ret errno)

/-- `connectDestroyed`. -/
def connectDestroyed (c : Connection) : Connection × List Effect := (c, [.deleteFd])

/-- `shutdownInLoop`. -/
def shutdownInLoop (c : Connection) : Connection × List Effect :=
  (c, if c.isWriting then [] else [.shutdownWrite])

/-- `shutdown`. -/
def shutdown (c : Connection) : Connection × List Effect :=
  if c.state_ = .kConnected then
    ({ c with state_ := .kDisconnecting }, [.runInLoop .shutdownInLoop])
  else (c, [])

/-- `forceClose`. -/
def forceClose (c : Connection) : Connection × List Effect :=
  if c.state_ = .kConnected then
    ({ c with state_ := .kDisconnecting }, [.queueInLoop .handleClose])
  else (c, [])

/-- `send`. -/
def send (c : Connection) (data : List UInt8) : Connection × List Effect :=
  (c, [.runInLoop (.sendInLoop data)])

/-- The buffering block of `sendInLoop`: `rest` is what the socket did not take.
The count `write` returns is ignored. -/
def bufferRest (c : Connection) (rest : List UInt8) (done : List Effect) :
    Except Fault (Connection × List Effect) :=
  if rest.length > 0 then do
    let out ← c.outputBuffer_.write rest
    let c' := enableWriting { c with outputBuffer_ := out.1 }
    pure (c'.1, done ++ c'.2)
  else pure (c, done)

/-- `sendInLoop`. -/
def sendInLoop (c : Connection) (data : List UInt8) (res : WriteResult) :
    Except Fault (Connection × List Effect) :=
  if c.state_ = .kDisconnected then pure (c, [])
  else if c.writing_ = false ∧ c.outputBuffer_.getReadableSize = 0 then
    match res with
    | .accepted n =>
      c.bufferRest (data.drop n) (.written (data.take n) ::
        if (data.drop n).length = 0 ∧ c.writeCompleteCallback_ then [.queueInLoop .writeComplete]
        else [])
    | .failed errno =>
      if errno = .EPIPE ∨ errno = .ECONNRESET then pure (c, []) else c.bufferRest data []
  else pure (c, [])

/-- The end of `handleWrite`, when everything pending was taken. -/
def finishWrite (c : Connection) : Connection × List Effect :=
  let c' := c.disableWriting
  (c'.1, c'.2 ++ (if c'.1.writeCompleteCallback_ then [.queueInLoop .writeComplete] else []) ++
    if c'.1.state_ = .kDisconnecting then c'.1.shutdownInLoop.2 else [])

/-- `handleWrite`. `beyond` is the memory behind the scratch array of
`peekAllAsString`. -/
def handleWrite (c : Connection) (beyond : List UInt8) (res : WriteResult) :
    Except Fault (Connection × List Effect) :=
  if c.writing_ then do
    let data ← c.outputBuffer_.peekAllAsString beyond
    match res with
    | .accepted n =>
      if (data.take n).length > 0 then do
        let out ← c.outputBuffer_.retrieve (data.take n).length
        let c := { c with outputBuffer_ := out }
        let c' := if out.getReadableSize = 0 then c.finishWrite else (c, [])
        pure (c'.1, .written (data.take n) :: c'.2)
      else pure (c, [])
    | .failed _ => pure (c, [])
  else pure (c, [])

/-- A read that does not fault changes the receive buffer, and goes on with what
`readFd` returned. -/
theorem handleRead_eq {c : Connection} {res : ReadResult} {out : Connection × List Effect}
    (h : c.handleRead res = .ok out) :
    ∃ s n errno, out = afterRead { c with inputBuffer_ := s } n errno := by
  cases res with
  | received avail =>
    obtain ⟨read, _, hout⟩ := ok_of_bind h
    cases hout
    exact ⟨read.1, read.2, .other, rfl⟩
  | failed errno ret =>
    cases h
    exact ⟨c.inputBuffer_, ret, errno, rfl⟩

variable {c : Connection} {out : Connection × List Effect}

/-- Buffering the rest enables writing, or there is nothing to buffer. -/
theorem bufferRest_cases {rest : List UInt8} {done : List Effect}
    (h : c.bufferRest rest done = .ok out) :
    out = (c, done) ∨
      ∃ s, out = ({ c with outputBuffer_ := s, writing_ := true }, done ++ [.setEvent .kWrite]) := by
  unfold bufferRest at h
  by_cases hpos : rest.length > 0
  · rw [if_pos hpos] at h
    obtain ⟨written, _, hout⟩ := ok_of_bind h
    cases hout
    exact Or.inr ⟨written.1, rfl⟩
  · rw [if_neg hpos] at h
    cases h
    exact Or.inl rfl

/-- What `sendInLoop` does with the bytes the socket took. -/
def Handed (e : Effect) : Prop := (∃ bytes, e = .written bytes) ∨ e = .queueInLoop .writeComplete

/-- `sendInLoop` does nothing, or finds the connection idle, hands bytes to the socket
and buffers the rest. -/
theorem sendInLoop_cases {data : List UInt8} {res : WriteResult}
    (h : c.sendInLoop data res = .ok out) :
    out = (c, []) ∨ c.state_ ≠ .kDisconnected ∧
      (c.writing_ = false ∧ c.outputBuffer_.getReadableSize = 0) ∧
      ∃ rest done, c.bufferRest rest done = .ok out ∧ ∀ e ∈ done, Handed e := by
  unfold sendInLoop at h
  by_cases hs : c.state_ = .kDisconnected
  · rw [if_pos hs] at h
    cases h
    exact Or.inl rfl
  rw [if_neg hs] at h
  by_cases hidle : c.writing_ = false ∧ c.outputBuffer_.getReadableSize = 0
  · rw [if_pos hidle] at h
    cases res with
    | accepted n =>
      refine Or.inr ⟨hs, hidle, _, _, h, fun e he => ?_⟩
      rcases List.mem_cons.mp he with he | he
      · exact Or.inl ⟨_, he⟩
      · exact Or.inr (List.mem_singleton.mp (List.mem_ite_nil_right.mp he).2)
    | failed errno =>
      dsimp only at h
      by_cases hfault : errno = .EPIPE ∨ errno = .ECONNRESET
      · rw [if_pos hfault] at h
        cases h
        exact Or.inl rfl
      · rw [if_neg hfault] at h
        exact Or.inr ⟨hs, hidle, _, _, h, fun e he => absurd he List.not_mem_nil⟩
  · rw [if_neg hidle] at h
    cases h
    exact Or.inl rfl

/-- `handleWrite` does nothing, or hands bytes to the socket: with writing enabled, and
all that was pending or some of it. -/
theorem handleWrite_cases {beyond : List UInt8} {res : WriteResult}
    (h : c.handleWrite beyond res = .ok out) :
    out = (c, []) ∨ c.writing_ = true ∧ ∃ s bytes,
      s.getReadableSize = 0 ∧ out = ((finishWrite { c with outputBuffer_ := s }).1,
        .written bytes :: (finishWrite { c with outputBuffer_ := s }).2) ∨
      s.getReadableSize ≠ 0 ∧ out = ({ c with outputBuffer_ := s }, [.written bytes]) := by
  unfold handleWrite at h
  by_cases hw : c.writing_ = true
  · rw [if_pos hw] at h
    obtain ⟨data, _, h⟩ := ok_of_bind h
    cases res with
    | failed errno =>
      cases h
      exact Or.inl rfl
    | accepted n =>
      dsimp only at h
      by_cases hpos : (data.take n).length > 0
      · rw [if_pos hpos] at h
        obtain ⟨s, _, h⟩ := ok_of_bind h
        refine Or.inr ⟨hw, s, data.take n, ?_⟩
        by_cases hempty : s.getReadableSize = 0
        · rw [if_pos hempty] at h
          cases h
          exact Or.inl ⟨hempty, rfl⟩
        · rw [if_neg hempty] at h
          cases h
          exact Or.inr ⟨hempty, rfl⟩
      · rw [if_neg hpos] at h
        cases h
        exact Or.inl rfl
  · rw [if_neg hw] at h
    cases h
    exact Or.inl rfl

/-- After `readFd` the bytes are announced, the connection closes, or the read is tried
again later. -/
theorem afterRead_cases (c : Connection) (n : ℤ) (errno : Errno) :
    c.afterRead n errno = (c, if c.messageCallback_ then [.messageCallback] else []) ∨
      (n = 0 ∨ n < 0 ∧ errno ≠ .EAGAIN) ∧ c.afterRead n errno = c.handleClose ∨
      c.afterRead n errno = (c, []) := by
  unfold afterRead
  by_cases hpos : n > 0
  · rw [if_pos hpos]
    exact Or.inl rfl
  rw [if_neg hpos]
  by_cases hzero : n = 0
  · rw [if_pos hzero]
    exact Or.inr (Or.inl ⟨Or.inl hzero, rfl⟩)
  rw [if_neg hzero]
  by_cases herr : errno ≠ .EAGAIN
  · rw [if_pos herr]
    exact Or.inr (Or.inl ⟨Or.inr ⟨by omega, herr⟩, rfl⟩)
  · rw [if_neg herr]
    exact Or.inr (Or.inr rfl)

end Connection

end KKNet.Connections
