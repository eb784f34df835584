import KKNet.ConnectionClose
import KKNet.ConnectionStream

/-!
# Interest in write events

The flag `writing_`, the pending bytes of the send buffer and the interest in
write events at the poller should agree from `completeConnect` on. The
constructor leaves the flag unset, and `sendInLoop` sets it whether or not the
send buffer took the data; otherwise the three agree until the first close.
-/

namespace KKNet.ConnectionInterest

open BlockBuffer BlockQueue PollSelects Connections ConnectionStream Runs Results

/-- The connection with its poller. -/
abbrev World := ConnectionClose.World

/-- A call of a member function in the loop. -/
inductive Event
  | sendInLoop (data : List UInt8) (res : WriteResult)
  /-- `handleWrite`, with the memory behind the scratch array. -/
  | handleWrite (beyond : List UInt8) (res : WriteResult)
  | handleRead (res : ReadResult)
  | shutdown
  | shutdownInLoop
  | handleClose

/-- One call; there is none where the code faults. -/
def step (w : World) : Event → Option World
  | .sendInLoop data res => (w.conn.sendInLoop data res).toOption.map w.returned
  | .handleWrite beyond res => (w.conn.handleWrite beyond res).toOption.map w.returned
  | .handleRead res => (w.conn.handleRead res).toOption.map w.returned
  | .shutdown => some (w.returned w.conn.shutdown)
  | .shutdownInLoop => some (w.returned w.conn.shutdownInLoop)
  | .handleClose => some (w.returned w.conn.handleClose)

/-- The poller has interest in write events of the descriptor. -/
def Watching (w : World) : Prop := ∃ e, w.poll_.entry w.fd_ = some e ∧ e.write = true

/-- The flag is set exactly while bytes are pending, and exactly while the poller
has interest in write events. -/
structure WriteInterest (w : World) : Prop where
  /-- The flag agrees with the send buffer. -/
  pending : w.conn.writing_ = true ↔ 0 < w.conn.outputBuffer_.getReadableSize
  /-- The flag agrees with the poller. -/
  watching : w.conn.writing_ = true ↔ Watching w

/-- What the socket leaves of the data to be buffered; nothing after a fault. -/
def left (data : List UInt8) : WriteResult → List UInt8
  | .accepted n => data.drop n
  | .failed errno => if errno = .EPIPE ∨ errno = .ECONNRESET then [] else data

/-- A send before the first close that finds the flag unset leaves no more than
passes the size test of the send buffer. -/
def Buffers (w : World) : Event → Prop
  | .sendInLoop data res => w.closes = 0 → w.conn.writing_ = false →
      Accepts w.conn.outputBuffer_ (left data res).length
  | _ => True

/-- What holds until the first close. -/
structure Open (w : World) : Prop where
  /-- The three agree. -/
  interest : WriteInterest w
  /-- The send buffer is a queue. -/
  queue : ∃ q, Represents w.conn.outputBuffer_ q
  /-- The descriptor is registered. -/
  registered : ∃ e, w.poll_.entry w.fd_ = some e
  /-- The connection is not disconnected. -/
  connected : w.conn.state_ ≠ .kDisconnected

/-- Effects on neither the poller nor the count of closes. -/
def Neutral : Effect → Prop
  | .written _ => True
  | .shutdownWrite => True
  | .queueInLoop _ => True
  | .runInLoop _ => True
  | .connectionCallback => True
  | .messageCallback => True
  | _ => False

/-- The worlds have the same connection, poller and closes. -/
structure Same (w w' : World) : Prop where
  conn : w'.conn = w.conn
  poll_ : w'.poll_ = w.poll_
  fd_ : w'.fd_ = w.fd_
  closes : w'.closes = w.closes

variable {w w' : World} {c : Connection}

theorem neutral_nil : ∀ e ∈ ([] : List Effect), Neutral e :=
  fun _ he => absurd he List.not_mem_nil

theorem neutral_cons (e : Effect) (he : Neutral e) {effects : List Effect}
    (h : ∀ e ∈ effects, Neutral e) : ∀ e' ∈ e :: effects, Neutral e' :=
  List.forall_mem_cons.mpr ⟨he, h⟩

theorem neutral_ite (P : Prop) [Decidable P] (e : Effect) (he : Neutral e) :
    ∀ e' ∈ if P then [e] else [], Neutral e' := by
  split
  · exact neutral_cons e he neutral_nil
  · exact neutral_nil

/-- Neutral effects change nothing of interest. -/
theorem same_neutral {effects : List Effect} (h : ∀ e ∈ effects, Neutral e) :
    Same w (effects.foldl ConnectionClose.World.apply w) := by
  induction effects generalizing w with
  | nil => exact ⟨rfl, rfl, rfl, rfl⟩
  | cons e effects ih =>
    have hfirst : Same w (w.apply e) := by
      have he := h e List.mem_cons_self
      cases e with
      | addFd => exact absurd he id
      | setEvent type => exact absurd he id
      | deleteEvent type => exact absurd he id
      | deleteAllEvent => exact absurd he id
      | deleteFd => exact absurd he id
      | closeCallback => exact absurd he id
      | _ => exact ⟨rfl, rfl, rfl, rfl⟩
    have hrest := ih (w := w.apply e) fun e' he' => h e' (List.mem_cons_of_mem e he')
    exact ⟨hrest.conn.trans hfirst.conn, hrest.poll_.trans hfirst.poll_,
      hrest.fd_.trans hfirst.fd_, hrest.closes.trans hfirst.closes⟩

/-- Whether the three agree depends on these alone. -/
theorem interest_same (h : Same w w') : WriteInterest w ↔ WriteInterest w' := by
  cases w
  cases w'
  obtain ⟨rfl, rfl, rfl, rfl⟩ := h
  exact ⟨fun hi => ⟨hi.pending, hi.watching⟩, fun hi => ⟨hi.pending, hi.watching⟩⟩

/-- So does what holds until the first close. -/
theorem open_same (h : Open w) (hs : Same w w') : Open w' := by
  have hinterest := (interest_same hs).mp h.interest
  cases w
  cases w'
  obtain ⟨rfl, rfl, rfl, rfl⟩ := hs
  exact ⟨hinterest, h.queue, h.registered, h.connected⟩

/-- A member function that leaves the output side alone and has neutral effects. -/
theorem open_returned (h : Open w) {effects : List Effect} (he : ∀ e ∈ effects, Neutral e)
    (hw : c.writing_ = w.conn.writing_) (hb : c.outputBuffer_ = w.conn.outputBuffer_)
    (hs : c.state_ ≠ .kDisconnected) :
    Open (w.returned (c, effects)) ∧ (w.returned (c, effects)).closes = w.closes := by
  have hsame := same_neutral (w := { w with conn := c }) he
  have hpending := h.interest.pending
  have hwatching := h.interest.watching
  have hqueue := h.queue
  rw [← hw, ← hb] at hpending
  rw [← hw] at hwatching
  rw [← hb] at hqueue
  have hopen : Open { w with conn := c } := ⟨⟨hpending, hwatching⟩, hqueue, h.registered, hs⟩
  exact ⟨open_same hopen hsame, hsame.closes⟩

/-- The connection with the send buffer `s` after `enableWriting`. -/
def enabled (w : World) (s : KBuffer) : World := { w with
  conn := { w.conn with outputBuffer_ := s, writing_ := true }
  poll_ := (w.poll_.setEvent w.fd_ .kWrite).1 }

/-- What `enableWriting` does after neutral effects. -/
theorem same_enabled (w : World) (s : KBuffer) {done : List Effect} (h : ∀ e ∈ done, Neutral e) :
    Same (enabled w s) (w.returned ({ w.conn with outputBuffer_ := s, writing_ := true },
      done ++ [.setEvent .kWrite])) := by
  have hsame := same_neutral
    (w := { w with conn := { w.conn with outputBuffer_ := s, writing_ := true } }) h
  have hpoll := hsame.poll_
  have hfd := hsame.fd_
  unfold ConnectionClose.World.returned
  rw [List.foldl_append]
  refine ⟨hsame.conn, ?_, hsame.fd_, hsame.closes⟩
  simp only [List.foldl_cons, List.foldl_nil, ConnectionClose.World.apply]
  rw [hpoll, hfd]
  rfl

/-- Setting interest in write events of a registered descriptor. -/
theorem watching_enabled (h : ∃ e, w.poll_.entry w.fd_ = some e) (s : KBuffer) :
    Watching (enabled w s) := by
  obtain ⟨e, he⟩ := h
  refine ⟨e.withFlag .kWrite true, ?_, rfl⟩
  unfold enabled PollSelect.setEvent
  dsimp only
  rw [entry_flag, he]
  rfl

/-- Without the flag nothing is pending. -/
theorem empty_of_open (h : Open w) (hw : w.conn.writing_ = false) :
    Represents w.conn.outputBuffer_ [] := by
  obtain ⟨q, hq⟩ := h.queue
  have hno : ¬0 < w.conn.outputBuffer_.getReadableSize := by
    rw [← h.interest.pending, hw]
    exact Bool.false_ne_true
  rw [hq.holds.length] at hno
  have hempty : q = [] := List.eq_nil_of_length_eq_zero (by omega)
  exact hempty ▸ hq

/-- Buffering `rest` sets the flag and the interest, whether or not the send buffer
takes it. -/
theorem bufferRest_open (h : Open w) (hw : w.conn.writing_ = false) (rest : List UInt8)
    {done : List Effect} (hdone : ∀ e ∈ done, Neutral e) :
    ∃ out, w.conn.bufferRest rest done = .ok out ∧ (w.returned out).closes = w.closes ∧
      (Accepts w.conn.outputBuffer_ rest.length → Open (w.returned out)) ∧
      (¬Accepts w.conn.outputBuffer_ rest.length → ¬WriteInterest (w.returned out)) := by
  have hq := empty_of_open h hw
  unfold Connection.bufferRest
  by_cases hpos : rest.length > 0
  · rw [if_pos hpos]
    rcases hq.write rest with ⟨ha, s, hwrite, hr⟩ | ⟨hna, s, hwrite, hr⟩
    · have hsame := same_enabled w s hdone
      have hwatching := watching_enabled h.registered s
      have hlen := hr.holds.length
      rw [List.nil_append] at hlen
      have hpending : 0 < s.getReadableSize := hlen ▸ hpos
      have hopen : Open (enabled w s) :=
        ⟨⟨⟨fun _ => hpending, fun _ => rfl⟩, ⟨fun _ => hwatching, fun _ => rfl⟩⟩, ⟨_, hr⟩,
          ⟨_, hwatching.choose_spec.1⟩, h.connected⟩
      exact ⟨_, by rw [hwrite]; rfl, hsame.closes, fun _ => open_same hopen hsame,
        fun hna => absurd ha hna⟩
    · have hsame := same_enabled w s hdone
      refine ⟨_, by rw [hwrite]; rfl, hsame.closes, fun ha => absurd ha hna, fun _ hint => ?_⟩
      have hpending : 0 < s.getReadableSize := ((interest_same hsame).mpr hint).pending.mp rfl
      rw [hr.length] at hpending
      exact absurd hpending (lt_irrefl 0)
  · have hnil : rest = [] := List.eq_nil_of_length_eq_zero (by omega)
    rw [if_neg hpos, hnil]
    have hkeep := open_returned h hdone rfl rfl h.connected
    exact ⟨_, rfl, hkeep.2, fun _ => hkeep.1, fun hna => absurd (Or.inl (Nat.zero_le _)) hna⟩

/-- `sendInLoop` keeps the agreement exactly if what is left to buffer is taken. -/
theorem sendInLoop_open (h : Open w) (data : List UInt8) (res : WriteResult) :
    ∃ out, w.conn.sendInLoop data res = .ok out ∧ (w.returned out).closes = w.closes ∧
      ((w.conn.writing_ = false → Accepts w.conn.outputBuffer_ (left data res).length) →
        Open (w.returned out)) ∧
      (w.conn.writing_ = false ∧ ¬Accepts w.conn.outputBuffer_ (left data res).length →
        ¬WriteInterest (w.returned out)) := by
  unfold Connection.sendInLoop
  rw [if_neg h.connected]
  by_cases hw : w.conn.writing_ = false
  · have hzero : w.conn.outputBuffer_.getReadableSize = 0 := (empty_of_open h hw).holds.length
    rw [if_pos ⟨hw, hzero⟩]
    cases res with
    | accepted n =>
      have hdone := neutral_cons (.written (data.take n)) trivial
        (neutral_ite ((data.drop n).length = 0 ∧ w.conn.writeCompleteCallback_ = true)
          (.queueInLoop .writeComplete) trivial)
      obtain ⟨out, hout, hcloses, hyes, hno⟩ := bufferRest_open h hw (data.drop n) hdone
      exact ⟨out, hout, hcloses, fun ha => hyes (ha hw), fun hna => hno hna.2⟩
    | failed errno =>
      obtain ⟨out, hout, hcloses, hyes, hno⟩ :=
        bufferRest_open h hw (left data (.failed errno)) neutral_nil
      refine ⟨out, ?_, hcloses, fun ha => hyes (ha hw), fun hna => hno hna.2⟩
      rw [← hout]
      unfold left
      by_cases hfault : errno = .EPIPE ∨ errno = .ECONNRESET
      · dsimp only
        rw [if_pos hfault, if_pos hfault]
        rfl
      · dsimp only
        rw [if_neg hfault, if_neg hfault]
  · have hkeep := open_returned h neutral_nil rfl rfl h.connected
    rw [if_neg fun hidle => hw hidle.1]
    exact ⟨_, rfl, hkeep.2, fun _ => hkeep.1, fun hna => absurd hna.1 hw⟩

/-- The connection with the send buffer `s` after `disableWriting`. -/
def disabled (w : World) (s : KBuffer) : World := { w with
  conn := { w.conn with outputBuffer_ := s, writing_ := false }
  poll_ := (w.poll_.deleteEvent w.fd_ .kWrite).1 }

/-- What `finishWrite` does, after the bytes were handed to the socket. -/
theorem same_disabled (w : World) (s : KBuffer) (data : List UInt8) :
    let done := Connection.finishWrite { w.conn with outputBuffer_ := s }
    Same (disabled w s) (w.returned (done.1, .written data :: done.2)) := by
  have hneutral : ∀ e ∈ (if w.conn.writeCompleteCallback_ = true then
      [Effect.queueInLoop .writeComplete] else []) ++
      if w.conn.state_ = .kDisconnecting then [.shutdownWrite] else [], Neutral e := by
    intro e he
    rcases List.mem_append.mp he with he | he
    · exact neutral_ite _ (.queueInLoop .writeComplete) trivial e he
    · exact neutral_ite _ .shutdownWrite trivial e he
  have htail := same_neutral (w := disabled w s) hneutral
  exact ⟨htail.conn, htail.poll_, htail.fd_, htail.closes⟩

/-- Taking away interest in write events of a registered descriptor. -/
theorem not_watching_disabled (h : ∃ e, w.poll_.entry w.fd_ = some e) (s : KBuffer) :
    ¬Watching (disabled w s) ∧ ∃ e, (disabled w s).poll_.entry w.fd_ = some e := by
  obtain ⟨e, he⟩ := h
  have hentry : (disabled w s).poll_.entry w.fd_ = some (e.withFlag .kWrite false) := by
    unfold disabled PollSelect.deleteEvent
    dsimp only
    rw [entry_flag, he]
    rfl
  refine ⟨?_, ⟨_, hentry⟩⟩
  rintro ⟨e', he', hwrite⟩
  have hsame : some e' = some (e.withFlag .kWrite false) := he'.symm.trans hentry
  cases hsame
  cases hwrite

/-- `handleWrite` keeps the agreement. -/
theorem handleWrite_open (h : Open w) (beyond : List UInt8) (res : WriteResult) :
    ∃ out, w.conn.handleWrite beyond res = .ok out ∧ (w.returned out).closes = w.closes ∧
      Open (w.returned out) := by
  have hkeep := open_returned h neutral_nil rfl rfl h.connected
  unfold Connection.handleWrite
  by_cases hw : w.conn.writing_ = true
  · obtain ⟨q, hq⟩ := h.queue
    obtain ⟨data, hdata, _⟩ := cString_pending hq beyond
    rw [if_pos hw, hdata, ok_bind]
    cases res with
    | failed errno => exact ⟨_, rfl, hkeep.2, hkeep.1⟩
    | accepted n =>
      by_cases hpos : (data.take n).length > 0
      · obtain ⟨s, hs, hr⟩ := hq.retrieve (data.take n).length
        dsimp only
        rw [if_pos hpos, hs, ok_bind]
        by_cases hempty : s.getReadableSize = 0
        · have hsame := same_disabled w s (data.take n)
          obtain ⟨hno, hentry⟩ := not_watching_disabled h.registered s
          have hnot : ¬0 < s.getReadableSize := by omega
          have hopen : Open (disabled w s) :=
            ⟨⟨⟨fun hf => (by cases hf), fun hp => absurd hp hnot⟩,
              ⟨fun hf => (by cases hf), fun hwatch => absurd hwatch hno⟩⟩, ⟨_, hr⟩, hentry,
              h.connected⟩
          refine ⟨_, rfl, ?_, ?_⟩
          · rw [if_pos hempty]
            exact hsame.closes
          · rw [if_pos hempty]
            exact open_same hopen hsame
        · have hpending : 0 < s.getReadableSize := Nat.pos_of_ne_zero hempty
          have hsame := same_neutral (w := { w with conn := { w.conn with outputBuffer_ := s } })
            (neutral_cons (.written (data.take n)) trivial neutral_nil)
          have hopen : Open { w with conn := { w.conn with outputBuffer_ := s } } :=
            ⟨⟨⟨fun _ => hpending, fun _ => hw⟩, h.interest.watching⟩, ⟨_, hr⟩, h.registered,
              h.connected⟩
          refine ⟨_, rfl, ?_, ?_⟩
          · rw [if_neg hempty]
            exact hsame.closes
          · rw [if_neg hempty]
            exact open_same hopen hsame
      · dsimp only
        rw [if_neg hpos]
        exact ⟨_, rfl, hkeep.2, hkeep.1⟩
  · rw [if_neg hw]
    exact ⟨_, rfl, hkeep.2, hkeep.1⟩

/-- No effect takes a close back. -/
theorem closes_le_returned (w : World) (out : Connection × List Effect) :
    w.closes ≤ (w.returned out).closes := by
  have happly : ∀ (w : World) e, w.closes ≤ (w.apply e).closes := by
    intro w e
    cases e with
    | deleteAllEvent => exact Nat.le_succ w.closes
    | closeCallback =>
      unfold ConnectionClose.World.apply ConnectionClose.World.removeConnection
      by_cases hsame : w.sameLoop = true
      · rw [if_pos hsame]
        exact Nat.le_refl w.closes
      · rw [if_neg hsame]
    | _ => exact Nat.le_refl w.closes
  have hfold : ∀ (effects : List Effect) (w : World),
      w.closes ≤ (effects.foldl ConnectionClose.World.apply w).closes := by
    intro effects
    induction effects with
    | nil => exact fun w => Nat.le_refl w.closes
    | cons e effects ih => exact fun w => (happly w e).trans (ih (w.apply e))
  exact hfold out.2 { w with conn := out.1 }

/-- A close is counted. -/
theorem closes_handleClose (w : World) (c : Connection) :
    0 < (w.returned c.handleClose).closes := by
  have hfold := closes_le_returned { w with
    poll_ := w.poll_.deleteAllEvent w.fd_
    closes := w.closes + 1 } (c.handleClose.1, c.handleClose.2.tail)
  exact (Nat.succ_pos w.closes).trans_le hfold

/-- A read that does not close keeps the agreement. -/
theorem afterRead_open (h : Open w) {c : Connection} (hw : c.writing_ = w.conn.writing_)
    (hb : c.outputBuffer_ = w.conn.outputBuffer_) (hs : c.state_ = w.conn.state_) (n : ℤ)
    (errno : Errno) :
    0 < (w.returned (c.afterRead n errno)).closes ∨ Open (w.returned (c.afterRead n errno)) := by
  have hstate : c.state_ ≠ .kDisconnected := hs ▸ h.connected
  obtain hread | ⟨_, hread⟩ | hread := c.afterRead_cases n errno
  · rw [hread]
    exact Or.inr (open_returned h (neutral_ite _ .messageCallback trivial) hw hb hstate).1
  · rw [hread]
    exact Or.inl (closes_handleClose w c)
  · rw [hread]
    exact Or.inr (open_returned h neutral_nil hw hb hstate).1

/-- Only a send whose rest is refused ends the agreement. -/
theorem step_open (h : Open w) (hz : w.closes = 0) {e : Event} (he : step w e = some w') :
    (Buffers w e → w'.closes = 0 → Open w') ∧
      (¬Buffers w e → w'.closes = 0 ∧ ¬WriteInterest w') := by
  cases e with
  | sendInLoop data res =>
    obtain ⟨out, hout, hcloses, hyes, hno⟩ := sendInLoop_open h data res
    unfold step at he
    dsimp only at he
    rw [hout] at he
    cases he
    refine ⟨fun hb _ => hyes (hb hz), fun hb => ?_⟩
    unfold Buffers at hb
    rw [Classical.not_imp, Classical.not_imp] at hb
    exact ⟨hcloses.trans hz, hno hb.2⟩
  | handleWrite beyond res =>
    obtain ⟨out, hout, _, hopen⟩ := handleWrite_open h beyond res
    unfold step at he
    dsimp only at he
    rw [hout] at he
    cases he
    exact ⟨fun _ _ => hopen, fun hb => absurd trivial hb⟩
  | handleRead res =>
    refine ⟨fun _ hclosed => ?_, fun hb => absurd trivial hb⟩
    have hread : 0 < w'.closes ∨ Open w' := by
      obtain ⟨out, hout, hw⟩ := ok_of_toOption_map he
      obtain ⟨s, n, errno, hread⟩ := Connection.handleRead_eq hout
      subst hw hread
      exact afterRead_open (c := { w.conn with inputBuffer_ := s }) h rfl rfl rfl n errno
    exact hread.resolve_left (by omega)
  | shutdown =>
    cases he
    refine ⟨fun _ _ => ?_, fun hb => absurd trivial hb⟩
    unfold Connection.shutdown
    split
    · exact (open_returned (c := { w.conn with state_ := .kDisconnecting }) h
        (neutral_cons (.runInLoop .shutdownInLoop) trivial neutral_nil) rfl rfl
        (fun hd => by cases hd)).1
    · exact (open_returned h neutral_nil rfl rfl h.connected).1
  | shutdownInLoop =>
    cases he
    refine ⟨fun _ _ => ?_, fun hb => absurd trivial hb⟩
    unfold Connection.shutdownInLoop
    split
    · exact (open_returned h neutral_nil rfl rfl h.connected).1
    · exact (open_returned h (neutral_cons .shutdownWrite trivial neutral_nil) rfl rfl
        h.connected).1
  | handleClose =>
    cases he
    refine ⟨fun _ hclosed => ?_, fun hb => absurd trivial hb⟩
    have hpos := closes_handleClose w w.conn
    omega

/-- After a close no step takes it back. -/
theorem closes_step {e : Event} (he : step w e = some w') : w.closes ≤ w'.closes := by
  unfold step at he
  cases e with
  | sendInLoop data res =>
    obtain ⟨out, _, hw⟩ := Option.map_eq_some_iff.mp he
    exact hw ▸ closes_le_returned w out
  | handleWrite beyond res =>
    obtain ⟨out, _, hw⟩ := Option.map_eq_some_iff.mp he
    exact hw ▸ closes_le_returned w out
  | handleRead res =>
    obtain ⟨out, _, hw⟩ := Option.map_eq_some_iff.mp he
    exact hw ▸ closes_le_returned w out
  | shutdown =>
    cases he
    exact closes_le_returned w _
  | shutdownInLoop =>
    cases he
    exact closes_le_returned w _
  | handleClose =>
    cases he
    exact closes_le_returned w _

/-- After the first close nothing is asked of a send. -/
theorem buffers_of_closed (hz : w.closes ≠ 0) {e : Event} : Buffers w e := by
  unfold Buffers
  cases e with
  | sendInLoop data res => exact fun h => absurd h hz
  | _ => exact trivial

/-- A connection that was just constructed, after `completeConnect`. -/
def completed (writing : Bool) (set : Callbacks) (fd : ℤ) (eventHandler : ℕ) (poll : PollSelect)
    (sameLoop : Bool) : World :=
  .completeConnect (.construct writing set) fd eventHandler poll sameLoop

variable (set : Callbacks) (fd : ℤ) (eventHandler : ℕ) (poll : PollSelect) (sameLoop : Bool)

/-- `completeConnect` registers the descriptor for read events alone. -/
theorem same_completed (writing : Bool) : Same
    ⟨{ Connection.construct writing set with reading_ := true, state_ := .kConnected }, fd,
      eventHandler, .clear, ((poll.addFd fd eventHandler).setEvent fd .kRead).1, .running [], [],
      sameLoop, 0, 0, 0, 0⟩
    (completed writing set fd eventHandler poll sameLoop) := by
  have htail := neutral_ite (set.connectionCallback = true) .connectionCallback trivial
  exact same_neutral htail

/-- With the flag unset, the three agree when `completeConnect` returns. -/
theorem open_completed : Open (completed false set fd eventHandler poll sameLoop) := by
  have hentry : ((poll.addFd fd eventHandler).setEvent fd .kRead).1.entry fd =
      some ⟨fd, true, false, false, eventHandler⟩ := by
    unfold PollSelect.setEvent
    rw [entry_flag, entry_addFd]
    rfl
  refine open_same ⟨⟨?_, ?_⟩, ⟨[], represents_fresh⟩, ⟨_, hentry⟩, fun hd => by cases hd⟩
    (same_completed set fd eventHandler poll sameLoop false)
  · exact ⟨fun hf => (by cases hf), fun hp => absurd hp (lt_irrefl 0)⟩
  · refine ⟨fun hf => (by cases hf), ?_⟩
    rintro ⟨e, he, hwrite⟩
    have hsame : some e = some _ := he.symm.trans hentry
    cases hsame
    cases hwrite

/-- From `completeConnect` to the first close the flag, the pending bytes and the
interest agree exactly if the memory of the flag held `false` and every send that
finds it unset leaves no more than the send buffer takes. -/
theorem write_interest_iff (writing : Bool) (events : List Event) :
    (WriteInterest (completed writing set fd eventHandler poll sameLoop) ∧
        Along step (fun _ _ w' => w'.closes = 0 → WriteInterest w')
          (completed writing set fd eventHandler poll sameLoop) events) ↔
      writing = false ∧ Along step (fun w e _ => Buffers w e)
        (completed writing set fd eventHandler poll sameLoop) events := by
  cases writing with
  | true =>
    refine ⟨fun h => ?_, fun h => by cases h.1⟩
    have hpending := ((interest_same (same_completed set fd eventHandler poll sameLoop true)).mpr
      h.1).pending.mp rfl
    exact absurd hpending (lt_irrefl 0)
  | false =>
    have hopen := open_completed set fd eventHandler poll sameLoop
    have halong : Along step (fun _ _ w' => w'.closes = 0 → WriteInterest w')
          (completed false set fd eventHandler poll sameLoop) events ↔
        Along step (fun w e _ => Buffers w e)
          (completed false set fd eventHandler poll sameLoop) events := by
      refine along_iff_along (fun w => w.closes = 0 → Open w) ?_ ?_ (fun _ => hopen) events
      · intro w e w' hinv he
        by_cases hz : w.closes = 0
        · obtain ⟨hyes, hno⟩ := step_open (hinv hz) hz he
          constructor
          · intro hagree
            by_contra hb
            exact (hno hb).2 (hagree (hno hb).1)
          · exact fun hb hz' => (hyes hb hz').interest
        · have hclosed := closes_step he
          refine ⟨fun _ => buffers_of_closed hz, fun _ hz' => ?_⟩
          omega
      · intro w e w' hinv hb he hz'
        have hclosed := closes_step he
        have hz : w.closes = 0 := by omega
        exact (step_open (hinv hz) hz he).1 hb hz'
    exact ⟨fun h => ⟨rfl, halong.mp h.2⟩, fun h => ⟨hopen.interest, halong.mpr h.2⟩⟩

/-- A connection on descriptor `5` of an empty poller, with its flag unset. -/
def quiet : World := completed false ⟨false, false, false, true⟩ 5 0 ⟨OrderedSets.OrderedSet.empty, 0⟩
  false

/-- More than the send buffer ever takes. -/
def oversized : List UInt8 := List.replicate (MAX_BLOCK_SIZE + 1) 1

/-- With garbage in the flag the three disagree from the start, and after a send that
the send buffer refuses they disagree as well. -/
theorem interest_without_data :
    ¬WriteInterest (completed true ⟨false, false, false, true⟩ 5 0 ⟨OrderedSets.OrderedSet.empty, 0⟩
        false) ∧
      ∃ w, step quiet (.sendInLoop oversized (.failed .EAGAIN)) = some w ∧ w.closes = 0 ∧
        ¬WriteInterest w := by
  constructor
  · intro h
    exact absurd (h.pending.mp rfl) (by decide)
  · have hopen : Open quiet := open_completed _ 5 0 _ false
    have hsize : (left oversized (.failed .EAGAIN)).length = MAX_BLOCK_SIZE + 1 :=
      List.length_replicate
    have hno : ¬Accepts KBuffer.fresh (left oversized (.failed .EAGAIN)).length := by
      rw [hsize]
      decide
    obtain ⟨out, hout, hcloses, _, hrefused⟩ := sendInLoop_open hopen oversized (.failed .EAGAIN)
    refine ⟨quiet.returned out, ?_, hcloses, hrefused ⟨rfl, hno⟩⟩
    unfold step
    dsimp only
    rw [hout]
    rfl

end KKNet.ConnectionInterest
