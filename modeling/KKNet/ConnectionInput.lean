import KKNet.ConnectionDelivery
import KKNet.ConnectionPending

/-!
# A receiver that falls behind

`handleRead` takes the count of `readFd` for the answer of `readv`, so a count of zero
closes the connection. `readFd` also gives zero where the peer has sent bytes and the
input buffer takes none of them. Such a read loses the bytes and closes a connection that
nobody has closed; as long as the application leaves room, no read does. A read that
finds bytes is taken to have vectors that fit `vec` and the limit of `readv`; one with more
of them `readv` refuses, and that is among the reads that fail.
-/

namespace KKNet.ConnectionInput

open Runs Results BlockBuffer BlockLayout BlockQueue BlockScatter Connections
open ConnectionDelivery (Spills)
open ConnectionPending (Call)

/-- A connection with the history of its input. -/
structure Receiver where
  /-- The connection. -/
  conn : Connection
  /-- What `readv` delivered. -/
  delivered : List UInt8
  /-- What the application took out of the input buffer. -/
  consumed : List UInt8
  /-- What the connection did outside itself, in order. -/
  effects : List Effect

/-- What can happen next on the thread of the loop. -/
inductive Event
  /-- A member function of the connection runs. -/
  | call (call : Call)
  /-- The application looks at `getInputBuffer()`. -/
  | peek (size : ℕ)
  /-- It takes bytes out. -/
  | read (size : ℕ)
  /-- It drops bytes. -/
  | retrieve (len : ℕ)

/-- What `readv` delivers in a call. -/
def gained (c : Connection) : Call → Except Fault (List UInt8)
  | .handleRead (.received avail) => c.inputBuffer_.delivered avail
  | _ => pure []

/-- One event, which may fault. -/
def perform (r : Receiver) : Event → Except Fault Receiver
  | .call call => do
    let data ← gained r.conn call
    let out ← ConnectionPending.perform r.conn call
    pure { r with
      conn := out.1
      delivered := r.delivered ++ data
      effects := r.effects ++ out.2 }
  | .peek size => do
    let _ ← r.conn.inputBuffer_.peek size
    pure r
  | .read size => do
    let out ← r.conn.inputBuffer_.read size
    pure { r with
      conn := { r.conn with inputBuffer_ := out.2 }
      consumed := r.consumed ++ out.1 }
  | .retrieve len => do
    let out ← r.conn.inputBuffer_.peek len
    let s ← r.conn.inputBuffer_.retrieve len
    pure { r with
      conn := { r.conn with inputBuffer_ := s }
      consumed := r.consumed ++ out }

/-- One event; there is none where the code faults. -/
def step (r : Receiver) (e : Event) : Option Receiver := (perform r e).toOption

/-- A connection that has received nothing yet. -/
def start (c : Connection) : Receiver := ⟨c, [], [], []⟩

/-- A new connection. -/
def new : Connection := .construct false ⟨true, true, true, true⟩

/-- The connection was not closed so far. -/
def Open (r : Receiver) : Prop := .deleteAllEvent ∉ r.effects

/-- The input buffer has no room for what `readv` delivers: no free byte, not enough read
ones to reuse, and no block may be added. -/
def Jammed (s : KBuffer) (avail : List UInt8) : Prop :=
  s.writableSize_ = 0 ∧ s.usedSize_ - s.readablePos_ < min avail.length KBuffer.EXTRA_SIZE ∧
    MAX_BLOCK_SIZE ≤ s.buflen_

/-- A read that goes on: bytes have arrived and find room, or `readv` fails in a way that
`handleRead` takes for bytes or for nothing. -/
def Readable (s : KBuffer) : ReadResult → Prop
  | .received avail => avail ≠ [] ∧ ¬Jammed s avail
  | .failed errno ret => 0 < ret ∨ ret < 0 ∧ errno = .EAGAIN

/-- The events that leave the connection open. -/
def Stays (r : Receiver) : Event → Prop
  | .call (.handleRead res) => Readable r.conn.inputBuffer_ res
  | .call .handleClose => False
  | _ => True

variable {c : Connection} {s : KBuffer} {q avail : List UInt8}

/-! ### One read -/

/-- `readFd` gives the count of what was delivered, or what the blocks still took. -/
theorem readFd_count (h : Holds s q) (avail : List UInt8) :
    ∃ data s' k, s.delivered avail = .ok data ∧ s.readFd (some avail) = .ok (s', k) ∧
      data = avail.take (s.writableSize_ + KBuffer.EXTRA_SIZE) ∧ Holds s' (q ++ data.take k) ∧
      (Spills s data.length → k = data.length) ∧
      (¬Spills s data.length → k = s.writableSize_ ∧ s.writableSize_ < data.length) := by
  obtain ⟨data, s', k, ed, er, hk, hs'⟩ := Holds.readFd h avail
  obtain ⟨data₁, s₁, k₁, ed₁, er₁, _, _, hiff⟩ := ConnectionDelivery.readFd_spills h avail
  cases ed.symm.trans ed₁
  cases er.symm.trans er₁
  obtain ⟨chain, ri, wi, hl, _⟩ := id h
  obtain ⟨data₂, hdata, ed₂, hways⟩ := BlockCalls.Layout.readFd hl avail
  cases ed.symm.trans ed₂
  refine ⟨data, s', k, ed, er, hdata, hs', hiff.mpr, fun hno => ?_⟩
  have hne : k ≠ data.length := fun heq => hno (hiff.mp heq)
  rcases hways with ⟨_, s₂, _, _, er₂, _⟩ | ⟨hlt, hle, _⟩ |
    ⟨hover, s₂, chain', hl', hrec, hset, hb, er₂⟩
  · cases er.symm.trans er₂
    exact absurd rfl hne
  · omega
  · have hrep : Represents s₂ (unread s₂ chain') := ⟨chain', ri, _, hl', hset, rfl⟩
    rw [er₂] at er
    refine ⟨?_, hover⟩
    rcases hrep.write ((data.drop (s.writableSize_ - 0)).take (data.length - s.writableSize_)) with
      ⟨_, s₃, hw, _⟩ | ⟨_, s₃, hw, _⟩
    · rw [hw] at er
      cases er
      refine absurd ?_ hne
      rw [List.length_take, List.length_drop]
      omega
    · rw [hw] at er
      cases er
      rfl

/-- It gives zero exactly if nothing has arrived or nothing finds room. -/
theorem readFd_zero_iff (h : Holds s q) (avail : List UInt8) :
    ∃ data s' k, s.delivered avail = .ok data ∧ s.readFd (some avail) = .ok (s', k) ∧
      (k = 0 ↔ ¬Readable s (.received avail)) := by
  obtain ⟨data, s', k, ed, er, hdata, _, hyes, hno⟩ := readFd_count h avail
  refine ⟨data, s', k, ed, er, ?_⟩
  have hlen : data.length = min (s.writableSize_ + KBuffer.EXTRA_SIZE) avail.length := by
    rw [hdata, List.length_take]
  have hextra : 0 < KBuffer.EXTRA_SIZE := by decide
  have hnil : avail = [] ↔ avail.length = 0 := List.length_eq_zero_iff.symm
  unfold Readable Jammed
  rw [not_and_or, not_not, not_not, hnil]
  by_cases hspills : Spills s data.length
  · have hk := hyes hspills
    unfold Spills at hspills
    omega
  · obtain ⟨hk, hover⟩ := hno hspills
    unfold Spills at hspills
    omega

/-- `handleClose` closes, and leaves the input buffer alone. -/
theorem handleClose_input (c : Connection) :
    c.handleClose.1.inputBuffer_ = c.inputBuffer_ ∧ .deleteAllEvent ∈ c.handleClose.2 := by
  unfold Connection.handleClose
  by_cases hs : c.state_ = .kDisconnecting <;> simp [hs]

/-- What `handleRead` does after `readFd` leaves the input buffer alone. It closes the
connection for a count of zero and for an error. -/
theorem afterRead_input (c : Connection) (n : ℤ) (errno : Errno) :
    (c.afterRead n errno).1.inputBuffer_ = c.inputBuffer_ ∧
      (.deleteAllEvent ∈ (c.afterRead n errno).2 ↔ n = 0 ∨ n < 0 ∧ errno ≠ .EAGAIN) := by
  have hclose := handleClose_input c
  unfold Connection.afterRead
  by_cases hpos : n > 0
  · have hcb : .deleteAllEvent ∉
        if c.messageCallback_ = true then [Effect.messageCallback] else [] := by
      by_cases hm : c.messageCallback_ = true <;> simp [hm]
    rw [if_pos hpos]
    exact ⟨rfl, fun hmem => absurd hmem hcb, fun hno => by omega⟩
  rw [if_neg hpos]
  by_cases hzero : n = 0
  · rw [if_pos hzero]
    exact ⟨hclose.1, fun _ => Or.inl hzero, fun _ => hclose.2⟩
  rw [if_neg hzero]
  by_cases herr : errno ≠ .EAGAIN
  · rw [if_pos herr]
    exact ⟨hclose.1, fun _ => Or.inr ⟨by omega, herr⟩, fun _ => hclose.2⟩
  · rw [if_neg herr]
    refine ⟨rfl, nofun, ?_⟩
    rintro (hno | ⟨_, hno⟩)
    · exact absurd hno hzero
    · exact absurd hno herr

/-- `handleRead` goes on with the count of `readFd`. -/
theorem handleRead_received {s' : KBuffer} {k : ℕ}
    (er : c.inputBuffer_.readFd (some avail) = .ok (s', k)) :
    c.handleRead (.received avail) =
      .ok (Connection.afterRead { c with inputBuffer_ := s' } k .other) := by
  unfold Connection.handleRead
  dsimp only
  rw [er, ok_bind]
  rfl

/-- A read closes the connection exactly if it is not one that goes on. -/
theorem handleRead_spec (h : Holds c.inputBuffer_ q) (res : ReadResult) :
    ∃ data out q', gained c (.handleRead res) = .ok data ∧ c.handleRead res = .ok out ∧
      Holds out.1.inputBuffer_ q' ∧
      (.deleteAllEvent ∈ out.2 ↔ ¬Readable c.inputBuffer_ res) := by
  cases res with
  | received avail =>
    obtain ⟨data, s', k, ed, er, hzero⟩ := readFd_zero_iff h avail
    obtain ⟨_, s₁, k₁, _, er₁, _, hs', _⟩ := readFd_count h avail
    cases er.symm.trans er₁
    obtain ⟨hbuf, hclose⟩ := afterRead_input { c with inputBuffer_ := s' } k .other
    refine ⟨data, _, _, ed, handleRead_received er, by rw [hbuf]; exact hs', ?_⟩
    rw [hclose, ← hzero]
    omega
  | failed errno ret =>
    obtain ⟨hbuf, hclose⟩ := afterRead_input c ret errno
    refine ⟨[], _, q, rfl, rfl, by rw [hbuf]; exact h, hclose.trans ?_⟩
    unfold Readable
    by_cases herr : errno = .EAGAIN
    · simp only [herr, ne_eq, not_true, and_false, or_false, and_true]
      omega
    · simp only [herr, ne_eq, not_false_eq_true, and_true, and_false, or_false]
      omega

/-! ### The other calls -/

/-- The effects a read has. -/
def Inward : Effect → Bool
  | .deleteAllEvent => true
  | .messageCallback => true
  | _ => false

/-- A call that leaves the input alone. -/
structure Outward (c : Connection) (out : Connection × List Effect) : Prop where
  /-- The input buffer. -/
  buffer : out.1.inputBuffer_ = c.inputBuffer_
  /-- The callback. -/
  callback : out.1.messageCallback_ = c.messageCallback_
  /-- What it does. -/
  effects : ∀ e ∈ out.2, Inward e = false

/-- It has none of the effects of a read. -/
theorem Outward.not_mem {out : Connection × List Effect} (h : Outward c out) {e : Effect}
    (he : Inward e = true) : e ∉ out.2 := by
  intro hmem
  cases he.symm.trans (h.effects e hmem)

/-- The end of a write. -/
theorem finishWrite_outward (c : Connection) : Outward c c.finishWrite := by
  unfold Connection.finishWrite Connection.disableWriting Connection.shutdownInLoop
    Connection.isWriting
  refine ⟨rfl, rfl, ?_⟩
  by_cases hcb : c.writeCompleteCallback_ = true
  · by_cases hst : c.state_ = .kDisconnecting <;> simp [hcb, hst, Inward]
  · by_cases hst : c.state_ = .kDisconnecting <;> simp [hcb, hst, Inward]

/-- A send. -/
theorem sendInLoop_outward {data : List UInt8} {res : WriteResult}
    {out : Connection × List Effect} (h : c.sendInLoop data res = .ok out) : Outward c out := by
  rcases Connection.sendInLoop_cases h with rfl | ⟨_, _, rest, done, hrest, hdone⟩
  · exact ⟨rfl, rfl, nofun⟩
  · have hout : ∀ e ∈ done, Inward e = false := by
      intro e he
      rcases hdone e he with ⟨bytes, rfl⟩ | rfl <;> rfl
    rcases Connection.bufferRest_cases hrest with rfl | ⟨s, rfl⟩
    · exact ⟨rfl, rfl, hout⟩
    · refine ⟨rfl, rfl, fun e he => ?_⟩
      rcases List.mem_append.mp he with he | he
      · exact hout e he
      · rw [List.mem_singleton.mp he]
        rfl

/-- A write event. -/
theorem handleWrite_outward {beyond : List UInt8} {res : WriteResult}
    {out : Connection × List Effect} (h : c.handleWrite beyond res = .ok out) :
    Outward c out := by
  rcases Connection.handleWrite_cases h with rfl | ⟨_, s, bytes, ⟨_, rfl⟩ | ⟨_, rfl⟩⟩
  · exact ⟨rfl, rfl, nofun⟩
  · refine ⟨rfl, rfl, fun e he => ?_⟩
    rcases List.mem_cons.mp he with rfl | he
    · rfl
    · exact (finishWrite_outward _).effects e he
  · refine ⟨rfl, rfl, fun e he => ?_⟩
    rw [List.mem_singleton.mp he]
    rfl

/-- A member function other than `handleRead` and `handleClose`. -/
theorem outward_of_perform {call : Call} {out : Connection × List Effect}
    (h : ConnectionPending.perform c call = .ok out) (hread : ∀ res, call ≠ .handleRead res)
    (hclose : call ≠ .handleClose) : Outward c out := by
  cases call with
  | sendInLoop data res => exact sendInLoop_outward h
  | handleWrite beyond res => exact handleWrite_outward h
  | handleRead res => exact absurd rfl (hread res)
  | shutdown =>
    cases h
    unfold Connection.shutdown
    split
    · exact ⟨rfl, rfl, by simp [Inward]⟩
    · exact ⟨rfl, rfl, nofun⟩
  | shutdownInLoop =>
    cases h
    unfold Connection.shutdownInLoop
    split
    · exact ⟨rfl, rfl, nofun⟩
    · exact ⟨rfl, rfl, by simp [Inward]⟩
  | forceClose =>
    cases h
    unfold Connection.forceClose
    split
    · exact ⟨rfl, rfl, by simp [Inward]⟩
    · exact ⟨rfl, rfl, nofun⟩
  | handleClose => exact absurd rfl hclose
  | connectDestroyed =>
    cases h
    exact ⟨rfl, rfl, by simp [Connection.connectDestroyed, Inward]⟩

/-! ### Runs -/

variable {r r' : Receiver} {e : Event}

/-- What the application does with the input buffer: it takes bytes from the front. -/
structure Taken (r : Receiver) (q : List UInt8) (r' : Receiver) (q' : List UInt8) : Prop where
  /-- Only the input buffer changes. -/
  conn : ∃ s, r'.conn = { r.conn with inputBuffer_ := s }
  /-- What is left. -/
  holds : Holds r'.conn.inputBuffer_ q'
  /-- What was taken out joins what was consumed. -/
  consumed : r'.consumed ++ q' = r.consumed ++ q
  /-- Nothing arrives. -/
  delivered : r'.delivered = r.delivered
  /-- Nothing is done outside. -/
  effects : r'.effects = r.effects

/-- An event that is no call of a member function. -/
theorem taken_of_step (h : Holds r.conn.inputBuffer_ q) (hcall : ∀ call, e ≠ .call call)
    (he : step r e = some r') : ∃ q', Taken r q r' q' := by
  have he : perform r e = .ok r' := ok_of_toOption he
  cases e with
  | call call => exact absurd rfl (hcall call)
  | peek size =>
    obtain ⟨_, _, he⟩ := ok_of_bind he
    cases he
    exact ⟨q, ⟨_, rfl⟩, h, rfl, rfl, rfl⟩
  | read size =>
    obtain ⟨out, hout, he⟩ := ok_of_bind he
    cases he
    obtain ⟨s', hretrieve, hs'⟩ := h.retrieve size
    have hread : r.conn.inputBuffer_.read size = .ok (q.take size, s') := by
      simp only [KBuffer.read, h.peek, hretrieve, ok_bind, pure_eq_ok]
    cases hout.symm.trans hread
    exact ⟨q.drop size, ⟨_, rfl⟩, hs', by simp, rfl, rfl⟩
  | retrieve len =>
    obtain ⟨out, hout, he⟩ := ok_of_bind he
    obtain ⟨s', hretrieve, he⟩ := ok_of_bind he
    cases he
    obtain ⟨s₁, hretrieve₁, hs₁⟩ := h.retrieve len
    cases hretrieve.symm.trans hretrieve₁
    cases hout.symm.trans (h.peek len)
    exact ⟨q.drop len, ⟨_, rfl⟩, hs₁, by simp, rfl, rfl⟩

/-- An event closes the connection exactly if it is not one that leaves it open. -/
theorem step_spec (h : Holds r.conn.inputBuffer_ q) (he : step r e = some r') :
    ∃ q' new, Holds r'.conn.inputBuffer_ q' ∧ r'.effects = r.effects ++ new ∧
      (.deleteAllEvent ∈ new ↔ ¬Stays r e) := by
  by_cases hcall : ∃ call, e = .call call
  · obtain ⟨call, rfl⟩ := hcall
    have he : perform r (.call call) = .ok r' := ok_of_toOption he
    obtain ⟨data, _, he⟩ := ok_of_bind he
    obtain ⟨out, hout, he⟩ := ok_of_bind he
    cases he
    by_cases hread : ∃ res, call = .handleRead res
    · obtain ⟨res, rfl⟩ := hread
      obtain ⟨_, out', q', _, hout', hq', hclose⟩ := handleRead_spec h res
      cases hout.symm.trans hout'
      exact ⟨q', out.2, hq', rfl, hclose⟩
    by_cases hclose : call = .handleClose
    · subst hclose
      cases hout
      obtain ⟨hbuf, hmem⟩ := handleClose_input r.conn
      exact ⟨q, r.conn.handleClose.2, by rw [hbuf]; exact h, rfl, fun _ => id, fun _ => hmem⟩
    · have hout := outward_of_perform hout (fun res heq => hread ⟨res, heq⟩) hclose
      refine ⟨q, out.2, hout.buffer.symm ▸ h, rfl, fun hmem => absurd hmem (hout.not_mem rfl),
        fun hno => absurd ?_ hno⟩
      unfold Stays
      cases call with
      | handleRead res => exact absurd ⟨res, rfl⟩ hread
      | handleClose => exact absurd rfl hclose
      | _ => trivial
  · obtain ⟨q', htaken⟩ := taken_of_step h (fun call heq => hcall ⟨call, heq⟩) he
    refine ⟨q', [], htaken.holds, htaken.effects.trans (List.append_nil _).symm,
      fun hmem => absurd hmem List.not_mem_nil, fun hno => absurd ?_ hno⟩
    cases e with
    | call call => exact absurd ⟨call, rfl⟩ hcall
    | _ => trivial

/-- A connection is open at the end of a run exactly if it was before and every event of
the run left it open. -/
theorem open_run (h : Holds r.conn.inputBuffer_ q) {events : List Event}
    (hrun : run step r events = some r') : Open r' ↔ Open r ∧ Meets step Stays r events := by
  refine run_iff_meets (fun _ r => ∃ q, Holds r.conn.inputBuffer_ q) (fun _ r => Open r)
    (fun _ r e r₁ hr _ he => ?_) [] ⟨q, h⟩
    (meets_of_forall (fun _ => True) (fun _ _ => trivial) r) hrun
  obtain ⟨q, hq⟩ := hr
  obtain ⟨q₁, new, hq₁, heffects, hnew⟩ := step_spec hq he
  refine ⟨⟨q₁, hq₁⟩, ?_⟩
  unfold Open
  rw [heffects, List.mem_append, not_or, hnew, not_not]

/-- A new input buffer is empty. -/
theorem holds_start (hb : c.inputBuffer_ = KBuffer.fresh) :
    Holds (start c).conn.inputBuffer_ [] := by
  dsimp only [start]
  rw [hb]
  exact represents_fresh.holds

/-- Whatever calls of the member functions and of the application follow one another on a
new connection: it is closed exactly if `handleClose` is called, `readv` fails or reports
the end of the stream, or bytes arrive at an input buffer that has no room for them. -/
theorem open_iff (c : Connection) (hb : c.inputBuffer_ = KBuffer.fresh) (events : List Event)
    (r : Receiver) (hrun : run step (start c) events = some r) :
    .deleteAllEvent ∉ r.effects ↔ Meets step Stays (start c) events := by
  exact (open_run (holds_start hb) hrun).trans (and_iff_right nofun)

/-- Two bytes arrive, one is taken out, and the stream ends. -/
def ended : List Event :=
  [.call (.handleRead (.received [7, 8])), .read 1, .call (.handleRead (.received []))]

/-- The end of the stream closes. -/
theorem open_iff_ended :
    ∃ r, run step (start new) ended = some r ∧ .deleteAllEvent ∈ r.effects := by
  obtain ⟨r, hrun⟩ := Option.isSome_iff_exists.mp
    (show (run step (start new) ended).isSome = true by decide +kernel)
  obtain ⟨r₁, he₁, hrun₁⟩ := Option.bind_eq_some_iff.mp hrun
  obtain ⟨r₂, he₂, _⟩ := Option.bind_eq_some_iff.mp hrun₁
  refine ⟨r, hrun, not_not.mp fun hopen => ?_⟩
  have hmeets := (open_iff new rfl ended r hrun).mp hopen
  exact ((hmeets.2 r₁ he₁).2 r₂ he₂).1.1 rfl

end KKNet.ConnectionInput
