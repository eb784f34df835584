import KKNet.BlockTruth
import KKNet.ConnectionStream
import KKNet.Runs

/-!
# From one end to the other

A connection sends to a connection whose input buffer is filled by `readFd`; between
them the network carries what the one socket has taken to the other, in order. What
was consumed at the receiver, what is unread there, what the network carries and what
is pending at the sender should be what was sent, at any time. It is exactly as long as
every send and every write event delivers and every `readFd` keeps what `readv` gave it.
The vectors of a `readFd` are taken to fit `vec` and the limit of `readv`: a call that
`readv` refuses delivers nothing, and is no event here.
-/

namespace KKNet.ConnectionDelivery

open Runs Results BlockBuffer BlockLayout BlockQueue BlockScatter BlockTruth
open ConnectionStream (Output Delivers)

/-- Two ends and the network between them. -/
structure Transfer where
  /-- The sender. -/
  output : Output
  /-- What the sender's socket took and the receiver's `readv` has not delivered. -/
  network : List UInt8
  /-- The receiver's input buffer. -/
  input : Stream

/-- What can happen next. -/
inductive Event
  /-- A send, or a write event at the sender. -/
  | sender (e : ConnectionStream.Event)
  /-- `readFd` at the receiver, while that many bytes have arrived. -/
  | readFd (arrived : ℕ)
  /-- The receiver looks at its input. -/
  | peek (size : ℕ)
  /-- The receiver takes bytes out. -/
  | read (size : ℕ)
  /-- The receiver drops bytes. -/
  | retrieve (len : ℕ)

/-- One step, which may fault. -/
def perform (d : Transfer) : Event → Except Fault Transfer
  | .sender e => do
    let output ← ConnectionStream.step d.output e
    pure { d with
      output := output
      network := d.network ++ output.wire.drop d.output.wire.length }
  | .readFd arrived => do
    let data ← d.input.buffer.delivered (d.network.take arrived)
    let input ← d.input.step (.readFd (d.network.take arrived))
    pure { d with input := input, network := d.network.drop data.length }
  | .peek size => do
    let input ← d.input.step (.peek size)
    pure { d with input := input }
  | .read size => do
    let input ← d.input.step (.read size)
    pure { d with input := input }
  | .retrieve len => do
    let input ← d.input.step (.retrieve len)
    pure { d with input := input }

/-- One step; there is none where it faults. -/
def step (d : Transfer) (e : Event) : Option Transfer := (perform d e).toOption

/-- Nothing was sent yet. -/
def start (conn : Connections.Connection) : Transfer := ⟨⟨conn, [], []⟩, [], .fresh⟩

/-- Whatever was sent was consumed, is unread, is on its way or is pending, in this order. -/
def Complete (d : Transfer) : Prop :=
  ∃ unread pending, d.input.buffer.peek d.input.buffer.getReadableSize = .ok unread ∧
    d.output.conn.outputBuffer_.peek d.output.conn.outputBuffer_.getReadableSize = .ok pending ∧
    d.input.consumed ++ unread ++ d.network ++ pending = d.output.sent

/-- What spills over the chain in a `readFd` that gets so many bytes is taken by `write`. -/
def Spills (s : KBuffer) (t : ℕ) : Prop :=
  s.writableSize_ < t →
    t - s.writableSize_ ≤ s.usedSize_ - s.readablePos_ ∨ s.buflen_ < MAX_BLOCK_SIZE

/-- The steps that lose nothing. -/
def Arrives (d : Transfer) : Event → Prop
  | .sender e => Delivers d.output.conn e
  | .readFd arrived => ∀ data, d.input.buffer.delivered (d.network.take arrived) = .ok data →
      Spills d.input.buffer data.length
  | _ => True

variable {d : Transfer} {s : KBuffer} {q avail data : List UInt8}

/-! ### The receiver -/

/-- `readFd` sees what `readv` delivers and nothing else. -/
theorem readFd_delivered (h : s.delivered avail = .ok data) :
    s.readFd (some avail) = s.readFd (some data) := by
  unfold KBuffer.delivered at h
  obtain ⟨vec, hvec, hdata⟩ := ok_of_bind h
  cases hdata
  unfold KBuffer.readFd
  dsimp only
  rw [hvec, ok_bind, ok_bind, List.take_take, min_self]

/-- `readFd` reports all that was delivered exactly if the spill is taken. -/
theorem readFd_spills (h : Holds s q) (avail : List UInt8) :
    ∃ data s' k, s.delivered avail = .ok data ∧ s.readFd (some avail) = .ok (s', k) ∧
      k ≤ data.length ∧ data <+: avail ∧ (k = data.length ↔ Spills s data.length) := by
  obtain ⟨data, s', k, ed, er, hk, hs'⟩ := Holds.readFd h avail
  obtain ⟨chain, ri, wi, hl, _⟩ := id h
  obtain ⟨data', hdata', ed', _⟩ := BlockCalls.Layout.readFd hl avail
  cases ed.symm.trans ed'
  have hfit : data.length ≤ s.writableSize_ + KBuffer.EXTRA_SIZE := by
    rw [hdata', List.length_take]
    omega
  refine ⟨data, s', k, ed, er, hk, hdata' ▸ List.take_prefix _ _, ?_⟩
  unfold Spills
  rw [← truthful_iff hl hfit]
  constructor
  · rintro rfl
    rw [List.take_length] at hs'
    refine ⟨s', q, (readFd_delivered ed).symm.trans er, ?_, h.peek_all, hs'.peek_all⟩
    rw [hs'.length, h.length, List.length_append]
  · rintro ⟨s'', _, he, _⟩
    rw [← readFd_delivered ed, er] at he
    cases he
    rfl

/-- What the receiver takes out leaves what was received. -/
theorem received_step {st st' : Stream} {op : InOp} (hop : ∀ avail, op ≠ .readFd avail)
    (h : st.step op = .ok st') : st'.received = st.received := by
  unfold Stream.step at h
  cases op with
  | readFd avail => exact absurd rfl (hop avail)
  | peek size =>
    obtain ⟨_, _, h⟩ := ok_of_bind h
    cases h
    rfl
  | read size =>
    obtain ⟨_, _, h⟩ := ok_of_bind h
    cases h
    rfl
  | retrieve len =>
    obtain ⟨_, _, h⟩ := ok_of_bind h
    obtain ⟨_, _, h⟩ := ok_of_bind h
    cases h
    rfl

/-! ### Both ends -/

/-- Nothing was lost so far. -/
structure Sound (d : Transfer) : Prop where
  /-- The sender's stream. -/
  output : ConnectionStream.Sound d.output
  /-- The receiver's stream. -/
  input : d.input.Balanced
  /-- The network. -/
  network : d.input.received ++ d.network = d.output.wire

/-- If nothing was lost, all is there. -/
theorem Sound.complete (h : Sound d) : Complete d := by
  obtain ⟨_, pending, hpending, hsent⟩ := h.output
  obtain ⟨unread, hunread, hreceived⟩ := h.input
  refine ⟨unread, pending, hunread.peek_all, hpending.holds.peek_all, ?_⟩
  rw [hreceived, h.network, hsent]

/-- What the sender's step hands to the socket joins the wire. -/
theorem wire_step {o o' : Output} {e : ConnectionStream.Event}
    (h : ConnectionStream.step o e = .ok o') : o.wire <+: o'.wire := by
  cases e with
  | send data ans =>
    obtain ⟨out, _, h⟩ := ok_of_bind h
    cases h
    exact List.prefix_append _ _
  | writable beyond ans =>
    obtain ⟨out, _, h⟩ := ok_of_bind h
    cases h
    exact List.prefix_append _ _

/-- A step of the sender. -/
theorem Sound.sender (h : Sound d) (e : ConnectionStream.Event) :
    ∃ d', step d (.sender e) = some d' ∧ (Arrives d (.sender e) → Sound d') ∧
      (¬Arrives d (.sender e) → ¬Complete d') := by
  obtain ⟨o', he, hyes, hno⟩ := ConnectionStream.sound_step h.output e
  have hstep : step d (.sender e) = some { d with
      output := o'
      network := d.network ++ o'.wire.drop d.output.wire.length } := by
    unfold step perform
    dsimp only
    rw [he]
    rfl
  have hnet : d.input.received ++ (d.network ++ o'.wire.drop d.output.wire.length) = o'.wire := by
    rw [← List.append_assoc, h.network]
    exact (List.prefix_iff_eq_append.mp (wire_step he))
  refine ⟨_, hstep, fun hd => ⟨hyes hd, h.input, hnet⟩, fun hd hcomplete => hno hd ?_⟩
  obtain ⟨unread, pending, hunread, hpending, hsent⟩ := hcomplete
  obtain ⟨q, hq, hreceived⟩ := h.input
  rw [hq.peek_all] at hunread
  cases hunread
  dsimp only at hpending hsent
  rw [hreceived, hnet] at hsent
  exact ⟨pending, hpending, hsent⟩

/-- `readFd` at the receiver. -/
theorem Sound.readFd (h : Sound d) (arrived : ℕ) :
    ∃ d', step d (.readFd arrived) = some d' ∧ (Arrives d (.readFd arrived) → Sound d') ∧
      (¬Arrives d (.readFd arrived) → ¬Complete d') := by
  obtain ⟨q, hq, hreceived⟩ := id h.input
  obtain ⟨data, s', k, ed, er, hk, hpre, hiff⟩ := readFd_spills hq (d.network.take arrived)
  have hnet : data ++ d.network.drop data.length = d.network :=
    List.prefix_iff_eq_append.mp (hpre.trans (List.take_prefix _ _))
  have hin : d.input.step (.readFd (d.network.take arrived)) =
      .ok { d.input with buffer := s', received := d.input.received ++ data.take k } := by
    unfold Stream.step
    simp only [ed, er, ok_bind, pure_eq_ok]
  obtain ⟨st', he, hbalanced⟩ := h.input.step (.readFd (d.network.take arrived))
  cases hin.symm.trans he
  have hstep : step d (.readFd arrived) = some { d with
      input := { d.input with buffer := s', received := d.input.received ++ data.take k }
      network := d.network.drop data.length } := by
    unfold step perform
    dsimp only
    rw [ed, ok_bind, hin]
    rfl
  have harrives : Arrives d (.readFd arrived) ↔ k = data.length := by
    rw [hiff]
    constructor
    · exact fun hall => hall data ed
    · intro hspills data' ed'
      cases ed.symm.trans ed'
      exact hspills
  refine ⟨_, hstep, fun hd => ⟨h.output, hbalanced, ?_⟩, fun hd hcomplete => ?_⟩
  · dsimp only
    rw [harrives.mp hd, List.take_length, List.append_assoc, hnet, h.network]
  · obtain ⟨unread, pending, hunread, hpending, hsent⟩ := hcomplete
    obtain ⟨q', hq', hreceived'⟩ := hbalanced
    rw [hq'.peek_all] at hunread
    cases hunread
    obtain ⟨_, pending', hpending', hsent'⟩ := h.output
    rw [hpending'.holds.peek_all] at hpending
    cases hpending
    dsimp only at hreceived' hsent
    rw [hreceived', ← hsent', ← h.network] at hsent
    have hlen := congrArg List.length hsent
    have hall := congrArg List.length hnet
    simp only [List.length_append, List.length_take] at hlen hall
    have hlt : k ≠ data.length := fun heq => hd (harrives.mpr heq)
    omega

/-- The receiver looks at its input, takes bytes out or drops them. -/
theorem Sound.consume (h : Sound d) {op : InOp} (hop : ∀ avail, op ≠ .readFd avail) :
    ∃ input, d.input.step op = .ok input ∧ Sound { d with input := input } := by
  obtain ⟨input, he, hbalanced⟩ := h.input.step op
  exact ⟨input, he, h.output, hbalanced, (received_step hop he).symm ▸ h.network⟩

/-- From a state in which nothing was lost, every step is taken; if it loses nothing
either, nothing is lost afterwards, else something is missing. -/
theorem Sound.step (h : Sound d) (e : Event) :
    ∃ d', ConnectionDelivery.step d e = some d' ∧ (Arrives d e → Sound d') ∧
      (¬Arrives d e → ¬Complete d') := by
  have hconsume : ∀ op : InOp, (∀ avail, op ≠ .readFd avail) →
      (perform d e = do
        let input ← d.input.step op
        pure { d with input := input }) → Arrives d e →
      ∃ d', ConnectionDelivery.step d e = some d' ∧ (Arrives d e → Sound d') ∧
        (¬Arrives d e → ¬Complete d') := by
    intro op hop hperform harrives
    obtain ⟨input, he, hs⟩ := h.consume hop
    refine ⟨{ d with input := input }, ?_, fun _ => hs, fun hno => absurd harrives hno⟩
    unfold ConnectionDelivery.step
    rw [hperform, he]
    rfl
  cases e with
  | sender e => exact h.sender e
  | readFd arrived => exact h.readFd arrived
  | peek size => exact hconsume (.peek size) (fun _ heq => by cases heq) rfl trivial
  | read size => exact hconsume (.read size) (fun _ heq => by cases heq) rfl trivial
  | retrieve len => exact hconsume (.retrieve len) (fun _ heq => by cases heq) rfl trivial

/-- Between a connection with an empty send buffer and a new input buffer, all that was
sent is consumed, unread, on its way or pending, in this order and throughout a run,
exactly if each send and each write event of the run delivers and each `readFd` takes
what spills over the chain. -/
theorem delivery_complete_iff (c : Connections.Connection) (hs : c.state_ ≠ .kDisconnected)
    (hb : c.outputBuffer_ = KBuffer.fresh) (events : List Event) :
    (∀ k, ∃ d, run step (start c) (events.take k) = some d ∧ Complete d) ↔
      Meets step Arrives (start c) events := by
  refine prefixes_iff_meets Sound Complete (fun _ h => h.complete) (fun d e h => h.step e)
    ⟨⟨hs, [], ?_, rfl⟩, ⟨[], represents_fresh.holds, rfl⟩, rfl⟩ events
  dsimp only [start]
  rw [hb]
  exact represents_fresh

/-- Three bytes are sent, one is taken and consumed; the other two are on their way. -/
theorem delivery_complete_three :
    (∀ k, ∃ d, run step (start ConnectionStream.plain)
        ([.sender (.send [7, 0, 9] (.accepted 1)), .readFd 1, .read 1,
          .sender (.writable [] (.accepted 2))].take k) = some d ∧ Complete d) ↔
      Meets step Arrives (start ConnectionStream.plain)
        [.sender (.send [7, 0, 9] (.accepted 1)), .readFd 1, .read 1,
          .sender (.writable [] (.accepted 2))] :=
  delivery_complete_iff ConnectionStream.plain (by decide) rfl _

end KKNet.ConnectionDelivery
