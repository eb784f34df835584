import KKNet.BlockLayout

/-!
# The buffer as a byte queue

The purpose of the buffer is a first-in first-out queue of bytes. A buffer
whose write cursor is settled, with no gap, represents the queue of its
unread bytes; every call on it answers as the queue does, except that a write
may be rejected. The run theorem follows any sequence of calls in which no
nonempty write is rejected.
-/

namespace KKNet.BlockQueue

open LinkedCells ListOverlay BlockBuffer BlockLayout Results

/-- One call on the buffer. -/
inductive Op
  /-- `write(buf, size)` with the bytes of `buf`. -/
  | write (buf : List UInt8)
  /-- `peek(buf, size)`. -/
  | peek (size : ℕ)
  /-- `read(buf, size)`. -/
  | read (size : ℕ)
  /-- `retrieve(len)`. -/
  | retrieve (len : ℕ)

/-- What the caller of one call gets. -/
inductive Reply
  /-- The count returned by `write`. -/
  | wrote (count : ℕ)
  /-- The bytes copied into the caller's array. -/
  | copied (bytes : List UInt8)
  /-- `retrieve` returns nothing. -/
  | done
  deriving DecidableEq

/-- One call of the source. -/
def step (s : KBuffer) : Op → Except Fault (Reply × KBuffer)
  | .write buf => do
    let out ← s.write buf
    pure (.wrote out.2, out.1)
  | .peek size => do
    let out ← s.peek size
    pure (.copied out, s)
  | .read size => do
    let out ← s.read size
    pure (.copied out.1, out.2)
  | .retrieve len => do
    let s ← s.retrieve len
    pure (.done, s)

/-- The call of a write that returns. -/
theorem step_write {s s' : KBuffer} {buf : List UInt8} {n : ℕ} (h : s.write buf = .ok (s', n)) :
    step s (.write buf) = .ok (.wrote n, s') := by
  simp only [step, h, ok_bind, pure_eq_ok]

/-- The call of a write that faults. -/
theorem step_write_error {s : KBuffer} {buf : List UInt8} {e : Fault} (h : s.write buf = .error e) :
    step s (.write buf) = .error e := by
  simp only [step, h, error_bind]

/-- The call of a peek that returns. -/
theorem step_peek {s : KBuffer} {size : ℕ} {out : List UInt8} (h : s.peek size = .ok out) :
    step s (.peek size) = .ok (.copied out, s) := by
  simp only [step, h, ok_bind, pure_eq_ok]

/-- The call of a read whose two halves return. -/
theorem step_read {s s' : KBuffer} {size : ℕ} {out : List UInt8} (h : s.peek size = .ok out)
    (h' : s.retrieve size = .ok s') : step s (.read size) = .ok (.copied out, s') := by
  simp only [step, KBuffer.read, h, h', ok_bind, pure_eq_ok]

/-- The call of a retrieve that returns. -/
theorem step_retrieve {s s' : KBuffer} {len : ℕ} (h : s.retrieve len = .ok s') :
    step s (.retrieve len) = .ok (.done, s') := by
  simp only [step, h, ok_bind, pure_eq_ok]

/-- The buffer after a sequence of calls. -/
def run (s : KBuffer) : List Op → Except Fault KBuffer
  | [] => .ok s
  | op :: ops => do
    let out ← step s op
    run out.2 ops

/-- The replies of a sequence of calls, each with the readable size after it;
a fault ends the sequence. -/
def replies (s : KBuffer) : List Op → List (Except Fault (Reply × ℕ))
  | [] => []
  | op :: ops =>
    match step s op with
    | .error e => [.error e]
    | .ok (r, s') => .ok (r, s'.getReadableSize) :: replies s' ops

/-- A call that succeeds is followed by the replies to the rest. -/
theorem replies_ok {s s' : KBuffer} {op : Op} {r : Reply} (he : step s op = .ok (r, s'))
    (ops : List Op) :
    replies s (op :: ops) = .ok (r, s'.getReadableSize) :: replies s' ops := by
  simp only [replies, he]

/-- A fault ends the sequence. -/
theorem replies_error {s : KBuffer} {op : Op} {e : Fault} (he : step s op = .error e)
    (ops : List Op) : replies s (op :: ops) = [.error e] := by
  simp only [replies, he]

/-- The call on a byte queue: writes append, peeks copy the front, retrieves
drop it, and a read does both. -/
def queueStep (q : List UInt8) : Op → Reply × List UInt8
  | .write buf => (.wrote buf.length, q ++ buf)
  | .peek size => (.copied (q.take size), q)
  | .read size => (.copied (q.take size), q.drop size)
  | .retrieve len => (.done, q.drop len)

/-- The replies of the byte queue, each with its length. -/
def queueReplies (q : List UInt8) : List Op → List (Reply × ℕ)
  | [] => []
  | op :: ops => ((queueStep q op).1, (queueStep q op).2.length) :: queueReplies (queueStep q op).2 ops

/-- A nonempty write that returned zero. -/
def Rejected (op : Op) (r : Reply) : Prop := ∃ buf, op = .write buf ∧ buf ≠ [] ∧ r = .wrote 0

/-- No call of the sequence is a rejected write, as long as it runs. -/
def NoReject (s : KBuffer) : List Op → Prop
  | [] => True
  | op :: ops => ∀ r s', step s op = .ok (r, s') → ¬Rejected op r ∧ NoReject s' ops

/-- The room `write` can use without a new block: the blocks before the read
cursor and the bytes behind the write cursor. -/
def room (s : KBuffer) : ℕ := s.usedSize_ - s.readablePos_ + s.writableSize_

/-- The size test of `write`, as one condition. -/
def Accepts (s : KBuffer) (size : ℕ) : Prop :=
  size ≤ room s ∨ s.buflen_ < MAX_BLOCK_SIZE ∧ size ≤ MAX_BLOCK_SIZE - room s

instance (s : KBuffer) (size : ℕ) : Decidable (Accepts s size) :=
  inferInstanceAs (Decidable (_ ∨ _ ∧ _))

variable {s : KBuffer} {chain : List (ℕ × Block)} {ri wi gap : ℕ}

/-- The buffer holds the unread bytes `q`, and no rejected write has left a gap
behind them. -/
def Holds (s : KBuffer) (q : List UInt8) : Prop :=
  ∃ chain ri wi, Layout s chain ri wi 0 ∧ unread s chain = q

/-- The buffer represents the queue `q`: it holds these bytes, and the write
cursor does not stand at the end of a block that has a successor. -/
def Represents (s : KBuffer) (q : List UInt8) : Prop :=
  ∃ chain ri wi, Layout s chain ri wi 0 ∧ (s.writablePos_ = BLOCK_SIZE → wi + 1 = chain.length) ∧
    unread s chain = q

/-- A fresh buffer represents the empty queue. -/
theorem represents_fresh : Represents KBuffer.fresh [] :=
  ⟨[], 0, 0, layout_fresh, fun h => absurd h (by decide), rfl⟩

/-- A representing buffer holds its queue. -/
theorem Represents.holds {q : List UInt8} (h : Represents s q) : Holds s q := by
  obtain ⟨chain, ri, wi, hl, _, hq⟩ := h
  exact ⟨chain, ri, wi, hl, hq⟩

/-- `peek` copies the front of the unread bytes. -/
theorem Holds.peek {q : List UInt8} (h : Holds s q) (k : ℕ) : s.peek k = .ok (q.take k) := by
  obtain ⟨chain, ri, wi, hl, rfl⟩ := h
  exact hl.peek k

/-- `retrieve` drops the front of the unread bytes. -/
theorem Holds.retrieve {q : List UInt8} (h : Holds s q) (k : ℕ) :
    ∃ s', s.retrieve k = .ok s' ∧ Holds s' (q.drop k) := by
  obtain ⟨chain, ri, wi, hl, rfl⟩ := h
  obtain ⟨s', i, he, hl', hd, _⟩ := hl.retrieve k
  exact ⟨s', he, chain, i, wi, hl', hd.unread chain⟩

/-- `retrieve` leaves the write cursor where it is. -/
theorem Represents.retrieve {q : List UInt8} (h : Represents s q) (k : ℕ) :
    ∃ s', s.retrieve k = .ok s' ∧ Represents s' (q.drop k) := by
  obtain ⟨chain, ri, wi, hl, hset, rfl⟩ := h
  obtain ⟨s', i, he, hl', hd, _⟩ := hl.retrieve k
  exact ⟨s', he, chain, i, wi, hl', fun hpos => hset (hd.writablePos ▸ hpos), hd.unread chain⟩

/-- The readable size is the number of unread bytes. -/
theorem Holds.length {q : List UInt8} (h : Holds s q) : s.getReadableSize = q.length := by
  obtain ⟨chain, ri, wi, hl, rfl⟩ := h
  exact hl.length_unread.symm

/-- `peek` of all that is readable gives the queue. -/
theorem Holds.peek_all {q : List UInt8} (h : Holds s q) : s.peek s.getReadableSize = .ok q := by
  rw [h.peek, h.length, List.take_length]

/-- The queue fits the chain. -/
theorem Holds.length_le {q : List UInt8} (h : Holds s q) : q.length ≤ s.buflen_ := by
  have hlen := h.length
  obtain ⟨chain, ri, wi, hl, _⟩ := h
  have ht := hl.total
  unfold KBuffer.getReadableSize at hlen
  omega

/-- The string is made of the queue, the rest of the scratch array, and the memory
behind that. -/
theorem Holds.peekAllAsString {q : List UInt8} (h : Holds s q) (beyond : List UInt8) :
    s.peekAllAsString beyond =
      .ok (KBuffer.cString (q ++ (List.replicate (s.buflen_ - q.length) 0 ++ beyond))) := by
  have hpeek : s.peek s.readableSize_ = .ok q := h.peek_all
  unfold KBuffer.peekAllAsString
  rw [hpeek, ok_bind, List.append_assoc]
  rfl

/-- `do_write` with enough room appends to the queue and settles the write
cursor. -/
theorem represents_doWrite (h : Layout s chain ri wi 0) (buf : List UInt8)
    (hfit : buf.length ≤ s.writableSize_) :
    ∃ s', s.doWrite buf = .ok s' ∧ Represents s' (unread s chain ++ buf) := by
  obtain ⟨s', chain', i, he, hl, _, _, hend, hq⟩ := h.doWrite buf (by omega)
  exact ⟨s', he, chain', ri, i, hl, hend, hq rfl⟩

/-- A write either appends all its bytes or is rejected and appends none; which
one is the size test on the state before it. -/
theorem Represents.write {q : List UInt8} (h : Represents s q) (buf : List UInt8) :
    (Accepts s buf.length ∧ ∃ s', s.write buf = .ok (s', buf.length) ∧ Represents s' (q ++ buf)) ∨
      (¬Accepts s buf.length ∧ ∃ s', s.write buf = .ok (s', 0) ∧ Holds s' q) := by
  have hhold := h.holds
  obtain ⟨chain, ri, wi, hl, hset, rfl⟩ := h
  have hle := hl.not_overtaken hset
  have hbuf := hl.size
  have ht := hl.total
  unfold KBuffer.write Accepts room
  by_cases hearly : buf.length > s.usedSize_ - s.readablePos_ + s.writableSize_ ∧
      s.buflen_ ≥ MAX_BLOCK_SIZE
  · refine Or.inr ⟨by omega, s, ?_, hhold⟩
    rw [if_pos hearly]
    rfl
  rw [if_neg hearly]
  by_cases hfree : buf.length ≤ s.writableSize_
  · obtain ⟨s', he, hr⟩ := represents_doWrite hl buf hfree
    refine Or.inl ⟨by omega, s', ?_, hr⟩
    rw [if_pos hfree, he]
    rfl
  rw [if_neg hfree]
  obtain ⟨s₁, chain₁, wi₁, gap₁, e₁, hl₁, hm, hq₁, hkeep⟩ := hl.moveHead
  obtain ⟨_, rfl⟩ := hkeep hle
  have hw₁ := hm.writableSize
  by_cases hmove : buf.length ≤ s.usedSize_ - s.readablePos_ + s.writableSize_
  · obtain ⟨s', he, hr⟩ := represents_doWrite hl₁ buf (by omega)
    refine Or.inl ⟨by omega, s', ?_, hq₁ ▸ hr⟩
    rw [if_pos hmove, e₁, ok_bind, he]
    rfl
  rw [if_neg hmove, e₁, ok_bind]
  by_cases hbig : buf.length > MAX_BLOCK_SIZE - s₁.writableSize_
  · refine Or.inr ⟨by omega, s₁, ?_, chain₁, 0, wi₁, hl₁, hq₁⟩
    rw [if_pos hbig]
    rfl
  · obtain ⟨s₂, extra, wi₂, e₂, hl₂, hg, hlo, _⟩ := hl₁.makeSpace buf.length (by omega)
    have hw₂ := hg.writableSize
    obtain ⟨s', he, hr⟩ := represents_doWrite hl₂ buf (by omega)
    refine Or.inl ⟨by omega, s', ?_, hq₁ ▸ hl₁.unread_makeSpace hg extra ▸ hr⟩
    rw [if_neg hbig, e₂, ok_bind, he]
    rfl

/-- One call on a representing buffer answers as the queue does, unless it is
a rejected write. -/
theorem Represents.step {q : List UInt8} (h : Represents s q) (op : Op) :
    ∃ r s', BlockQueue.step s op = .ok (r, s') ∧
      (Rejected op r ∨ r = (queueStep q op).1 ∧ Represents s' (queueStep q op).2) := by
  unfold queueStep
  cases op with
  | write buf =>
    rcases h.write buf with ⟨_, s', he, hr⟩ | ⟨hacc, s', he, _⟩
    · exact ⟨.wrote buf.length, s', step_write he, Or.inr ⟨rfl, hr⟩⟩
    · have hne : buf ≠ [] := fun hnil => hacc (Or.inl (by simp [hnil]))
      exact ⟨.wrote 0, s', step_write he, Or.inl ⟨buf, rfl, hne, rfl⟩⟩
  | peek size => exact ⟨_, s, step_peek (h.holds.peek size), Or.inr ⟨rfl, h⟩⟩
  | read size =>
    obtain ⟨s', he, hr⟩ := h.retrieve size
    exact ⟨_, s', step_read (h.holds.peek size) he, Or.inr ⟨rfl, hr⟩⟩
  | retrieve len =>
    obtain ⟨s', he, hr⟩ := h.retrieve len
    exact ⟨.done, s', step_retrieve he, Or.inr ⟨rfl, hr⟩⟩

/-- From a representing buffer, a sequence without a rejected write gets the
replies of the queue. -/
theorem Represents.run {q : List UInt8} (h : Represents s q) (ops : List Op)
    (hn : NoReject s ops) : replies s ops = (queueReplies q ops).map Except.ok := by
  induction ops generalizing s q with
  | nil => rfl
  | cons op ops ih =>
    obtain ⟨r, s', he, hr⟩ := h.step op
    obtain ⟨hno, hrest⟩ := hn r s' he
    rcases hr with hrej | ⟨rfl, hr⟩
    · exact absurd hrej hno
    · rw [replies_ok he, hr.holds.length, ih hr hrest]
      rfl

/-- A write the size test accepts is not rejected. -/
theorem Represents.noReject_write {q : List UInt8} (h : Represents s q) {buf : List UInt8}
    {ops : List Op} (ha : Accepts s buf.length)
    (hrest : ∀ s', Represents s' (q ++ buf) → NoReject s' ops) : NoReject s (.write buf :: ops) := by
  intro r s' he
  rcases h.write buf with ⟨_, s₁, hw, hr⟩ | ⟨hacc, _⟩
  · rw [step_write hw, Except.ok.injEq, Prod.mk.injEq] at he
    rw [← he.1, ← he.2]
    refine ⟨?_, hrest s₁ hr⟩
    rintro ⟨data, hop, hne, hzero⟩
    have hdata : buf = data := Op.write.inj hop
    have hlen : buf.length = 0 := Reply.wrote.inj hzero
    exact hne (hdata ▸ List.eq_nil_of_length_eq_zero hlen)
  · exact absurd ha hacc

/-- Only a write can be a rejected write. -/
theorem not_rejected {op : Op} {r : Reply} (hop : ∀ buf, op ≠ .write buf) : ¬Rejected op r := by
  rintro ⟨buf, he, _⟩
  exact hop buf he

/-- A fresh buffer is a first-in first-out queue of bytes: in every sequence
of calls in which no nonempty write is rejected, no call faults and each one
gives the reply and the readable size of the queue. -/
theorem buffer_is_fifo (ops : List Op) (hn : NoReject KBuffer.fresh ops) :
    replies KBuffer.fresh ops = (queueReplies [] ops).map Except.ok :=
  represents_fresh.run ops hn

/-- The replies to a write with a zero byte, a partial read and a drop of more
than is left. -/
theorem buffer_is_fifo_three_bytes :
    replies KBuffer.fresh [.write [7, 0, 9], .read 2, .retrieve 5] =
      [.ok (.wrote 3, 3), .ok (.copied [7, 0], 1), .ok (.done, 0)] := by
  refine buffer_is_fifo _ (represents_fresh.noReject_write (by decide) ?_)
  intro s _ r s' _
  refine ⟨not_rejected (by simp), fun r' s'' _ => ⟨not_rejected (by simp), trivial⟩⟩

end KKNet.BlockQueue
