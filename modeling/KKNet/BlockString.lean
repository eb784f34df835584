import KKNet.BlockReject
import KKNet.ConnectionStream

/-!
# The buffer as a string

`peekAllAsString` and `readAllAsString` copy the unread bytes into a zeroed array
of the size of the buffer and make a string of the array up to its first zero. The
string is exact exactly if no unread byte is zero and the array has one byte more
than the unread ones; then `handleWrite` and `send` lose nothing to it either.
-/

namespace KKNet.BlockString

open BlockBuffer BlockLayout BlockQueue BlockReject Connections Results
open ConnectionStream (handed handed_nil handed_written finishWrite_spec)

/-- `readAllAsString`, with the memory behind the scratch array. -/
def readAllAsString (s : KBuffer) (beyond : List UInt8) : Except Fault (List UInt8 × KBuffer) := do
  let out ← s.read s.readableSize_
  pure (KBuffer.cString (out.1 ++ List.replicate (s.buflen_ - out.1.length) 0 ++ beyond), out.2)

/-- `Connection::send(KBuffer*)`: the calls made, and the buffer afterwards. -/
def sendBuffer (c : Connection) (data : KBuffer) (beyond : List UInt8) :
    Except Fault ((Connection × List Effect) × KBuffer) := do
  let d ← readAllAsString data beyond
  pure (c.send d.1, d.2)

/-- The strings made of the buffer are the unread bytes `q`, whatever memory lies
behind the scratch array, and so is what the connection makes of them. -/
structure StringExact (s : KBuffer) (q : List UInt8) : Prop where
  /-- `peekAllAsString` gives `q`. -/
  peeked : ∀ beyond, s.peekAllAsString beyond = .ok q
  /-- `readAllAsString` gives `q` and leaves nothing readable. -/
  taken : ∀ beyond, ∃ s', readAllAsString s beyond = .ok (q, s') ∧ s'.getReadableSize = 0
  /-- `handleWrite` offers the socket all of `q`: a socket that takes `n` bytes gets so
  many of them. -/
  offered : ∀ (c : Connection) beyond n, c.writing_ = true → c.outputBuffer_ = s →
    ∃ out, c.handleWrite beyond (.accepted n) = .ok out ∧ handed out.2 = q.take n
  /-- `send(KBuffer*)` sends all of `q`. -/
  sent : ∀ (c : Connection) beyond, ∃ s',
    sendBuffer c s beyond = .ok ((c, [.runInLoop (.sendInLoop q)]), s') ∧ s'.getReadableSize = 0

variable {s : KBuffer} {q : List UInt8}

/-- The bytes before a zero byte, when they have none. -/
theorem cString_append {data rest : List UInt8} (h : 0 ∉ data) :
    KBuffer.cString (data ++ 0 :: rest) = data := by
  unfold KBuffer.cString
  have hself : data.takeWhile (· ≠ 0) = data := by
    rw [List.takeWhile_eq_self_iff]
    intro b hb
    exact decide_eq_true fun hz => h (hz ▸ hb)
  rw [List.takeWhile_append, hself, if_pos rfl, List.takeWhile_cons_of_neg (by simp), List.append_nil]

/-- With a spare byte in the array, the string of bytes other than zero is exact. -/
theorem cString_scratch (hz : 0 ∉ q) {size : ℕ} (hlt : q.length < size) (beyond : List UInt8) :
    KBuffer.cString (q ++ (List.replicate (size - q.length) 0 ++ beyond)) = q := by
  obtain ⟨n, hn⟩ : ∃ n, size - q.length = n + 1 := ⟨size - q.length - 1, by omega⟩
  rw [hn, List.replicate_succ, List.cons_append]
  exact cString_append hz

/-- No string has a zero byte in it. -/
theorem zero_not_mem_cString (memory : List UInt8) : 0 ∉ KBuffer.cString memory := by
  intro hmem
  have hne := List.mem_takeWhile_imp hmem
  simp at hne

/-- A drained buffer has nothing readable. -/
theorem drained (h : Represents s q) :
    ∃ s', s.read s.readableSize_ = .ok (q, s') ∧ s'.getReadableSize = 0 := by
  obtain ⟨s', he, hrep⟩ := h.retrieve s.readableSize_
  have hpeek : s.peek s.readableSize_ = .ok q := h.holds.peek_all
  have hall : s.readableSize_ = q.length := h.holds.length
  refine ⟨s', ?_, ?_⟩
  · simp only [KBuffer.read, hpeek, he, ok_bind, pure_eq_ok]
  · rw [hrep.holds.length, hall, List.drop_length]
    rfl

/-- `readAllAsString` takes all and makes its string like `peekAllAsString`. -/
theorem readAllAsString_eq (h : Represents s q) (hz : 0 ∉ q) (hlt : q.length < s.buflen_)
    (beyond : List UInt8) : ∃ s', readAllAsString s beyond = .ok (q, s') ∧ s'.getReadableSize = 0 := by
  obtain ⟨s', hread, hempty⟩ := drained h
  refine ⟨s', ?_, hempty⟩
  unfold readAllAsString
  rw [hread, ok_bind]
  dsimp only
  rw [List.append_assoc, cString_scratch hz hlt]
  rfl

/-- `handleWrite` hands over what the socket takes of its string. -/
theorem handed_handleWrite (h : Represents s q) (hz : 0 ∉ q) (hlt : q.length < s.buflen_)
    {c : Connection} (hw : c.writing_ = true) (hc : c.outputBuffer_ = s) (beyond : List UInt8) (n : ℕ) :
    ∃ out, c.handleWrite beyond (.accepted n) = .ok out ∧ handed out.2 = q.take n := by
  have hstring := h.holds.peekAllAsString beyond
  rw [cString_scratch hz hlt, ← hc] at hstring
  unfold Connection.handleWrite
  rw [if_pos hw, hstring, ok_bind]
  dsimp only
  by_cases hpos : (q.take n).length > 0
  · obtain ⟨s', he, _⟩ := h.retrieve (q.take n).length
    rw [if_pos hpos, hc, he, ok_bind]
    refine ⟨_, rfl, ?_⟩
    rw [handed_written]
    by_cases hempty : s'.getReadableSize = 0
    · obtain ⟨hhand, _⟩ := finishWrite_spec { c with outputBuffer_ := s' }
      rw [if_pos hempty, hhand, List.append_nil]
    · rw [if_neg hempty, handed_nil, List.append_nil]
  · have hnil : q.take n = [] := List.eq_nil_of_length_eq_zero (by omega)
    rw [if_neg hpos, hnil]
    exact ⟨_, rfl, rfl⟩

/-- The strings are exact exactly if no unread byte is zero and the unread bytes do
not fill the buffer. -/
theorem stringExact_iff (h : Represents s q) : StringExact s q ↔ 0 ∉ q ∧ q.length < s.buflen_ := by
  constructor
  · intro hexact
    have hstring : ∀ beyond, KBuffer.cString (q ++ (List.replicate (s.buflen_ - q.length) 0 ++ beyond)) = q :=
      fun beyond => Except.ok.inj ((h.holds.peekAllAsString beyond).symm.trans (hexact.peeked beyond))
    have hz : 0 ∉ q := fun hmem => zero_not_mem_cString _ ((hstring []).symm ▸ hmem)
    refine ⟨hz, ?_⟩
    by_contra hfull
    -- with the array full, the memory behind it decides
    have hnone : s.buflen_ - q.length = 0 := by omega
    have hmore := hstring [1, 0]
    rw [hnone, List.replicate_zero, List.nil_append, List.append_cons,
      cString_append (by simp [hz])] at hmore
    exact absurd (congrArg List.length hmore) (by simp)
  · rintro ⟨hz, hlt⟩
    refine ⟨fun beyond => ?_, readAllAsString_eq h hz hlt,
      fun c beyond n hw hc => handed_handleWrite h hz hlt hw hc beyond n, fun c beyond => ?_⟩
    · rw [h.holds.peekAllAsString, cString_scratch hz hlt]
    · obtain ⟨s', hread, hempty⟩ := readAllAsString_eq h hz hlt beyond
      refine ⟨s', ?_, hempty⟩
      unfold sendBuffer
      rw [hread, ok_bind]
      rfl

/-- Without a rejected write a run leads to a buffer that represents a queue. -/
theorem represents_run (h : Represents s q) {ops : List Op} (hn : NoReject s ops) {s' : KBuffer}
    (he : run s ops = .ok s') : ∃ q', Represents s' q' := by
  induction ops generalizing s q with
  | nil =>
    cases he
    exact ⟨q, h⟩
  | cons op ops ih =>
    obtain ⟨r, s₁, hstep, hr⟩ := h.step op
    obtain ⟨hno, hrest⟩ := hn r s₁ hstep
    rw [run, hstep, ok_bind] at he
    rcases hr with hrej | ⟨_, hrep⟩
    · exact absurd hrej hno
    · exact ih hrep hrest he

/-- In every state that accepted writes, peeks, reads and retrieves lead to, the
strings made of the unread bytes are exact exactly if none of these is zero and they
do not fill the buffer. -/
theorem strings_exact_iff (ops : List Op) (hn : NoReject KBuffer.fresh ops) (s : KBuffer)
    (hrun : run KBuffer.fresh ops = .ok s) :
    ∃ q, s.peek s.getReadableSize = .ok q ∧ (StringExact s q ↔ 0 ∉ q ∧ q.length < s.buflen_) := by
  obtain ⟨q, hq⟩ := represents_run represents_fresh hn hrun
  exact ⟨q, hq.holds.peek_all, stringExact_iff hq⟩

/-- The run of one accepted write to a fresh buffer. -/
theorem run_write (data : List UInt8) (hmax : data.length ≤ MAX_BLOCK_SIZE) :
    ∃ s, run KBuffer.fresh [.write data] = .ok s ∧ NoReject KBuffer.fresh [.write data] ∧
      Represents s data := by
  have hroom : room KBuffer.fresh = 0 := rfl
  have hacc : Accepts KBuffer.fresh data.length :=
    Or.inr ⟨by decide, by rw [hroom]; exact hmax⟩
  rcases represents_fresh.write data with ⟨_, s, hw, hrep⟩ | ⟨hno, _⟩
  · refine ⟨s, ?_, represents_fresh.noReject_write hacc fun _ _ => trivial, hrep⟩
    simp only [run, step_write hw, ok_bind]
  · exact absurd hacc hno

/-- The strings of 2000 bytes in three blocks, of which the first is half read. -/
theorem strings_exact_halfRead :
    ∃ s, run KBuffer.fresh halfRead = .ok s ∧
      s.peek s.getReadableSize = .ok (List.replicate 2000 7) ∧
      StringExact s (List.replicate 2000 7) := by
  obtain ⟨s, hrun, hn, hrep, hlen, _⟩ := run_halfRead
  obtain ⟨q, hpeek, hiff⟩ := strings_exact_iff halfRead hn s hrun
  obtain rfl : q = List.replicate 2000 7 :=
    Except.ok.inj (hpeek.symm.trans hrep.holds.peek_all)
  refine ⟨s, hrun, hpeek, hiff.mpr ⟨fun hz => ?_, ?_⟩⟩
  · exact absurd (List.eq_of_mem_replicate hz) (by decide)
  · rw [List.length_replicate, hlen]
    decide

/-- The string of a buffer with a zero byte in it is empty. -/
theorem string_of_zero :
    ∃ s, run KBuffer.fresh [.write [0]] = .ok s ∧ s.peek s.getReadableSize = .ok [0] ∧
      (∀ beyond, s.peekAllAsString beyond = .ok []) ∧ ¬StringExact s [0] := by
  obtain ⟨s, hrun, _, hrep⟩ := run_write [0] (by decide)
  have hempty : ∀ beyond, s.peekAllAsString beyond = .ok [] := fun beyond => hrep.holds.peekAllAsString beyond
  refine ⟨s, hrun, hrep.holds.peek_all, hempty, fun hexact => ?_⟩
  have heq := Except.ok.inj ((hempty []).symm.trans (hexact.peeked []))
  cases heq

end KKNet.BlockString
