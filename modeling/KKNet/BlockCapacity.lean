import KKNet.BlockCalls

/-!
# The capacity of the buffer

`write` compares the size with the limit less the free room, and then adds
blocks for the whole size to the blocks there are. The size of the buffer stays
within the limit, and the vectors of `readFd` within their array, exactly as long
as no write that adds blocks takes the buffer over the limit.
-/

namespace KKNet.BlockCapacity

open LinkedCells ListOverlay Results BlockBuffer BlockLayout BlockQueue BlockScatter
open BlockReject BlockCalls

/-- The walk of `KBuffer::~KBuffer` from `head_`: the blocks it deletes. -/
def deleted (s : KBuffer) : ℕ → Ptr → Except Fault (List ℕ)
  | _, none => .ok []
  | 0, some _ => .error .stuck
  | fuel + 1, some a => do
    let b ← s.deref (some a)
    let rest ← deleted s fuel b.next
    pure (a :: rest)

/-- `sizeof vec / sizeof(struct iovec)` in `readFd`. -/
def VEC_SIZE : ℕ := MAX_BLOCK_SIZE / BLOCK_SIZE + 1

/-- The most vectors `readv` takes in a call; it refuses more of them with `EINVAL`. -/
def IOV_MAX : ℕ := 1024

/-- How many vectors `readFd` fills: the blocks from the write cursor on, and `extrabuf`. -/
def vectors (s : KBuffer) : ℕ :=
  match s.ioVecs (s.heap.length + 1) s.writestr_ with
  | .ok vec => vec.length + 1
  | .error _ => 0

/-- The buffer is as large as the blocks on its chain, at most the limit, and
`readFd` fills no more vectors than its array has. -/
structure Bounded (s : KBuffer) : Prop where
  /-- `buflen_` counts the blocks on the chain. -/
  chain : ∃ blocks, deleted s (s.heap.length + 1) s.head_ = .ok blocks ∧
    s.buflen_ = BLOCK_SIZE * blocks.length
  /-- The limit. -/
  limit : s.buflen_ ≤ MAX_BLOCK_SIZE
  /-- The blocks from the write cursor on and the spill array. -/
  vectors : ∃ vec, s.ioVecs (s.heap.length + 1) s.writestr_ = .ok vec ∧ vec.length + 1 ≤ VEC_SIZE

/-- The bytes of the blocks `makeSpace(len)` adds. -/
def blocksFor (len : ℕ) : ℕ := (len + (BLOCK_SIZE - 1)) / BLOCK_SIZE * BLOCK_SIZE

/-- The bytes a write of this size adds to the buffer: none unless the size is
more than the room, the buffer below its limit and the size within the limit less
the room. -/
def growth (s : KBuffer) (size : ℕ) : ℕ :=
  if room s < size ∧ s.buflen_ < MAX_BLOCK_SIZE ∧ size ≤ MAX_BLOCK_SIZE - room s then blocksFor size
  else 0

/-- The bytes a `readFd` adds: it writes what the blocks do not take, when the
write cursor has reached the end of the chain. -/
def spillGrowth (s : KBuffer) (avail : List UInt8) : ℕ :=
  match s.delivered avail with
  | .ok data =>
    if data.length ≤ s.writableSize_ then 0
    else growth { s with writableSize_ := 0 } (data.length - s.writableSize_)
  | .error _ => 0

/-- The bytes a call adds to the buffer. -/
def growthOf (s : KBuffer) : Call → ℕ
  | .op (.write buf) => growth s buf.length
  | .readFd (some avail) => spillGrowth s avail
  | _ => 0

variable {s : KBuffer} {chain : List (ℕ × Block)} {ri wi gap : ℕ}

/-- The destructor's walk visits a chain in order. -/
theorem deleted_seg {p : Ptr} {xs : List (ℕ × Block)} (hs : Seg s.heap p xs none) {fuel : ℕ}
    (hf : xs.length ≤ fuel) : deleted s fuel (firstPtr xs none) = .ok (addrs xs) := by
  induction xs generalizing p fuel with
  | nil => cases fuel <;> rfl
  | cons c xs ih =>
    obtain ⟨fuel, rfl⟩ : ∃ n, fuel = n + 1 := ⟨fuel - 1, by rw [List.length_cons] at hf; omega⟩
    have hrest := ih hs.2 (by simpa using hf)
    rw [firstPtr_cons, deleted, deref_some hs.1, ok_bind, hrest, ok_bind]
    rfl

/-- In a layout only the limit can fail. -/
theorem bounded_iff (h : Shaped s) : Bounded s ↔ s.buflen_ ≤ MAX_BLOCK_SIZE := by
  refine ⟨Bounded.limit, fun hmax => ?_⟩
  obtain ⟨chain, ri, wi, gap, hl⟩ := h
  have hlen := hl.length_le_heap
  have hz := hl.size
  obtain ⟨vec, ev, _, hv, _⟩ := Layout.scatter hl
  refine ⟨⟨addrs chain, ?_, ?_⟩, hmax, vec, ev, ?_⟩
  · rw [hl.head]
    exact deleted_seg hl.linked (by omega)
  · rw [hz, List.length_map, Nat.mul_comm]
  · have hblocks : chain.length ≤ MAX_BLOCK_SIZE / BLOCK_SIZE := by
      rw [Nat.le_div_iff_mul_le (by decide), ← hz]
      exact hmax
    unfold VEC_SIZE
    omega

/-- `do_write` counts its bytes. -/
theorem doWrite_written (h : Shaped s) {buf : List UInt8} {s' : KBuffer}
    (he : s.doWrite buf = .ok s') : Written s s' buf.length := by
  obtain ⟨chain, ri, wi, gap, hl⟩ := h
  by_cases hfit : gap + buf.length ≤ s.writableSize_
  · obtain ⟨s₁, chain', i, hd, _, hwrote, _⟩ := hl.doWrite buf hfit
    rw [hd, Except.ok.injEq] at he
    exact he ▸ hwrote
  · rw [hl.doWrite_null (by omega)] at he
    cases he

/-- `move_head` turns the blocks before the read cursor into room. -/
theorem moveHead_moved (h : Shaped s) {s' : KBuffer} (he : s.moveHead = .ok s') : Moved s s' := by
  obtain ⟨chain, ri, wi, gap, hl⟩ := h
  obtain ⟨s₁, chain', wi', gap', hm, _, hmoved, _⟩ := hl.moveHead
  rw [hm, Except.ok.injEq] at he
  exact he ▸ hmoved

/-- `makeSpace` adds the blocks for its size. -/
theorem makeSpace_grown (h : Shaped s) {len : ℕ} (hlen : 0 < len) {s' : KBuffer}
    (he : s.makeSpace len = .ok s') : Grown s s' (blocksFor len) := by
  obtain ⟨chain, ri, wi, gap, hl⟩ := h
  obtain ⟨s₁, extra, wi', hg, _, hgrown, hlo, hhi⟩ := hl.makeSpace len hlen
  have hcount : extra.length = (len + (BLOCK_SIZE - 1)) / BLOCK_SIZE := by
    simp only [BLOCK_SIZE] at *
    omega
  rw [hg, Except.ok.injEq] at he
  unfold blocksFor
  rw [← hcount]
  exact he ▸ hgrown

/-- A write adds the blocks its size and the counters before it ask for. -/
theorem write_buflen (h : Shaped s) {buf : List UInt8} {s' : KBuffer} {n : ℕ}
    (he : s.write buf = .ok (s', n)) : s'.buflen_ = s.buflen_ + growth s buf.length := by
  unfold growth room
  unfold KBuffer.write at he
  by_cases hearly : buf.length > s.usedSize_ - s.readablePos_ + s.writableSize_ ∧
      s.buflen_ ≥ MAX_BLOCK_SIZE
  · rw [if_pos hearly] at he
    cases he
    rw [if_neg (by omega)]
    rfl
  rw [if_neg hearly] at he
  by_cases hfree : buf.length ≤ s.writableSize_
  · rw [if_pos hfree] at he
    obtain ⟨s₁, hd, he⟩ := ok_of_bind he
    cases he
    rw [if_neg (by omega)]
    exact (doWrite_written h hd).buflen
  rw [if_neg hfree] at he
  by_cases hmove : buf.length ≤ s.usedSize_ - s.readablePos_ + s.writableSize_
  · rw [if_pos hmove] at he
    obtain ⟨s₁, hm, he⟩ := ok_of_bind he
    obtain ⟨s₂, hd, he⟩ := ok_of_bind he
    cases he
    rw [if_neg (by omega)]
    exact (doWrite_written (shaped_moveHead h hm) hd).buflen.trans (moveHead_moved h hm).buflen
  rw [if_neg hmove] at he
  obtain ⟨s₁, hm, he⟩ := ok_of_bind he
  have hw₁ := (moveHead_moved h hm).writableSize
  have hb₁ := (moveHead_moved h hm).buflen
  have hs₁ := shaped_moveHead h hm
  by_cases hbig : buf.length > MAX_BLOCK_SIZE - s₁.writableSize_
  · rw [if_pos hbig] at he
    cases he
    rw [if_neg (by omega)]
    exact hb₁
  · rw [if_neg hbig] at he
    obtain ⟨s₂, hg, he⟩ := ok_of_bind he
    obtain ⟨s₃, hd, he⟩ := ok_of_bind he
    cases he
    have hpos : 0 < buf.length := by omega
    rw [if_pos (by omega), (doWrite_written (shaped_makeSpace hs₁ hpos hg) hd).buflen,
      (makeSpace_grown hs₁ hpos hg).buflen, hb₁]

/-- A `readFd` adds the blocks for what the chain did not take. -/
theorem readFd_buflen (h : Shaped s) {avail : List UInt8} {s' : KBuffer} {n : ℕ}
    (he : s.readFd (some avail) = .ok (s', n)) :
    s'.buflen_ = s.buflen_ + spillGrowth s avail := by
  obtain ⟨chain, ri, wi, gap, hl⟩ := h
  have hgap := Layout.gap_le hl
  obtain ⟨data, _, hdel, hways⟩ := Layout.readFd hl avail
  unfold spillGrowth
  rw [hdel]
  dsimp only
  rcases hways with ⟨hfit, s₁, chain', i, hr, _, hrec, _⟩ | ⟨_, _, hr⟩ |
    ⟨hover, s₁, chain', hl', hrec, _, _, hr⟩
  · rw [hr] at he
    cases he
    rw [if_pos (by omega)]
    exact hrec.written.buflen
  · rw [hr] at he
    cases he
  · rw [hr] at he
    obtain ⟨out, hw, he⟩ := ok_of_bind he
    cases he
    have hlen : ((data.drop (s.writableSize_ - gap)).take (data.length - s.writableSize_)).length =
        data.length - s.writableSize_ := by
      rw [List.length_take, List.length_drop]
      omega
    have hb := write_buflen ⟨_, _, _, _, hl'⟩ hw
    rw [hlen, hrec.written.buflen] at hb
    rw [if_neg (by omega), hb]
    unfold growth room
    rw [hrec.written.buflen, hrec.written.usedSize, hrec.written.readablePos,
      hrec.written.writableSize, Nat.sub_self]

/-- `retrieve` adds nothing. -/
theorem retrieve_buflen (h : Shaped s) {len : ℕ} {s' : KBuffer} (he : s.retrieve len = .ok s') :
    s'.buflen_ = s.buflen_ := by
  obtain ⟨chain, ri, wi, gap, hl⟩ := h
  obtain ⟨s₁, i, hr, _, hret, _⟩ := hl.retrieve len
  rw [hr, Except.ok.injEq] at he
  exact he ▸ hret.buflen

/-- Every call adds the blocks its growth names. -/
theorem next_buflen (h : Shaped s) {c : Call} {s' : KBuffer} (he : next s c = some s') :
    s'.buflen_ = s.buflen_ + growthOf s c := by
  obtain ⟨r, hc⟩ := next_eq_some.mp he
  cases c with
  | op op =>
    cases op with
    | write buf =>
      obtain ⟨out, hw, hc⟩ := ok_of_bind hc
      cases hc
      exact write_buflen h hw
    | peek size =>
      obtain ⟨out, _, hc⟩ := ok_of_bind hc
      cases hc
      rfl
    | read size =>
      obtain ⟨out, hread, hc⟩ := ok_of_bind hc
      obtain ⟨front, _, hread⟩ := ok_of_bind hread
      obtain ⟨s₁, hd, hread⟩ := ok_of_bind hread
      cases hc
      cases hread
      exact retrieve_buflen h hd
    | retrieve len =>
      obtain ⟨s₁, hd, hc⟩ := ok_of_bind hc
      cases hc
      exact retrieve_buflen h hd
  | readFd outcome =>
    cases outcome with
    | none =>
      cases hc
      rfl
    | some avail =>
      obtain ⟨n, hr, _⟩ := call_readFd hc
      exact readFd_buflen h hr

/-- In every run from a fresh buffer the buffer stays bounded exactly if every
call that adds blocks leaves it within the limit. -/
theorem capacity_bound_iff (calls : List Call) :
    Bounded KBuffer.fresh ∧
      (Runs.Along next (fun _ _ s' => Bounded s') KBuffer.fresh calls ↔
        Runs.Along next (fun s c _ => s.buflen_ + growthOf s c ≤ MAX_BLOCK_SIZE) KBuffer.fresh calls) := by
  refine ⟨(bounded_iff shaped_fresh).mpr (Nat.zero_le _), ?_⟩
  refine Runs.along_iff_along Shaped (fun s c s' hs he => ?_) (fun s c s' hs _ he => shaped_next hs he)
    shaped_fresh calls
  rw [bounded_iff (shaped_next hs he), next_buflen hs he]

/-- After one byte, a write of the limit less the free room adds a block too many. -/
theorem capacity_exceeded :
    ∃ s, Runs.run next KBuffer.fresh [.op (.write [0]),
        .op (.write (List.replicate (MAX_BLOCK_SIZE - (BLOCK_SIZE - 1)) 0))] = some s ∧
      s.buflen_ = MAX_BLOCK_SIZE + BLOCK_SIZE ∧ ¬Bounded s := by
  obtain ⟨s₁, chain, wi, hw, hl, hrep, hone, hu, hr, hz, hroom⟩ := fill_byte
  obtain ⟨big, hbig⟩ : ∃ big, List.replicate (MAX_BLOCK_SIZE - (BLOCK_SIZE - 1)) (0 : UInt8) = big :=
    ⟨_, rfl⟩
  have hlen : big.length = MAX_BLOCK_SIZE - (BLOCK_SIZE - 1) := by
    rw [← hbig, List.length_replicate]
  have hacc : Accepts s₁ big.length := by
    unfold Accepts
    rw [hroom, hlen, hz]
    decide
  have hgrow : growth s₁ big.length = MAX_BLOCK_SIZE := by
    unfold growth
    rw [hroom, hlen, hz]
    decide
  rcases hrep.write big with ⟨_, s₂, hw₂, hrep₂⟩ | ⟨hno, _⟩
  · have hb := write_buflen ⟨_, _, _, _, hl⟩ hw₂
    rw [hgrow, hz, Nat.add_comm] at hb
    refine ⟨s₂, ?_, hb, fun hbounded => ?_⟩
    · have hfirst : next KBuffer.fresh (.op (.write [0])) = some s₁ :=
        next_eq_some.mpr ⟨_, step_write hw⟩
      have hsecond : next s₁ (.op (.write big)) = some s₂ := next_eq_some.mpr ⟨_, step_write hw₂⟩
      rw [hbig, Runs.run_cons_of_step hfirst, Runs.run_cons_of_step hsecond]
      rfl
    · have hmax := hbounded.limit
      have hpos : 0 < BLOCK_SIZE := by decide
      omega
  · exact absurd hacc hno

end KKNet.BlockCapacity
