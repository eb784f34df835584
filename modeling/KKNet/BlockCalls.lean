import KKNet.BlockReject
import KKNet.BlockScatter
import KKNet.Runs

/-!
# All calls on one buffer

Writes, reads and `readFd` mixed on one buffer. A write may move the chain under
an overtaken write cursor, so `readFd` is followed here from every layout, with a
gap or without: it fills the blocks, or takes the address of the spill array for
a block, or fills the chain and passes the rest to `write`.
-/

namespace KKNet.BlockCalls

open LinkedCells ListOverlay BlockBuffer BlockLayout BlockQueue BlockScatter BlockReject Results

/-- A public call on a buffer. -/
inductive Call
  /-- A write, peek, read or retrieve. -/
  | op (op : Op)
  /-- `readFd(fd)` with these bytes waiting on the descriptor, or a failing `readv`. -/
  | readFd (outcome : Option (List UInt8))

/-- One call of the source. After a failed `readv` the buffer is as before and the
caller gets no value it could rely on. -/
def call (s : KBuffer) : Call → Except Fault (Reply × KBuffer)
  | .op op => step s op
  | .readFd none => pure (.done, s)
  | .readFd (some avail) => do
    let out ← s.readFd (some avail)
    pure (.wrote out.2, out.1)

/-- The buffer after a call that does not fault. -/
def next (s : KBuffer) (c : Call) : Option KBuffer := (call s c).toOption.map Prod.snd

variable {s : KBuffer} {chain : List (ℕ × Block)} {ri wi gap : ℕ}

/-- A call with a next state returned. -/
theorem next_eq_some {s' : KBuffer} {c : Call} :
    next s c = some s' ↔ ∃ r, call s c = .ok (r, s') := by
  unfold next
  constructor
  · intro h
    obtain ⟨out, hc, rfl⟩ := Option.map_eq_some_iff.mp h
    exact ⟨out.1, ok_of_toOption hc⟩
  · rintro ⟨r, hc⟩
    rw [hc]
    rfl

/-- A pointer that could be followed led somewhere. -/
theorem ok_of_orNull {α : Type} {x : Option α} {a : α} (h : KBuffer.orNull x = .ok a) : x = some a := by
  cases x with
  | none => cases h
  | some b =>
    cases h
    rfl

/-- `memcpy` into a block allocates nothing. -/
theorem memcpyTo_heap {s s' : KBuffer} {p : Ptr} {off : ℕ} {data : List UInt8}
    (h : s.memcpyTo p off data = .ok s') : s'.heap.length = s.heap.length := by
  unfold KBuffer.memcpyTo at h
  obtain ⟨b, _, h⟩ := ok_of_bind h
  split at h
  · obtain ⟨heap', hset, h⟩ := ok_of_bind h
    cases h
    exact modifyAt_length (ok_of_orNull hset)
  · cases h

/-- Scattering allocates nothing. -/
theorem scatter_heap {s s' : KBuffer} {vec : List KBuffer.IoVec} {data rest : List UInt8}
    (h : s.scatter vec data = .ok (s', rest)) : s'.heap.length = s.heap.length := by
  induction vec generalizing s data with
  | nil =>
    unfold KBuffer.scatter at h
    cases h
    rfl
  | cons v vec ih =>
    unfold KBuffer.scatter at h
    obtain ⟨s₁, hcopy, h⟩ := ok_of_bind h
    exact (ih h).trans (memcpyTo_heap hcopy)

/-- Past the vectors of the blocks there is no block to cast to. -/
theorem castBase_none {vec : List KBuffer.IoVec} {pos : ℕ} (h : vec.length ≤ pos) :
    KBuffer.castBase vec pos = .error .badCast := by
  unfold KBuffer.castBase
  rw [List.getElem?_eq_none h]

/-- A count past the blocks, but within the counted room, is taken for a place
in the spill array. -/
theorem Layout.advance_bad (h : Layout s chain ri wi gap) {vec : List KBuffer.IoVec}
    (hv : vec.length + wi = chain.length) {t : ℕ} (ht : s.writableSize_ < gap + t)
    (hle : t ≤ s.writableSize_) : s.advance vec t = .error .badCast := by
  have hroom := h.room
  have hwlin := h.writer.linear_le
  have hbound := h.writer.pos_le
  have hsome : 0 < vec.length := by
    by_contra hz
    have hw := h.written
    have htot := h.total
    have hz := h.size
    rcases h.writer.inside with hlt | ⟨hnil, hzero, hpos⟩
    · rw [List.length_map] at hlt
      omega
    · rw [hzero, hpos, Nat.zero_mul] at hw
      rw [List.map_eq_nil_iff.mp hnil, List.length_nil, Nat.zero_mul] at hz
      omega
  obtain ⟨n, hn⟩ : ∃ n, vec.length = n + 1 := ⟨vec.length - 1, by omega⟩
  rw [hn] at hv
  have hlen : chain.length * BLOCK_SIZE = n * BLOCK_SIZE + BLOCK_SIZE + wi * BLOCK_SIZE := by
    rw [← hv, Nat.add_mul, Nat.succ_mul]
  obtain ⟨past, hpast⟩ : ∃ past, t - (BLOCK_SIZE - s.writablePos_) = past := ⟨_, rfl⟩
  have hover : n * BLOCK_SIZE < past := by omega
  have hdiv := Nat.div_add_mod' past BLOCK_SIZE
  have hmod : past % BLOCK_SIZE < BLOCK_SIZE := Nat.mod_lt _ (by decide)
  have hge : n ≤ past / BLOCK_SIZE := (Nat.le_div_iff_mul_le (by decide)).mpr hover.le
  unfold KBuffer.advance
  dsimp only
  rw [if_neg (by omega), hpast]
  by_cases hzero : past % BLOCK_SIZE = 0
  · have hne : past / BLOCK_SIZE ≠ n := by
      intro he
      rw [he] at hdiv
      omega
    rw [if_pos hzero, castBase_none (by omega)]
    rfl
  · rw [if_neg hzero, castBase_none (by omega)]
    rfl

/-- What one `readv` leaves in the buffer before a spill is written: `t` bytes are
counted, over the same blocks. -/
structure Received (s s' : KBuffer) (chain chain' : List (ℕ × Block)) (t : ℕ) : Prop where
  /-- The counted bytes are unread. -/
  written : Written s s' t
  /-- The blocks stay. -/
  addrs : addrs chain' = addrs chain
  /-- No block is allocated. -/
  heap : s'.heap.length = s.heap.length

/-- The three ways through `readFd` when `readv` delivers. -/
theorem Layout.readFd (h : Layout s chain ri wi gap) (avail : List UInt8) :
    ∃ data, data = avail.take (s.writableSize_ - gap + KBuffer.EXTRA_SIZE) ∧
      s.delivered avail = .ok data ∧
      ((gap + data.length ≤ s.writableSize_ ∧ ∃ s' chain' i,
          s.readFd (some avail) = .ok (s', data.length) ∧ Layout s' chain' ri i gap ∧
          Received s s' chain chain' data.length ∧
          (0 < s.writablePos_ + data.length → 0 < s'.writablePos_) ∧
          (data.length = 0 → s'.writablePos_ = s.writablePos_) ∧
          bytes chain' = overlay (bytes chain) (s.usedSize_ + s.readableSize_ + gap) data) ∨
        (s.writableSize_ < gap + data.length ∧ data.length ≤ s.writableSize_ ∧
          s.readFd (some avail) = .error .badCast) ∨
        (s.writableSize_ < data.length ∧ ∃ s₁ chain',
          Layout s₁ chain' ri (chain'.length - 1) 0 ∧
          Received s s₁ chain chain' s.writableSize_ ∧
          (s₁.writablePos_ = BLOCK_SIZE → chain'.length - 1 + 1 = chain'.length) ∧
          bytes chain' = overlay (bytes chain) (s.usedSize_ + s.readableSize_ + gap)
            (data.take (s.writableSize_ - gap)) ∧
          s.readFd (some avail) = (do
            let out ← s₁.write ((data.drop (s.writableSize_ - gap)).take
              (data.length - s.writableSize_))
            pure (out.1, s.writableSize_ + out.2)))) := by
  have hgap := Layout.gap_le h
  have htot := h.total
  obtain ⟨vec, ev, hv, hlen, hsum, hscatter⟩ := Layout.scatter h
  have hcap : KBuffer.iovLen vec = s.writableSize_ - gap + KBuffer.EXTRA_SIZE := by
    unfold KBuffer.iovLen
    omega
  obtain ⟨data, hdata⟩ : ∃ data, data = avail.take (s.writableSize_ - gap + KBuffer.EXTRA_SIZE) :=
    ⟨_, rfl⟩
  obtain ⟨h', chain', es, hl', ha, hb⟩ := hscatter data
  have hheap : h'.length = s.heap.length := scatter_heap es
  refine ⟨data, hdata, ?_, ?_⟩
  · unfold KBuffer.delivered
    rw [ev, ok_bind, hcap, hdata]
    rfl
  unfold KBuffer.readFd
  dsimp only
  rw [ev, ok_bind, hcap, ← hdata, es, ok_bind]
  by_cases hfit : data.length ≤ s.writableSize_
  · rw [if_pos hfit]
    by_cases hblocks : gap + data.length ≤ s.writableSize_
    · obtain ⟨p, i, pos, ea, hla, hmore, hsame⟩ := Layout.advance hl' (ha ▸ hv) hblocks
      refine Or.inl ⟨hblocks, _, chain', i, ?_, hla, ⟨⟨rfl, rfl, rfl, rfl, rfl⟩, ha, hheap⟩, hmore,
        hsame, ?_⟩
      · rw [ea]
        rfl
      · rw [hb, List.take_of_length_le (by omega : data.length ≤ s.writableSize_ - gap)]
    · have hclen := congrArg List.length ha
      simp only [List.length_map] at hclen
      have hbad := Layout.advance_bad hl' (hlen.trans hclen.symm) (t := data.length)
        (by dsimp only; omega) hfit
      refine Or.inr (Or.inl ⟨by omega, hfit, ?_⟩)
      rw [hbad]
      rfl
  · rw [if_neg hfit]
    have hfull : 0 = s.writableSize_ - s.writableSize_ := (Nat.sub_self _).symm
    exact Or.inr (Or.inr ⟨by omega, _, chain', Layout.toEnd hl',
      ⟨⟨rfl, rfl, rfl, hfull, rfl⟩, ha, hheap⟩, fun hpos => Layout.end_settled hl' hpos, hb, rfl⟩)

/-- `readFd` keeps a layout. -/
theorem shaped_readFd (h : Shaped s) {avail : List UInt8} {s' : KBuffer} {n : ℕ}
    (he : s.readFd (some avail) = .ok (s', n)) : Shaped s' := by
  obtain ⟨chain, ri, wi, gap, hl⟩ := h
  obtain ⟨data, _, _, hways⟩ := Layout.readFd hl avail
  rcases hways with ⟨_, s₁, chain', i, hr, hl', _⟩ | ⟨_, _, hr⟩ | ⟨_, s₁, chain', hl', _, _, _, hr⟩
  · rw [hr] at he
    cases he
    exact ⟨chain', ri, i, gap, hl'⟩
  · rw [hr] at he
    cases he
  · rw [hr] at he
    obtain ⟨out, hw, he⟩ := ok_of_bind he
    cases he
    exact shaped_write ⟨_, _, _, _, hl'⟩ hw

/-- A `readFd` call that returned. -/
theorem call_readFd {avail : List UInt8} {r : Reply} {s' : KBuffer}
    (h : call s (.readFd (some avail)) = .ok (r, s')) :
    ∃ n, s.readFd (some avail) = .ok (s', n) ∧ r = .wrote n := by
  obtain ⟨out, hr, h⟩ := ok_of_bind h
  cases h
  exact ⟨out.2, hr, rfl⟩

/-- Every call keeps a layout. -/
theorem shaped_next (h : Shaped s) {c : Call} {s' : KBuffer} (he : next s c = some s') :
    Shaped s' := by
  obtain ⟨r, hc⟩ := next_eq_some.mp he
  cases c with
  | op op => exact shaped_step h hc
  | readFd outcome =>
    cases outcome with
    | none =>
      cases hc
      exact h
    | some avail =>
      obtain ⟨n, hr, _⟩ := call_readFd hc
      exact shaped_readFd h hr

/-- A fresh buffer has a layout. -/
theorem shaped_fresh : Shaped KBuffer.fresh := ⟨_, _, _, _, layout_fresh⟩

/-- Every state that calls lead to has a layout. -/
theorem shaped_reachable {calls : List Call} {s : KBuffer}
    (hrun : Runs.run next KBuffer.fresh calls = some s) : Shaped s :=
  Runs.invariant Shaped (fun _ _ _ hs he => shaped_next hs he) shaped_fresh hrun

end KKNet.BlockCalls
