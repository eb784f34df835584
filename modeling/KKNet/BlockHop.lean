import KKNet.BlockIdentity

/-!
# A write cursor at the end of its block

After `readFd` the write cursor may stand at the end of a block that has a successor,
where `do_write` would have put it at the start of the successor. Behind a gap the
read cursor never comes so far, and then no call tells the two places apart: each
answers the same and leaves the same buffer, or two such buffers again.
-/

namespace KKNet.BlockHop

open LinkedCells ListOverlay Results BlockBuffer BlockLayout BlockQueue BlockScatter
open BlockReject BlockCalls
  BlockIdentity

/-- The answers to a sequence of calls, each with the readable and the writable size
after it; a fault ends the sequence. -/
def answers (s : KBuffer) : List Call → List (Except Fault (Reply × ℕ × ℕ))
  | [] => []
  | c :: calls =>
    match call s c with
    | .error e => [.error e]
    | .ok (r, s') => .ok (r, s'.getReadableSize, s'.getWritableSize) :: answers s' calls

variable {s s' : KBuffer} {chain : List (ℕ × Block)} {ri wi gap : ℕ}

/-- A call that returns is followed by the answers to the rest. -/
theorem answers_ok {c : Call} {r : Reply} (h : call s c = .ok (r, s')) (calls : List Call) :
    answers s (c :: calls) = .ok (r, s'.getReadableSize, s'.getWritableSize) :: answers s' calls := by
  simp only [answers, h]

/-- A fault ends the answers. -/
theorem answers_error {c : Call} {e : Fault} (h : call s c = .error e) (calls : List Call) :
    answers s (c :: calls) = [.error e] := by
  simp only [answers, h]

/-- The second buffer is the first with the write cursor moved from the end of its
block to the start of the next one, behind a gap. -/
structure HoppedAt (s s' : KBuffer) (chain : List (ℕ × Block)) (ri i gap : ℕ) : Prop where
  /-- The first layout. -/
  left : Layout s chain ri i gap
  /-- The second layout. -/
  right : Layout s' chain ri (i + 1) gap
  /-- The read cursor cannot come up to the write cursor. -/
  gap_pos : 0 < gap
  /-- The first write cursor. -/
  end_pos : s.writablePos_ = BLOCK_SIZE
  /-- The second write cursor. -/
  start_pos : s'.writablePos_ = 0
  /-- Every block of the first buffer counts. -/
  full : Full s
  /-- Every block of the second buffer counts. -/
  full' : Full s'
  /-- The read offset is the same. -/
  readablePos : s'.readablePos_ = s.readablePos_
  /-- The unread size is the same. -/
  readableSize : s'.readableSize_ = s.readableSize_
  /-- The writable size is the same. -/
  writableSize : s'.writableSize_ = s.writableSize_

/-- Two buffers that differ only so. -/
def Hopped (s s' : KBuffer) : Prop := ∃ chain ri i gap, HoppedAt s s' chain ri i gap

/-- What is left of two calls: the same buffer or two that differ only so. -/
def Same (s s' : KBuffer) : Prop := s' = s ∨ Hopped s s'

variable {i : ℕ}

/-- The read position is the same. -/
theorem HoppedAt.usedSize (h : HoppedAt s s' chain ri i gap) : s'.usedSize_ = s.usedSize_ := by
  rw [← h.left.used, ← h.right.used, h.readablePos]

/-- The size of the chain is the same. -/
theorem HoppedAt.buflen (h : HoppedAt s s' chain ri i gap) : s'.buflen_ = s.buflen_ :=
  h.right.size.trans h.left.size.symm

/-- The second write cursor is inside the chain. -/
theorem HoppedAt.inside (h : HoppedAt s s' chain ri i gap) : i + 1 < chain.length := by
  rcases h.right.writer.inside with hi | ⟨_, hi, _⟩
  · rwa [List.length_map] at hi
  · omega

/-- The read cursor is not behind the write cursor. -/
theorem HoppedAt.not_overtaken (h : HoppedAt s s' chain ri i gap) : ri ≤ i := by
  by_contra hlt
  obtain ⟨_, _, _, _, hgap⟩ := h.left.overtaken (by omega)
  have hpos := h.gap_pos
  omega

/-- But for the write cursor the two buffers are the same. -/
theorem HoppedAt.eq (h : HoppedAt s s' chain ri i gap) :
    s' = { s with writestr_ := (addrs chain)[i + 1]?, writablePos_ := 0 } := by
  have hright := h.right
  have hsame : Layout { s with writestr_ := (addrs chain)[i + 1]?, writablePos_ := 0 }
      chain ri (i + 1) gap := by
    have hw := h.left.written
    have hend := h.end_pos
    have hin := h.inside
    refine { linked := h.left.linked, nodup := h.left.nodup, head := h.left.head, tail := h.left.tail
             reader := h.left.reader, writer := ⟨rfl, Nat.zero_le _, Or.inl ?_⟩, used := h.left.used
             written := ?_, total := h.left.total, size := h.left.size }
    · rwa [List.length_map]
    · dsimp only
      rw [Nat.succ_mul]
      omega
  exact buffer_ext hsame h.right h.full h.full' h.readablePos h.start_pos h.readableSize h.writableSize

/-- `retrieve` from both. -/
theorem HoppedAt.retrieve (h : HoppedAt s s' chain ri i gap) (k : ℕ) :
    ∃ t t', s.retrieve k = .ok t ∧ s'.retrieve k = .ok t' ∧ Hopped t t' := by
  obtain ⟨t, j, he, hl, hret, hend⟩ := h.left.retrieve k
  obtain ⟨t', j', he', hl', hret', hend'⟩ := h.right.retrieve k
  have hused : t'.usedSize_ = t.usedSize_ := by
    rw [hret.usedSize, hret'.usedSize, h.usedSize, h.readableSize]
  obtain ⟨hj, hpos⟩ := cursor_unique hl.reader hl'.reader (by rw [hl.used, hl'.used, hused])
    (by rwa [List.length_map]) (by rwa [List.length_map])
  subst hj
  refine ⟨t, t', he, he', chain, j', i, gap, hl, hl', h.gap_pos, hret.writablePos.trans h.end_pos,
    hret'.writablePos.trans h.start_pos, (sameBlocks_retrieve he).full h.full,
    (sameBlocks_retrieve he').full h.full', hpos, ?_, ?_⟩
  · rw [hret.readableSize, hret'.readableSize, h.readableSize]
  · rw [hret.writableSize, hret'.writableSize, h.writableSize]

/-- `move_head` with the write cursor not before the read cursor. -/
theorem moveHead_keep (h : Layout s chain ri wi gap) (hle : ri ≤ wi) :
    ∃ t, s.moveHead = .ok t ∧ Layout t (chain.drop ri ++ chain.take ri) 0 (wi - ri) gap ∧
      Moved s t ∧ t.writablePos_ = s.writablePos_ := by
  have hw := h.written
  have hu := h.used
  have hmul := Nat.mul_le_mul_right BLOCK_SIZE hle
  have hfinish : ∀ t, Layout t (chain.drop ri ++ chain.take ri) 0 (wi - ri) gap → Moved s t →
      t.writablePos_ = s.writablePos_ := by
    intro t hl hm
    have hwt := hl.written
    rw [hm.usedSize, hm.readableSize, Nat.sub_mul] at hwt
    omega
  by_cases hri : ri = 0
  · subst hri
    have hm : s.moveHead = .ok s := by
      unfold KBuffer.moveHead
      rw [if_neg (not_not_intro (h.readstr_eq_head.mpr rfl))]
      rfl
    rw [Nat.zero_mul, Nat.zero_add] at hu
    refine ⟨s, hm, ?_, ⟨rfl, rfl, by omega, hu.symm, rfl⟩, rfl⟩
    rwa [List.drop_zero, List.take_zero, List.append_nil, Nat.sub_zero]
  · obtain ⟨t, wi', gap', hm, hl, hmoved, hkeep, _⟩ := h.moveHead_rotate hri
    obtain ⟨rfl, rfl⟩ := hkeep hle
    exact ⟨t, hm, hl, hmoved, hfinish t hl hmoved⟩

/-- `move_head` from both. -/
theorem HoppedAt.moveHead (h : HoppedAt s s' chain ri i gap) :
    ∃ t t', s.moveHead = .ok t ∧ s'.moveHead = .ok t' ∧ Moved s t ∧
      HoppedAt t t' (chain.drop ri ++ chain.take ri) 0 (i - ri) gap := by
  have hle := h.not_overtaken
  obtain ⟨t, he, hl, hm, hpos⟩ := moveHead_keep h.left hle
  obtain ⟨t', he', hl', hm', hpos'⟩ := moveHead_keep h.right (by omega)
  rw [show i + 1 - ri = i - ri + 1 by omega] at hl'
  refine ⟨t, t', he, he', hm, hl, hl', h.gap_pos, hpos.trans h.end_pos, hpos'.trans h.start_pos,
    (sameBlocks_moveHead he).full h.full, (sameBlocks_moveHead he').full h.full', ?_, ?_, ?_⟩
  · rw [hm.readablePos, hm'.readablePos, h.readablePos]
  · rw [hm.readableSize, hm'.readableSize, h.readableSize]
  · rw [hm.writableSize, hm'.writableSize, h.writableSize, h.usedSize, h.readablePos]

/-- `do_write` from both does the same. -/
theorem HoppedAt.doWrite (h : HoppedAt s s' chain ri i gap) (buf : List UInt8) :
    s'.doWrite buf = s.doWrite buf := by
  by_cases hfit : gap + buf.length ≤ s.writableSize_
  · obtain ⟨t, c, j, he, hl, hw, ha, hend, hb⟩ := h.left.doWrite_bytes buf hfit
    obtain ⟨t', c', j', he', hl', hw', ha', hend', hb'⟩ :=
      h.right.doWrite_bytes buf (by rw [h.writableSize]; exact hfit)
    rw [h.usedSize, h.readableSize] at hb'
    have hc : c' = c := chain_ext (ha'.trans ha.symm) (hb'.trans hb.symm)
    subst hc
    have hused : t'.usedSize_ = t.usedSize_ := by rw [hw.usedSize, hw'.usedSize, h.usedSize]
    have hread : t'.readableSize_ = t.readableSize_ := by
      rw [hw.readableSize, hw'.readableSize, h.readableSize]
    obtain ⟨hj, hpos⟩ := cursor_unique hl.writer hl'.writer
      (by rw [hl.written, hl'.written, hused, hread]) (by rwa [List.length_map])
      (by rwa [List.length_map])
    subst hj
    have hrp : t'.readablePos_ = t.readablePos_ := by
      rw [hw.readablePos, hw'.readablePos, h.readablePos]
    have hsize : t'.writableSize_ = t.writableSize_ := by
      rw [hw.writableSize, hw'.writableSize, h.writableSize]
    rw [he, he', buffer_ext hl hl' ((sameBlocks_doWrite he).full h.full)
      ((sameBlocks_doWrite he').full h.full') hrp hpos hread hsize]
  · rw [h.left.doWrite_null (by omega), h.right.doWrite_null (by rw [h.writableSize]; omega)]

/-- A block behind another one is appended whatever the write cursor. -/
theorem appendBlock_cursor (s : KBuffer) (p : Ptr) (pos : ℕ) {walk : Ptr} (hw : walk ≠ none) :
    KBuffer.appendBlock { s with writestr_ := p, writablePos_ := pos } walk =
      (s.appendBlock walk).map fun t => { t with writestr_ := p, writablePos_ := pos } := by
  unfold KBuffer.appendBlock
  dsimp only
  rw [if_neg hw, if_neg hw]
  cases KBuffer.orNull (setNext (s.heap ++ [⟨Block.zero, walk, none⟩]) walk (some s.heap.length)) <;> rfl

/-- So is every block of the loop of `makeSpace`. -/
theorem makeSpaceLoop_cursor (s : KBuffer) (p : Ptr) (pos : ℕ) {walk : Ptr} (hw : walk ≠ none)
    (len : ℕ) : KBuffer.makeSpaceLoop { s with writestr_ := p, writablePos_ := pos } walk len =
      (s.makeSpaceLoop walk len).map fun out =>
        ({ out.1 with writestr_ := p, writablePos_ := pos }, out.2) := by
  induction len using Nat.strong_induction_on generalizing s walk with
  | _ len ih =>
    rw [KBuffer.makeSpaceLoop, KBuffer.makeSpaceLoop]
    by_cases hz : len = 0
    · rw [dif_pos hz, dif_pos hz]
      rfl
    · have hless : (if len > BLOCK_SIZE then len - BLOCK_SIZE else 0) < len := by
        split <;> simp only [BLOCK_SIZE] at * <;> omega
      rw [dif_neg hz, dif_neg hz, appendBlock_cursor s p pos hw]
      cases s.appendBlock walk with
      | error e => rfl
      | ok t => exact ih _ hless { t with
          buflen_ := t.buflen_ + BLOCK_SIZE
          writableSize_ := t.writableSize_ + BLOCK_SIZE } (by simp)

/-- `makeSpace` moves the first write cursor on, and makes the two buffers the same. -/
theorem HoppedAt.makeSpace (h : HoppedAt s s' chain ri i gap) {len : ℕ} (hlen : 0 < len) :
    s'.makeSpace len = s.makeSpace len := by
  have hin := h.inside
  have hne : chain ≠ [] := List.ne_nil_of_length_pos (by omega)
  have htail : s.tail_ ≠ none := by
    rw [h.left.tail, lastPtr_eq]
    cases hc : (addrs chain).getLast? with
    | none => exact absurd (List.map_eq_nil_iff.mp (List.getLast?_eq_none_iff.mp hc)) hne
    | some a => simp
  obtain ⟨t, walk, extra, he, hl, _, hpos, _⟩ := h.left.makeSpaceLoop hlen
  have hne' : chain ++ extra ≠ [] := List.append_ne_nil_of_left_ne_nil hne extra
  obtain ⟨b, hb, hnext⟩ := deref_at hl.linked hl.writer hne'
  have hplace : (addrs (chain ++ extra))[i + 1]? = (addrs chain)[i + 1]? := by
    rw [addrs, List.map_append, List.getElem?_append_left (by rwa [List.length_map])]
  have he' := makeSpaceLoop_cursor s ((addrs chain)[i + 1]?) 0 htail len
  rw [he] at he'
  dsimp only at hb
  unfold KBuffer.makeSpace
  rw [h.eq]
  dsimp only
  rw [he', he]
  dsimp only [Except.map]
  rw [ok_bind, ok_bind]
  dsimp only
  rw [if_pos (hpos.trans h.end_pos), if_neg (by decide), hb, ok_bind, hnext, hplace]

/-- `write` from both answers the same and leaves the same buffer or two that differ
only so. -/
theorem HoppedAt.write (h : HoppedAt s s' chain ri i gap) (buf : List UInt8) :
    (∃ e, s.write buf = .error e ∧ s'.write buf = .error e) ∨
      ∃ n t t', s.write buf = .ok (t, n) ∧ s'.write buf = .ok (t', n) ∧ Same t t' := by
  have hpass : ∀ (x : Except Fault KBuffer) (n : ℕ),
      (∃ e, (do
        let t ← x
        pure (t, n) : Except Fault (KBuffer × ℕ)) = .error e) ∨
      ∃ t, (do
        let t ← x
        pure (t, n) : Except Fault (KBuffer × ℕ)) = .ok (t, n) := by
    intro x n
    cases x with
    | error e => exact Or.inl ⟨e, rfl⟩
    | ok t => exact Or.inr ⟨t, rfl⟩
  unfold KBuffer.write
  rw [h.usedSize, h.readablePos, h.writableSize, h.buflen, h.doWrite]
  by_cases hearly : buf.length > s.usedSize_ - s.readablePos_ + s.writableSize_ ∧
      s.buflen_ ≥ MAX_BLOCK_SIZE
  · rw [if_pos hearly, if_pos hearly]
    exact Or.inr ⟨0, s, s', rfl, rfl, Or.inr ⟨_, _, _, _, h⟩⟩
  rw [if_neg hearly, if_neg hearly]
  by_cases hfree : buf.length ≤ s.writableSize_
  · rw [if_pos hfree, if_pos hfree]
    rcases hpass (s.doWrite buf) buf.length with ⟨e, he⟩ | ⟨t, he⟩
    · exact Or.inl ⟨e, he, he⟩
    · exact Or.inr ⟨_, t, t, he, he, Or.inl rfl⟩
  rw [if_neg hfree, if_neg hfree]
  obtain ⟨t, t', hm, hm', hmoved, ht⟩ := h.moveHead
  rw [hm, hm', ok_bind, ok_bind, ok_bind, ok_bind, ht.doWrite, ht.writableSize]
  by_cases hmove : buf.length ≤ s.usedSize_ - s.readablePos_ + s.writableSize_
  · rw [if_pos hmove, if_pos hmove]
    rcases hpass (t.doWrite buf) buf.length with ⟨e, he⟩ | ⟨u, he⟩
    · exact Or.inl ⟨e, he, he⟩
    · exact Or.inr ⟨_, u, u, he, he, Or.inl rfl⟩
  rw [if_neg hmove, if_neg hmove]
  by_cases hbig : buf.length > MAX_BLOCK_SIZE - t.writableSize_
  · rw [if_pos hbig, if_pos hbig]
    exact Or.inr ⟨0, t, t', rfl, rfl, Or.inr ⟨_, _, _, _, ht⟩⟩
  · rw [if_neg hbig, if_neg hbig, ht.makeSpace (by omega)]
    cases t.makeSpace buf.length with
    | error e => exact Or.inl ⟨e, rfl, rfl⟩
    | ok u =>
      rw [ok_bind]
      rcases hpass (u.doWrite buf) buf.length with ⟨e, he⟩ | ⟨v, he⟩
      · exact Or.inl ⟨e, he, he⟩
      · exact Or.inr ⟨_, v, v, he, he, Or.inl rfl⟩

/-- After the same bytes the sizes and the read cursors are the same. -/
theorem HoppedAt.received (h : HoppedAt s s' chain ri i gap) {t t' : KBuffer}
    {c c' : List (ℕ × Block)} {n : ℕ} (hrec : Received s t chain c n)
    (hrec' : Received s' t' chain c' n) (hb : bytes c' = bytes c) :
    c' = c ∧ t'.usedSize_ = t.usedSize_ ∧ t'.readableSize_ = t.readableSize_ ∧
      t'.readablePos_ = t.readablePos_ ∧ t'.writableSize_ = t.writableSize_ := by
  refine ⟨chain_ext (hrec'.addrs.trans hrec.addrs.symm) hb, ?_, ?_, ?_, ?_⟩
  · rw [hrec.written.usedSize, hrec'.written.usedSize, h.usedSize]
  · rw [hrec.written.readableSize, hrec'.written.readableSize, h.readableSize]
  · rw [hrec.written.readablePos, hrec'.written.readablePos, h.readablePos]
  · rw [hrec.written.writableSize, hrec'.written.writableSize, h.writableSize]

/-- Within the blocks both cursors move by what is delivered: the two places stay apart if
that is nothing, and become one place otherwise. -/
theorem HoppedAt.within (h : HoppedAt s s' chain ri i gap) {t t' : KBuffer}
    {c c' : List (ℕ × Block)} {j j' n : ℕ} (hl : Layout t c ri j gap) (hl' : Layout t' c' ri j' gap)
    (hrec : Received s t chain c n) (hrec' : Received s' t' chain c' n) (hb : bytes c' = bytes c)
    (hpos : 0 < s.writablePos_ + n → 0 < t.writablePos_)
    (hpos' : 0 < s'.writablePos_ + n → 0 < t'.writablePos_)
    (hkeep : n = 0 → t.writablePos_ = s.writablePos_)
    (hkeep' : n = 0 → t'.writablePos_ = s'.writablePos_) : Same t t' := by
  obtain ⟨hc, hused, hread, hrp, hsize⟩ := h.received hrec hrec' hb
  subst hc
  have hlin : j' * BLOCK_SIZE + t'.writablePos_ = j * BLOCK_SIZE + t.writablePos_ := by
    rw [hl.written, hl'.written, hused, hread]
  have hone : 0 < BLOCK_SIZE := by decide
  by_cases hz : n = 0
  · have hend := (hkeep hz).trans h.end_pos
    have hstart := (hkeep' hz).trans h.start_pos
    have hj : j' = j + 1 := by
      rw [hend, hstart, ← Nat.succ_mul, Nat.add_zero] at hlin
      exact Nat.eq_of_mul_eq_mul_right hone hlin
    subst hj
    exact Or.inr ⟨_, _, _, _, hl, hl', h.gap_pos, hend, hstart, full_received hrec h.full,
      full_received hrec' h.full', hrp, hread, hsize⟩
  · obtain ⟨hj, hposeq⟩ := cursor_unique_pos hl.writer hl'.writer hlin (hpos (by omega))
      (hpos' (by omega))
    subst hj
    exact Or.inl (buffer_ext hl hl' (full_received hrec h.full) (full_received hrec' h.full')
      hrp hposeq hread hsize)

/-- Past the counted room both buffers are full up to the end, and so the same. -/
theorem HoppedAt.filled (h : HoppedAt s s' chain ri i gap) {t t' : KBuffer}
    {c c' : List (ℕ × Block)} {n : ℕ} (hl : Layout t c ri (c.length - 1) 0)
    (hl' : Layout t' c' ri (c'.length - 1) 0) (hrec : Received s t chain c n)
    (hrec' : Received s' t' chain c' n) (hb : bytes c' = bytes c) : t' = t := by
  obtain ⟨hc, hused, hread, hrp, hsize⟩ := h.received hrec hrec' hb
  subst hc
  have hlin := hl.written
  have hlin' := hl'.written
  exact buffer_ext hl hl' (full_received hrec h.full) (full_received hrec' h.full') hrp (by omega)
    hread hsize

/-- `readFd` from both answers the same and leaves the same buffer or two that differ
only so. -/
theorem HoppedAt.readFd (h : HoppedAt s s' chain ri i gap) (avail : List UInt8) :
    (∃ e, s.readFd (some avail) = .error e ∧ s'.readFd (some avail) = .error e) ∨
      ∃ n t t', s.readFd (some avail) = .ok (t, n) ∧ s'.readFd (some avail) = .ok (t', n) ∧
        Same t t' := by
  obtain ⟨data, hdata, _, hways⟩ := Layout.readFd h.left avail
  obtain ⟨data', hdata', _, hways'⟩ := Layout.readFd h.right avail
  rw [h.writableSize] at hdata' hways'
  have hsame : data' = data := hdata'.trans hdata.symm
  subst hsame
  rw [h.usedSize, h.readableSize] at hways'
  rcases hways with ⟨hfit, t, c, j, hr, hl, hrec, hpos, hkeep, hb⟩ | ⟨hlt, hle, hr⟩ |
    ⟨hover, t, c, hl, hrec, _, hb, hr⟩
  · -- within the blocks
    rcases hways' with ⟨_, t', c', j', hr', hl', hrec', hpos', hkeep', hb'⟩ | ⟨hlt', _⟩ | ⟨hover', _⟩
    · exact Or.inr ⟨_, t, t', hr, hr', h.within hl hl' hrec hrec' (hb'.trans hb.symm) hpos hpos'
        hkeep hkeep'⟩
    · omega
    · omega
  · -- past the blocks, within the counted room
    rcases hways' with ⟨hfit', _⟩ | ⟨_, _, hr'⟩ | ⟨hover', _⟩
    · omega
    · exact Or.inl ⟨_, hr, hr'⟩
    · omega
  · -- past the counted room
    rcases hways' with ⟨hfit', _⟩ | ⟨_, hle', _⟩ | ⟨_, t', c', hl', hrec', _, hb', hr'⟩
    · omega
    · omega
    · rw [h.filled hl hl' hrec hrec' (hb'.trans hb.symm)] at hr'
      rw [hr, hr']
      cases t.write ((data'.drop (s.writableSize_ - gap)).take (data'.length - s.writableSize_)) with
      | error e => exact Or.inl ⟨e, rfl, rfl⟩
      | ok out => exact Or.inr ⟨_, _, _, rfl, rfl, Or.inl rfl⟩

/-- Every call from both answers the same and leaves the same buffer or two that
differ only so. -/
theorem hopped_call (h : Hopped s s') (c : Call) :
    (∃ e, call s c = .error e ∧ call s' c = .error e) ∨
      ∃ r t t', call s c = .ok (r, t) ∧ call s' c = .ok (r, t') ∧ Same t t' := by
  have hstay := h
  obtain ⟨chain, ri, i, gap, h⟩ := h
  have hunread : unread s' chain = unread s chain := by
    have heq := h.eq
    rw [heq]
    rfl
  cases c with
  | op op =>
    cases op with
    | write buf =>
      rcases h.write buf with ⟨e, he, he'⟩ | ⟨n, t, t', he, he', hsame⟩
      · exact Or.inl ⟨e, step_write_error he, step_write_error he'⟩
      · exact Or.inr ⟨_, t, t', step_write he, step_write he', hsame⟩
    | peek size =>
      refine Or.inr ⟨_, s, s', step_peek (h.left.peek size), ?_, Or.inr hstay⟩
      exact hunread ▸ step_peek (h.right.peek size)
    | read size =>
      obtain ⟨t, t', he, he', hopped⟩ := h.retrieve size
      refine Or.inr ⟨_, t, t', step_read (h.left.peek size) he, ?_, Or.inr hopped⟩
      exact hunread ▸ step_read (h.right.peek size) he'
    | retrieve len =>
      obtain ⟨t, t', he, he', hopped⟩ := h.retrieve len
      exact Or.inr ⟨_, t, t', step_retrieve he, step_retrieve he', Or.inr hopped⟩
  | readFd outcome =>
    cases outcome with
    | none => exact Or.inr ⟨_, s, s', rfl, rfl, Or.inr hstay⟩
    | some avail =>
      rcases h.readFd avail with ⟨e, he, he'⟩ | ⟨n, t, t', he, he', hsame⟩
      · exact Or.inl ⟨e, by simp only [call, he, error_bind], by simp only [call, he', error_bind]⟩
      · exact Or.inr ⟨.wrote n, t, t', by simp only [call, he, ok_bind, pure_eq_ok],
          by simp only [call, he', ok_bind, pure_eq_ok], hsame⟩

/-- The two buffers have the same sizes. -/
theorem Same.sizes (h : Same s s') : s'.getReadableSize = s.getReadableSize ∧
    s'.getWritableSize = s.getWritableSize := by
  rcases h with rfl | ⟨_, _, _, _, h⟩
  · exact ⟨rfl, rfl⟩
  · exact ⟨h.readableSize, h.writableSize⟩

/-- No sequence of calls tells the two buffers apart. -/
theorem Same.answers (h : Same s s') (later : List Call) :
    BlockHop.answers s' later = BlockHop.answers s later := by
  induction later generalizing s s' with
  | nil => rfl
  | cons c later ih =>
    rcases h with rfl | h
    · rfl
    · rcases hopped_call h c with ⟨e, he, he'⟩ | ⟨r, t, t', he, he', hsame⟩
      · rw [answers_error he, answers_error he']
      · rw [answers_ok he, answers_ok he', ih hsame, hsame.sizes.1, hsame.sizes.2]

end KKNet.BlockHop
