import KKNet.BlockAccept
import KKNet.BlockCapacity

/-!
# When two buffers are the same

Every block a buffer ever allocates is on its chain, so a buffer is determined by
its chain, its cursors and its counters. Two ways of filling the chain that leave
the same bytes and the same cursor therefore leave the same buffer.
-/

namespace KKNet.BlockIdentity

open LinkedCells ListOverlay Results BlockBuffer BlockLayout BlockQueue BlockScatter
open BlockReject BlockCalls

variable {s s' : KBuffer} {chain chain' : List (ℕ × Block)} {ri wi gap : ℕ}

/-- Every allocated block counts. -/
def Full (s : KBuffer) : Prop := s.heap.length * BLOCK_SIZE = s.buflen_

/-- Then the chain uses up the heap. -/
theorem Full.length (hf : Full s) (h : Layout s chain ri wi gap) : s.heap.length = chain.length :=
  Nat.eq_of_mul_eq_mul_right (by decide : 0 < BLOCK_SIZE) (hf.trans h.size)

/-- Neither blocks nor their count change. -/
structure SameBlocks (s s' : KBuffer) : Prop where
  /-- No block is allocated. -/
  heap : s'.heap.length = s.heap.length
  /-- The size of the chain stays. -/
  buflen : s'.buflen_ = s.buflen_

/-- Then every block still counts. -/
theorem SameBlocks.full (h : SameBlocks s s') (hf : Full s) : Full s' := by
  unfold Full
  rw [h.heap, h.buflen]
  exact hf

theorem SameBlocks.trans {s'' : KBuffer} (h : SameBlocks s s') (h' : SameBlocks s' s'') :
    SameBlocks s s'' := ⟨h'.heap.trans h.heap, h'.buflen.trans h.buflen⟩

/-- `memcpy` into a block. -/
theorem sameBlocks_memcpyTo {p : Ptr} {off : ℕ} {data : List UInt8}
    (h : s.memcpyTo p off data = .ok s') : SameBlocks s s' := by
  refine ⟨memcpyTo_heap h, ?_⟩
  unfold KBuffer.memcpyTo at h
  obtain ⟨b, _, h⟩ := ok_of_bind h
  split at h
  · obtain ⟨heap', _, h⟩ := ok_of_bind h
    cases h
    rfl
  · cases h

/-- The loop of `do_write`. -/
theorem sameBlocks_doWriteLoop {buf : List UInt8} {fuel : ℕ} {walk : Ptr} {l : ℕ} {p : Ptr}
    (h : KBuffer.doWriteLoop buf fuel s walk l = .ok (s', p)) : SameBlocks s s' := by
  induction fuel generalizing s walk l with
  | zero =>
    unfold KBuffer.doWriteLoop at h
    split at h
    · cases h
    · cases h
      exact ⟨rfl, rfl⟩
  | succ fuel ih =>
    unfold KBuffer.doWriteLoop at h
    split at h
    · dsimp only at h
      split at h
      · split at h
        · obtain ⟨s₁, hcopy, h⟩ := ok_of_bind h
          have hsame := sameBlocks_memcpyTo hcopy
          cases h
          exact ⟨hsame.heap, hsame.buflen⟩
        · obtain ⟨s₁, hcopy, h⟩ := ok_of_bind h
          obtain ⟨b, _, h⟩ := ok_of_bind h
          exact (sameBlocks_memcpyTo hcopy).trans (ih h)
      · split at h
        · obtain ⟨s₁, hcopy, h⟩ := ok_of_bind h
          have hsame := sameBlocks_memcpyTo hcopy
          cases h
          exact ⟨hsame.heap, hsame.buflen⟩
        · obtain ⟨s₁, hcopy, h⟩ := ok_of_bind h
          obtain ⟨b, _, h⟩ := ok_of_bind h
          exact (sameBlocks_memcpyTo hcopy).trans (ih h)
    · cases h
      exact ⟨rfl, rfl⟩

/-- `do_write`. -/
theorem sameBlocks_doWrite {buf : List UInt8} (h : s.doWrite buf = .ok s') : SameBlocks s s' := by
  obtain ⟨stop, hloop, h⟩ := ok_of_bind h
  obtain ⟨cursor, _, h⟩ := ok_of_bind h
  have hsame : SameBlocks s stop.1 := sameBlocks_doWriteLoop (p := stop.2) hloop
  cases h
  exact ⟨hsame.heap, hsame.buflen⟩

/-- `retrieve`. -/
theorem sameBlocks_retrieve {len : ℕ} (h : s.retrieve len = .ok s') : SameBlocks s s' := by
  obtain ⟨stop, _, h⟩ := ok_of_bind h
  obtain ⟨cursor, _, h⟩ := ok_of_bind h
  cases h
  exact ⟨rfl, rfl⟩

/-- `move_head`. -/
theorem sameBlocks_moveHead (h : s.moveHead = .ok s') : SameBlocks s s' := by
  unfold KBuffer.moveHead at h
  split at h
  · obtain ⟨r, _, h⟩ := ok_of_bind h
    obtain ⟨h₁, e₁, h⟩ := ok_of_bind h
    obtain ⟨h₂, e₂, h⟩ := ok_of_bind h
    obtain ⟨h₃, e₃, h⟩ := ok_of_bind h
    obtain ⟨h₄, e₄, h⟩ := ok_of_bind h
    have l₁ := modifyAt_length (ok_of_orNull e₁)
    have l₂ := modifyAt_length (ok_of_orNull e₂)
    have l₃ := modifyAt_length (ok_of_orNull e₃)
    have l₄ := modifyAt_length (ok_of_orNull e₄)
    cases h
    exact ⟨by dsimp only; omega, rfl⟩
  · cases h
    exact ⟨rfl, rfl⟩

/-- `appendBlock` allocates one block. -/
theorem appendBlock_blocks {walk : Ptr} (h : s.appendBlock walk = .ok s') :
    s'.heap.length = s.heap.length + 1 ∧ s'.buflen_ = s.buflen_ := by
  unfold KBuffer.appendBlock at h
  dsimp only at h
  split at h
  · cases h
    exact ⟨List.length_append, rfl⟩
  · obtain ⟨h', e, h⟩ := ok_of_bind h
    have hlen := modifyAt_length (ok_of_orNull e)
    cases h
    exact ⟨hlen.trans List.length_append, rfl⟩

/-- Every block of the loop of `makeSpace` counts. -/
theorem full_makeSpaceLoop {walk p : Ptr} {len : ℕ} (hf : Full s)
    (h : s.makeSpaceLoop walk len = .ok (s', p)) : Full s' := by
  induction len using Nat.strong_induction_on generalizing s walk with
  | _ len ih =>
    unfold KBuffer.makeSpaceLoop at h
    by_cases hz : len = 0
    · rw [dif_pos hz] at h
      cases h
      exact hf
    · rw [dif_neg hz] at h
      obtain ⟨s₁, happend, h⟩ := ok_of_bind h
      obtain ⟨hlen, hbuf⟩ := appendBlock_blocks happend
      have hless : (if len > BLOCK_SIZE then len - BLOCK_SIZE else 0) < len := by
        split <;> simp only [BLOCK_SIZE] at * <;> omega
      refine ih _ hless ?_ h
      unfold Full at hf ⊢
      dsimp only
      rw [hlen, hbuf, Nat.succ_mul, hf]

/-- Every block of `makeSpace` counts. -/
theorem full_makeSpace {len : ℕ} (hf : Full s) (h : s.makeSpace len = .ok s') : Full s' := by
  obtain ⟨grown, hloop, h⟩ := ok_of_bind h
  have hgrown : Full grown.1 := full_makeSpaceLoop (p := grown.2) hf hloop
  dsimp only at h
  split at h
  · obtain ⟨b, _, h⟩ := ok_of_bind h
    cases h
    exact hgrown
  · cases h
    exact hgrown

/-- Every block of a written buffer counts. -/
theorem full_write {buf : List UInt8} {n : ℕ} (hf : Full s) (h : s.write buf = .ok (s', n)) :
    Full s' := by
  rcases write_cases h with ⟨_, hs, _⟩ | ⟨_, hd⟩ | ⟨_, s₁, hm, hd⟩ | ⟨_, hm, _⟩ |
    ⟨_, _, s₁, s₂, hm, hg, hd⟩
  · exact hs ▸ hf
  · exact (sameBlocks_doWrite hd).full hf
  · exact ((sameBlocks_moveHead hm).trans (sameBlocks_doWrite hd)).full hf
  · exact (sameBlocks_moveHead hm).full hf
  · exact (sameBlocks_doWrite hd).full (full_makeSpace ((sameBlocks_moveHead hm).full hf) hg)

/-- What `readFd` leaves before a spill is written has the old blocks. -/
theorem full_received {t : ℕ} (h : Received s s' chain chain' t) (hf : Full s) : Full s' :=
  SameBlocks.full ⟨h.heap, h.written.buflen⟩ hf

/-- Every block of a buffer after `readFd` counts. -/
theorem full_readFd (hl : Layout s chain ri wi gap) (hf : Full s) {avail : List UInt8} {n : ℕ}
    (he : s.readFd (some avail) = .ok (s', n)) : Full s' := by
  obtain ⟨data, _, _, hways⟩ := Layout.readFd hl avail
  rcases hways with ⟨_, s₁, chain', i, hr, _, hrec, _⟩ | ⟨_, _, hr⟩ | ⟨_, s₁, chain', _, hrec, _, _, hr⟩
  · rw [hr] at he
    cases he
    exact full_received hrec hf
  · rw [hr] at he
    cases he
  · rw [hr] at he
    obtain ⟨out, hw, he⟩ := ok_of_bind he
    cases he
    exact full_write (full_received hrec hf) hw

/-- Every call lets every block count. -/
theorem full_next (h : Shaped s) (hf : Full s) {c : Call} (he : next s c = some s') : Full s' := by
  obtain ⟨r, hc⟩ := next_eq_some.mp he
  cases c with
  | op op =>
    cases op with
    | write buf =>
      obtain ⟨out, hw, hc⟩ := ok_of_bind hc
      cases hc
      exact full_write hf hw
    | peek size =>
      obtain ⟨out, _, hc⟩ := ok_of_bind hc
      cases hc
      exact hf
    | read size =>
      obtain ⟨out, hread, hc⟩ := ok_of_bind hc
      obtain ⟨front, _, hread⟩ := ok_of_bind hread
      obtain ⟨s₁, hd, hread⟩ := ok_of_bind hread
      cases hc
      cases hread
      exact (sameBlocks_retrieve hd).full hf
    | retrieve len =>
      obtain ⟨s₁, hd, hc⟩ := ok_of_bind hc
      cases hc
      exact (sameBlocks_retrieve hd).full hf
  | readFd outcome =>
    cases outcome with
    | none =>
      cases hc
      exact hf
    | some avail =>
      obtain ⟨chain, ri, wi, gap, hl⟩ := h
      obtain ⟨n, hr, _⟩ := call_readFd hc
      exact full_readFd hl hf hr

/-- In every state that calls lead to, every block counts. -/
theorem full_reachable {calls : List Call} (hrun : Runs.run next KBuffer.fresh calls = some s) :
    Shaped s ∧ Full s :=
  Runs.invariant (fun s => Shaped s ∧ Full s)
    (fun _ _ _ ⟨hs, hf⟩ he => ⟨shaped_next hs he, full_next hs hf he⟩) ⟨shaped_fresh, rfl⟩ hrun

/-- In every run the destructor follows the chain without a fault and deletes every block
that was ever allocated, each once. -/
theorem blocks_released (calls : List Call) (s : KBuffer)
    (hrun : Runs.run next KBuffer.fresh calls = some s) :
    ∃ blocks, BlockCapacity.deleted s (s.heap.length + 1) s.head_ = .ok blocks ∧
      blocks.Perm (List.range s.heap.length) := by
  obtain ⟨⟨chain, ri, wi, gap, h⟩, hf⟩ := full_reachable hrun
  have hlen := hf.length h
  refine ⟨addrs chain, ?_, ?_⟩
  · rw [h.head]
    exact BlockCapacity.deleted_seg h.linked (by omega)
  · have hsub : addrs chain ⊆ List.range s.heap.length := by
      intro a ha
      exact List.mem_range.mpr (seg_lt h.linked a ha)
    refine (h.nodup.subperm hsub).perm_of_length_le ?_
    rw [List.length_range, addrs, List.length_map, hlen]

/-- Two blocks are filled one after the other, and the first is used again. -/
def reusedBlock : List Call :=
  [.op (.write (List.replicate (BLOCK_SIZE + 1) 0)), .op (.retrieve BLOCK_SIZE),
    .op (.write (List.replicate BLOCK_SIZE 0))]

/-- The block that moved to the end of the chain is deleted last. -/
theorem blocks_released_reused :
    ∃ s, Runs.run next KBuffer.fresh reusedBlock = some s ∧
      BlockCapacity.deleted s (s.heap.length + 1) s.head_ = .ok [1, 0] ∧
      [1, 0].Perm (List.range s.heap.length) := by
  have hrun : (Runs.run next KBuffer.fresh reusedBlock).map (fun s =>
      (BlockCapacity.deleted s (s.heap.length + 1) s.head_).toOption) = some (some [1, 0]) := by
    decide +kernel
  obtain ⟨s, hs, hdeleted⟩ := Option.map_eq_some_iff.mp hrun
  obtain ⟨blocks, hblocks, hperm⟩ := blocks_released reusedBlock s hs
  rw [hblocks] at hdeleted
  cases hdeleted
  exact ⟨s, hs, hblocks, hperm⟩

/-- A chain is determined by its addresses and its bytes. -/
theorem chain_ext {xs ys : List (ℕ × Block)} (ha : addrs xs = addrs ys) (hb : bytes xs = bytes ys) :
    xs = ys := by
  induction xs generalizing ys with
  | nil => exact (List.map_eq_nil_iff.mp ha.symm).symm
  | cons c xs ih =>
    cases ys with
    | nil => cases ha
    | cons d ys =>
      simp only [List.map_cons, List.cons.injEq] at ha
      rw [bytes_cons, bytes_cons] at hb
      obtain ⟨hblock, hrest⟩ := List.append_inj hb (c.2.2.trans d.2.2.symm)
      rw [ih ha.2 hrest, Prod.ext ha.1 (Subtype.ext hblock)]

/-- A buffer is determined by its chain, its cursors and its counters. -/
theorem buffer_ext (h : Layout s chain ri wi gap) (h' : Layout s' chain ri wi gap) (hf : Full s)
    (hf' : Full s') (hrp : s'.readablePos_ = s.readablePos_) (hwp : s'.writablePos_ = s.writablePos_)
    (hr : s'.readableSize_ = s.readableSize_) (hw : s'.writableSize_ = s.writableSize_) : s' = s := by
  have hheap : s'.heap = s.heap := seg_heap_ext h.linked h'.linked h.nodup (hf.length h)
    ((hf'.length h').trans (hf.length h).symm)
  have hhead := h'.head.trans h.head.symm
  have htail := h'.tail.trans h.tail.symm
  have hreader := h'.reader.ptr.trans h.reader.ptr.symm
  have hwriter := h'.writer.ptr.trans h.writer.ptr.symm
  have hused : s'.usedSize_ = s.usedSize_ := by rw [← h.used, ← h'.used, hrp]
  have hbuf := h'.size.trans h.size.symm
  cases s
  cases s'
  simp_all

/-- Two cursors at one position that stand at the end of a block only on the final
block are the same. -/
theorem cursor_unique {as : List ℕ} {p p' : Ptr} {i i' pos pos' : ℕ} (h : At as p i pos)
    (h' : At as p' i' pos') (hlin : i' * BLOCK_SIZE + pos' = i * BLOCK_SIZE + pos)
    (hend : pos = BLOCK_SIZE → i + 1 = as.length) (hend' : pos' = BLOCK_SIZE → i' + 1 = as.length) :
    i' = i ∧ pos' = pos := by
  have hp := h.pos_le
  have hp' := h'.pos_le
  have hin := h.inside
  have hin' := h'.inside
  simp only [BLOCK_SIZE] at *
  omega

/-- So are two cursors at one position inside their blocks or at their ends. -/
theorem cursor_unique_pos {as : List ℕ} {p p' : Ptr} {i i' pos pos' : ℕ} (h : At as p i pos)
    (h' : At as p' i' pos') (hlin : i' * BLOCK_SIZE + pos' = i * BLOCK_SIZE + pos)
    (hpos : 0 < pos) (hpos' : 0 < pos') : i' = i ∧ pos' = pos := by
  have hp := h.pos_le
  have hp' := h'.pos_le
  simp only [BLOCK_SIZE] at *
  omega

end KKNet.BlockIdentity
