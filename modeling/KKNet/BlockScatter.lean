import KKNet.BlockQueue

/-!
# The buffer as the end of a byte stream

`readFd` scatters received bytes over the free part of the chain, recomputes
the write cursor from their count, and passes what does not fit to `write`.
The cursor it leaves may stand at the end of a block with a successor, so the
invariant of a receiving buffer is the layout without a gap; the stronger
form a plain write needs holds again at the end of the final block.
-/

namespace KKNet.BlockScatter

open LinkedCells ListOverlay BlockBuffer BlockLayout BlockQueue Results

/-- The vector of a whole block. -/
def blockVec (a : ℕ) : KBuffer.IoVec := ⟨a, 0, BLOCK_SIZE⟩

variable {s : KBuffer} {chain : List (ℕ × Block)} {ri wi gap : ℕ}

/-- Whole blocks list their size. -/
theorem sum_blockVec (as : List ℕ) :
    ((as.map blockVec).map KBuffer.IoVec.len).sum = as.length * BLOCK_SIZE := by
  induction as with
  | nil => simp
  | cons a as ih =>
    rw [List.map_cons, List.map_cons, List.sum_cons, ih, List.length_cons, Nat.succ_mul, Nat.add_comm]
    rfl

/-- Behind the block of the write cursor every block is listed whole. -/
theorem ioVecs_tail {p : Ptr} {xs : List (ℕ × Block)} (hs : Seg s.heap p xs none)
    (hw : ∀ a ∈ addrs xs, some a ≠ s.writestr_) {fuel : ℕ} (hf : xs.length ≤ fuel) :
    s.ioVecs fuel (firstPtr xs none) = .ok ((addrs xs).map blockVec) := by
  induction xs generalizing p fuel with
  | nil =>
    unfold KBuffer.ioVecs
    rfl
  | cons c xs ih =>
    obtain ⟨fuel, rfl⟩ : ∃ n, fuel = n + 1 := ⟨fuel - 1, by rw [List.length_cons] at hf; omega⟩
    have hrest := ih hs.2 (fun a ha => hw a (by simp [ha])) (by simpa using hf)
    rw [firstPtr_cons]
    unfold KBuffer.ioVecs
    rw [deref_some hs.1, ok_bind, hrest, ok_bind, if_neg (hw c.1 (by simp))]
    rfl

/-- The vectors start at the write cursor and go on to the end of the chain. -/
theorem Layout.ioVecs (h : Layout s chain ri wi gap) {pre post : List (ℕ × Block)} {c : ℕ × Block}
    (hsp : chain = pre ++ c :: post) (hp : s.writestr_ = some c.1) :
    s.ioVecs (s.heap.length + 1) s.writestr_ =
      .ok (⟨c.1, s.writablePos_, BLOCK_SIZE - s.writablePos_⟩ :: (addrs post).map blockVec) := by
  have hlink := (seg_append.mp (hsp ▸ h.linked)).2
  have hlen := h.length_le_heap
  rw [hsp, List.length_append, List.length_cons] at hlen
  have hrest := ioVecs_tail hlink.2 (h.writer_other hsp hp) (by omega : post.length ≤ s.heap.length)
  rw [hp]
  unfold KBuffer.ioVecs
  rw [deref_some hlink.1, ok_bind, hrest, ok_bind, if_pos hp.symm]
  rfl

/-- Scattering over whole blocks overwrites them from their start. -/
theorem scatter_tail {pre post : List (ℕ × Block)} (hs : Seg s.heap none (pre ++ post) none)
    (hd : (addrs (pre ++ post)).Nodup) (data : List UInt8) :
    ∃ h' post', s.scatter ((addrs post).map blockVec) data =
        .ok ({ s with heap := h' }, data.drop (post.length * BLOCK_SIZE)) ∧
      Seg h' none (pre ++ post') none ∧ addrs post' = addrs post ∧
      bytes post' = overlay (bytes post) 0 (data.take (post.length * BLOCK_SIZE)) := by
  induction post generalizing s pre data with
  | nil =>
    refine ⟨s.heap, [], ?_, hs, rfl, ?_⟩
    · simp [KBuffer.scatter]
    · simp
  | cons c post ih =>
    have hc := c.2.2
    have htake : (data.take BLOCK_SIZE).length ≤ BLOCK_SIZE := by
      rw [List.length_take]
      omega
    obtain ⟨h₁, he, hs₁, _⟩ := memcpyTo_chain 0 (data.take BLOCK_SIZE) hs hd
      (by omega)
    have hcut : pre ++ (c.1, c.2.copy 0 (data.take BLOCK_SIZE)) :: post =
        (pre ++ [(c.1, c.2.copy 0 (data.take BLOCK_SIZE))]) ++ post := by simp
    obtain ⟨h', post', he', hs', ha', hb'⟩ := ih (s := { s with heap := h₁ }) (hcut ▸ hs₁)
      (by simpa [addrs] using hd) (data.drop BLOCK_SIZE)
    refine ⟨h', (c.1, c.2.copy 0 (data.take BLOCK_SIZE)) :: post', ?_, by simpa using hs',
      by simp [ha'], ?_⟩
    · rw [addrs, List.map_cons, List.map_cons]
      unfold KBuffer.scatter
      simp only [blockVec]
      rw [he, ok_bind, List.length_cons, Nat.succ_mul, Nat.add_comm, ← List.drop_drop]
      exact he'
    · have hjoin := overlay_append_take 0 (bytes post) data (post.length * BLOCK_SIZE)
        (Nat.zero_le c.2.1.length)
      rw [Nat.sub_zero, hc] at hjoin
      rw [bytes_cons, bytes_cons, hb', List.length_cons, Nat.succ_mul, Nat.add_comm, hjoin]
      rfl

/-- The gap never takes more than the counted room. -/
theorem Layout.gap_le (h : Layout s chain ri wi gap) : gap ≤ s.writableSize_ := by
  have hroom := h.room
  have hlin := h.writer.linear_le
  omega

/-- The vectors are those of the room, and `readv` over them overwrites the bytes behind the
write cursor with as much as they take. -/
def Scatters (s : KBuffer) (chain : List (ℕ × Block)) (ri wi gap : ℕ) : Prop :=
  ∃ vec, s.ioVecs (s.heap.length + 1) s.writestr_ = .ok vec ∧
    (∀ i, vec[i + 1]? = ((addrs chain)[wi + 1 + i]?).map blockVec) ∧
    vec.length + wi = chain.length ∧ (vec.map KBuffer.IoVec.len).sum + gap = s.writableSize_ ∧
    ∀ data, ∃ h' chain',
      s.scatter vec data = .ok ({ s with heap := h' }, data.drop (s.writableSize_ - gap)) ∧
      Layout { s with heap := h' } chain' ri wi gap ∧ addrs chain' = addrs chain ∧
      bytes chain' = overlay (bytes chain) (s.usedSize_ + s.readableSize_ + gap)
        (data.take (s.writableSize_ - gap))

/-- Without a block there is no room. -/
theorem Layout.scatter_nil (h : Layout s chain ri wi gap) (hnil : chain = [])
    (hp : s.writestr_ = none) (hi : wi = 0) (hpos : s.writablePos_ = 0) :
    Scatters s chain ri wi gap := by
  have hw := h.written
  have ht := h.total
  have hz := h.size
  rw [hnil, List.length_nil, Nat.zero_mul] at hz
  rw [hi, hpos, Nat.zero_mul] at hw
  have hnone : s.writableSize_ - gap = 0 := by omega
  refine ⟨[], ?_, fun i => ?_, ?_, ?_, fun data => ⟨s.heap, chain, ?_, h, rfl, ?_⟩⟩
  · rw [hp]
    unfold KBuffer.ioVecs
    rfl
  · rw [hnil]
    rfl
  · rw [hnil, hi]
    rfl
  · rw [List.map_nil, List.sum_nil]
    omega
  · rw [hnone, List.drop_zero]
    rfl
  · rw [hnone, List.take_zero, overlay_nil]

/-- With one, the block of the write cursor comes first and the blocks behind it follow. -/
theorem Layout.scatter_split (h : Layout s chain ri wi gap) {pre post : List (ℕ × Block)}
    {c : ℕ × Block} (hsp : chain = pre ++ c :: post) (hi : pre.length = wi)
    (hp : s.writestr_ = some c.1) : Scatters s chain ri wi gap := by
  have hw := h.written
  have hroom := h.room
  have hc := c.2.2
  have hbound := h.writer.pos_le
  have hs := hsp ▸ h.linked
  have hd : (addrs (pre ++ c :: post)).Nodup := hsp ▸ h.nodup
  have hsize : chain.length = wi + 1 + post.length := by
    rw [hsp, List.length_append, List.length_cons, hi]
    omega
  have hbehind : s.writableSize_ - gap = BLOCK_SIZE - s.writablePos_ + post.length * BLOCK_SIZE := by
    rw [hsize, Nat.add_mul, Nat.succ_mul] at hroom
    omega
  have hgap := Layout.gap_le h
  refine ⟨_, Layout.ioVecs h hsp hp, fun i => ?_, ?_, ?_, fun data => ?_⟩
  · rw [List.getElem?_cons_succ, List.getElem?_map, hsp, addrs, addrs, List.map_append,
      List.map_cons, List.getElem?_append_right (by rw [List.length_map]; omega),
      List.length_map, show wi + 1 + i - pre.length = i + 1 by omega, List.getElem?_cons_succ]
  · rw [List.length_cons, List.length_map, List.length_map]
    omega
  · rw [List.map_cons, List.sum_cons, sum_blockVec, List.length_map]
    dsimp only
    omega
  obtain ⟨h₁, he, hs₁, _⟩ := memcpyTo_chain s.writablePos_
    (data.take (BLOCK_SIZE - s.writablePos_)) hs hd (by rw [List.length_take]; omega)
  have hcut : pre ++ (c.1, c.2.copy s.writablePos_ (data.take (BLOCK_SIZE - s.writablePos_))) :: post =
      (pre ++ [(c.1, c.2.copy s.writablePos_ (data.take (BLOCK_SIZE - s.writablePos_)))]) ++ post := by
    simp
  obtain ⟨h', post', he', hs', ha', hb'⟩ := scatter_tail (s := { s with heap := h₁ })
    (hcut ▸ hs₁) (by simpa [addrs] using hd) (data.drop (BLOCK_SIZE - s.writablePos_))
  have haddr : addrs ((pre ++ [(c.1, c.2.copy s.writablePos_
      (data.take (BLOCK_SIZE - s.writablePos_)))]) ++ post') = addrs chain := by
    rw [hsp]
    simp [ha']
  refine ⟨h', _, ?_, h.sameAddrs hs' haddr, haddr, ?_⟩
  · unfold KBuffer.scatter
    have hdrop : data.drop (s.writableSize_ - gap) =
        (data.drop (BLOCK_SIZE - s.writablePos_)).drop (post.length * BLOCK_SIZE) := by
      rw [hbehind, List.drop_drop]
    rw [he, ok_bind, hdrop]
    exact he'
  · have hjoin := overlay_append_take s.writablePos_ (bytes post) data (post.length * BLOCK_SIZE)
      (hbound.trans_eq hc.symm)
    rw [hc] at hjoin
    rw [hbehind, hsp, ← hw, bytes_append, bytes_append, bytes_append, bytes_cons, bytes_cons,
      bytes_nil, ← hi, ← length_bytes, overlay_append_right, hjoin, hb', List.append_nil,
      List.append_assoc]
    rfl

/-- `readv` overwrites the bytes behind the write cursor with as much as the
chain takes. -/
theorem Layout.scatter (h : Layout s chain ri wi gap) : Scatters s chain ri wi gap := by
  rcases h.writer.split with ⟨hnil, hp, hi, hpos⟩ | ⟨pre, c, post, hsp, hi, hp⟩
  · exact Layout.scatter_nil h hnil hp hi hpos
  · exact Layout.scatter_split h hsp hi hp

/-- Casting the base of a vector behind the first gives the block it was made
from. -/
theorem castBase_block {vec : List KBuffer.IoVec} {as : List ℕ}
    (hv : ∀ i, vec[i + 1]? = (as[wi + 1 + i]?).map blockVec) {j : ℕ} (hj : wi + 1 + j < as.length) :
    KBuffer.castBase vec (j + 1) = .ok as[wi + 1 + j]? := by
  unfold KBuffer.castBase
  rw [hv, List.getElem?_eq_getElem hj]
  rfl

/-- A write cursor that was moved over `t` bytes of room, none of them in the gap. -/
theorem Layout.advanced (h : Layout s chain ri wi gap) {t : ℕ} (ht : gap + t ≤ s.writableSize_)
    {p : Ptr} {i pos : ℕ} (hat : At (addrs chain) p i pos)
    (hlin : i * BLOCK_SIZE + pos = wi * BLOCK_SIZE + s.writablePos_ + t) :
    Layout { s with
      writableSize_ := s.writableSize_ - t
      readableSize_ := s.readableSize_ + t
      writestr_ := p
      writablePos_ := pos } chain ri i gap := by
  have hw := h.written
  have htot := h.total
  exact { linked := h.linked, nodup := h.nodup, head := h.head, tail := h.tail
          reader := h.reader, writer := hat, used := h.used
          written := by dsimp only; omega, total := by dsimp only; omega, size := h.size }

/-- The cursor leaves its block. -/
theorem Layout.advance_past (h : Layout s chain ri wi gap) {vec : List KBuffer.IoVec}
    (hv : ∀ i, vec[i + 1]? = ((addrs chain)[wi + 1 + i]?).map blockVec) {t : ℕ}
    (ht : gap + t ≤ s.writableSize_) (hin : ¬t ≤ BLOCK_SIZE - s.writablePos_) :
    ∃ p i pos, s.advance vec t = .ok { s with
        writableSize_ := s.writableSize_ - t
        readableSize_ := s.readableSize_ + t
        writestr_ := p
        writablePos_ := pos } ∧
      At (addrs chain) p i pos ∧ i * BLOCK_SIZE + pos = wi * BLOCK_SIZE + s.writablePos_ + t ∧
      0 < pos := by
  have hw := h.written
  have htot := h.total
  have hz := h.size
  have hbound := h.writer.pos_le
  have hone : 0 < BLOCK_SIZE := by decide
  -- `past` is what lies behind the block
  obtain ⟨past, hpast⟩ : ∃ past, t - (BLOCK_SIZE - s.writablePos_) = past := ⟨_, rfl⟩
  have hlin : (wi + 1) * BLOCK_SIZE + past = wi * BLOCK_SIZE + s.writablePos_ + t := by
    rw [Nat.succ_mul]
    omega
  have hfit : (wi + 1) * BLOCK_SIZE + past ≤ chain.length * BLOCK_SIZE := by omega
  have hdiv := Nat.div_add_mod' past BLOCK_SIZE
  have hmod : past % BLOCK_SIZE < BLOCK_SIZE := Nat.mod_lt _ hone
  unfold KBuffer.advance
  rw [if_neg hin]
  dsimp only
  rw [hpast]
  by_cases hzero : past % BLOCK_SIZE = 0
  · obtain ⟨j, hj⟩ : ∃ j, past / BLOCK_SIZE = j + 1 := by
      refine Nat.exists_eq_succ_of_ne_zero fun hnil => ?_
      rw [hnil, Nat.zero_mul] at hdiv
      omega
    rw [hj, Nat.succ_mul] at hdiv
    have hjlt : wi + 1 + j < chain.length := by
      refine Nat.lt_of_mul_lt_mul_right (a := BLOCK_SIZE) ?_
      rw [Nat.add_mul]
      omega
    have hlen : wi + 1 + j < (addrs chain).length := by rwa [List.length_map]
    refine ⟨_, wi + 1 + j, BLOCK_SIZE, ?_, ⟨rfl, le_rfl, Or.inl hlen⟩, ?_, hone⟩
    · rw [if_pos hzero, hj, castBase_block hv hlen]
      rfl
    · rw [Nat.add_mul]
      omega
  · have hjlt : wi + 1 + past / BLOCK_SIZE < chain.length := by
      refine Nat.lt_of_mul_lt_mul_right (a := BLOCK_SIZE) ?_
      rw [Nat.add_mul]
      omega
    have hlen : wi + 1 + past / BLOCK_SIZE < (addrs chain).length := by rwa [List.length_map]
    refine ⟨_, wi + 1 + past / BLOCK_SIZE, past % BLOCK_SIZE, ?_, ⟨rfl, hmod.le, Or.inl hlen⟩, ?_,
      Nat.pos_of_ne_zero hzero⟩
    · rw [if_neg hzero, castBase_block hv hlen]
      rfl
    · rw [Nat.add_mul]
      omega

/-- The recomputed write cursor is the old one moved forward by the count. -/
theorem Layout.advance (h : Layout s chain ri wi gap) {vec : List KBuffer.IoVec}
    (hv : ∀ i, vec[i + 1]? = ((addrs chain)[wi + 1 + i]?).map blockVec) {t : ℕ}
    (ht : gap + t ≤ s.writableSize_) :
    ∃ p i pos, s.advance vec t = .ok { s with
        writableSize_ := s.writableSize_ - t
        readableSize_ := s.readableSize_ + t
        writestr_ := p
        writablePos_ := pos } ∧
      Layout { s with
        writableSize_ := s.writableSize_ - t
        readableSize_ := s.readableSize_ + t
        writestr_ := p
        writablePos_ := pos } chain ri i gap ∧
      (0 < s.writablePos_ + t → 0 < pos) ∧ (t = 0 → pos = s.writablePos_) := by
  by_cases hin : t ≤ BLOCK_SIZE - s.writablePos_
  · have hbound := h.writer.pos_le
    have hat : At (addrs chain) s.writestr_ wi (s.writablePos_ + t) := by
      refine ⟨h.writer.ptr, by omega, ?_⟩
      rcases h.writer.inside with hi | ⟨hnil, hi, hpos⟩
      · exact Or.inl hi
      · have hz := h.size
        have htot := h.total
        rw [List.map_eq_nil_iff.mp hnil, List.length_nil, Nat.zero_mul] at hz
        exact Or.inr ⟨hnil, hi, by omega⟩
    refine ⟨s.writestr_, wi, s.writablePos_ + t, ?_, Layout.advanced h ht hat (by omega), id,
      fun hz => by rw [hz, Nat.add_zero]⟩
    unfold KBuffer.advance
    exact if_pos hin
  · obtain ⟨p, i, pos, ea, hat, hlin, hpos⟩ := Layout.advance_past h hv ht hin
    exact ⟨p, i, pos, ea, Layout.advanced h ht hat hlin, fun _ => hpos, fun hz => by omega⟩

/-- With the chain full, the write cursor is at the end of the final block. -/
theorem Layout.toEnd (h : Layout s chain ri wi gap) :
    Layout { s with
      writableSize_ := 0
      writestr_ := s.tail_
      writablePos_ := if s.tail_ = none then 0 else BLOCK_SIZE
      readableSize_ := s.readableSize_ + s.writableSize_ } chain ri (chain.length - 1) 0 := by
  have htot := h.total
  have hz := h.size
  have htail : s.tail_ = (addrs chain)[chain.length - 1]? := by
    rw [h.tail, lastPtr_eq, Option.or_none, List.getLast?_eq_getElem?, List.length_map]
  by_cases hnil : chain = []
  · have hnone : s.tail_ = none := by
      rw [htail, hnil]
      rfl
    rw [hnil, List.length_nil, Nat.zero_mul] at hz
    refine { linked := h.linked, nodup := h.nodup, head := h.head, tail := h.tail
             reader := h.reader, writer := ⟨htail, ?_, Or.inr ⟨?_, ?_, if_pos hnone⟩⟩
             used := h.used, written := ?_, total := ?_, size := h.size }
    · rw [if_pos hnone]
      exact Nat.zero_le _
    · rw [hnil]
      rfl
    · rw [hnil]
      rfl
    · rw [hnil]
      dsimp only
      rw [if_pos hnone, List.length_nil, Nat.zero_mul]
      omega
    · dsimp only
      omega
  · have hpos : 0 < chain.length := List.length_pos_iff.mpr hnil
    have hsome : ¬s.tail_ = none := by
      rw [htail, List.getElem?_eq_none_iff, List.length_map]
      omega
    refine { linked := h.linked, nodup := h.nodup, head := h.head, tail := h.tail
             reader := h.reader, writer := ⟨htail, ?_, Or.inl ?_⟩
             used := h.used, written := ?_, total := ?_, size := h.size }
    · rw [if_neg hsome]
    · rw [List.length_map]
      omega
    · dsimp only
      rw [if_neg hsome, ← Nat.succ_mul, show (chain.length - 1).succ = chain.length by omega]
      omega
    · dsimp only
      omega

/-- A write cursor at the end of a chain that is not empty is settled. -/
theorem Layout.end_settled (h : Layout s chain ri wi gap)
    (hpos : (if s.tail_ = none then 0 else BLOCK_SIZE) = BLOCK_SIZE) :
    chain.length - 1 + 1 = chain.length := by
  have hsome : s.tail_ ≠ none := by
    intro hnone
    rw [if_pos hnone] at hpos
    exact absurd hpos (by decide)
  have hne : chain ≠ [] := by
    intro hnil
    have htail := h.tail
    rw [hnil] at htail
    exact hsome htail
  have hlength := List.length_pos_iff.mpr hne
  omega

/-- `readFd` appends as many of the delivered bytes as it reports. -/
theorem Holds.readFd {q : List UInt8} (h : Holds s q) (avail : List UInt8) :
    ∃ data s' k, s.delivered avail = .ok data ∧ s.readFd (some avail) = .ok (s', k) ∧
      k ≤ data.length ∧ Holds s' (q ++ data.take k) := by
  obtain ⟨chain, ri, wi, hl, rfl⟩ := h
  have htot := hl.total
  have hz := hl.size
  obtain ⟨vec, ev, hv, _, _, hscatter⟩ := Layout.scatter hl
  rw [Nat.sub_zero, Nat.add_zero] at hscatter
  obtain ⟨data, hdata⟩ : ∃ data, avail.take (KBuffer.iovLen vec) = data := ⟨_, rfl⟩
  obtain ⟨h', chain', es, hl', ha, hb⟩ := hscatter data
  have hwindow : ∀ s' : KBuffer, s'.usedSize_ = s.usedSize_ →
      s'.readableSize_ = s.readableSize_ + (data.take s.writableSize_).length →
      unread s' chain' = unread s chain ++ data.take s.writableSize_ := by
    intro s' hu hr
    unfold unread
    rw [hb, hu, hr]
    exact window_overlay (by rw [length_bytes, List.length_take]; omega)
  have hdel : s.delivered avail = .ok data := by
    unfold KBuffer.delivered
    rw [ev, ok_bind, hdata]
    rfl
  unfold KBuffer.readFd
  dsimp only
  rw [ev, ok_bind, hdata, es, ok_bind]
  by_cases hfit : data.length ≤ s.writableSize_
  · have hall : data.take s.writableSize_ = data := List.take_of_length_le hfit
    have hroom : 0 + data.length ≤ s.writableSize_ := by omega
    obtain ⟨p, i, pos, ea, hla, _⟩ := Layout.advance hl' (ha ▸ hv) hroom
    refine ⟨data, _, data.length, hdel, ?_, le_rfl, chain', ri, i, hla, ?_⟩
    · rw [if_pos hfit, ea]
      rfl
    · rw [hall] at hwindow
      rw [List.take_length]
      exact hwindow _ rfl rfl
  · have hextra : (data.drop s.writableSize_).take (data.length - s.writableSize_) =
        data.drop s.writableSize_ := List.take_of_length_le (by rw [List.length_drop])
    have hend := Layout.toEnd hl'
    have hrep : Represents { s with
        heap := h'
        writableSize_ := 0
        writestr_ := s.tail_
        writablePos_ := if s.tail_ = none then 0 else BLOCK_SIZE
        readableSize_ := s.readableSize_ + s.writableSize_ }
        (unread s chain ++ data.take s.writableSize_) := by
      refine ⟨chain', ri, _, hend, fun hpos => Layout.end_settled hl' hpos, hwindow _ rfl ?_⟩
      rw [List.length_take, Nat.min_eq_left (by omega)]
    rw [if_neg hfit, hextra]
    unfold KBuffer.overflow
    dsimp only
    rcases hrep.write (data.drop s.writableSize_) with ⟨_, s', ew, hr⟩ | ⟨_, s', ew, hr⟩
    · refine ⟨data, s', data.length, hdel, ?_, le_rfl, ?_⟩
      · rw [ew, ok_bind, List.length_drop, show s.writableSize_ + (data.length - s.writableSize_) =
          data.length by omega]
        rfl
      · have hsplit := hr.holds
        rw [List.append_assoc, List.take_append_drop] at hsplit
        rwa [List.take_length]
    · exact ⟨data, s', s.writableSize_, hdel, by rw [ew]; rfl, by omega, hr⟩

/-- One call on an input buffer. -/
inductive InOp
  /-- `readFd(fd)` with these bytes waiting on the descriptor. -/
  | readFd (avail : List UInt8)
  /-- `peek(buf, size)`. -/
  | peek (size : ℕ)
  /-- `read(buf, size)`. -/
  | read (size : ℕ)
  /-- `retrieve(len)`. -/
  | retrieve (len : ℕ)

/-- An input buffer with the history of its stream. -/
structure Stream where
  /-- The buffer. -/
  buffer : KBuffer
  /-- Of every `readFd`, the first delivered bytes, as many as it returned. -/
  received : List UInt8
  /-- The bytes taken out by `read` and `retrieve`. -/
  consumed : List UInt8

/-- A new buffer with no history. -/
def Stream.fresh : Stream := ⟨KBuffer.fresh, [], []⟩

/-- One call, with its entry in the history. -/
def Stream.step (st : Stream) : InOp → Except Fault Stream
  | .readFd avail => do
    let data ← st.buffer.delivered avail
    let out ← st.buffer.readFd (some avail)
    pure { st with buffer := out.1, received := st.received ++ data.take out.2 }
  | .peek size => do
    let _ ← st.buffer.peek size
    pure st
  | .read size => do
    let out ← st.buffer.read size
    pure { st with buffer := out.2, consumed := st.consumed ++ out.1 }
  | .retrieve len => do
    let front ← st.buffer.peek len
    let s ← st.buffer.retrieve len
    pure { st with buffer := s, consumed := st.consumed ++ front }

/-- A sequence of calls. -/
def Stream.run (st : Stream) (ops : List InOp) : Except Fault Stream := ops.foldlM Stream.step st

/-- What is consumed and what is still in the buffer make up what was received. -/
def Stream.Balanced (st : Stream) : Prop :=
  ∃ q, Holds st.buffer q ∧ st.consumed ++ q = st.received

/-- Every call on a balanced stream succeeds and leaves it balanced. -/
theorem Stream.Balanced.step {st : Stream} (h : st.Balanced) (op : InOp) :
    ∃ st', st.step op = .ok st' ∧ st'.Balanced := by
  obtain ⟨q, hq, hsum⟩ := h
  unfold Stream.step
  cases op with
  | readFd avail =>
    obtain ⟨data, s', k, ed, er, _, hs'⟩ := Holds.readFd hq avail
    refine ⟨{ st with buffer := s', received := st.received ++ data.take k },
      by simp only [ed, er, ok_bind, pure_eq_ok], q ++ data.take k, hs', ?_⟩
    rw [← List.append_assoc, hsum]
  | peek size => exact ⟨st, by simp only [hq.peek, ok_bind, pure_eq_ok], q, hq, hsum⟩
  | read size =>
    obtain ⟨s', er, hs'⟩ := hq.retrieve size
    refine ⟨{ st with buffer := s', consumed := st.consumed ++ q.take size },
      by simp only [KBuffer.read, hq.peek, er, ok_bind, pure_eq_ok], q.drop size, hs', ?_⟩
    rw [List.append_assoc, List.take_append_drop, hsum]
  | retrieve len =>
    obtain ⟨s', er, hs'⟩ := hq.retrieve len
    refine ⟨{ st with buffer := s', consumed := st.consumed ++ q.take len },
      by simp only [hq.peek, er, ok_bind, pure_eq_ok], q.drop len, hs', ?_⟩
    rw [List.append_assoc, List.take_append_drop, hsum]

/-- A run from a balanced stream never faults and ends in a balanced stream. -/
theorem Stream.Balanced.run {st : Stream} (h : st.Balanced) (ops : List InOp) :
    ∃ st', st.run ops = .ok st' ∧ st'.Balanced := by
  unfold Stream.run
  induction ops generalizing st with
  | nil => exact ⟨st, rfl, h⟩
  | cons op ops ih =>
    obtain ⟨st₁, he, h₁⟩ := h.step op
    obtain ⟨st', he', h'⟩ := ih h₁
    exact ⟨st', by rw [List.foldlM_cons, he, ok_bind, he'], h'⟩

/-- An input buffer delivers the received stream: after any sequence of calls
from a new buffer, the bytes consumed followed by the bytes a `peek` of the
readable size copies are the bytes received, and the readable size counts the
unread ones. -/
theorem input_stream_intact (ops : List InOp) :
    ∃ st unread, Stream.fresh.run ops = .ok st ∧
      st.buffer.peek st.buffer.getReadableSize = .ok unread ∧
      st.consumed ++ unread = st.received ∧ st.buffer.getReadableSize = unread.length := by
  have hfresh : Stream.fresh.Balanced := ⟨[], represents_fresh.holds, rfl⟩
  obtain ⟨st, he, q, hq, hsum⟩ := hfresh.run ops
  refine ⟨st, q, he, ?_, hsum, hq.length⟩
  rw [hq.peek, hq.length, List.take_length]

end KKNet.BlockScatter
