import KKNet.BlockQueue

/-!
# Rejected writes

`write` rejects in two places. The early rejection returns before anything is
touched; the late one returns after `move_head`. A late rejection that really
moved the head always leaves a trace: some later sequence of calls is answered
differently, if the write cursor was overtaken even by a null access. Without
such a rejection no call ever faults.
-/

namespace KKNet.BlockReject

open LinkedCells ListOverlay BlockBuffer BlockLayout BlockQueue Results

variable {s : KBuffer} {chain : List (ℕ × Block)} {ri wi gap : ℕ}

/-- Every state reached by the calls has a layout, perhaps with a gap. -/
def Shaped (s : KBuffer) : Prop := ∃ chain ri wi gap, Layout s chain ri wi gap

/-- A rejected write leaves the buffer alone if it returns early, or if there is
no head to move. -/
def Benign (s : KBuffer) : Prop := s.buflen_ ≥ MAX_BLOCK_SIZE ∨ s.readstr_ = s.head_

/-- The five ways through `write`. -/
theorem write_cases {buf : List UInt8} {s' : KBuffer} {n : ℕ} (h : s.write buf = .ok (s', n)) :
    (n = 0 ∧ s' = s ∧ s.buflen_ ≥ MAX_BLOCK_SIZE) ∨
    (n = buf.length ∧ s.doWrite buf = .ok s') ∨
    (n = buf.length ∧ ∃ s₁, s.moveHead = .ok s₁ ∧ s₁.doWrite buf = .ok s') ∨
    (n = 0 ∧ s.moveHead = .ok s' ∧ s.buflen_ < MAX_BLOCK_SIZE) ∨
    (n = buf.length ∧ 0 < buf.length ∧ ∃ s₁ s₂, s.moveHead = .ok s₁ ∧
      s₁.makeSpace buf.length = .ok s₂ ∧ s₂.doWrite buf = .ok s') := by
  unfold KBuffer.write at h
  by_cases hearly : buf.length > s.usedSize_ - s.readablePos_ + s.writableSize_ ∧
      s.buflen_ ≥ MAX_BLOCK_SIZE
  · rw [if_pos hearly] at h
    simp only [pure_eq_ok, Except.ok.injEq, Prod.mk.injEq] at h
    exact Or.inl ⟨h.2.symm, h.1.symm, hearly.2⟩
  rw [if_neg hearly] at h
  by_cases hfree : buf.length ≤ s.writableSize_
  · rw [if_pos hfree] at h
    obtain ⟨s₁, hd, hr⟩ := ok_of_bind h
    simp only [pure_eq_ok, Except.ok.injEq, Prod.mk.injEq] at hr
    exact Or.inr (Or.inl ⟨hr.2.symm, hr.1 ▸ hd⟩)
  rw [if_neg hfree] at h
  by_cases hmove : buf.length ≤ s.usedSize_ - s.readablePos_ + s.writableSize_
  · rw [if_pos hmove] at h
    obtain ⟨s₁, hm, h⟩ := ok_of_bind h
    obtain ⟨s₂, hd, hr⟩ := ok_of_bind h
    simp only [pure_eq_ok, Except.ok.injEq, Prod.mk.injEq] at hr
    exact Or.inr (Or.inr (Or.inl ⟨hr.2.symm, s₁, hm, hr.1 ▸ hd⟩))
  rw [if_neg hmove] at h
  obtain ⟨s₁, hm, h⟩ := ok_of_bind h
  by_cases hbig : buf.length > MAX_BLOCK_SIZE - s₁.writableSize_
  · rw [if_pos hbig] at h
    simp only [pure_eq_ok, Except.ok.injEq, Prod.mk.injEq] at h
    exact Or.inr (Or.inr (Or.inr (Or.inl ⟨h.2.symm, h.1 ▸ hm, by omega⟩)))
  · rw [if_neg hbig] at h
    obtain ⟨s₂, hg, h⟩ := ok_of_bind h
    obtain ⟨s₃, hd, hr⟩ := ok_of_bind h
    simp only [pure_eq_ok, Except.ok.injEq, Prod.mk.injEq] at hr
    exact Or.inr (Or.inr (Or.inr (Or.inr ⟨hr.2.symm, by omega, s₁, s₂, hm, hg, hr.1 ▸ hd⟩)))

/-- Where a nonempty write is rejected, the buffer is as before or has its head
moved. -/
theorem write_rejected {buf : List UInt8} {s' : KBuffer} (hbuf : buf ≠ [])
    (h : s.write buf = .ok (s', 0)) :
    (s' = s ∧ s.buflen_ ≥ MAX_BLOCK_SIZE) ∨ (s.moveHead = .ok s' ∧ s.buflen_ < MAX_BLOCK_SIZE) := by
  have hlen : 0 ≠ buf.length := fun hz => hbuf (List.eq_nil_of_length_eq_zero hz.symm)
  rcases write_cases h with ⟨_, he⟩ | ⟨hn, _⟩ | ⟨hn, _⟩ | ⟨_, he⟩ | ⟨hn, _⟩
  · exact Or.inl he
  · exact absurd hn hlen
  · exact absurd hn hlen
  · exact Or.inr he
  · exact absurd hn hlen

/-- `do_write` on any layout either keeps a layout or follows a null pointer. -/
theorem shaped_doWrite (h : Shaped s) {buf : List UInt8} {s' : KBuffer}
    (he : s.doWrite buf = .ok s') : Shaped s' := by
  obtain ⟨chain, ri, wi, gap, hl⟩ := h
  by_cases hfit : gap + buf.length ≤ s.writableSize_
  · obtain ⟨s₁, chain', i, hd, hl', _⟩ := hl.doWrite buf hfit
    rw [hd, Except.ok.injEq] at he
    exact he ▸ ⟨chain', ri, i, gap, hl'⟩
  · rw [hl.doWrite_null (by omega)] at he
    cases he

/-- `move_head` keeps a layout. -/
theorem shaped_moveHead (h : Shaped s) {s' : KBuffer} (he : s.moveHead = .ok s') : Shaped s' := by
  obtain ⟨chain, ri, wi, gap, hl⟩ := h
  obtain ⟨s₁, chain', wi', gap', hm, hl', _⟩ := hl.moveHead
  rw [hm, Except.ok.injEq] at he
  exact he ▸ ⟨chain', 0, wi', gap', hl'⟩

/-- `makeSpace` keeps a layout. -/
theorem shaped_makeSpace (h : Shaped s) {len : ℕ} (hlen : 0 < len) {s' : KBuffer}
    (he : s.makeSpace len = .ok s') : Shaped s' := by
  obtain ⟨chain, ri, wi, gap, hl⟩ := h
  obtain ⟨s₁, extra, wi', hg, hl', _⟩ := hl.makeSpace len hlen
  rw [hg, Except.ok.injEq] at he
  exact he ▸ ⟨chain ++ extra, ri, wi', gap, hl'⟩

/-- `retrieve` keeps a layout. -/
theorem shaped_retrieve (h : Shaped s) {len : ℕ} {s' : KBuffer} (he : s.retrieve len = .ok s') :
    Shaped s' := by
  obtain ⟨chain, ri, wi, gap, hl⟩ := h
  obtain ⟨s₁, i, hr, hl', _⟩ := hl.retrieve len
  rw [hr, Except.ok.injEq] at he
  exact he ▸ ⟨chain, i, wi, gap, hl'⟩

/-- `write` keeps a layout, rejected or not. -/
theorem shaped_write (h : Shaped s) {buf : List UInt8} {s' : KBuffer} {n : ℕ}
    (he : s.write buf = .ok (s', n)) : Shaped s' := by
  rcases write_cases he with ⟨_, hs, _⟩ | ⟨_, hd⟩ | ⟨_, s₁, hm, hd⟩ | ⟨_, hm, _⟩ |
    ⟨_, hpos, s₁, s₂, hm, hg, hd⟩
  · exact hs ▸ h
  · exact shaped_doWrite h hd
  · exact shaped_doWrite (shaped_moveHead h hm) hd
  · exact shaped_moveHead h hm
  · exact shaped_doWrite (shaped_makeSpace (shaped_moveHead h hm) hpos hg) hd

/-- Every call that succeeds keeps a layout. -/
theorem shaped_step (h : Shaped s) {op : Op} {r : Reply} {s' : KBuffer}
    (he : step s op = .ok (r, s')) : Shaped s' := by
  cases op with
  | write buf =>
    obtain ⟨out, hw, hr⟩ := ok_of_bind he
    simp only [pure_eq_ok, Except.ok.injEq, Prod.mk.injEq] at hr
    exact hr.2 ▸ shaped_write h hw
  | peek size =>
    obtain ⟨out, _, hr⟩ := ok_of_bind he
    simp only [pure_eq_ok, Except.ok.injEq, Prod.mk.injEq] at hr
    exact hr.2 ▸ h
  | read size =>
    obtain ⟨out, hread, hr⟩ := ok_of_bind he
    obtain ⟨front, _, hread⟩ := ok_of_bind hread
    obtain ⟨s₁, hd, hread⟩ := ok_of_bind hread
    simp only [pure_eq_ok, Except.ok.injEq, Prod.mk.injEq] at hr hread
    rw [← hr.2, ← hread]
    exact shaped_retrieve h hd
  | retrieve len =>
    obtain ⟨s₁, hd, hr⟩ := ok_of_bind he
    simp only [pure_eq_ok, Except.ok.injEq, Prod.mk.injEq] at hr
    exact hr.2 ▸ shaped_retrieve h hd

/-- Every reachable state has a layout. -/
theorem shaped_run (h : Shaped s) {ops : List Op} {s' : KBuffer} (he : run s ops = .ok s') :
    Shaped s' := by
  induction ops generalizing s with
  | nil =>
    unfold run at he
    rw [Except.ok.injEq] at he
    exact he ▸ h
  | cons op ops ih =>
    obtain ⟨out, hstep, he⟩ := ok_of_bind he
    exact ih (shaped_step h hstep) he

/-- A write that fits the counted room behind the write cursor is a `do_write`. -/
theorem write_fits {buf : List UInt8} (hfit : buf.length ≤ s.writableSize_) :
    s.write buf = (do
      let s' ← s.doWrite buf
      pure (s', buf.length)) := by
  unfold KBuffer.write
  rw [if_neg (by omega), if_pos hfit]

/-- It succeeds if the gap leaves enough of that room. -/
theorem write_ok (h : Layout s chain ri wi gap) (buf : List UInt8)
    (hfit : gap + buf.length ≤ s.writableSize_) : ∃ s', s.write buf = .ok (s', buf.length) := by
  obtain ⟨s', chain', i, hd, _⟩ := h.doWrite buf hfit
  rw [write_fits (by omega), hd, ok_bind]
  exact ⟨_, rfl⟩

/-- It follows a null pointer if the gap has eaten up that room. -/
theorem write_null (h : Layout s chain ri wi gap) (buf : List UInt8)
    (hfit : buf.length ≤ s.writableSize_) (hover : s.writableSize_ < gap + buf.length) :
    s.write buf = .error .nullBlock := by
  rw [write_fits hfit, h.doWrite_null hover, error_bind]

/-- A write that faults on one side only is answered differently. -/
theorem differs_of_fault {s' t : KBuffer} {buf : List UInt8} {e : Fault} {n : ℕ}
    (h : s.write buf = .ok (t, n)) (h' : s'.write buf = .error e) :
    replies s' [.write buf] ≠ replies s [.write buf] := by
  rw [replies_ok (step_write h), replies_error (step_write_error h')]
  simp

/-- A write accepted on one side only is answered differently. -/
theorem differs_of_accepts {s' : KBuffer} {q q' : List UInt8} (h : Represents s q)
    (h' : Represents s' q') {d : ℕ} (hd : 0 < d) (ha : Accepts s d) (ha' : ¬Accepts s' d) :
    replies s' [.write (List.replicate d 0)] ≠ replies s [.write (List.replicate d 0)] := by
  have hlen : (List.replicate d (0 : UInt8)).length = d := List.length_replicate
  rcases h.write (List.replicate d 0) with ⟨_, t, hw, _⟩ | ⟨hacc, _⟩
  · rcases h'.write (List.replicate d 0) with ⟨hacc', _⟩ | ⟨_, t', hw', _⟩
    · exact absurd (hlen ▸ hacc') ha'
    · rw [hlen] at hw
      rw [replies_ok (step_write hw), replies_ok (step_write hw')]
      intro heq
      have hpair := Except.ok.inj (List.cons.inj heq).1
      have hzero : 0 = d := Reply.wrote.inj (Prod.mk.inj hpair).1
      omega
  · exact absurd ha (hlen ▸ hacc)

/-- Writing `k` bytes and retrieving all that is unread empties a buffer without
a gap; its room is then that of the block where the read cursor stops. -/
theorem drain (h : Layout s chain ri wi 0) {k : ℕ} (hk : k ≤ s.writableSize_) (hne : chain ≠ []) :
    ∃ s₂ i, (∀ ops, replies s (.write (List.replicate k 0) ::
        .retrieve (s.readableSize_ + k) :: ops) =
        .ok (.wrote k, s.readableSize_ + k) :: .ok (.done, 0) :: replies s₂ ops) ∧
      Represents s₂ [] ∧ s₂.buflen_ = s.buflen_ ∧ room s₂ = i * BLOCK_SIZE + (s.writableSize_ - k) ∧
      i < chain.length ∧ i * BLOCK_SIZE ≤ s.usedSize_ + s.readableSize_ + k ∧
      s.usedSize_ + s.readableSize_ + k ≤ (i + 1) * BLOCK_SIZE ∧
      (s.usedSize_ + s.readableSize_ + k = (i + 1) * BLOCK_SIZE → i + 1 = chain.length) := by
  have hlen : (List.replicate k (0 : UInt8)).length = k := List.length_replicate
  obtain ⟨s₁, chain', j, hd, hl, hwrote, hsame, hset, _⟩ := h.doWrite (List.replicate k 0) (by omega)
  have hw := write_fits (hlen.trans_le hk)
  rw [hd, ok_bind, hlen] at hw
  rw [hlen] at hwrote
  obtain ⟨s₂, i, hr, hl₂, hret, hend⟩ := hl.retrieve (s.readableSize_ + k)
  have hr₁ := hwrote.readableSize
  have hu₁ := hwrote.usedSize
  have hf₁ := hwrote.writableSize
  have hu₂ := hret.usedSize
  have hr₂ := hret.readableSize
  have hf₂ := hret.writableSize
  have hlin := hl₂.used
  have hbound := hl₂.reader.pos_le
  rw [hr₁, Nat.min_self] at hu₂ hr₂
  have hin : i < chain.length := by
    rcases hl₂.reader.inside with hi | ⟨hnil, _⟩
    · rw [List.length_map] at hi
      omega
    · rw [List.map_eq_nil_iff] at hnil
      rw [hnil] at hsame
      exact absurd (List.eq_nil_of_length_eq_zero hsame.symm) hne
  refine ⟨s₂, i, fun ops => ?_, ⟨chain', i, j, hl₂, ?_, ?_⟩, hret.buflen.trans hwrote.buflen, ?_,
    hin, ?_, ?_, ?_⟩
  · have hfull : s₁.getReadableSize = s.readableSize_ + k := hr₁
    have hempty : s₂.getReadableSize = 0 := hr₂.trans (Nat.sub_self _)
    rw [replies_ok (step_write hw), replies_ok (step_retrieve hr), hfull, hempty]
  · exact fun hpos => hset (hret.writablePos ▸ hpos)
  · unfold unread
    rw [hr₂, Nat.sub_self, List.take_zero]
  · unfold room
    omega
  · omega
  · rw [Nat.succ_mul]
    omega
  · intro hfull
    rw [Nat.succ_mul] at hfull
    exact hsame ▸ hend (by omega)

/-- The two emptied buffers differ in room by one block, and some size is
accepted by one of them only. -/
theorem accepts_one_block {n : ℕ} (s s' : KBuffer) (hn : 0 < n) (hbuf : s.buflen_ = n * BLOCK_SIZE)
    (hbuf' : s'.buflen_ = n * BLOCK_SIZE) (hmax : n * BLOCK_SIZE < MAX_BLOCK_SIZE)
    (hroom : room s + BLOCK_SIZE = n * BLOCK_SIZE) (hroom' : room s' = n * BLOCK_SIZE) :
    ∃ d, 0 < d ∧ (Accepts s d ∧ ¬Accepts s' d ∨ Accepts s' d ∧ ¬Accepts s d) := by
  unfold Accepts
  rw [hbuf, hbuf', hroom']
  simp only [BLOCK_SIZE, MAX_BLOCK_SIZE] at *
  by_cases hhalf : n ≤ 640
  · exact ⟨(1281 - n) * 1024, by omega, Or.inl (by omega)⟩
  · exact ⟨n * 1024, by omega, Or.inr (by omega)⟩

/-- Where no block is lost, the move makes room for the blocks before the read cursor
once both buffers are emptied, and some write tells them apart. -/
theorem moved_room_differs (h : Layout s chain ri wi 0) (hri : ri ≠ 0)
    (hmax : s.buflen_ < MAX_BLOCK_SIZE) {s' : KBuffer} {wi' : ℕ}
    (hl' : Layout s' (chain.drop ri ++ chain.take ri) 0 wi' 0) (hmoved : Moved s s') :
    ∃ ops, replies s' ops ≠ replies s ops := by
  have hu := h.used
  have hw := h.written
  have ht := h.total
  have hz := h.size
  have hr := h.reader.linear_le
  have hw' := hmoved.writableSize
  have hu' := hmoved.usedSize
  have hr' := hmoved.readableSize
  have hin := h.reader_lt hri
  have hone : 0 < BLOCK_SIZE := by decide
  have hfront : 1 * BLOCK_SIZE ≤ ri * BLOCK_SIZE := Nat.mul_le_mul_right _ (by omega)
  have hback : (ri + 1) * BLOCK_SIZE ≤ chain.length * BLOCK_SIZE := Nat.mul_le_mul_right _ hin
  rw [Nat.succ_mul] at hback
  have hne : chain ≠ [] := List.ne_nil_of_length_pos (by omega)
  have hlen' : (chain.drop ri ++ chain.take ri).length = chain.length := by
    rw [List.length_append, List.length_drop, List.length_take]
    omega
  have hne' : chain.drop ri ++ chain.take ri ≠ [] := List.ne_nil_of_length_pos (by omega)
  -- both are filled and emptied
  obtain ⟨s₂, i, hrep, hq, hb, hroom, hi, hlo, hhi, _⟩ := drain h le_rfl hne
  obtain ⟨s₂', i', hrep', hq', hb', hroom', hi', hlo', hhi', hend'⟩ :=
    drain hl' (by omega : s.writableSize_ ≤ s'.writableSize_) hne'
  have hlast : i + 1 = chain.length := by
    have hge := Nat.le_of_mul_le_mul_right (by omega : chain.length * BLOCK_SIZE ≤
      (i + 1) * BLOCK_SIZE) hone
    omega
  have hsum : s'.usedSize_ + s'.readableSize_ + s.writableSize_ + ri * BLOCK_SIZE =
      chain.length * BLOCK_SIZE := by omega
  have hup : i' + ri ≤ chain.length :=
    Nat.le_of_mul_le_mul_right (by rw [Nat.add_mul]; omega) hone
  have hfree : i' + ri = chain.length := by
    by_contra hlt
    have hmul : (i' + 1 + ri) * BLOCK_SIZE ≤ chain.length * BLOCK_SIZE :=
      Nat.mul_le_mul_right _ (by omega)
    rw [Nat.add_mul] at hmul
    have hfull := hend' (by omega)
    omega
  -- their rooms differ by a block at least
  obtain ⟨d, hd, hacc⟩ := accepts_one_block s₂ s₂' (by omega)
    (hb.trans hz) (hb'.trans (hmoved.buflen.trans hz)) (hz ▸ hmax)
    (by rw [hroom, Nat.sub_self, ← hlast, Nat.succ_mul]; omega)
    (by rw [hroom', hw', ← hfree, Nat.add_mul]; omega)
  have hdiff : replies s₂' [.write (List.replicate d 0)] ≠ replies s₂ [.write (List.replicate d 0)] := by
    rcases hacc with ⟨ha, hna⟩ | ⟨ha, hna⟩
    · exact differs_of_accepts hq hq' hd ha hna
    · exact (differs_of_accepts hq' hq hd ha hna).symm
  refine ⟨.write (List.replicate s.writableSize_ 0) ::
    .retrieve (s.readableSize_ + s.writableSize_) :: [.write (List.replicate d 0)], ?_⟩
  rw [hr'] at hrep'
  rw [hrep, hrep']
  intro heq
  exact hdiff (List.cons.inj (List.cons.inj heq).2).2

/-- With the head moved by a rejected write, some later sequence of calls is
answered differently. -/
theorem moved_differs (h : Layout s chain ri wi gap) (hri : ri ≠ 0)
    (hmax : s.buflen_ < MAX_BLOCK_SIZE) {s' : KBuffer} (hm : s.moveHead = .ok s') :
    ∃ ops, replies s' ops ≠ replies s ops := by
  obtain ⟨s₁, wi', gap', he, hl', hmoved, hkeep, hlost⟩ := h.moveHead_rotate hri
  have hs : s' = s₁ := Except.ok.inj (hm.symm.trans he)
  subst hs
  have hu := h.used
  have hw := h.written
  have ht := h.total
  have hz := h.size
  have hw' := hmoved.writableSize
  have hin := h.reader_lt hri
  have hlen : ∀ k, (List.replicate k (0 : UInt8)).length = k := fun k => List.length_replicate
  have hone : 0 < BLOCK_SIZE := by decide
  have hfront : 1 * BLOCK_SIZE ≤ ri * BLOCK_SIZE := Nat.mul_le_mul_right _ (by omega)
  have hback : (ri + 1) * BLOCK_SIZE ≤ chain.length * BLOCK_SIZE := Nat.mul_le_mul_right _ hin
  rw [Nat.succ_mul] at hback
  by_cases hover : wi < ri
  · -- overtaken: filling the rest works before the move and faults after it
    obtain ⟨_, _, hrp, hrs, hg⟩ := h.overtaken hover
    have hgap := hlost hover
    obtain ⟨t, hok⟩ := write_ok h (List.replicate s.writableSize_ 0) (by rw [hlen]; omega)
    have hnull := write_null hl' (List.replicate s.writableSize_ 0) (by rw [hlen]; omega)
      (by rw [hlen]; omega)
    exact ⟨_, differs_of_fault hok hnull⟩
  obtain ⟨_, hgap⟩ := hkeep (by omega)
  by_cases hg : gap = 0
  · -- no gap: emptied, the two buffers differ in room by one block
    subst hg hgap
    exact moved_room_differs h hri hmax hl' hmoved
  · -- a gap: one byte too much for it faults before the move and works after it
    have hend := h.writer.linear_le
    have hnull := write_null h (List.replicate (s.writableSize_ - gap + 1) 0)
      (by rw [hlen]; omega) (by rw [hlen]; omega)
    obtain ⟨t, hok⟩ := write_ok hl' (List.replicate (s.writableSize_ - gap + 1) 0)
      (by rw [hlen]; omega)
    exact ⟨_, (differs_of_fault hok hnull).symm⟩

/-- Every rejected write of the sequence is benign, as long as it runs. -/
def BenignRun (s : KBuffer) : List Op → Prop
  | [] => True
  | op :: ops => ∀ r s', step s op = .ok (r, s') → (Rejected op r → Benign s) ∧ BenignRun s' ops

/-- A benign rejection changes nothing. -/
theorem benign_rejected (h : Benign s) {buf : List UInt8} {s' : KBuffer} (hbuf : buf ≠ [])
    (hw : s.write buf = .ok (s', 0)) : s' = s := by
  rcases write_rejected hbuf hw with ⟨hs, _⟩ | ⟨hm, hmax⟩
  · exact hs
  · rcases h with hfull | hhead
    · omega
    · unfold KBuffer.moveHead at hm
      rw [if_neg (not_not_intro hhead), pure_eq_ok, Except.ok.injEq] at hm
      exact hm.symm

/-- On a representing buffer every call returns, and unless it is a rejection
that is not benign the buffer represents a queue afterwards. -/
theorem benign_step {q : List UInt8} (h : Represents s q) (op : Op) :
    ∃ r s', step s op = .ok (r, s') ∧
      ((Rejected op r → Benign s) → ∃ q', Represents s' q') := by
  obtain ⟨r, s', he, hr⟩ := h.step op
  refine ⟨r, s', he, fun hb => ?_⟩
  rcases hr with hrej | ⟨_, hr⟩
  · have hbenign := hb hrej
    obtain ⟨buf, hop, hne, hzero⟩ := hrej
    subst hop hzero
    obtain ⟨out, hw, hout⟩ := ok_of_bind he
    simp only [pure_eq_ok, Except.ok.injEq, Prod.mk.injEq, Reply.wrote.injEq] at hout
    have hsame := benign_rejected hbenign hne (hw.trans (congrArg Except.ok (Prod.ext rfl hout.1)))
    exact ⟨q, (hout.2.symm.trans hsame).symm ▸ h⟩
  · exact ⟨_, hr⟩

/-- With benign rejections only, every call returns. -/
theorem benign_run {q : List UInt8} (h : Represents s q) (ops : List Op) (hb : BenignRun s ops) :
    ∀ x ∈ replies s ops, ∃ r, x = .ok r := by
  induction ops generalizing s q with
  | nil => exact fun x hx => absurd hx List.not_mem_nil
  | cons op ops ih =>
    obtain ⟨r, s', he, hnext⟩ := benign_step h op
    obtain ⟨hrej, hrest⟩ := hb r s' he
    obtain ⟨q', hr⟩ := hnext hrej
    intro x hx
    rw [replies_ok he, List.mem_cons] at hx
    rcases hx with hx | hx
    · exact ⟨_, hx⟩
    · exact ih hr hrest x hx

/-- In every reachable state, a rejected write is invisible to all later calls
exactly when the buffer is at its limit or the read cursor is in the head
block; and a run whose rejected writes are all made in such states never
faults. -/
theorem rejected_write_invisible_iff (ops : List Op) :
    (∀ s buf s', run KBuffer.fresh ops = .ok s → buf ≠ [] → s.write buf = .ok (s', 0) →
      ((∀ later, replies s' later = replies s later) ↔
        s.buflen_ ≥ MAX_BLOCK_SIZE ∨ s.readstr_ = s.head_)) ∧
    (BenignRun KBuffer.fresh ops → ∀ x ∈ replies KBuffer.fresh ops, ∃ r, x = .ok r) := by
  refine ⟨fun s buf s' hrun hbuf hw => ⟨fun hsame => ?_, fun hb => ?_⟩,
    benign_run represents_fresh ops⟩
  · obtain ⟨chain, ri, wi, gap, hl⟩ := shaped_run ⟨_, _, _, _, layout_fresh⟩ hrun
    rcases write_rejected hbuf hw with ⟨_, hfull⟩ | ⟨hm, hmax⟩
    · exact Or.inl hfull
    · refine Or.inr (hl.readstr_eq_head.mpr ?_)
      by_contra hri
      obtain ⟨later, hdiff⟩ := moved_differs hl hri hmax hm
      exact hdiff (hsame later)
  · rw [benign_rejected hb hbuf hw]
    exact fun _ => rfl

/-- Three blocks, of which the first is half read. -/
def halfRead : List Op := [.write (List.replicate 2500 7), .read 500]

/-- The buffer they leave holds 2000 bytes, with the read cursor in the head block. -/
theorem run_halfRead :
    ∃ s, run KBuffer.fresh halfRead = .ok s ∧ NoReject KBuffer.fresh halfRead ∧
      Represents s (List.replicate 2000 7) ∧ s.buflen_ = 3 * BLOCK_SIZE ∧ s.readstr_ = s.head_ := by
  have hfacts : (run KBuffer.fresh halfRead).toOption.map (fun s =>
      (s.buflen_, decide (s.readstr_ = s.head_))) = some (3 * BLOCK_SIZE, true) := by
    decide +kernel
  obtain ⟨s, hrun, hs⟩ := ok_of_toOption_map hfacts
  obtain ⟨hlen, hhead⟩ := Prod.mk.inj hs
  have hacc : Accepts KBuffer.fresh (List.replicate 2500 (7 : UInt8)).length := by
    rw [List.length_replicate]
    decide
  have hn : NoReject KBuffer.fresh halfRead :=
    represents_fresh.noReject_write hacc fun _ _ _ _ _ => ⟨not_rejected (by simp), trivial⟩
  rcases represents_fresh.write (List.replicate 2500 7) with ⟨_, s₁, hw, h₁⟩ | ⟨hno, _⟩
  · obtain ⟨s₂, hret, h₂⟩ := h₁.retrieve 500
    have hrun₂ : run KBuffer.fresh halfRead = .ok s₂ := by
      simp only [halfRead, run, step_write hw, step_read (h₁.holds.peek 500) hret, ok_bind]
    rw [hrun, Except.ok.injEq] at hrun₂
    rw [List.nil_append, List.drop_replicate, ← hrun₂] at h₂
    exact ⟨s, hrun, hn, h₂, hlen, of_decide_eq_true hhead⟩
  · exact absurd hacc hno

/-- More than the limit is never accepted. -/
theorem not_accepts_oversized (h : room s ≤ MAX_BLOCK_SIZE) {size : ℕ}
    (hsize : MAX_BLOCK_SIZE < size) : ¬Accepts s size := by
  unfold Accepts
  omega

/-- With 2000 unread bytes in three blocks, a write of more than the limit is rejected and
invisible, since the read cursor is in the head block; and a run of it returns. -/
theorem rejected_write_invisible_halfRead :
    ∃ s s', run KBuffer.fresh halfRead = .ok s ∧
      s.peek s.getReadableSize = .ok (List.replicate 2000 7) ∧ s.buflen_ = 3 * BLOCK_SIZE ∧
      s.write (List.replicate (MAX_BLOCK_SIZE + 1) 0) = .ok (s', 0) ∧
      (∀ later, replies s' later = replies s later) ∧
      ∀ x ∈ replies KBuffer.fresh (halfRead ++ [.write (List.replicate (MAX_BLOCK_SIZE + 1) 0)]),
        ∃ r, x = .ok r := by
  obtain ⟨s, hrun, hn, hrep, hlen, hhead⟩ := run_halfRead
  have hroom : room s ≤ MAX_BLOCK_SIZE := by
    obtain ⟨chain, ri, wi, hl, _⟩ := hrep
    have hz := hl.size
    have ht := hl.total
    have hmax : 3 * BLOCK_SIZE ≤ MAX_BLOCK_SIZE := by decide
    unfold room
    omega
  obtain ⟨big, hbig⟩ : ∃ big, List.replicate (MAX_BLOCK_SIZE + 1) (0 : UInt8) = big := ⟨_, rfl⟩
  have hsize : big.length = MAX_BLOCK_SIZE + 1 := by rw [← hbig, List.length_replicate]
  have hne : big ≠ [] := List.ne_nil_of_length_pos (by omega)
  rw [hbig]
  rcases hrep.write big with ⟨hacc, _⟩ | ⟨_, s', hw, _⟩
  · exact absurd hacc (not_accepts_oversized hroom (by omega))
  refine ⟨s, s', hrun, hrep.holds.peek_all, hlen, hw, ?_, ?_⟩
  · exact ((rejected_write_invisible_iff halfRead).1 s big s' hrun hne hw).mpr (Or.inr hhead)
  · refine (rejected_write_invisible_iff _).2 fun r₁ s₁ he₁ => ⟨fun hrej => ?_, ?_⟩
    · exact absurd hrej (hn r₁ s₁ he₁).1
    · refine fun r₂ s₂ he₂ => ⟨fun hrej => ?_, fun r₃ s₃ _ => ⟨fun _ => Or.inr ?_, trivial⟩⟩
      · exact absurd hrej ((hn r₁ s₁ he₁).2 r₂ s₂ he₂).1
      · have hrun₂ : run KBuffer.fresh halfRead = .ok s₂ := by
          simp only [halfRead, run, he₁, he₂, ok_bind]
        rw [hrun, Except.ok.injEq] at hrun₂
        exact hrun₂ ▸ hhead

/-- The first write to a fresh buffer, of at most the limit, makes just enough
blocks for it. -/
theorem fill {buf : List UInt8} (hbuf : buf ≠ []) (hmax : buf.length ≤ MAX_BLOCK_SIZE) :
    ∃ s chain wi, KBuffer.fresh.write buf = .ok (s, buf.length) ∧ Layout s chain 0 wi 0 ∧
      (s.writablePos_ = BLOCK_SIZE → wi + 1 = chain.length) ∧ unread s chain = buf ∧
      s.usedSize_ = 0 ∧ s.readableSize_ = buf.length ∧
      buf.length ≤ chain.length * BLOCK_SIZE ∧ chain.length * BLOCK_SIZE < buf.length + BLOCK_SIZE := by
  have hpos := List.length_pos_iff.mpr hbuf
  obtain ⟨s₁, extra, wi, hg, hl, hgrown, hlo, hhi⟩ := layout_fresh.makeSpace buf.length hpos
  have hf := hgrown.writableSize
  have hr := hgrown.readableSize
  simp only [KBuffer.fresh, Nat.zero_add] at hf hr
  obtain ⟨s, chain, i, hd, hl', hwrote, hlen, hset, hq⟩ := hl.doWrite buf (by omega)
  have hr' := hwrote.readableSize
  have hnil : unread s₁ ([] ++ extra) = [] := by
    unfold unread
    rw [hr, List.take_zero]
  rw [List.nil_append] at hlen
  refine ⟨s, chain, i, ?_, hl', hset, ?_, hwrote.usedSize.trans hgrown.usedSize, by omega,
    hlen ▸ hlo, hlen ▸ hhi⟩
  · have hmove : KBuffer.fresh.moveHead = .ok KBuffer.fresh := rfl
    have hfree : KBuffer.fresh.writableSize_ = 0 := rfl
    have hroom : KBuffer.fresh.usedSize_ - KBuffer.fresh.readablePos_ = 0 := rfl
    have hsize : KBuffer.fresh.buflen_ = 0 := rfl
    have hlimit : 0 < MAX_BLOCK_SIZE := by decide
    unfold KBuffer.write
    rw [hfree, hroom, hsize, if_neg (by omega), if_neg (by omega), if_neg (by omega), hmove,
      ok_bind, if_neg (by rw [hfree]; omega), hg, ok_bind, hd]
    rfl
  · rw [hq rfl, hnil, List.nil_append]

/-- One byte written to a fresh buffer makes one block. -/
theorem fill_byte :
    ∃ s chain wi, KBuffer.fresh.write [0] = .ok (s, 1) ∧ Layout s chain 0 wi 0 ∧
      Represents s [0] ∧ chain.length = 1 ∧ s.usedSize_ = 0 ∧ s.readableSize_ = 1 ∧
      s.buflen_ = BLOCK_SIZE ∧ room s = BLOCK_SIZE - 1 := by
  obtain ⟨s, chain, wi, hw, hl, hset, hq, hu, hr, hlo, hhi⟩ :=
    fill (List.cons_ne_nil (0 : UInt8) []) (by decide)
  rw [List.length_singleton] at hw hr hlo hhi
  have hone : chain.length = 1 := by
    simp only [BLOCK_SIZE] at hlo hhi
    omega
  have hz := hl.size
  have ht := hl.total
  have hused := hl.used
  rw [hone, Nat.one_mul] at hz
  refine ⟨s, chain, wi, hw, hl, ⟨chain, 0, wi, hl, hset, hq⟩, hone, hu, hr, hz, ?_⟩
  unfold room
  omega

/-- A cursor one block into a settled two-block chain is at the start of the
second block. -/
theorem second_block {i pos : ℕ} (hlin : i * BLOCK_SIZE + pos = BLOCK_SIZE)
    (hset : pos = BLOCK_SIZE → i + 1 = 2) : i = 1 ∧ pos = 0 := by
  have hone : 0 < BLOCK_SIZE := by decide
  cases i with
  | zero =>
    have htwo := hset (by omega)
    omega
  | succ i =>
    rw [Nat.succ_mul] at hlin
    have hz : i * BLOCK_SIZE = 0 := by omega
    have hi : i = 0 := by
      rcases Nat.mul_eq_zero.mp hz with hi | hb
      · exact hi
      · omega
    omega

/-- Where the read cursor has overtaken the write cursor, a write that needs the blocks
before it follows a null pointer. -/
theorem overtaken_write_null (h : Layout s chain ri wi gap) (hlt : wi < ri) {buf : List UInt8}
    (hmore : s.writableSize_ < buf.length)
    (hfits : buf.length ≤ s.usedSize_ - s.readablePos_ + s.writableSize_) :
    s.write buf = .error .nullBlock := by
  obtain ⟨_, _, hrp, hr, _⟩ := h.overtaken hlt
  obtain ⟨t, wi', gap', hm, hl, hmoved, _, hlost⟩ := h.moveHead_rotate (by omega)
  have hgap := hlost hlt
  have ht := h.total
  have hz := h.size
  have hw := hmoved.writableSize
  unfold KBuffer.write
  rw [if_neg (by omega), if_neg (by omega), if_pos hfits, hm, ok_bind, hl.doWrite_null (by omega),
    error_bind]

/-- Two blocks were written and the first was read. -/
structure HalfRead (s : KBuffer) (chain : List (ℕ × Block)) (wi : ℕ) : Prop where
  /-- The read cursor is in the second block. -/
  layout : Layout s chain 1 wi 0
  /-- There are two blocks. -/
  two : chain.length = 2
  /-- The write cursor is settled. -/
  settled : s.writablePos_ = BLOCK_SIZE → wi + 1 = chain.length
  /-- One block is unread. -/
  unread : unread s chain = List.replicate BLOCK_SIZE 0
  /-- Its size is counted. -/
  readable : s.readableSize_ = BLOCK_SIZE
  /-- So is that of the block that was read. -/
  used : s.usedSize_ = BLOCK_SIZE
  /-- The read cursor is at the start of its block. -/
  start : s.readablePos_ = 0
  /-- There is no room behind the write cursor. -/
  full : s.writableSize_ = 0

/-- A write of two blocks and a read of one lead there. -/
theorem exists_halfRead :
    ∃ s chain wi, run KBuffer.fresh [.write (List.replicate (2 * BLOCK_SIZE) 0), .read BLOCK_SIZE] =
      .ok s ∧ HalfRead s chain wi := by
  have hone : 0 < BLOCK_SIZE := by decide
  have hmax : 5 * BLOCK_SIZE < MAX_BLOCK_SIZE := by decide
  have hlen : ∀ k, (List.replicate k (0 : UInt8)).length = k := fun k => List.length_replicate
  have hrest : 2 * BLOCK_SIZE - BLOCK_SIZE = BLOCK_SIZE := by omega
  have hsome : List.replicate (2 * BLOCK_SIZE) (0 : UInt8) ≠ [] :=
    List.ne_nil_of_length_pos (by rw [hlen]; omega)
  obtain ⟨s₁, chain, wi, hw, hl, hset, hq, hu, hr, hlo, hhi⟩ := fill hsome (by rw [hlen]; omega)
  rw [hlen] at hw hr hlo hhi
  have htwo : chain.length = 2 := by
    have hge := Nat.le_of_mul_le_mul_right hlo hone
    have hlt : chain.length < 3 := Nat.lt_of_mul_lt_mul_right (a := BLOCK_SIZE) (by omega)
    omega
  have hb := hl.size
  have ht := hl.total
  rw [htwo] at hb
  -- the first block is read
  obtain ⟨s₂, i, hret, hl₂, hd₂, hend₂⟩ := hl.retrieve BLOCK_SIZE
  have hpeek := hl.peek BLOCK_SIZE
  have hq₂ := hd₂.unread chain
  have hu₂ := hd₂.usedSize
  have hr₂ := hd₂.readableSize
  have hf₂ := hd₂.writableSize
  rw [hr, Nat.min_eq_left (by omega)] at hu₂ hr₂
  rw [hu, Nat.zero_add] at hu₂
  rw [hrest] at hr₂
  rw [hq, List.drop_replicate, hrest] at hq₂
  rw [hq, List.take_replicate, Nat.min_eq_left (by omega)] at hpeek
  obtain ⟨hi, hp₂⟩ := second_block (hl₂.used.trans hu₂) (htwo ▸ hend₂)
  subst hi
  refine ⟨s₂, chain, wi, ?_, hl₂, htwo, fun hpos => hset (hd₂.writablePos ▸ hpos), hq₂, hr₂, hu₂,
    hp₂, by omega⟩
  simp only [run, step_write hw, step_read hpeek hret, ok_bind]

/-- The unread block is read. -/
theorem HalfRead.read (h : HalfRead s chain wi) :
    s.peek BLOCK_SIZE = .ok (List.replicate BLOCK_SIZE 0) := by
  have hpeek := h.layout.peek BLOCK_SIZE
  rwa [h.unread, List.take_of_length_le List.length_replicate.le] at hpeek

/-- A write of as much as the limit is rejected, and moves the head. -/
theorem HalfRead.write (h : HalfRead s chain wi) {s' : KBuffer} (hm : s.moveHead = .ok s')
    (hmoved : Moved s s') : s.write (List.replicate MAX_BLOCK_SIZE 0) = .ok (s', 0) := by
  have hmax : 5 * BLOCK_SIZE < MAX_BLOCK_SIZE := by decide
  have hlen : (List.replicate MAX_BLOCK_SIZE (0 : UInt8)).length = MAX_BLOCK_SIZE :=
    List.length_replicate
  have hsize := h.layout.size
  rw [h.two] at hsize
  have hone : 0 < BLOCK_SIZE := by decide
  have hfree := hmoved.writableSize
  rw [h.full, h.used, h.start] at hfree
  unfold KBuffer.write
  rw [hlen, h.used, h.start, h.full, if_neg (by omega), if_neg (by omega), if_neg (by omega), hm,
    ok_bind, if_pos (by omega)]
  rfl

/-- Without the rejected write the buffer goes on representing its queue. -/
theorem HalfRead.replies_unmoved (h : HalfRead s chain wi) :
    replies s [.read BLOCK_SIZE, .write (List.replicate (BLOCK_SIZE + 1) 0)] =
      [.ok (.copied (List.replicate BLOCK_SIZE 0), 0),
        .ok (.wrote (BLOCK_SIZE + 1), BLOCK_SIZE + 1)] := by
  have hlen : (List.replicate (BLOCK_SIZE + 1) (0 : UInt8)).length = BLOCK_SIZE + 1 :=
    List.length_replicate
  have hone : 0 < BLOCK_SIZE := by decide
  have hmax : 5 * BLOCK_SIZE < MAX_BLOCK_SIZE := by decide
  have hsize := h.layout.size
  rw [h.two] at hsize
  have hfull := h.full
  obtain ⟨s', i, hret, hl, hd, _⟩ := h.layout.retrieve BLOCK_SIZE
  have hq := hd.unread chain
  have hu := hd.usedSize
  have hf := hd.writableSize
  have hb := hd.buflen
  rw [h.unread, List.drop_replicate, Nat.sub_self, List.replicate_zero] at hq
  rw [h.readable, h.used, Nat.min_self] at hu
  have hrep : Represents s' [] :=
    ⟨chain, i, wi, hl, fun hpos => h.settled (hd.writablePos ▸ hpos), hq⟩
  have hacc : Accepts s' (List.replicate (BLOCK_SIZE + 1) (0 : UInt8)).length := by
    unfold Accepts room
    rw [hlen]
    omega
  rcases hrep.write (List.replicate (BLOCK_SIZE + 1) 0) with ⟨_, s'', hw, hr⟩ | ⟨hrej, _⟩
  · rw [replies_ok (step_read h.read hret), replies_ok (step_write hw), hr.holds.length,
      hrep.holds.length, List.nil_append, hlen]
    rfl
  · exact absurd hacc hrej

/-- With it, reading on overtakes the write cursor. -/
theorem HalfRead.replies_moved (h : HalfRead s chain wi) {s' : KBuffer} (hmoved : Moved s s')
    (hl : Layout s' (chain.drop 1 ++ chain.take 1) 0 (wi - 1) 0) :
    replies s' [.read BLOCK_SIZE, .write (List.replicate (BLOCK_SIZE + 1) 0)] =
      [.ok (.copied (List.replicate BLOCK_SIZE 0), 0), .error .nullBlock] := by
  have hone : 0 < BLOCK_SIZE := by decide
  have hlen : (List.replicate (BLOCK_SIZE + 1) (0 : UInt8)).length = BLOCK_SIZE + 1 :=
    List.length_replicate
  have htwo : (chain.drop 1 ++ chain.take 1).length = 2 := by
    rw [List.length_append, List.length_drop, List.length_take, h.two]
    omega
  have hpeek := hl.peek BLOCK_SIZE
  rw [h.layout.unread_rotate hmoved, h.unread, List.take_of_length_le List.length_replicate.le] at hpeek
  obtain ⟨s₁, i, hret, hl₁, hd, hend⟩ := hl.retrieve BLOCK_SIZE
  have hu := hd.usedSize
  have hr := hd.readableSize
  have hf := hd.writableSize
  have hfree := hmoved.writableSize
  rw [hmoved.readableSize, h.readable, Nat.min_self] at hu hr
  rw [hmoved.usedSize, h.start, Nat.zero_add] at hu
  rw [Nat.sub_self] at hr
  rw [h.full, h.used, h.start] at hfree
  obtain ⟨hi, hp⟩ := second_block (hl₁.used.trans hu) (htwo ▸ hend)
  have hlast : wi < 2 := by
    rcases h.layout.writer.inside with hi | ⟨_, hi, _⟩
    · rwa [List.length_map, h.two] at hi
    · omega
  subst hi
  have hnull : s₁.write (List.replicate (BLOCK_SIZE + 1) 0) = .error .nullBlock :=
    overtaken_write_null hl₁ (by omega) (by rw [hlen]; omega) (by rw [hlen]; omega)
  have hempty : s₁.getReadableSize = 0 := hr
  rw [replies_ok (step_read hpeek hret), replies_error (step_write_error hnull), hempty]

/-- The rejected write of a buffer-sized block of data, after two blocks were
written and one was read, is visible: once the second block is read too, the
next write that fits the counted room follows a null pointer. -/
theorem rejected_write_visible :
    ∃ s s', run KBuffer.fresh [.write (List.replicate (2 * BLOCK_SIZE) 0), .read BLOCK_SIZE] = .ok s ∧
      s.write (List.replicate MAX_BLOCK_SIZE 0) = .ok (s', 0) ∧
      replies s [.read BLOCK_SIZE, .write (List.replicate (BLOCK_SIZE + 1) 0)] =
        [.ok (.copied (List.replicate BLOCK_SIZE 0), 0),
          .ok (.wrote (BLOCK_SIZE + 1), BLOCK_SIZE + 1)] ∧
      replies s' [.read BLOCK_SIZE, .write (List.replicate (BLOCK_SIZE + 1) 0)] =
        [.ok (.copied (List.replicate BLOCK_SIZE 0), 0), .error .nullBlock] := by
  obtain ⟨s, chain, wi, hrun, hhalf⟩ := exists_halfRead
  obtain ⟨s', wi', gap', hm, hl, hmoved, hkeep, _⟩ := hhalf.layout.moveHead_rotate one_ne_zero
  obtain ⟨hwi, hgap⟩ := hkeep (hhalf.layout.not_overtaken hhalf.settled)
  subst hwi hgap
  exact ⟨s, s', hrun, hhalf.write hm hmoved, hhalf.replies_unmoved, hhalf.replies_moved hmoved hl⟩

end KKNet.BlockReject
