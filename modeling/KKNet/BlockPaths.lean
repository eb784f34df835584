import KKNet.BlockHop

/-!
# The two ways into the buffer

Bytes reach the blocks through `do_write`, or through `readv` and the cursor that
`readFd` computes from the count. The two ways leave the same buffer unless the bytes
end with a block that has a successor; there `readFd` leaves the write cursor at the
end of the block, the read cursor can pass it, and the next write that moves the head
follows a null block pointer.
-/

namespace KKNet.BlockPaths

open LinkedCells ListOverlay Results BlockBuffer BlockLayout BlockQueue BlockScatter
open BlockReject BlockCalls
  BlockAccept BlockIdentity BlockHop

/-- No sequence of calls tells the buffers apart. -/
def Alike (s s' : KBuffer) : Prop := ∀ later, answers s' later = answers s later

/-- `readFd` with `d` delivered and `write(d)` both take all of `d`, and leave buffers
of the same sizes that no sequence of calls tells apart. -/
def PathsAgree (s : KBuffer) (d : List UInt8) : Prop :=
  ∃ s₁ s₂, s.readFd (some d) = .ok (s₁, d.length) ∧ s.write d = .ok (s₂, d.length) ∧
    s₁.getReadableSize = s₂.getReadableSize ∧ s₁.getWritableSize = s₂.getWritableSize ∧ Alike s₂ s₁

/-- Some sequence of calls follows a null block pointer. -/
def NullAhead (s : KBuffer) : Prop := ∃ later, Except.error Fault.nullBlock ∈ answers s later

/-- Neither way ever leads to a null block pointer. -/
def NullFree (s : KBuffer) (d : List UInt8) : Prop :=
  ∃ s₁ s₂ n n', s.readFd (some d) = .ok (s₁, n) ∧ s.write d = .ok (s₂, n') ∧
    ¬NullAhead s₁ ∧ ¬NullAhead s₂

/-- After `n` bytes the write cursor has come to the end of a block that has a
successor. -/
def AtBlockEnd (s : KBuffer) (n : ℕ) : Prop :=
  (s.writablePos_ + n) % BLOCK_SIZE = 0 ∧ 0 < s.writablePos_ + n ∧ n < behind s

/-- The blocks take `n` bytes, and these do not end with a block that has a successor,
unless an earlier write has moved the blocks from under the write cursor. -/
def Clear (s : KBuffer) (n : ℕ) : Prop :=
  n ≤ behind s ∧ (AtBlockEnd s n → behind s < s.writableSize_)

variable {s s' : KBuffer} {chain : List (ℕ × Block)} {ri wi gap : ℕ}

/-- Both ways put the same bytes into the same blocks. -/
structure BothWays (s s₁ s₂ : KBuffer) (chain : List (ℕ × Block)) (ri i₁ i₂ gap n : ℕ) : Prop where
  /-- The layout after `readFd`. -/
  read : Layout s₁ chain ri i₁ gap
  /-- The layout after `write`. -/
  wrote : Layout s₂ chain ri i₂ gap
  /-- The counters after `readFd`. -/
  read_counts : Written s s₁ n
  /-- The counters after `write`. -/
  wrote_counts : Written s s₂ n
  /-- Every block counts after `readFd`. -/
  read_full : Full s₁
  /-- Every block counts after `write`. -/
  wrote_full : Full s₂
  /-- `readFd` leaves the cursor behind a byte. -/
  inside : 0 < s.writablePos_ + n → 0 < s₁.writablePos_
  /-- It does not move the cursor over no byte. -/
  stays : n = 0 → s₁.writablePos_ = s.writablePos_
  /-- `write` settles the cursor. -/
  settled : s₂.writablePos_ = BLOCK_SIZE → i₂ + 1 = chain.length

/-- With the room in the blocks both ways return. -/
theorem both_ways (h : Layout s chain ri wi gap) (hf : Full s) {d : List UInt8}
    (hfit : gap + d.length ≤ s.writableSize_) :
    ∃ s₁ s₂ chain' i₁ i₂, s.readFd (some d) = .ok (s₁, d.length) ∧ s.write d = .ok (s₂, d.length) ∧
      chain'.length = chain.length ∧ BothWays s s₁ s₂ chain' ri i₁ i₂ gap d.length := by
  obtain ⟨data, hdata, _, hways⟩ := Layout.readFd h d
  rw [List.take_of_length_le (by omega)] at hdata
  subst hdata
  obtain ⟨s₂, chain₂, i₂, hd, hl₂, hw₂, ha₂, hset, hb₂⟩ := h.doWrite_bytes data hfit
  rcases hways with ⟨_, s₁, chain₁, i₁, hr, hl₁, hrec, hpos, hkeep, hb₁⟩ | ⟨hlt, _⟩ | ⟨hlt, _⟩
  · have hc : chain₂ = chain₁ := chain_ext (ha₂.trans hrec.addrs.symm) (hb₂.trans hb₁.symm)
    subst hc
    have hlen := congrArg List.length ha₂
    simp only [List.length_map] at hlen
    refine ⟨s₁, s₂, chain₂, i₁, i₂, hr, ?_, hlen, hl₁, hl₂, hrec.written, hw₂, full_received hrec hf,
      (sameBlocks_doWrite hd).full hf, hpos, hkeep, hset⟩
    rw [write_fits (by omega), hd, ok_bind]
    rfl
  · omega
  · omega

variable {s₁ s₂ : KBuffer} {i₁ i₂ n : ℕ}

/-- Both ways leave the same counters, and the write cursor at the same place. -/
theorem BothWays.counters (h : BothWays s s₁ s₂ chain ri i₁ i₂ gap n) :
    s₁.readablePos_ = s₂.readablePos_ ∧ s₁.readableSize_ = s₂.readableSize_ ∧
      s₁.writableSize_ = s₂.writableSize_ ∧
      i₁ * BLOCK_SIZE + s₁.writablePos_ = i₂ * BLOCK_SIZE + s₂.writablePos_ := by
  have hr := h.read_counts.readableSize.trans h.wrote_counts.readableSize.symm
  have hu := h.read_counts.usedSize.trans h.wrote_counts.usedSize.symm
  refine ⟨h.read_counts.readablePos.trans h.wrote_counts.readablePos.symm, hr,
    h.read_counts.writableSize.trans h.wrote_counts.writableSize.symm, ?_⟩
  rw [h.read.written, h.wrote.written, hr, hu]

/-- After `readFd` the write cursor stands at the end of a block that has a successor
exactly if it has come there. -/
theorem BothWays.atBlockEnd_iff {old : List (ℕ × Block)} (h : BothWays s s₁ s₂ chain ri i₁ i₂ gap n)
    (hl : Layout s old ri wi gap) (hlen : chain.length = old.length) :
    AtBlockEnd s n ↔ s₁.writablePos_ = BLOCK_SIZE ∧ i₁ + 1 < chain.length := by
  have hb := behind_add_gap hl
  have hroom := hl.room
  have hw := hl.written
  have hw₁ := h.read.written
  have hu := h.read_counts.usedSize
  have hr := h.read_counts.readableSize
  have hpos := h.inside
  have hkeep := h.stays
  have hle := h.read.writer.pos_le
  unfold AtBlockEnd
  simp only [BLOCK_SIZE] at *
  omega

/-- Away from such an end both ways leave the same buffer. -/
theorem BothWays.eq (h : BothWays s s₁ s₂ chain ri i₁ i₂ gap n)
    (hend : s₁.writablePos_ = BLOCK_SIZE → ¬i₁ + 1 < chain.length) : s₁ = s₂ := by
  obtain ⟨hrp, hr, hw, hlin⟩ := h.counters
  have hlast : s₁.writablePos_ = BLOCK_SIZE → i₁ + 1 = (addrs chain).length := by
    intro hpos
    have hno := hend hpos
    rw [List.length_map]
    rcases h.read.writer.inside with hi | ⟨_, _, hzero⟩
    · rw [List.length_map] at hi
      omega
    · rw [hzero] at hpos
      exact absurd hpos (by decide)
  obtain ⟨hi, hpos⟩ := cursor_unique h.wrote.writer h.read.writer hlin
    (by rw [List.length_map]; exact h.settled) hlast
  subst hi
  exact buffer_ext h.wrote h.read h.wrote_full h.read_full hrp hpos hr hw

/-- At such an end `write` leaves the cursor at the start of the next block. -/
theorem BothWays.hopped (h : BothWays s s₁ s₂ chain ri i₁ i₂ gap n)
    (hpos : s₁.writablePos_ = BLOCK_SIZE) (hin : i₁ + 1 < chain.length) :
    i₂ = i₁ + 1 ∧ s₂.writablePos_ = 0 := by
  obtain ⟨_, _, _, hlin⟩ := h.counters
  have hset := h.settled
  have hle := h.wrote.writer.pos_le
  simp only [BLOCK_SIZE] at *
  omega

/-- Behind a gap the two buffers are alike even there. -/
theorem BothWays.same (h : BothWays s s₁ s₂ chain ri i₁ i₂ gap n) (hgap : 0 < gap)
    (hpos : s₁.writablePos_ = BLOCK_SIZE) (hin : i₁ + 1 < chain.length) : Same s₁ s₂ := by
  obtain ⟨hrp, hr, hw, _⟩ := h.counters
  obtain ⟨hi, hzero⟩ := h.hopped hpos hin
  subst hi
  exact Or.inr ⟨chain, ri, i₁, gap, h.read, h.wrote, hgap, hpos, hzero, h.read_full, h.wrote_full,
    hrp.symm, hr.symm, hw.symm⟩

/-- Retrieving all that is readable. -/
theorem retrieve_all (h : Layout s chain ri wi gap) :
    ∃ t j, s.retrieve s.readableSize_ = .ok t ∧ Layout t chain j wi gap ∧ t.readableSize_ = 0 ∧
      t.writableSize_ = s.writableSize_ ∧ t.writablePos_ = s.writablePos_ ∧ t.buflen_ = s.buflen_ ∧
      (t.readablePos_ = BLOCK_SIZE → j + 1 = chain.length) := by
  obtain ⟨t, j, he, hl, hret, hend⟩ := h.retrieve s.readableSize_
  have hr := hret.readableSize
  rw [Nat.min_self, Nat.sub_self] at hr
  exact ⟨t, j, he, hl, hr, hret.writableSize, hret.writablePos, hret.buflen, hend⟩

/-- The write of one byte more than the counted room behind the write cursor. -/
def oneMore (s : KBuffer) : List UInt8 := List.replicate (s.writableSize_ + 1) 0

/-- It follows a null block pointer where the read cursor has overtaken. -/
theorem overtaken_null (h : Layout s chain ri wi gap) (hlt : wi < ri) :
    s.write (oneMore s) = .error .nullBlock := by
  obtain ⟨_, _, hrp, _⟩ := h.overtaken hlt
  have hu := h.used
  have hlen : (oneMore s).length = s.writableSize_ + 1 := List.length_replicate
  have hmul : 1 * BLOCK_SIZE ≤ ri * BLOCK_SIZE := Nat.mul_le_mul_right _ (by omega)
  have hone : 0 < BLOCK_SIZE := by decide
  exact overtaken_write_null h hlt (by omega) (by omega)

/-- Without a gap the two buffers differ at such an end: when everything is read, the
same write is taken by one and follows a null block pointer in the other. -/
theorem BothWays.differ (h : BothWays s s₁ s₂ chain ri i₁ i₂ 0 n)
    (hpos : s₁.writablePos_ = BLOCK_SIZE) (hin : i₁ + 1 < chain.length) : ¬Alike s₂ s₁ := by
  obtain ⟨hrp, hr, hw, hlin⟩ := h.counters
  obtain ⟨hi, hzero⟩ := h.hopped hpos hin
  subst hi
  obtain ⟨t₁, j₁, he₁, hl₁, hr₁, hw₁, hp₁, _, hend₁⟩ := retrieve_all h.read
  obtain ⟨t₂, j₂, he₂, hl₂, hr₂, hw₂, hp₂, _, hend₂⟩ := retrieve_all h.wrote
  -- the first read cursor is in the block behind the write cursor
  have hlt : i₁ < j₁ := by
    have hlin₁ := hl₁.written
    have hu₁ := hl₁.used
    have hle := hl₁.reader.pos_le
    simp only [BLOCK_SIZE] at *
    omega
  have hnull := overtaken_null hl₁ hlt
  have hmore : oneMore t₁ = oneMore t₂ := by
    unfold oneMore
    rw [hw₁, hw₂, hw]
  rw [hmore] at hnull
  have hrep : Represents t₂ (unread t₂ chain) := by
    refine ⟨chain, j₂, i₁ + 1, hl₂, fun hfull => ?_, rfl⟩
    rw [hp₂, hzero] at hfull
    exact absurd hfull (by decide)
  have hacc : Accepts t₂ (oneMore t₂).length := by
    refine Or.inl ?_
    have hu₂ := hl₂.used
    have hlin₂ := hl₂.written
    have hle := hl₂.reader.pos_le
    have hlen : (oneMore t₂).length = t₂.writableSize_ + 1 := List.length_replicate
    unfold room
    rw [hlen]
    simp only [BLOCK_SIZE] at *
    omega
  intro halike
  have hsame := halike [.op (.retrieve s₂.readableSize_), .op (.write (oneMore t₂))]
  rw [hr] at he₁
  rcases hrep.write (oneMore t₂) with ⟨_, u, hu, _⟩ | ⟨hno, _⟩
  · have hcall₁ : call s₁ (.op (.retrieve s₂.readableSize_)) = .ok (.done, t₁) := step_retrieve he₁
    have hcall₂ : call s₂ (.op (.retrieve s₂.readableSize_)) = .ok (.done, t₂) := step_retrieve he₂
    have hlast₁ : call t₁ (.op (.write (oneMore t₂))) = .error .nullBlock := step_write_error hnull
    have hlast₂ : call t₂ (.op (.write (oneMore t₂))) = .ok (.wrote _, u) := step_write hu
    rw [answers_ok hcall₁, answers_ok hcall₂, answers_error hlast₁, answers_ok hlast₂] at hsame
    cases (List.cons.inj (List.cons.inj hsame).2).1
  · exact absurd hacc hno

/-- The two ways agree exactly if the way is clear. -/
theorem pathsAgree_iff (h : Layout s chain ri wi gap) (hf : Full s) {d : List UInt8}
    (hd : d.length ≤ s.writableSize_) : PathsAgree s d ↔ Clear s d.length := by
  have hb := behind_add_gap h
  unfold PathsAgree Clear
  by_cases hfit : gap + d.length ≤ s.writableSize_
  · obtain ⟨s₁, s₂, chain', i₁, i₂, hr, hw, hlen, hboth⟩ := both_ways h hf hfit
    have hiff := hboth.atBlockEnd_iff h hlen
    obtain ⟨_, hread, hsize, _⟩ := hboth.counters
    constructor
    · rintro ⟨t₁, t₂, hr', hw', _, _, halike⟩
      rw [hr, Except.ok.injEq, Prod.mk.injEq] at hr'
      rw [hw, Except.ok.injEq, Prod.mk.injEq] at hw'
      obtain ⟨rfl, _⟩ := hr'
      obtain ⟨rfl, _⟩ := hw'
      refine ⟨by omega, fun hend => ?_⟩
      by_contra hno
      have hgap : gap = 0 := by omega
      subst hgap
      obtain ⟨hpos, hin⟩ := hiff.mp hend
      exact hboth.differ hpos hin halike
    · rintro ⟨_, hclear⟩
      refine ⟨s₁, s₂, hr, hw, hread, hsize, ?_⟩
      by_cases hend : AtBlockEnd s d.length
      · obtain ⟨hpos, hin⟩ := hiff.mp hend
        have hgap := hclear hend
        exact fun later => ((hboth.same (by omega) hpos hin).answers later).symm
      · have heq : s₁ = s₂ := hboth.eq fun hpos hin => hend (hiff.mpr ⟨hpos, hin⟩)
        exact heq ▸ fun _ => rfl
  · constructor
    · rintro ⟨_, s₂, _, hw, _⟩
      rw [write_null h d hd (by omega)] at hw
      cases hw
    · rintro ⟨hle, _⟩
      omega

/-- A call that leads to a buffer with a null block ahead. -/
theorem nullAhead_of_call {c : Call} {r : Reply} (h : call s c = .ok (r, s')) (ht : NullAhead s') :
    NullAhead s := by
  obtain ⟨later, hmem⟩ := ht
  exact ⟨c :: later, by rw [answers_ok h]; exact List.mem_cons_of_mem _ hmem⟩

/-- A call that follows a null block pointer. -/
theorem nullAhead_of_null {c : Call} (h : call s c = .error .nullBlock) : NullAhead s :=
  ⟨[c], by rw [answers_error h]; exact List.mem_singleton_self _⟩

/-- With the read cursor past the write cursor, the next write that moves the head. -/
theorem nullAhead_overtaken (h : Layout s chain ri wi gap) (hlt : wi < ri) : NullAhead s :=
  nullAhead_of_null (c := .op (.write (oneMore s))) (step_write_error (overtaken_null h hlt))

/-- Behind a gap, a write of the counted room. -/
theorem nullAhead_gap (h : Layout s chain ri wi gap) (hgap : 0 < gap) : NullAhead s := by
  have hlen : (List.replicate s.writableSize_ (0 : UInt8)).length = s.writableSize_ :=
    List.length_replicate
  have hnull := write_null h (List.replicate s.writableSize_ 0) hlen.le (by rw [hlen]; omega)
  exact nullAhead_of_null (c := .op (.write (List.replicate s.writableSize_ 0))) (step_write_error hnull)

/-- With a block behind that of the write cursor: when everything is read, a `readFd`
to the end of the block lets the read cursor pass. -/
theorem nullAhead_block (h : Layout s chain ri wi 0) (hin : wi + 1 < chain.length) : NullAhead s := by
  obtain ⟨t, j, he, hl, hr, _, _, _, hend⟩ := retrieve_all h
  refine nullAhead_of_call (c := .op (.retrieve s.readableSize_)) (step_retrieve he) ?_
  by_cases hlt : wi < j
  · exact nullAhead_overtaken hl hlt
  · have hw := hl.written
    have hu := hl.used
    have hroom := hl.room
    have hle := hl.reader.pos_le
    have hle' := hl.writer.pos_le
    obtain ⟨k, hk⟩ : ∃ k, BLOCK_SIZE - t.writablePos_ = k := ⟨_, rfl⟩
    have hfit : 0 + k ≤ t.writableSize_ ∧ 0 < k := by
      simp only [BLOCK_SIZE] at *
      omega
    have hlen : (List.replicate k (0 : UInt8)).length = k := List.length_replicate
    obtain ⟨data, hdata, _, hways⟩ := Layout.readFd hl (List.replicate k 0)
    rw [List.take_of_length_le (by omega)] at hdata
    rw [← hdata] at hlen
    rcases hways with ⟨_, t₁, c, i, hread, hl₁, hrec, hpos, _⟩ | ⟨hover, _⟩ | ⟨hover, _⟩
    · have hcall : call t (.readFd (some (List.replicate k 0))) = .ok (.wrote data.length, t₁) := by
        simp only [call, hread, ok_bind, pure_eq_ok]
      refine nullAhead_of_call hcall ?_
      obtain ⟨t₂, j₂, he₂, hl₂, hr₂, _, _, _, hend₂⟩ := retrieve_all hl₁
      refine nullAhead_of_call (c := .op (.retrieve t₁.readableSize_)) (step_retrieve he₂) ?_
      have hclen := congrArg List.length hrec.addrs
      simp only [List.length_map] at hclen
      refine nullAhead_overtaken hl₂ ?_
      have hw₁ := hl₁.written
      have hu₁ := hrec.written.usedSize
      have hr₁ := hrec.written.readableSize
      have hw₂ := hl₂.written
      have hu₂ := hl₂.used
      have hle₁ := hl₁.writer.pos_le
      have hle₂ := hl₂.reader.pos_le
      have hsome := hpos (by omega)
      simp only [BLOCK_SIZE] at *
      omega
    · omega
    · omega

/-- With three blocks: the write cursor is taken round to the front of the chain. -/
theorem nullAhead_three (h : Layout s chain ri wi 0) (hthree : 3 ≤ chain.length) : NullAhead s := by
  obtain ⟨t, j, he, hl, hr, _, _, _, hend⟩ := retrieve_all h
  refine nullAhead_of_call (c := .op (.retrieve s.readableSize_)) (step_retrieve he) ?_
  by_cases hlt : wi < j
  · exact nullAhead_overtaken hl hlt
  by_cases hin : wi + 1 < chain.length
  · exact nullAhead_block hl hin
  have hw := hl.written
  have hu := hl.used
  have hroom := hl.room
  have ht := hl.total
  have hle := hl.reader.pos_le
  have hle' := hl.writer.pos_le
  have hlast : wi + 1 = chain.length := by
    rcases hl.writer.inside with hi | ⟨hnil, _⟩
    · rw [List.length_map] at hi
      omega
    · rw [List.map_eq_nil_iff.mp hnil, List.length_nil] at hthree
      omega
  obtain ⟨t₁, hm, hl₁, hmoved, hpos₁⟩ := moveHead_keep hl (by omega)
  have hw₁ := hmoved.writableSize
  have hr₁ := hmoved.readableSize
  have hu₁ := hmoved.usedSize
  have hlen : (oneMore t).length = t.writableSize_ + 1 := List.length_replicate
  have hmany : t.writableSize_ + 1 ≤ t.usedSize_ - t.readablePos_ + t.writableSize_ := by
    simp only [BLOCK_SIZE] at *
    omega
  obtain ⟨u, c, i, hd, hl₂, hwrote, hclen, _⟩ := hl₁.doWrite (oneMore t) (by omega)
  have hwrite : t.write (oneMore t) = .ok (u, t.writableSize_ + 1) := by
    unfold KBuffer.write
    rw [hlen, if_neg (by omega), if_neg (by omega), if_pos hmany, hm, ok_bind, hd, ok_bind]
    rfl
  refine nullAhead_of_call (c := .op (.write (oneMore t))) (step_write hwrite) (nullAhead_block hl₂ ?_)
  rw [List.length_append, List.length_drop, List.length_take] at hclen
  have hw₂ := hl₂.written
  have hu₂ := hwrote.usedSize
  have hr₂ := hwrote.readableSize
  rw [hlen] at hr₂
  have hle₂ := hl₂.writer.pos_le
  have hcount : c.length = chain.length := by omega
  have hj : 0 < j := by
    rcases Nat.eq_zero_or_pos j with rfl | hj
    · omega
    · exact hj
  clear hclen hmany hw₁
  simp only [BLOCK_SIZE] at *
  have hfree : t.writablePos_ + t.writableSize_ = 1024 := by omega
  -- the read cursor is in the last block or at the end of the one before
  have htwo : 2 ≤ j := by
    by_contra hone
    have hread : t.readablePos_ = 1024 := by omega
    have hlast' := hend hread
    omega
  have hfilled : i + j ≤ wi + 1 := by omega
  omega

/-- A write that adds blocks, just enough for its size, with the write cursor not before
the read cursor. -/
theorem write_grows (h : Layout s chain ri wi gap) (hle : ri ≤ wi) {buf : List UInt8}
    (hroom : room s < buf.length) (hbelow : s.buflen_ < MAX_BLOCK_SIZE)
    (hmax : buf.length ≤ MAX_BLOCK_SIZE - room s) :
    ∃ u c i k, s.write buf = .ok (u, buf.length) ∧ Layout u c 0 i gap ∧ c.length = chain.length + k ∧
      buf.length ≤ k * BLOCK_SIZE ∧ k * BLOCK_SIZE < buf.length + BLOCK_SIZE ∧
      u.usedSize_ = s.readablePos_ ∧ u.readableSize_ = s.readableSize_ + buf.length := by
  unfold room at hroom hmax
  obtain ⟨t₁, hm, hl₁, hmoved, _⟩ := moveHead_keep h hle
  have hw₁ := hmoved.writableSize
  have hgap := Layout.gap_le hl₁
  obtain ⟨t₂, extra, wi₂, hg, hl₂, hgrown, hlo, hhi⟩ := hl₁.makeSpace buf.length (by omega)
  have hw₂ := hgrown.writableSize
  obtain ⟨u, c, i, hd, hl₃, hwrote, hclen, _⟩ := hl₂.doWrite buf (by omega)
  refine ⟨u, c, i, extra.length, ?_, hl₃, ?_, hlo, hhi, ?_, ?_⟩
  · unfold KBuffer.write
    rw [if_neg (by omega), if_neg (by omega), if_neg (by omega), hm, ok_bind, if_neg (by omega), hg,
      ok_bind, hd, ok_bind]
    rfl
  · have hin := h.reader.inside
    rw [List.length_map] at hin
    rw [hclen, List.length_append, List.length_append, List.length_drop, List.length_take]
    omega
  · rw [hwrote.usedSize, hgrown.usedSize, hmoved.usedSize]
  · rw [hwrote.readableSize, hgrown.readableSize, hmoved.readableSize]

/-- From every buffer some sequence of calls leads to a null block pointer. -/
theorem nullAhead (h : Shaped s) : NullAhead s := by
  obtain ⟨chain, ri, wi, gap, hl⟩ := h
  by_cases hgap : 0 < gap
  · exact nullAhead_gap hl hgap
  obtain rfl : gap = 0 := by omega
  by_cases hthree : 3 ≤ chain.length
  · exact nullAhead_three hl hthree
  by_cases hlt : wi < ri
  · exact nullAhead_overtaken hl hlt
  -- three more blocks
  have ht := hl.total
  have hz := hl.size
  have hmax : 5 * BLOCK_SIZE ≤ MAX_BLOCK_SIZE := by decide
  have hone : 0 < BLOCK_SIZE := by decide
  have hbound : chain.length * BLOCK_SIZE ≤ 2 * BLOCK_SIZE := Nat.mul_le_mul_right _ (by omega)
  have hlen : (List.replicate (3 * BLOCK_SIZE) (0 : UInt8)).length = 3 * BLOCK_SIZE :=
    List.length_replicate
  have hroom : room s ≤ 2 * BLOCK_SIZE := by
    unfold room
    omega
  have hover : room s < (List.replicate (3 * BLOCK_SIZE) (0 : UInt8)).length := by omega
  obtain ⟨u, c, i, k, hwrite, hl', hclen, hlo, _⟩ :=
    write_grows hl (by omega) hover (by omega) (by omega)
  rw [hlen] at hlo
  have hmore := Nat.le_of_mul_le_mul_right hlo hone
  exact nullAhead_of_call (c := .op (.write _)) (step_write hwrite) (nullAhead_three hl' (by omega))

/-- In every state that calls lead to, `readFd` and `write` of bytes that fit the
counted room leave buffers that no sequence of calls tells apart exactly if the blocks
take the bytes and these do not end with a block that has a successor, or do so behind
a gap. And from no state are all sequences of calls free of null block pointers. -/
theorem readFd_write_agree_iff (calls : List Call) (s : KBuffer) (d : List UInt8)
    (hrun : Runs.run next KBuffer.fresh calls = some s) (hd : d.length ≤ s.getWritableSize) :
    (PathsAgree s d ↔ Clear s d.length) ∧ ¬NullFree s d := by
  obtain ⟨hshaped, hf⟩ := full_reachable hrun
  refine ⟨?_, ?_⟩
  · obtain ⟨chain, ri, wi, gap, hl⟩ := hshaped
    exact pathsAgree_iff hl hf hd
  · rintro ⟨s₁, _, n, _, hr, _, hno, _⟩
    exact hno (nullAhead (shaped_readFd hshaped hr))

/-- Writes that leave the write cursor at the third byte of the second block of three. -/
def twoWrites : List Call := [.op (.write [0]), .op (.write (List.replicate 1025 0))]

/-- Where they leave it. -/
theorem twoWrites_cursor :
    ∃ s, Runs.run next KBuffer.fresh twoWrites = some s ∧ s.readableSize_ = 1026 ∧
      s.writableSize_ = 2046 ∧ s.writablePos_ = 2 ∧ behind s = 2046 := by
  have hfacts : (Runs.run next KBuffer.fresh twoWrites).map (fun s =>
      (s.readableSize_, s.writableSize_, s.writablePos_, behind s)) =
        some (1026, 2046, 2, 2046) := by decide +kernel
  obtain ⟨s, hrun, hs⟩ := Option.map_eq_some_iff.mp hfacts
  simp only [Prod.mk.injEq] at hs
  exact ⟨s, hrun, hs⟩

/-- There 1021 more bytes end short of the end of that block, and the two ways agree. -/
theorem readFd_write_agree_twoWrites :
    ∃ s, Runs.run next KBuffer.fresh twoWrites = some s ∧ s.readableSize_ = 1026 ∧
      behind s = 2046 ∧ PathsAgree s (List.replicate 1021 7) ∧
      ¬NullFree s (List.replicate 1021 7) := by
  obtain ⟨s, hrun, hreadable, hroom, hpos, hbehind⟩ := twoWrites_cursor
  have hlen : (List.replicate 1021 (7 : UInt8)).length = 1021 := List.length_replicate
  have hfit : (List.replicate 1021 (7 : UInt8)).length ≤ s.getWritableSize := by
    rw [hlen, KBuffer.getWritableSize, hroom]
    decide
  obtain ⟨hagree, hnull⟩ := readFd_write_agree_iff twoWrites s (List.replicate 1021 7) hrun hfit
  refine ⟨s, hrun, hreadable, hbehind, hagree.mpr ⟨by omega, fun hend => ?_⟩, hnull⟩
  unfold AtBlockEnd at hend
  simp only [BLOCK_SIZE] at hend
  omega

/-- There 1022 more bytes end with that block. The two ways then differ: with everything
read, a write of 1025 bytes is taken after `write` and follows a null block pointer after
`readFd`. -/
theorem paths_differ :
    ∃ s, Runs.run next KBuffer.fresh twoWrites = some s ∧
      1022 ≤ s.getWritableSize ∧ ¬PathsAgree s (List.replicate 1022 0) := by
  obtain ⟨s, hrun, _, hroom, hpos, hbehind⟩ := twoWrites_cursor
  obtain ⟨⟨chain, ri, wi, gap, hl⟩, hf⟩ := full_reachable hrun
  have hlen : (List.replicate 1022 (0 : UInt8)).length = 1022 := List.length_replicate
  refine ⟨s, hrun, ?_, ?_⟩
  · rw [KBuffer.getWritableSize, hroom]
    decide
  · rw [pathsAgree_iff hl hf (by omega), hlen]
    rintro ⟨_, hclear⟩
    have hend : AtBlockEnd s 1022 := by
      unfold AtBlockEnd
      simp only [BLOCK_SIZE]
      omega
    have hgap := hclear hend
    omega

end KKNet.BlockPaths
