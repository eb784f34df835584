import KKNet.BlockAccept
import KKNet.BlockCalls

/-!
# What `readFd` reports

`readFd` should return what `readv` returned and keep what `readv` delivered. It
does so unless `readv` fails, where the function ends without a `return`, or the
spill is refused by `write`, where the refused bytes are lost and the count is
short, or an earlier write has moved the blocks from under the write cursor.
-/

namespace KKNet.BlockTruth

open LinkedCells ListOverlay Results BlockBuffer BlockLayout BlockQueue BlockScatter
open BlockReject BlockCalls
  BlockAccept

/-- `readFd` reports the outcome of `readv`: the delivered bytes are counted and
stand behind the unread ones, and a failure leaves the buffer alone and is reported
by a negative value. -/
def Truthful (s : KBuffer) : Option (List UInt8) → Prop
  | some data => ∃ s' q, s.readFd (some data) = .ok (s', data.length) ∧
      s'.getReadableSize = s.getReadableSize + data.length ∧
      s.peek s.getReadableSize = .ok q ∧ s'.peek s'.getReadableSize = .ok (q ++ data)
  | none => ∃ (s' : KBuffer) (n : ℕ) (t : ℤ), s.readFd none = .ok (s', n) ∧ (n : ℤ) = t ∧ t < 0 ∧ s' = s

/-- No earlier write has moved the blocks from under the write cursor, and what
spills over the chain is taken by `write`. -/
def Keeps (s : KBuffer) (t : ℕ) : Prop :=
  (t = 0 ∨ behind s = s.writableSize_) ∧
    (s.writableSize_ < t →
      t - s.writableSize_ ≤ s.usedSize_ - s.readablePos_ ∨ s.buflen_ < MAX_BLOCK_SIZE)

variable {s : KBuffer} {chain : List (ℕ × Block)} {ri wi gap : ℕ}

/-- A failed `readv` is not reported. -/
theorem not_truthful_none (s : KBuffer) : ¬Truthful s none := by
  rintro ⟨s', n, t, he, _⟩
  cases he

/-- `peek` of all that is readable gives the unread bytes. -/
theorem Layout.peek_all (h : Layout s chain ri wi gap) :
    s.peek s.getReadableSize = .ok (unread s chain) := by
  rw [h.peek, ← h.length_unread, List.take_length]

/-- With an unbroken layout `readFd` keeps the bytes and reports their count
exactly if what spills over the chain is taken. -/
theorem truthful_iff (h : Layout s chain ri wi 0) {data : List UInt8}
    (hfit : data.length ≤ s.writableSize_ + KBuffer.EXTRA_SIZE) :
    Truthful s (some data) ↔ (s.writableSize_ < data.length →
      data.length - s.writableSize_ ≤ s.usedSize_ - s.readablePos_ ∨ s.buflen_ < MAX_BLOCK_SIZE) := by
  have hin := h.in_chain
  have htot := h.total
  have hz := h.size
  obtain ⟨data', hdata, _, hways⟩ := Layout.readFd h data
  rw [List.take_of_length_le (by omega)] at hdata
  subst hdata
  have hclen : (bytes chain).length = s.buflen_ := by rw [length_bytes, hz]
  rcases hways with ⟨hin', s', chain', i, hr, hl', hrec, _, _, hb⟩ | ⟨hlt, hle, _⟩ |
    ⟨hover, s₁, chain', hl', hrec, hset, hb, hr⟩
  · refine ⟨fun _ hlt => absurd hlt (by omega), fun _ => ?_⟩
    have hq : unread s' chain' = unread s chain ++ data' := by
      unfold unread
      rw [hb, hrec.written.usedSize, hrec.written.readableSize, Nat.add_zero]
      exact window_overlay (by omega)
    exact ⟨s', unread s chain, hr, hrec.written.readableSize, Layout.peek_all h,
      hq ▸ Layout.peek_all hl'⟩
  · omega
  · have hlen : (data'.take s.writableSize_).length = s.writableSize_ := by
      rw [List.length_take]
      omega
    have hq₁ : unread s₁ chain' = unread s chain ++ data'.take s.writableSize_ := by
      have hwin : s.usedSize_ + s.readableSize_ + (data'.take s.writableSize_).length ≤
          (bytes chain).length := by omega
      have heq := window_overlay hwin
      rw [hlen] at heq
      unfold unread
      rw [hb, hrec.written.usedSize, hrec.written.readableSize, Nat.add_zero, Nat.sub_zero]
      exact heq
    have hrep : Represents s₁ (unread s chain ++ data'.take s.writableSize_) :=
      ⟨chain', ri, _, hl', hset, hq₁⟩
    have hextra : (data'.drop (s.writableSize_ - 0)).take (data'.length - s.writableSize_) =
        data'.drop s.writableSize_ := List.take_of_length_le (by rw [List.length_drop, Nat.sub_zero])
    have hroom : room s₁ = s.usedSize_ - s.readablePos_ := by
      unfold room
      rw [hrec.written.usedSize, hrec.written.readablePos, hrec.written.writableSize, Nat.sub_self,
        Nat.add_zero]
    have hacc : Accepts s₁ (data'.drop s.writableSize_).length ↔
        (data'.length - s.writableSize_ ≤ s.usedSize_ - s.readablePos_ ∨ s.buflen_ < MAX_BLOCK_SIZE) := by
      have hextraSize : KBuffer.EXTRA_SIZE + KBuffer.EXTRA_SIZE ≤ MAX_BLOCK_SIZE := by decide
      unfold Accepts
      rw [hroom, hrec.written.buflen, List.length_drop]
      omega
    rw [hextra] at hr
    rcases hrep.write (data'.drop s.writableSize_) with ⟨hyes, s', hw, hrep'⟩ | ⟨hno, s', hw, _⟩
    · rw [List.append_assoc, List.take_append_drop] at hrep'
      refine ⟨fun _ _ => hacc.mp hyes, fun _ => ?_⟩
      have hlength := hrep'.holds.length
      refine ⟨s', unread s chain, ?_, ?_, Layout.peek_all h, hrep'.holds.peek_all⟩
      · rw [hr, hw, ok_bind, List.length_drop,
          show s.writableSize_ + (data'.length - s.writableSize_) = data'.length by omega]
        rfl
      · rw [hlength, List.length_append, h.length_unread]
    · refine ⟨?_, fun hcond => absurd (hacc.mpr (hcond hover)) hno⟩
      rintro ⟨s'', q, he, _⟩
      rw [hr, hw, ok_bind] at he
      simp only [pure_eq_ok, Except.ok.injEq, Prod.mk.injEq] at he
      omega

/-- Behind a gap the first unread byte that is new to the counters is an old one of
the block, whatever was delivered. -/
theorem stale_head (h : Layout s chain ri wi gap) (hgap : 0 < gap) {data : List UInt8}
    (hne : data ≠ []) (ht : Truthful s (some data)) :
    data[0]? = (bytes chain)[s.usedSize_ + s.readableSize_]? := by
  have hsome := List.length_pos_iff.mpr hne
  have hlen := h.length_unread
  obtain ⟨s', q, hread, hcount, hpeek, hpeek'⟩ := ht
  rw [Layout.peek_all h, Except.ok.injEq] at hpeek
  subst hpeek
  have hplace : (unread s chain ++ data)[s.readableSize_]? = data[0]? := by
    rw [List.getElem?_append_right (by rw [hlen]; rfl), hlen]
    exact congrArg (data[·]?) (Nat.sub_self _)
  -- the byte at this place of the chain is before the write cursor
  have hold : ∀ {s₁ : KBuffer} {chain₁ : List (ℕ × Block)} {new : List UInt8},
      s₁.usedSize_ = s.usedSize_ → s.readableSize_ < s₁.readableSize_ →
      bytes chain₁ = overlay (bytes chain) (s.usedSize_ + s.readableSize_ + gap) new →
      (unread s₁ chain₁)[s.readableSize_]? = (bytes chain)[s.usedSize_ + s.readableSize_]? := by
    intro s₁ chain₁ new hu hr hb
    rw [getElem?_unread hr, hu, hb, getElem?_overlay_before (by omega)]
  obtain ⟨data', _, _, hways⟩ := Layout.readFd h data
  rcases hways with ⟨_, s₁, chain', i, hr, hl', hrec, _, _, hb⟩ | ⟨_, _, hr⟩ |
    ⟨hover, s₁, chain', hl', hrec, hset, hb, hr⟩
  · rw [hr, Except.ok.injEq, Prod.mk.injEq] at hread
    obtain ⟨rfl, hn⟩ := hread
    have hnew := hrec.written.readableSize
    rw [Layout.peek_all hl', Except.ok.injEq] at hpeek'
    rw [← hplace, ← hpeek', hold hrec.written.usedSize (by omega) hb]
  · rw [hr] at hread
    cases hread
  · have hgap' := Layout.gap_le h
    have hnew := hrec.written.readableSize
    have hrep : Represents s₁ (unread s₁ chain') := ⟨chain', ri, _, hl', hset, rfl⟩
    have hfirst := hold hrec.written.usedSize (by omega) hb
    have hinside : s.readableSize_ < (unread s₁ chain').length := by
      rw [hl'.length_unread]
      unfold KBuffer.getReadableSize
      omega
    rw [hr] at hread
    obtain ⟨out, hw, hread⟩ := ok_of_bind hread
    simp only [pure_eq_ok, Except.ok.injEq, Prod.mk.injEq] at hread
    obtain ⟨rfl, _⟩ := hread
    -- taken or refused, the spill leaves the unread bytes in front
    have hfront : ∃ rest, out.1.peek out.1.getReadableSize = .ok (unread s₁ chain' ++ rest) := by
      rcases hrep.write _ with ⟨_, s₂, hw₂, hrep₂⟩ | ⟨_, s₂, hw₂, hhold⟩
      · rw [hw] at hw₂
        cases hw₂
        exact ⟨_, hrep₂.holds.peek_all⟩
      · rw [hw] at hw₂
        cases hw₂
        exact ⟨[], by rw [hhold.peek_all, List.append_nil]⟩
    obtain ⟨rest, hrest⟩ := hfront
    rw [hpeek', Except.ok.injEq] at hrest
    rw [← hplace, hrest, List.getElem?_append_left hinside, hfirst]

/-- A delivery of nothing is reported, with a gap or without. -/
theorem truthful_nil (h : Layout s chain ri wi gap) : Truthful s (some []) := by
  have hgap := Layout.gap_le h
  obtain ⟨data, hdata, _, hways⟩ := Layout.readFd h []
  rw [List.take_nil] at hdata
  subst hdata
  rcases hways with ⟨_, s', chain', i, hr, hl', hrec, _, _, hb⟩ | ⟨hlt, _⟩ | ⟨hlt, _⟩
  · have hq : unread s' chain' = unread s chain ++ [] := by
      unfold unread
      rw [hb, hrec.written.usedSize, hrec.written.readableSize, overlay_nil, List.append_nil]
      rfl
    exact ⟨s', unread s chain, hr, hrec.written.readableSize, Layout.peek_all h,
      hq ▸ Layout.peek_all hl'⟩
  · rw [List.length_nil] at hlt
    omega
  · rw [List.length_nil] at hlt
    omega

/-- In every state that calls lead to, `readFd` never reports a failing `readv`, and
it keeps and reports every delivery of `t` bytes exactly if no earlier write has
moved the blocks from under the write cursor and the spill of `t` bytes is taken. -/
theorem readFd_truthful_iff (calls : List Call) (s : KBuffer)
    (hrun : Runs.run next KBuffer.fresh calls = some s) :
    ¬Truthful s none ∧ ∀ t ≤ behind s + KBuffer.EXTRA_SIZE,
      (∀ data, data.length = t → Truthful s (some data)) ↔ Keeps s t := by
  refine ⟨not_truthful_none s, fun t ht => ?_⟩
  obtain ⟨chain, ri, wi, gap, hl⟩ := shaped_reachable hrun
  have hb := behind_add_gap hl
  unfold Keeps
  by_cases hgap : gap = 0
  · subst hgap
    constructor
    · intro hall
      have hlen : (List.replicate t (0 : UInt8)).length = t := List.length_replicate
      have hiff := truthful_iff hl (hlen.trans_le (by omega))
      rw [hlen] at hiff
      exact ⟨Or.inr (by omega), hiff.mp (hall _ hlen)⟩
    · rintro ⟨_, hspill⟩ data hlen
      exact (truthful_iff hl (by omega)).mpr (hlen ▸ hspill)
  · constructor
    · intro hall
      by_cases hz : t = 0
      · exact ⟨Or.inl hz, fun hlt => absurd hlt (by omega)⟩
      · -- some byte is not the old one of the block
        exfalso
        have hstale : ∀ b : UInt8, some b = (bytes chain)[s.usedSize_ + s.readableSize_]? := by
          intro b
          have hne : List.replicate t b ≠ [] :=
            List.ne_nil_of_length_pos (by rw [List.length_replicate]; omega)
          rw [← stale_head hl (Nat.pos_of_ne_zero hgap) hne (hall _ List.length_replicate),
            List.getElem?_replicate, if_pos (Nat.pos_of_ne_zero hz)]
        exact absurd (Option.some.inj ((hstale 0).trans (hstale 1).symm)) (by decide)
    · rintro ⟨hkeep, _⟩ data hlen
      have hz : data = [] := List.eq_nil_of_length_eq_zero (by omega)
      exact hz ▸ truthful_nil hl

/-- A delivery, and calls that read it in part: two blocks with 500 bytes before the read
cursor and 48 behind the write cursor. -/
def deliveredOnce : List Call :=
  [.readFd (some (List.replicate 1500 7)), .op (.read 500), .op (.write (List.replicate 500 8))]

/-- There 1000 bytes, of which 952 spill over the blocks, are kept and reported, and a failing
`readv` is not reported. -/
theorem readFd_truthful_deliveredOnce :
    ∃ s, Runs.run next KBuffer.fresh deliveredOnce = some s ∧ s.readableSize_ = 1500 ∧
      behind s = 48 ∧ ¬Truthful s none ∧
      ∀ data, data.length = 1000 → Truthful s (some data) := by
  have hfacts : (Runs.run next KBuffer.fresh deliveredOnce).map (fun s =>
      (s.readableSize_, behind s, s.writableSize_, s.buflen_)) =
        some (1500, 48, 48, 2 * BLOCK_SIZE) := by decide +kernel
  obtain ⟨s, hrun, hs⟩ := Option.map_eq_some_iff.mp hfacts
  simp only [Prod.mk.injEq] at hs
  obtain ⟨hreadable, hbehind, hroom, hlen⟩ := hs
  obtain ⟨hnone, hsome⟩ := readFd_truthful_iff deliveredOnce s hrun
  have hmax : 2 * BLOCK_SIZE < MAX_BLOCK_SIZE := by decide
  have hextra : 1000 ≤ KBuffer.EXTRA_SIZE := by decide
  refine ⟨s, hrun, hreadable, hbehind, hnone, (hsome 1000 (by omega)).mpr ⟨Or.inr ?_, fun _ => ?_⟩⟩
  · rw [hbehind, hroom]
  · exact Or.inr (by omega)

/-- The buffer at its limit takes one byte off the descriptor, drops it and reports
nothing read; and a failing `readv` is not reported at all. -/
theorem readFd_drops_byte :
    (∃ s s', Runs.run next KBuffer.fresh [.op (.write (List.replicate MAX_BLOCK_SIZE 0))] = some s ∧
      s.delivered [7] = .ok [7] ∧ s.readFd (some [7]) = .ok (s', 0) ∧
      s'.getReadableSize = s.getReadableSize ∧ ¬Truthful s (some [7])) ∧
    KBuffer.fresh.readFd none = .error .noReturn := by
  refine ⟨?_, rfl⟩
  obtain ⟨big, hbig⟩ : ∃ big, List.replicate MAX_BLOCK_SIZE (0 : UInt8) = big := ⟨_, rfl⟩
  have hlen : big.length = MAX_BLOCK_SIZE := by rw [← hbig, List.length_replicate]
  have hpos : 0 < MAX_BLOCK_SIZE := by decide
  have hsome : big ≠ [] := List.ne_nil_of_length_pos (by omega)
  obtain ⟨s, chain, wi, hw, hl, hset, hq, hu, hr, hlo, hhi⟩ := fill hsome hlen.le
  have hz := hl.size
  have ht := hl.total
  have hfull : chain.length * BLOCK_SIZE = MAX_BLOCK_SIZE := by
    simp only [BLOCK_SIZE, MAX_BLOCK_SIZE] at *
    omega
  have hextra : 1 ≤ KBuffer.EXTRA_SIZE := by decide
  obtain ⟨data, hdata, hdel, hways⟩ := Layout.readFd hl [7]
  rw [List.take_of_length_le (by rw [List.length_singleton]; omega)] at hdata
  subst hdata
  rw [hbig]
  rcases hways with ⟨hfit, _⟩ | ⟨_, hle, _⟩ | ⟨_, s₁, chain', hl', hrec, hset', hb, hread⟩
  · rw [List.length_singleton] at hfit
    omega
  · rw [List.length_singleton] at hle
    omega
  · have hfree : s.writableSize_ = 0 := by omega
    have hrep : Represents s₁ (unread s₁ chain') := ⟨chain', 0, _, hl', hset', rfl⟩
    rcases hrep.write [7] with ⟨hacc, _⟩ | ⟨_, s', hw', hhold⟩
    · unfold Accepts room at hacc
      rw [hrec.written.usedSize, hrec.written.readablePos, hrec.written.writableSize,
        hrec.written.buflen, List.length_singleton] at hacc
      omega
    · rw [hfree, Nat.zero_sub, List.drop_zero, List.length_singleton, Nat.sub_zero,
        List.take_of_length_le (by rw [List.length_singleton]), hw'] at hread
      have hzero : s.readFd (some [7]) = .ok (s', 0) := hread
      refine ⟨s, s', ?_, hdel, hzero, ?_, ?_⟩
      · have hfirst : next KBuffer.fresh (.op (.write big)) = some s :=
          next_eq_some.mpr ⟨_, step_write hw⟩
        rw [Runs.run_cons_of_step hfirst]
        rfl
      · rw [hhold.length, hl'.length_unread]
        exact hrec.written.readableSize.trans (by rw [hfree]; rfl)
      · rintro ⟨s'', q, he, _⟩
        rw [hzero, Except.ok.injEq, Prod.mk.injEq] at he
        exact absurd he.2 (by decide)

end KKNet.BlockTruth
