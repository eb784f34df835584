import KKNet.BlockReject
import KKNet.BlockScatter

/-!
# When a write is accepted

What `write` takes does not follow from the unread bytes alone. It depends on the
blocks past traffic has left: on the room they give, on where the write cursor
stands in them, and, for a size above the room, on the limit less that room.
-/

namespace KKNet.BlockAccept

open LinkedCells ListOverlay BlockBuffer BlockLayout BlockQueue BlockScatter BlockReject Results

/-- The bytes of the blocks from the write cursor on, as `readFd` lists them. -/
def behind (s : KBuffer) : ℕ :=
  match s.ioVecs (s.heap.length + 1) s.writestr_ with
  | .ok vec => (vec.map KBuffer.IoVec.len).sum
  | .error _ => 0

/-- Everything is read, and the read cursor has gone on to the block behind the
end of which the write cursor still stands. -/
def Overtaken (s : KBuffer) : Prop :=
  s.writablePos_ = BLOCK_SIZE ∧ s.readablePos_ = 0 ∧ s.readableSize_ = 0 ∧ behind s = s.writableSize_

/-- What a write of this size finds where it is accepted: enough behind the write
cursor; or, for more than the counted room behind it, enough with the blocks before
the read cursor, unless that has overtaken; or, for more than all room, a size within
the limit less the room. -/
def Takes (s : KBuffer) (size : ℕ) : Prop :=
  size ≤ behind s ∨
  (s.writableSize_ < size ∧ size ≤ s.usedSize_ - s.readablePos_ + behind s ∧ ¬Overtaken s) ∨
  (room s < size ∧ size ≤ MAX_BLOCK_SIZE - room s)

variable {s : KBuffer} {chain : List (ℕ × Block)} {ri wi gap : ℕ}

/-- The blocks behind the write cursor have the counted room less the gap. -/
theorem behind_add_gap (h : Layout s chain ri wi gap) : behind s + gap = s.writableSize_ := by
  obtain ⟨vec, ev, _, _, hsum, _⟩ := Layout.scatter h
  unfold behind
  rw [ev]
  exact hsum

/-- The write cursor is overtaken exactly if its block is before that of the read
cursor. -/
theorem overtaken_iff (h : Layout s chain ri wi gap) : Overtaken s ↔ wi < ri := by
  have hb := behind_add_gap h
  have hu := h.used
  have hw := h.written
  constructor
  · rintro ⟨hpos, hrp, hr, hbehind⟩
    have hlt : wi * BLOCK_SIZE < ri * BLOCK_SIZE := by
      have hone : 0 < BLOCK_SIZE := by decide
      omega
    exact Nat.lt_of_mul_lt_mul_right hlt
  · intro hlt
    obtain ⟨_, hpos, hrp, hr, hgap⟩ := h.overtaken hlt
    exact ⟨hpos, hrp, hr, by omega⟩

/-- `do_write` returns exactly if the data and the gap fit the counted room. -/
theorem doWrite_ok_iff (h : Layout s chain ri wi gap) (buf : List UInt8) :
    (∃ s', s.doWrite buf = .ok s') ↔ gap + buf.length ≤ s.writableSize_ := by
  constructor
  · rintro ⟨s', he⟩
    by_contra hover
    rw [h.doWrite_null (by omega)] at he
    cases he
  · intro hfit
    obtain ⟨s', _, _, hd, _⟩ := h.doWrite buf hfit
    exact ⟨s', hd⟩

/-- A function that only passes on what `do_write` gives returns if that does. -/
theorem write_of_doWrite {x : Except Fault KBuffer} {n : ℕ} :
    (∃ s', (do
      let s' ← x
      pure (s', n) : Except Fault (KBuffer × ℕ)) = .ok (s', n)) ↔ ∃ s', x = .ok s' := by
  cases x with
  | error e => simp
  | ok s₁ => simp

/-- A write takes all its bytes exactly if it finds the room it looks for. -/
theorem write_takes_iff (h : Layout s chain ri wi gap) (buf : List UInt8)
    (hsize : s.readableSize_ + buf.length + BLOCK_SIZE ≤ MAX_BLOCK_SIZE) :
    (∃ s', s.write buf = .ok (s', buf.length)) ↔ Takes s buf.length := by
  have hb := behind_add_gap h
  have hover := overtaken_iff h
  have hu := h.used
  have ht := h.total
  have hz := h.size
  have hrp := h.reader.pos_le
  unfold Takes room
  unfold KBuffer.write
  by_cases hfree : buf.length ≤ s.writableSize_
  · rw [if_neg (by omega), if_pos hfree, write_of_doWrite, doWrite_ok_iff h]
    omega
  obtain ⟨s₁, chain₁, wi₁, gap₁, hm, hl₁, hmoved, _, hkeep⟩ := h.moveHead
  have hw₁ := hmoved.writableSize
  rw [if_neg (by omega), if_neg hfree, hm, ok_bind, ok_bind]
  by_cases hmove : buf.length ≤ s.usedSize_ - s.readablePos_ + s.writableSize_
  · rw [if_pos hmove, write_of_doWrite, doWrite_ok_iff hl₁]
    by_cases hlt : wi < ri
    · -- the write block goes behind all others, and nothing is behind the cursor
      obtain ⟨_, _, hzero, hempty, _⟩ := h.overtaken hlt
      obtain ⟨s₂, wi₂, gap₂, hm₂, hl₂, _, _, hlost⟩ := h.moveHead_rotate (by omega)
      have hsame : s₂ = s₁ := Except.ok.inj (hm₂.symm.trans hm)
      have hgap := hlost hlt
      subst hsame
      have ho : Overtaken s := hover.mpr hlt
      rw [← doWrite_ok_iff hl₁, doWrite_ok_iff hl₂]
      simp only [ho, not_true_eq_false, and_false, false_or]
      omega
    · obtain ⟨_, hgap⟩ := hkeep (by omega)
      have hno : ¬Overtaken s := fun ho => hlt (hover.mp ho)
      simp only [hno, not_false_eq_true, and_true]
      omega
  · rw [if_neg hmove]
    by_cases hbig : buf.length > MAX_BLOCK_SIZE - s₁.writableSize_
    · rw [if_pos hbig]
      constructor
      · rintro ⟨s', he⟩
        simp only [pure_eq_ok, Except.ok.injEq, Prod.mk.injEq] at he
        omega
      · intro htakes
        omega
    · obtain ⟨s₂, extra, wi₂, hg, hl₂, hgrown, hlo, _⟩ := hl₁.makeSpace buf.length (by omega)
      have hw₂ := hgrown.writableSize
      have hgap₁ := Layout.gap_le hl₁
      rw [if_neg hbig, hg, ok_bind, write_of_doWrite, doWrite_ok_iff hl₂]
      omega

/-- In every state that writes, peeks, reads and retrieves lead to, a write of a
size that leaves a block free beside the unread bytes takes all of it exactly if the
blocks the history has left have the room for it, or the limit less their room has. -/
theorem write_accepted_iff (ops : List Op) (s : KBuffer) (buf : List UInt8)
    (hrun : run KBuffer.fresh ops = .ok s)
    (hsize : s.getReadableSize + buf.length + BLOCK_SIZE ≤ MAX_BLOCK_SIZE) :
    (∃ s', s.write buf = .ok (s', buf.length)) ↔ Takes s buf.length := by
  obtain ⟨chain, ri, wi, gap, hl⟩ := shaped_run ⟨_, _, _, _, layout_fresh⟩ hrun
  exact write_takes_iff hl buf hsize

/-- Three blocks, of which the first two are read, and a byte behind that. -/
def mostlyRead : List Op := [.write (List.replicate 3000 7), .retrieve 2500, .write [8]]

/-- There 2000 bytes are taken, by the block behind the write cursor and those before the
read cursor. -/
theorem write_accepted_mostlyRead :
    ∃ s s', run KBuffer.fresh mostlyRead = .ok s ∧ s.getReadableSize = 501 ∧ behind s = 71 ∧
      s.write (List.replicate 2000 9) = .ok (s', 2000) := by
  have hfacts : (run KBuffer.fresh mostlyRead).toOption.map (fun s =>
      (s.getReadableSize, behind s, s.writableSize_, s.usedSize_ - s.readablePos_)) =
        some (501, 71, 71, 2 * BLOCK_SIZE) := by decide +kernel
  obtain ⟨s, hrun, hs⟩ := Results.ok_of_toOption_map hfacts
  simp only [Prod.mk.injEq] at hs
  obtain ⟨hreadable, hbehind, hroom, hbefore⟩ := hs
  have hlen : (List.replicate 2000 (9 : UInt8)).length = 2000 := List.length_replicate
  have hiff := write_accepted_iff mostlyRead s (List.replicate 2000 9) hrun (by
    rw [hlen, hreadable]
    decide)
  rw [hlen] at hiff
  have htwo : 2 * BLOCK_SIZE = 2048 := rfl
  have hover : ¬Overtaken s := by
    rintro ⟨_, _, hzero, _⟩
    unfold KBuffer.getReadableSize at hreadable
    omega
  obtain ⟨s', hw⟩ := hiff.mpr (Or.inr (Or.inl ⟨by omega, by omega, hover⟩))
  exact ⟨s, s', hrun, hreadable, hbehind, hw⟩

/-- After 700 blocks of data were written and all were retrieved, as much data
again is refused. -/
theorem drained_refuses :
    ∃ s s', run KBuffer.fresh [.write (List.replicate (700 * BLOCK_SIZE) 0),
        .retrieve (700 * BLOCK_SIZE)] = .ok s ∧ s.getReadableSize = 0 ∧
      s.getReadableSize + 700 * BLOCK_SIZE + BLOCK_SIZE ≤ MAX_BLOCK_SIZE ∧
      s.write (List.replicate (700 * BLOCK_SIZE) 0) = .ok (s', 0) := by
  obtain ⟨big, hbig⟩ : ∃ big, List.replicate (700 * BLOCK_SIZE) (0 : UInt8) = big := ⟨_, rfl⟩
  have hlen : big.length = 700 * BLOCK_SIZE := by rw [← hbig, List.length_replicate]
  have hmax : 702 * BLOCK_SIZE ≤ MAX_BLOCK_SIZE := by decide
  have hone : 0 < BLOCK_SIZE := by decide
  have hsome : big ≠ [] := List.ne_nil_of_length_pos (by omega)
  obtain ⟨s₁, chain, wi, hw, hl, hset, hq, hu, hr, hlo, hhi⟩ := fill hsome (by omega)
  have hn : chain.length = 700 := by
    simp only [BLOCK_SIZE] at *
    omega
  have hz := hl.size
  have ht := hl.total
  obtain ⟨s₂, i, hret, hl₂, hd, hend⟩ := hl.retrieve (700 * BLOCK_SIZE)
  have hu₂ := hd.usedSize
  have hr₂ := hd.readableSize
  have hf₂ := hd.writableSize
  have hb₂ := hd.buflen
  have hlin := hl₂.used
  have hle := hl₂.reader.pos_le
  rw [hr, hlen, Nat.min_self] at hu₂ hr₂
  rw [hn] at hz hend
  -- the read cursor stands at the end of the final block
  have hpos : s₂.readablePos_ = BLOCK_SIZE := by
    have hin := hl₂.reader.inside
    rw [List.length_map, hn] at hin
    simp only [BLOCK_SIZE] at *
    rcases hin with hlt | ⟨_, hi, hzero⟩
    · omega
    · omega
  have hrep : Represents s₂ (big.drop (700 * BLOCK_SIZE)) :=
    ⟨chain, i, wi, hl₂, fun he => hset (hd.writablePos ▸ he), hq ▸ hd.unread chain⟩
  have hroom : room s₂ = 699 * BLOCK_SIZE := by
    unfold room
    omega
  rw [hlen] at hw
  rw [hbig]
  refine ⟨s₂, ?_⟩
  rcases hrep.write big with ⟨hacc, _⟩ | ⟨_, s₃, hw₃, _⟩
  · unfold Accepts at hacc
    rw [hroom, hlen] at hacc
    simp only [BLOCK_SIZE, MAX_BLOCK_SIZE] at hacc
    omega
  · refine ⟨s₃, ?_, ?_, ?_, hw₃⟩
    · simp only [run, step_write hw, step_retrieve hret, ok_bind]
    · exact hr₂.trans (Nat.sub_self _)
    · unfold KBuffer.getReadableSize
      omega

end KKNet.BlockAccept
