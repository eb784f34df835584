import KKNet.BlockReject
import KKNet.Runs

/-!
# Taking a line out of the buffer

`getLine` looks for a newline with a cursor of its own and then reads up to it. It
looks at a first byte before it asks whether anything is readable, so that it takes
exactly the first line exactly if something is unread.
-/

namespace KKNet.BlockLine

open LinkedCells ListOverlay BlockBuffer BlockLayout BlockQueue BlockReject Results

/-- `'\n'`. -/
def NEWLINE : UInt8 := 10

/-- The cursor of `getLine` moves on from the end of a block. -/
def hop (s : KBuffer) (p : Ptr) (pos : ℕ) : Except Fault (Ptr × ℕ) :=
  if pos = BLOCK_SIZE then do
    let b ← s.deref p
    pure (b.next, 0)
  else
    pure (p, pos)

/-- `tmp_readstr->buf[tmp_readablePos]`. -/
def byteAt (s : KBuffer) (p : Ptr) (pos : ℕ) : Except Fault UInt8 := do
  let b ← s.deref p
  match b.val.1[pos]? with
  | some ch => pure ch
  | none => throw .overrun

/-- The loop of `getLine`: whether a newline was found, and `i`. -/
def scanLoop (s : KBuffer) : ℕ → ℕ → Ptr → ℕ → UInt8 → Except Fault (Bool × ℕ)
  | fuel, i, p, pos, ch =>
    if ch = NEWLINE then .ok (true, i) else
    match fuel with
    | 0 => .error .stuck
    | fuel + 1 =>
      if i + 1 ≥ s.readableSize_ then .ok (false, i + 1) else do
        let cursor ← hop s p (pos + 1)
        let ch ← byteAt s cursor.1 cursor.2
        scanLoop s fuel (i + 1) cursor.1 cursor.2 ch

/-- What a call of `getLine` gives and does. -/
structure Line where
  /-- The returned value. -/
  found : Bool
  /-- The bytes copied into the caller's array. -/
  buf : List UInt8
  /-- The buffer afterwards. -/
  buffer : KBuffer
  /-- How many bytes from the read position on were looked at. -/
  inspected : ℕ

/-- `KBuffer::getLine`. -/
def getLine (s : KBuffer) : Except Fault Line := do
  let cursor ← hop s s.readstr_ s.readablePos_
  let ch ← byteAt s cursor.1 cursor.2
  let out ← scanLoop s (s.readableSize_ + 1) 0 cursor.1 cursor.2 ch
  if out.1 then do
    let taken ← s.read (out.2 + 1)
    pure ⟨true, taken.1, taken.2, out.2 + 1⟩
  else
    pure ⟨false, [], s, out.2⟩

/-- With the unread bytes `q`, `getLine` takes exactly the first line, looking at
unread bytes only. -/
def TakesLine (s : KBuffer) (q : List UInt8) : Prop :=
  ∃ r, getLine s = .ok r ∧ r.inspected ≤ q.length ∧ (r.found = true ↔ NEWLINE ∈ q) ∧
    (NEWLINE ∈ q → r.buf = q.takeWhile (· ≠ NEWLINE) ++ [NEWLINE] ∧
      ∃ rest, q = r.buf ++ rest ∧ r.buffer.peek r.buffer.getReadableSize = .ok rest) ∧
    (NEWLINE ∉ q → r.buffer = s)

/-- A call on a buffer that lines are taken from. -/
inductive LineOp
  /-- `write(buf, size)` with the bytes of `buf`. -/
  | write (buf : List UInt8)
  /-- `read(buf, size)`. -/
  | read (size : ℕ)
  /-- `retrieve(len)`. -/
  | retrieve (len : ℕ)
  /-- `getLine(buf)`. -/
  | getLine

/-- The buffer after a call that does not fault, and is no rejected write. -/
def lineStep (s : KBuffer) : LineOp → Option KBuffer
  | .write buf => (s.write buf).toOption.bind fun out => if out.2 = buf.length then some out.1 else none
  | .read size => (s.read size).toOption.map Prod.snd
  | .retrieve len => (s.retrieve len).toOption
  | .getLine => (getLine s).toOption.map Line.buffer

variable {s : KBuffer} {chain : List (ℕ × Block)} {ri wi gap : ℕ}

/-- The byte at a cursor inside its block. -/
theorem byteAt_cursor (hs : Seg s.heap none chain none) {p : Ptr} {i pos : ℕ}
    (h : At (addrs chain) p i pos) (hpos : pos < BLOCK_SIZE) {ch : UInt8}
    (hch : (bytes chain)[i * BLOCK_SIZE + pos]? = some ch) : byteAt s p pos = .ok ch := by
  rcases h.split with ⟨hnil, _⟩ | ⟨pre, c, post, hsp, hi, hp⟩
  · rw [hnil] at hch
    cases hch
  · have hc := c.2.2
    have hplace : c.2.1[pos]? = some ch := by
      rw [hsp, bytes_append, bytes_cons, List.getElem?_append_right (by rw [length_bytes, hi]; omega),
        length_bytes, hi, Nat.add_sub_cancel_left, List.getElem?_append_left (by omega)] at hch
      exact hch
    unfold byteAt
    rw [hp, deref_some (seg_get (hsp ▸ hs)), ok_bind]
    dsimp only
    rw [hplace]
    rfl

/-- With a byte at its place, a cursor hops into the block that holds it. -/
theorem hop_cursor (hs : Seg s.heap none chain none) {p : Ptr} {i pos : ℕ}
    (h : At (addrs chain) p i pos) (hin : i * BLOCK_SIZE + pos < (bytes chain).length) :
    ∃ p' i' pos', hop s p pos = .ok (p', pos') ∧ At (addrs chain) p' i' pos' ∧
      i' * BLOCK_SIZE + pos' = i * BLOCK_SIZE + pos ∧ pos' < BLOCK_SIZE := by
  have hle := h.pos_le
  unfold hop
  by_cases hb : pos = BLOCK_SIZE
  · rw [if_pos hb]
    rw [length_bytes, hb, ← Nat.succ_mul] at hin
    have hlt := Nat.lt_of_mul_lt_mul_right hin
    have hne : chain ≠ [] := List.ne_nil_of_length_pos (by omega)
    obtain ⟨b, hd, hnext⟩ := deref_at hs h hne
    refine ⟨b.next, i + 1, 0, ?_, ⟨hnext, Nat.zero_le _, Or.inl ?_⟩, ?_, by decide⟩
    · rw [hd, ok_bind]
      rfl
    · rw [List.length_map]
      exact hlt
    · rw [Nat.succ_mul, hb, Nat.add_zero]
  · rw [if_neg hb]
    exact ⟨p, i, pos, rfl, h, rfl, by omega⟩

/-- The loop finds the first newline among the bytes from its cursor on, or counts
them all. -/
theorem scanLoop_spec (h : Layout s chain ri wi gap) {rest : List UInt8} {ch : UInt8} {i : ℕ}
    (hq : (unread s chain).drop i = ch :: rest) {p : Ptr} {j pos : ℕ}
    (hat : At (addrs chain) p j pos) (hlin : j * BLOCK_SIZE + pos = s.usedSize_ + i)
    (hpos : pos < BLOCK_SIZE) {fuel : ℕ} (hfuel : rest.length < fuel) :
    scanLoop s fuel i p pos ch = .ok (if NEWLINE ∈ ch :: rest
      then (true, i + (ch :: rest).idxOf NEWLINE) else (false, i + (ch :: rest).length)) := by
  have hlen := congrArg List.length hq
  rw [List.length_drop, h.length_unread, List.length_cons] at hlen
  unfold KBuffer.getReadableSize at hlen
  have hin := h.in_chain
  obtain ⟨fuel, rfl⟩ : ∃ n, fuel = n + 1 := ⟨fuel - 1, by omega⟩
  induction rest generalizing ch i p j pos fuel with
  | nil =>
    rw [List.length_nil] at hlen
    unfold scanLoop
    by_cases hch : ch = NEWLINE
    · rw [if_pos hch, hch, if_pos List.mem_cons_self, List.idxOf_cons_self]
      rfl
    · rw [if_neg hch, if_neg (by simpa using Ne.symm hch)]
      dsimp only
      rw [if_pos (by omega)]
      rfl
  | cons ch' rest ih =>
    rw [List.length_cons] at hlen hfuel
    unfold scanLoop
    by_cases hch : ch = NEWLINE
    · rw [if_pos hch, hch, if_pos List.mem_cons_self, List.idxOf_cons_self]
      rfl
    · have hrest : (unread s chain).drop (i + 1) = ch' :: rest := by
        rw [← List.drop_drop, hq, List.drop_succ_cons, List.drop_zero]
      have hbyte : (bytes chain)[s.usedSize_ + (i + 1)]? = some ch' := by
        rw [← getElem?_unread (by omega), ← Nat.add_zero (i + 1), ← List.getElem?_drop, hrest]
        rfl
      have hmore : At (addrs chain) p j (pos + 1) := by
        refine ⟨hat.ptr, hpos, Or.inl ?_⟩
        rcases hat.inside with hj | ⟨hnil, _⟩
        · exact hj
        · rw [List.map_eq_nil_iff.mp hnil] at hbyte
          cases hbyte
      obtain ⟨p', j', pos', hhop, hat', hlin', hpos'⟩ := hop_cursor h.linked hmore (by omega)
      have hnext : j' * BLOCK_SIZE + pos' = s.usedSize_ + (i + 1) := by omega
      obtain ⟨fuel, rfl⟩ : ∃ n, fuel = n + 1 := ⟨fuel - 1, by omega⟩
      rw [if_neg hch]
      dsimp only
      rw [if_neg (by omega), hhop, ok_bind, byteAt_cursor h.linked hat' hpos' (hnext ▸ hbyte), ok_bind,
        ih hrest hat' hnext hpos' (by omega) fuel (by omega)]
      by_cases hmem : NEWLINE ∈ ch' :: rest
      · rw [if_pos hmem, if_pos (List.mem_cons_of_mem ch hmem), List.idxOf_cons_ne _ hch]
        congr 2
        omega
      · rw [if_neg hmem, if_neg (by simp only [List.mem_cons, not_or] at hmem ⊢; exact ⟨Ne.symm hch, hmem⟩),
          List.length_cons (a := ch)]
        congr 2
        omega

/-- A loop without a find has moved on. -/
theorem scanLoop_pos {fuel i : ℕ} {p : Ptr} {pos : ℕ} {ch : UInt8} {out : Bool × ℕ}
    (h : scanLoop s fuel i p pos ch = .ok out) (hno : ¬out.1 = true) : i < out.2 := by
  induction fuel generalizing i p pos ch with
  | zero =>
    unfold scanLoop at h
    split at h
    · cases h
      exact absurd rfl hno
    · cases h
  | succ fuel ih =>
    unfold scanLoop at h
    split at h
    · cases h
      exact absurd rfl hno
    · dsimp only at h
      split at h
      · cases h
        exact Nat.lt_succ_self i
      · obtain ⟨cursor, _, h⟩ := ok_of_bind h
        obtain ⟨ch', _, h⟩ := ok_of_bind h
        exact (Nat.lt_succ_self i).trans (ih h)

/-- A scan looks at one byte at least. -/
theorem inspected_pos {r : Line} (h : getLine s = .ok r) : 0 < r.inspected := by
  obtain ⟨cursor, _, h⟩ := ok_of_bind h
  obtain ⟨ch, _, h⟩ := ok_of_bind h
  obtain ⟨out, hscan, h⟩ := ok_of_bind h
  split at h
  · obtain ⟨taken, _, h⟩ := ok_of_bind h
    cases h
    exact Nat.succ_pos _
  · rename_i hno
    cases h
    exact (Nat.zero_le 0).trans_lt (scanLoop_pos hscan hno)

/-- The bytes up to and with the first newline. -/
theorem take_idxOf {q : List UInt8} (h : NEWLINE ∈ q) :
    q.take (q.idxOf NEWLINE + 1) = q.takeWhile (· ≠ NEWLINE) ++ [NEWLINE] := by
  induction q with
  | nil => cases h
  | cons ch q ih =>
    by_cases hch : ch = NEWLINE
    · rw [hch, List.idxOf_cons_self]
      simp
    · have hmem : NEWLINE ∈ q := (List.mem_cons.mp h).resolve_left (Ne.symm hch)
      rw [List.idxOf_cons_ne _ hch, List.take_succ_cons, ih hmem, List.takeWhile_cons_of_pos (by simpa using hch)]
      rfl

/-- With something unread, `getLine` takes exactly the first line. -/
theorem takesLine_of_unread {q : List UInt8} (h : Represents s q) (hne : q ≠ []) : TakesLine s q := by
  have hhold := h.holds
  have hret := fun k => h.retrieve k
  obtain ⟨chain, ri, wi, hl, _, rfl⟩ := h
  obtain ⟨ch, rest, hq⟩ := List.exists_cons_of_ne_nil hne
  have hin := hl.in_chain
  have hlen := hl.length_unread
  have hcount : s.readableSize_ = rest.length + 1 := by
    rw [hq, List.length_cons] at hlen
    exact hlen.symm
  obtain ⟨p, j, pos, hhop, hat, hlin, hpos⟩ :=
    hop_cursor hl.linked hl.reader (by have hu := hl.used; omega)
  have hplace : j * BLOCK_SIZE + pos = s.usedSize_ + 0 := hlin.trans hl.used
  have hbyte : (bytes chain)[j * BLOCK_SIZE + pos]? = some ch := by
    rw [hplace, ← getElem?_unread (by omega), hq]
    rfl
  have hscan := scanLoop_spec hl (i := 0) (by rw [List.drop_zero, hq]) hat hplace hpos
    (by omega : rest.length < s.readableSize_ + 1)
  rw [← hq, Nat.zero_add, Nat.zero_add] at hscan
  unfold TakesLine getLine
  rw [hhop, ok_bind]
  dsimp only
  rw [byteAt_cursor hl.linked hat hpos hbyte, ok_bind, hscan, ok_bind]
  by_cases hmem : NEWLINE ∈ unread s chain
  · obtain ⟨s', he, hrep⟩ := hret ((unread s chain).idxOf NEWLINE + 1)
    have hpeek := hhold.peek ((unread s chain).idxOf NEWLINE + 1)
    have hread : s.read ((unread s chain).idxOf NEWLINE + 1) =
        .ok ((unread s chain).take ((unread s chain).idxOf NEWLINE + 1), s') := by
      simp only [KBuffer.read, hpeek, he, ok_bind, pure_eq_ok]
    rw [if_pos hmem]
    dsimp only
    rw [if_pos rfl, hread, ok_bind]
    refine ⟨_, rfl, List.idxOf_lt_length_iff.mpr hmem, by simp [hmem], fun _ => ⟨take_idxOf hmem, _,
      (List.take_append_drop _ _).symm, hrep.holds.peek_all⟩, fun hno => absurd hmem hno⟩
  · rw [if_neg hmem]
    dsimp only
    rw [if_neg (by decide)]
    exact ⟨_, rfl, le_rfl, by simp [hmem], fun hyes => absurd hyes hmem, fun _ => rfl⟩

/-- A call on a representing buffer leaves one. -/
theorem represents_lineStep {q : List UInt8} (h : Represents s q) {op : LineOp} {s' : KBuffer}
    (he : lineStep s op = some s') : ∃ q', Represents s' q' := by
  have hread : ∀ size out, s.read size = .ok out → ∃ q', Represents out.2 q' := by
    intro size out hr
    obtain ⟨s₁, hret, hrep⟩ := h.retrieve size
    simp only [KBuffer.read, h.holds.peek, hret, ok_bind, pure_eq_ok, Except.ok.injEq] at hr
    subst hr
    exact ⟨_, hrep⟩
  cases op with
  | write buf =>
    rcases h.write buf with ⟨_, s₁, hw, hrep⟩ | ⟨hno, s₁, hw, _⟩
    · simp only [lineStep, hw, Except.toOption, Option.bind_some, if_true, Option.some.injEq] at he
      exact ⟨_, he ▸ hrep⟩
    · have hlen : 0 ≠ buf.length := fun hz => hno (Or.inl (by omega))
      simp only [lineStep, hw, Except.toOption, Option.bind_some, if_neg hlen] at he
      cases he
  | read size =>
    obtain ⟨out, hr, rfl⟩ := Option.map_eq_some_iff.mp he
    exact hread size out (ok_of_toOption hr)
  | retrieve len =>
    obtain ⟨s₁, hret, hrep⟩ := h.retrieve len
    simp only [lineStep, hret, Except.toOption, Option.some.injEq] at he
    exact ⟨_, he ▸ hrep⟩
  | getLine =>
    obtain ⟨r, hg, rfl⟩ := Option.map_eq_some_iff.mp he
    obtain ⟨cursor, _, hg⟩ := ok_of_bind (ok_of_toOption hg)
    obtain ⟨ch, _, hg⟩ := ok_of_bind hg
    obtain ⟨out, _, hg⟩ := ok_of_bind hg
    split at hg
    · obtain ⟨taken, ht, hg⟩ := ok_of_bind hg
      cases hg
      exact hread _ taken ht
    · cases hg
      exact ⟨q, h⟩

/-- In every state that accepted writes, reads, retrieves and earlier calls lead to,
`getLine` takes exactly the first line exactly if something is unread. -/
theorem getLine_exact_iff (ops : List LineOp) (s : KBuffer)
    (hrun : Runs.run lineStep KBuffer.fresh ops = some s) :
    ∃ q, s.peek s.getReadableSize = .ok q ∧ (TakesLine s q ↔ q ≠ []) := by
  obtain ⟨q, hq⟩ := Runs.invariant (fun s => ∃ q, Represents s q)
    (fun _ _ _ ⟨q, hq⟩ he => represents_lineStep hq he) ⟨[], represents_fresh⟩ hrun
  refine ⟨q, hq.holds.peek_all, ?_, takesLine_of_unread hq⟩
  rintro ⟨r, he, hinside, _⟩ rfl
  have hpos := inspected_pos he
  rw [List.length_nil] at hinside
  omega

/-- Two lines, of which the second begins in the first block and ends in the second, and
the beginning of a third one; the first is taken. -/
def twoLines : List LineOp :=
  [.write [72, NEWLINE], .write (List.replicate 1500 65), .write [NEWLINE, 66], .getLine]

/-- The next call takes the second line, across the two blocks. -/
theorem getLine_exact_twoLines :
    ∃ s q, Runs.run lineStep KBuffer.fresh twoLines = some s ∧
      s.peek s.getReadableSize = .ok q ∧ q = List.replicate 1500 65 ++ [NEWLINE, 66] ∧
      TakesLine s q := by
  have hpeek : (Runs.run lineStep KBuffer.fresh twoLines).map (fun s =>
      (s.peek s.getReadableSize).toOption) =
        some (some (List.replicate 1500 65 ++ [NEWLINE, 66])) := by decide +kernel
  obtain ⟨s, hrun, hs⟩ := Option.map_eq_some_iff.mp hpeek
  obtain ⟨q, hq, hiff⟩ := getLine_exact_iff twoLines s hrun
  rw [hq] at hs
  have hsame : q = List.replicate 1500 65 ++ [NEWLINE, 66] := Option.some.inj hs
  refine ⟨s, q, hrun, hq, hsame, hiff.mpr ?_⟩
  rw [hsame]
  exact List.append_ne_nil_of_right_ne_nil _ (List.cons_ne_nil _ _)

/-- A block of newlines is taken out with a byte behind it. The next write goes to the
rest of the second block and begins the first one anew, and is taken out as well. -/
def drained : List LineOp :=
  [.write (List.replicate BLOCK_SIZE NEWLINE), .write [65], .read (BLOCK_SIZE + 1),
    .write (List.replicate BLOCK_SIZE 66), .read BLOCK_SIZE]

/-- On a new buffer the scan follows a null block pointer; on a drained one it meets the
newline that an earlier write has left, and reports a line. -/
theorem getLine_drained :
    (getLine KBuffer.fresh = .error .nullBlock ∧ ¬TakesLine KBuffer.fresh []) ∧
    ∃ s, Runs.run lineStep KBuffer.fresh drained = some s ∧ s.peek s.getReadableSize = .ok [] ∧
      (getLine s).toOption.map Line.found = some true ∧ ¬TakesLine s [] := by
  have he : getLine KBuffer.fresh = .error .nullBlock := rfl
  refine ⟨⟨he, fun ⟨r, hr, _⟩ => ?_⟩, ?_⟩
  · rw [he] at hr
    cases hr
  have hfacts : (Runs.run lineStep KBuffer.fresh drained).map (fun s =>
      ((s.peek s.getReadableSize).toOption, (getLine s).toOption.map Line.found)) =
        some (some [], some true) := by decide +kernel
  obtain ⟨s, hrun, hs⟩ := Option.map_eq_some_iff.mp hfacts
  obtain ⟨hpeek, hfound⟩ := Prod.mk.inj hs
  refine ⟨s, hrun, Results.ok_of_toOption hpeek, hfound, fun ⟨r, hr, _, hyes, _⟩ => ?_⟩
  rw [hr] at hfound
  exact absurd (hyes.mp (Option.some.inj hfound)) List.not_mem_nil

end KKNet.BlockLine
