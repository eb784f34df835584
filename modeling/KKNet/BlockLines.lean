import KKNet.BlockLine
import KKNet.BlockScatter
import KKNet.Lines

/-!
# The lines of what is received

A receiver takes lines out of its input buffer while `readFd` fills it, and asks for a
line only if something is readable. However the bytes came in, the lines it gets are
the lines of the stream, each once and in order, and what is left has no newline. The
calls of `readFd` are those whose vectors fit `vec` and the limit of `readv`.
-/

namespace KKNet.BlockLine

open Runs LinkedCells ListOverlay BlockBuffer BlockLayout BlockQueue BlockScatter Results Lines

variable {s : KBuffer} {q : List UInt8}

/-- With something unread, `getLine` takes the first line out, or says that there is none. -/
theorem getLine_holds (h : Holds s q) (hne : q ≠ []) :
    ∃ r, getLine s = .ok r ∧ (NEWLINE ∈ q → r.found = true ∧ IsLine NEWLINE r.buf ∧
      ∃ rest, q = r.buf ++ rest ∧ Holds r.buffer rest) ∧
      (NEWLINE ∉ q → r.found = false ∧ r.buffer = s) := by
  have hret := fun k => h.retrieve k
  have hpeek := fun k => h.peek k
  obtain ⟨chain, ri, wi, hl, rfl⟩ := h
  obtain ⟨ch, rest, hq⟩ := List.exists_cons_of_ne_nil hne
  have hin := hl.in_chain
  have hlen := hl.length_unread
  have hcount : s.readableSize_ = rest.length + 1 := by
    rw [hq, List.length_cons] at hlen
    exact hlen.symm
  obtain ⟨p, j, pos, hhop, hat, hlin, hpos⟩ :=
    hop_cursor hl.linked hl.reader (by have hu := hl.used; omega)
  have hplace : j * BLOCK_SIZE + pos = s.usedSize_ + 0 := hlin.trans hl.used
  have hbyte : (bytes chain)[j * BLOCK_SIZE + pos]? = some ch := by
    rw [hplace, ← getElem?_unread (by omega), hq]
    rfl
  have hscan := scanLoop_spec hl (i := 0) (by rw [List.drop_zero, hq]) hat hplace hpos
    (by omega : rest.length < s.readableSize_ + 1)
  rw [← hq, Nat.zero_add, Nat.zero_add] at hscan
  unfold getLine
  rw [hhop, ok_bind]
  dsimp only
  rw [byteAt_cursor hl.linked hat hpos hbyte, ok_bind, hscan, ok_bind]
  by_cases hmem : NEWLINE ∈ unread s chain
  · obtain ⟨s', he, hs'⟩ := hret ((unread s chain).idxOf NEWLINE + 1)
    have hread : s.read ((unread s chain).idxOf NEWLINE + 1) =
        .ok ((unread s chain).take ((unread s chain).idxOf NEWLINE + 1), s') := by
      simp only [KBuffer.read, hpeek, he, ok_bind, pure_eq_ok]
    rw [if_pos hmem]
    dsimp only
    rw [if_pos rfl, hread, ok_bind]
    refine ⟨_, rfl, fun _ => ⟨rfl, ?_, _, (List.take_append_drop _ _).symm, hs'⟩,
      fun hno => absurd hmem hno⟩
    dsimp only
    rw [take_idxOf hmem]
    exact isLine_takeWhile NEWLINE _
  · rw [if_neg hmem]
    dsimp only
    rw [if_neg (by decide)]
    exact ⟨_, rfl, fun hyes => absurd hyes hmem, fun _ => ⟨rfl, rfl⟩⟩

/-- An input buffer that lines are taken from, with its history. -/
structure Reader where
  /-- The buffer. -/
  buffer : KBuffer
  /-- Of every `readFd`, the first delivered bytes, as many as it returned. -/
  received : List UInt8
  /-- The lines taken out. -/
  lines : List (List UInt8)

/-- A call of the receiver. -/
inductive ReaderOp
  /-- `readFd(fd)` with these bytes waiting on the descriptor. -/
  | readFd (avail : List UInt8)
  /-- `getReadableSize() > 0 && getLine(buf)`. -/
  | getLine

namespace Reader

/-- A new buffer with no history. -/
def fresh : Reader := ⟨KBuffer.fresh, [], []⟩

/-- One call, with its entry in the history. -/
def step (r : Reader) : ReaderOp → Except Fault Reader
  | .readFd avail => do
    let data ← r.buffer.delivered avail
    let out ← r.buffer.readFd (some avail)
    pure { r with buffer := out.1, received := r.received ++ data.take out.2 }
  | .getLine =>
    if r.buffer.getReadableSize > 0 then do
      let line ← BlockLine.getLine r.buffer
      pure { r with
        buffer := line.buffer
        lines := if line.found then r.lines ++ [line.buf] else r.lines }
    else pure r

/-- A sequence of calls. -/
def run (r : Reader) (ops : List ReaderOp) : Except Fault Reader := ops.foldlM step r

/-- What was taken out are lines; they and the unread bytes are what was received. -/
def Framed (r : Reader) (q : List UInt8) : Prop :=
  Holds r.buffer q ∧ r.lines.flatten ++ q = r.received ∧ ∀ l ∈ r.lines, IsLine NEWLINE l

variable {r r' : Reader}

/-- A call of `getLine` takes out the first line, if there is one. -/
theorem Framed.getLine (h : Framed r q) : ∃ r' q', r.step .getLine = .ok r' ∧ Framed r' q' ∧
    r'.received = r.received ∧ (NEWLINE ∈ q → q'.length < q.length) ∧
    (NEWLINE ∉ q → r' = r ∧ q' = q) := by
  obtain ⟨hq, hsum, hlines⟩ := h
  unfold Reader.step
  dsimp only
  by_cases hpos : r.buffer.getReadableSize > 0
  · have hne : q ≠ [] := List.ne_nil_of_length_pos (hq.length ▸ hpos)
    obtain ⟨line, he, hfound, hnone⟩ := getLine_holds hq hne
    rw [if_pos hpos, he, ok_bind]
    by_cases hmem : NEWLINE ∈ q
    · obtain ⟨hyes, hline, rest, hcut, hrest⟩ := hfound hmem
      rw [hyes, if_pos rfl]
      refine ⟨_, rest, rfl, ⟨hrest, ?_, ?_⟩, rfl, fun _ => ?_, fun hno => absurd hmem hno⟩
      · dsimp only
        rw [List.flatten_append, List.flatten_singleton, List.append_assoc, ← hcut, hsum]
      · intro l hl
        rcases List.mem_append.mp hl with hl | hl
        · exact hlines l hl
        · rw [List.mem_singleton.mp hl]
          exact hline
      · obtain ⟨body, _, hbody⟩ := hline
        rw [hcut, hbody, List.length_append, List.length_append, List.length_singleton]
        omega
    · obtain ⟨hno, hsame⟩ := hnone hmem
      rw [hno, hsame, if_neg Bool.false_ne_true]
      exact ⟨r, q, rfl, ⟨hq, hsum, hlines⟩, rfl, fun hyes => absurd hyes hmem, fun _ => ⟨rfl, rfl⟩⟩
  · have hnil : q = [] := List.eq_nil_of_length_eq_zero (hq.length ▸ Nat.eq_zero_of_not_pos hpos)
    rw [if_neg hpos]
    refine ⟨r, q, rfl, ⟨hq, hsum, hlines⟩, rfl, fun hmem => ?_, fun _ => ⟨rfl, rfl⟩⟩
    rw [hnil] at hmem
    cases hmem

/-- `readFd` adds to what is unread. -/
theorem Framed.readFd (h : Framed r q) (avail : List UInt8) :
    ∃ r' q', r.step (.readFd avail) = .ok r' ∧ Framed r' q' := by
  obtain ⟨hq, hsum, hlines⟩ := h
  obtain ⟨data, s', k, ed, er, _, hs'⟩ := Holds.readFd hq avail
  refine ⟨{ r with buffer := s', received := r.received ++ data.take k }, q ++ data.take k, ?_,
    hs', ?_, hlines⟩
  · unfold Reader.step
    simp only [ed, er, ok_bind, pure_eq_ok]
  · rw [← List.append_assoc, hsum]

/-- Every call succeeds and keeps the lines and the unread bytes together. -/
theorem Framed.run (h : Framed r q) (ops : List ReaderOp) :
    ∃ r' q', r.run ops = .ok r' ∧ Framed r' q' := by
  unfold Reader.run
  induction ops generalizing r q with
  | nil => exact ⟨r, q, rfl, h⟩
  | cons op ops ih =>
    obtain ⟨r₁, q₁, he, h₁⟩ : ∃ r₁ q₁, r.step op = .ok r₁ ∧ Framed r₁ q₁ := by
      cases op with
      | readFd avail => exact h.readFd avail
      | getLine =>
        obtain ⟨r₁, q₁, he, h₁, _⟩ := h.getLine
        exact ⟨r₁, q₁, he, h₁⟩
    obtain ⟨r', q', hrun, h'⟩ := ih h₁
    exact ⟨r', q', by rw [List.foldlM_cons, he, ok_bind, hrun], h'⟩

/-- A new buffer. -/
theorem framed_fresh : Framed fresh [] :=
  ⟨represents_fresh.holds, rfl, fun _ hl => absurd hl List.not_mem_nil⟩

/-- Calls of `getLine` go on until no line is left. -/
theorem Framed.drain (h : Framed r q) {n : ℕ} (hn : q.length ≤ n ∨ NEWLINE ∉ q) :
    ∃ r' q', r.run (List.replicate n .getLine) = .ok r' ∧ Framed r' q' ∧
      r'.received = r.received ∧ NEWLINE ∉ q' := by
  unfold Reader.run
  induction n generalizing r q with
  | zero =>
    refine ⟨r, q, rfl, h, rfl, ?_⟩
    rcases hn with hn | hno
    · rw [List.eq_nil_of_length_eq_zero (Nat.le_zero.mp hn)]
      exact List.not_mem_nil
    · exact hno
  | succ n ih =>
    obtain ⟨r₁, q₁, he, h₁, hreceived, hfound, hnone⟩ := h.getLine
    have hn₁ : q₁.length ≤ n ∨ NEWLINE ∉ q₁ := by
      by_cases hmem : NEWLINE ∈ q
      · have hlt := hfound hmem
        have hle := hn.resolve_right (not_not.mpr hmem)
        exact Or.inl (by omega)
      · exact Or.inr ((hnone hmem).2 ▸ hmem)
    obtain ⟨r', q', hrun, h', hreceived', hno⟩ := ih h₁ hn₁
    exact ⟨r', q', by rw [List.replicate_succ, List.foldlM_cons, he, ok_bind, hrun], h',
      hreceived'.trans hreceived, hno⟩

/-- Asked for lines until none is left, a receiver gets the lines of what it received. -/
theorem Framed.lines (h : Framed r q) :
    ∃ r' rest, r.run (List.replicate r.buffer.getReadableSize .getLine) = .ok r' ∧
      r'.buffer.peek r'.buffer.getReadableSize = .ok rest ∧ NEWLINE ∉ rest ∧
      r'.lines.flatten ++ rest = r.received ∧ ∀ l ∈ r'.lines, IsLine NEWLINE l := by
  obtain ⟨r', rest, hrun, ⟨hrest, hsum, hlines⟩, hreceived, hno⟩ :=
    h.drain (n := r.buffer.getReadableSize) (Or.inl h.1.length.ge)
  exact ⟨r', rest, hrun, hrest.peek_all, hno, hsum.trans hreceived, hlines⟩

end Reader

/-- In whichever pieces a stream was received, and whenever lines were asked for in
between: every call returns, and receivers of the same stream that ask for lines until
none is left get the same ones, which are the lines of the stream in order, and are left
with the same rest, which has no newline. -/
theorem lines_of_received (ops ops' : List ReaderOp) :
    ∃ r r', Reader.fresh.run ops = .ok r ∧ Reader.fresh.run ops' = .ok r' ∧
      (r.received = r'.received →
        ∃ d d' rest, r.run (List.replicate r.buffer.getReadableSize .getLine) = .ok d ∧
          r'.run (List.replicate r'.buffer.getReadableSize .getLine) = .ok d' ∧
          d.lines = d'.lines ∧ d.buffer.peek d.buffer.getReadableSize = .ok rest ∧
          d'.buffer.peek d'.buffer.getReadableSize = .ok rest ∧ NEWLINE ∉ rest ∧
          d.lines.flatten ++ rest = r.received ∧ ∀ l ∈ d.lines, IsLine NEWLINE l) := by
  obtain ⟨r, q, hr, hframed⟩ := Reader.framed_fresh.run ops
  obtain ⟨r', q', hr', hframed'⟩ := Reader.framed_fresh.run ops'
  refine ⟨r, r', hr, hr', fun hreceived => ?_⟩
  obtain ⟨d, rest, hd, hrest, hno, hsum, hlines⟩ := hframed.lines
  obtain ⟨d', rest', hd', hrest', hno', hsum', hlines'⟩ := hframed'.lines
  have hboth : d.lines.flatten ++ rest = d'.lines.flatten ++ rest' :=
    hsum.trans (hreceived.trans hsum'.symm)
  obtain ⟨hsame, rfl⟩ := lines_unique hlines hlines' hno hno' hboth
  exact ⟨d, d', rest, hd, hd', hsame, hrest, hrest', hno, hsum, hlines⟩

/-- Two lines and a rest, in three pieces with lines asked for in between. -/
def pieces : List ReaderOp :=
  [.readFd [97], .getLine, .readFd [98, 10, 99], .getLine, .readFd [10, 100]]

/-- The same in one piece. -/
def whole : List ReaderOp := [.readFd [97, 98, 10, 99, 10, 100]]

/-- Both get the same lines. -/
theorem lines_of_received_pieces :
    ∃ r r' d d', Reader.fresh.run pieces = .ok r ∧ Reader.fresh.run whole = .ok r' ∧
      r.run (List.replicate r.buffer.getReadableSize .getLine) = .ok d ∧
      r'.run (List.replicate r'.buffer.getReadableSize .getLine) = .ok d' ∧
      r.received = [97, 98, 10, 99, 10, 100] ∧ d.lines = d'.lines := by
  have hreceived : ((Reader.fresh.run pieces).toOption.map Reader.received) =
      some [97, 98, 10, 99, 10, 100] := by decide +kernel
  have hreceived' : ((Reader.fresh.run whole).toOption.map Reader.received) =
      some [97, 98, 10, 99, 10, 100] := by decide +kernel
  obtain ⟨r, r', hr, hr', hlines⟩ := lines_of_received pieces whole
  rw [hr] at hreceived
  rw [hr'] at hreceived'
  have heq := Option.some.inj hreceived
  obtain ⟨d, d', _, hd, hd', hsame, _⟩ := hlines (heq.trans (Option.some.inj hreceived').symm)
  exact ⟨r, r', d, d', hr, hr', hd, hd', heq, hsame⟩

end KKNet.BlockLine
