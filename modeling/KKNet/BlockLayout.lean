import KKNet.BlockBuffer

/-!
# Layout of the block chain

The invariant of every state the buffer reaches. The chain is a doubly linked
segment, each cursor is an index into it with an offset, and the counters are
the linear positions of the cursors. The write cursor stands `gap` bytes
behind the position the counters name; the gap is zero unless a rejected
write has moved the chain under an overtaken write cursor. One lemma for each
function of the source says what it does to the layout.
-/

namespace KKNet.BlockLayout

open LinkedCells ListOverlay BlockBuffer Results

/-- The bytes of a chain, from its head to the end of its final block. -/
def bytes (chain : List (ℕ × Block)) : List UInt8 := chain.flatMap fun c => c.2.1

@[simp] theorem bytes_nil : bytes [] = [] := rfl

@[simp] theorem bytes_cons (c : ℕ × Block) (chain : List (ℕ × Block)) :
    bytes (c :: chain) = c.2.1 ++ bytes chain := by
  simp [bytes]

@[simp] theorem bytes_append (xs ys : List (ℕ × Block)) : bytes (xs ++ ys) = bytes xs ++ bytes ys := by
  simp [bytes]

@[simp] theorem length_bytes (chain : List (ℕ × Block)) :
    (bytes chain).length = chain.length * BLOCK_SIZE := by
  induction chain with
  | nil => simp
  | cons c chain ih =>
    have hc := c.2.2
    simp only [bytes_cons, List.length_append, hc, ih, List.length_cons]
    ring

/-- A cursor: pointer `p` is the block with index `i`, and `pos` an offset in
it. On the empty chain it is the null pointer at offset zero. -/
structure At (as : List ℕ) (p : Ptr) (i pos : ℕ) : Prop where
  /-- The pointer is the address at the index. -/
  ptr : p = as[i]?
  /-- The offset may be the very end of the block. -/
  pos_le : pos ≤ BLOCK_SIZE
  /-- The index is inside the chain unless the chain is empty. -/
  inside : i < as.length ∨ as = [] ∧ i = 0 ∧ pos = 0

/-- The layout of the buffer on its chain, with the indices of both cursors. -/
structure Layout (s : KBuffer) (chain : List (ℕ × Block)) (ri wi gap : ℕ) : Prop where
  /-- The stored links are those of the chain. -/
  linked : Seg s.heap none chain none
  /-- No block occurs twice. -/
  nodup : (addrs chain).Nodup
  /-- `head_` is the first block. -/
  head : s.head_ = firstPtr chain none
  /-- `tail_` is the final block. -/
  tail : s.tail_ = lastPtr chain none
  /-- The read cursor. -/
  reader : At (addrs chain) s.readstr_ ri s.readablePos_
  /-- The write cursor. -/
  writer : At (addrs chain) s.writestr_ wi s.writablePos_
  /-- `usedSize_` is the linear position of the read cursor. -/
  used : ri * BLOCK_SIZE + s.readablePos_ = s.usedSize_
  /-- The write cursor is `gap` bytes past the counted end of the data. -/
  written : wi * BLOCK_SIZE + s.writablePos_ = s.usedSize_ + s.readableSize_ + gap
  /-- The three sizes cover the buffer. -/
  total : s.usedSize_ + s.readableSize_ + s.writableSize_ = s.buflen_
  /-- `buflen_` is the size of the chain. -/
  size : s.buflen_ = chain.length * BLOCK_SIZE

/-- The unread bytes. -/
def unread (s : KBuffer) (chain : List (ℕ × Block)) : List UInt8 :=
  ((bytes chain).drop s.usedSize_).take s.readableSize_

/-- A fresh buffer has the empty layout. -/
theorem layout_fresh : Layout KBuffer.fresh [] 0 0 0 where
  linked := trivial
  nodup := List.nodup_nil
  head := rfl
  tail := rfl
  reader := ⟨rfl, Nat.zero_le _, Or.inr ⟨rfl, rfl, rfl⟩⟩
  writer := ⟨rfl, Nat.zero_le _, Or.inr ⟨rfl, rfl, rfl⟩⟩
  used := rfl
  written := rfl
  total := rfl
  size := rfl

/-- A cursor on a nonempty chain splits it at its block. -/
theorem At.split {chain : List (ℕ × Block)} {p : Ptr} {i pos : ℕ} (h : At (addrs chain) p i pos) :
    (chain = [] ∧ p = none ∧ i = 0 ∧ pos = 0) ∨
      ∃ pre c post, chain = pre ++ c :: post ∧ pre.length = i ∧ p = some c.1 := by
  rcases h.inside with hi | ⟨hnil, hi, hpos⟩
  · rw [List.length_map] at hi
    refine Or.inr ⟨chain.take i, chain[i], chain.drop (i + 1), ?_, ?_, ?_⟩
    · rw [List.getElem_cons_drop, List.take_append_drop]
    · rw [List.length_take]
      omega
    · rw [h.ptr, List.getElem?_map, List.getElem?_eq_getElem hi]
      rfl
  · have hc : chain = [] := List.map_eq_nil_iff.mp hnil
    subst hc
    exact Or.inl ⟨rfl, by rw [h.ptr]; rfl, hi, hpos⟩

/-- Cursors depend only on the addresses of a chain and its length. -/
theorem At.of_split {pre post : List (ℕ × Block)} {c : ℕ × Block} {pos : ℕ}
    (hpos : pos ≤ BLOCK_SIZE) : At (addrs (pre ++ c :: post)) (some c.1) pre.length pos where
  ptr := by simp
  pos_le := hpos
  inside := Or.inl (by simp)

/-- The linear position of a cursor lies inside the chain. -/
theorem At.linear_le {chain : List (ℕ × Block)} {p : Ptr} {i pos : ℕ}
    (h : At (addrs chain) p i pos) : i * BLOCK_SIZE + pos ≤ chain.length * BLOCK_SIZE := by
  have hp := h.pos_le
  rcases h.inside with hi | ⟨_, hi, hpos⟩
  · simp only [List.length_map, BLOCK_SIZE] at hi hp ⊢
    omega
  · simp only [hi, hpos, Nat.zero_mul, Nat.zero_le, Nat.add_zero]

/-- Reading a pointer whose cell is known. -/
theorem deref_some {s : KBuffer} {a : ℕ} {c : DataBlock} (h : s.heap[a]? = some c) :
    s.deref (some a) = .ok c := by
  simp [KBuffer.deref, cellAt, h, KBuffer.orNull]

/-- The read walk beyond its first block copies whole blocks. -/
theorem peekLoop_tail {s : KBuffer} {p : Ptr} {xs : List (ℕ × Block)}
    (hs : Seg s.heap p xs none) (hr : ∀ a ∈ addrs xs, some a ≠ s.readstr_) {l fuel : ℕ}
    (hl : l ≤ (bytes xs).length) (hf : xs.length < fuel) (out : List UInt8) :
    s.peekLoop fuel (firstPtr xs none) l out = .ok (out ++ (bytes xs).take l) := by
  induction xs generalizing p l fuel out with
  | nil =>
    have hz : l = 0 := by simpa using hl
    subst hz
    unfold KBuffer.peekLoop
    simp
  | cons c xs ih =>
    have hc := c.2.2
    have hd := deref_some hs.1
    unfold KBuffer.peekLoop
    by_cases hz : l = 0
    · simp [hz]
    · rw [if_neg hz]
      obtain ⟨fuel, rfl⟩ : ∃ n, fuel = n + 1 := ⟨fuel - 1, by omega⟩
      simp only [firstPtr_cons, hd, ok_bind, if_neg (hr c.1 (by simp)), bytes_cons]
      by_cases hb : l ≤ BLOCK_SIZE
      · rw [if_pos hb, List.take_append_of_le_length (by omega)]
        rfl
      · rw [if_neg hb, ih hs.2 (fun a ha => hr a (by simp [ha]))
          (by simp only [bytes_cons, List.length_append] at hl; omega) (by simpa using hf)]
        rw [List.take_append, List.take_of_length_le (by omega : c.2.1.length ≤ l),
          List.take_of_length_le (by omega), List.append_assoc, hc]

/-- The first step of a read walk leaves the block of the read cursor. -/
theorem peekLoop_head {s : KBuffer} {p : Ptr} {c : ℕ × Block} {xs : List (ℕ × Block)}
    (hs : Seg s.heap p (c :: xs) none) (hd : (addrs (c :: xs)).Nodup)
    (hr : s.readstr_ = some c.1) {l fuel : ℕ}
    (hl : s.readablePos_ + l ≤ (bytes (c :: xs)).length) (hpos : s.readablePos_ ≤ BLOCK_SIZE)
    (hf : (c :: xs).length < fuel) :
    s.peekLoop fuel s.readstr_ l [] =
      .ok (((bytes (c :: xs)).drop s.readablePos_).take l) := by
  have hc := c.2.2
  have hder := deref_some hs.1
  have hother : ∀ a ∈ addrs xs, some a ≠ s.readstr_ := by
    intro a ha he
    rw [hr, Option.some.injEq] at he
    exact (List.nodup_cons.mp hd).1 (he ▸ ha)
  unfold KBuffer.peekLoop
  by_cases hz : l = 0
  · simp [hz]
  · rw [if_neg hz]
    obtain ⟨fuel, rfl⟩ : ∃ n, fuel = n + 1 := ⟨fuel - 1, by omega⟩
    simp only [hr, hder, ok_bind, if_true, bytes_cons, List.nil_append]
    rw [List.drop_append_of_le_length (by omega)]
    by_cases hb : l ≤ BLOCK_SIZE - s.readablePos_
    · rw [if_pos hb, List.take_append_of_le_length (by rw [List.length_drop]; omega)]
      rfl
    · rw [if_neg hb]
      have hrest : l - (BLOCK_SIZE - s.readablePos_) ≤ (bytes xs).length := by
        simp only [bytes_cons, List.length_append] at hl
        omega
      have hfirst : (c.2.1.drop s.readablePos_).length = BLOCK_SIZE - s.readablePos_ := by
        rw [List.length_drop, hc]
      rw [peekLoop_tail hs.2 hother hrest (by simpa using hf), List.take_append, hfirst,
        List.take_of_length_le (l := c.2.1.drop s.readablePos_) (by omega),
        List.take_of_length_le (l := c.2.1.drop s.readablePos_) (by omega)]

variable {s : KBuffer} {chain : List (ℕ × Block)} {ri wi gap : ℕ}

/-- The counted data never reaches past the chain. -/
theorem Layout.in_chain (h : Layout s chain ri wi gap) :
    s.usedSize_ + s.readableSize_ + gap ≤ (bytes chain).length := by
  have hw := h.writer.linear_le
  have he := h.written
  rw [length_bytes]
  omega

/-- The write cursor leaves at least the counted room minus the gap. -/
theorem Layout.room (h : Layout s chain ri wi gap) :
    wi * BLOCK_SIZE + s.writablePos_ + s.writableSize_ = chain.length * BLOCK_SIZE + gap := by
  have hw := h.written
  have ht := h.total
  have hz := h.size
  omega

theorem Layout.length_le_heap (h : Layout s chain ri wi gap) : chain.length ≤ s.heap.length :=
  seg_length_le h.linked h.nodup

/-- There are as many unread bytes as `getReadableSize` says. -/
theorem Layout.length_unread (h : Layout s chain ri wi gap) :
    (unread s chain).length = s.getReadableSize := by
  have hc := h.in_chain
  simp only [unread, List.length_take, List.length_drop, KBuffer.getReadableSize]
  omega

/-- An unread byte is the byte of the chain at its place behind the read cursor. -/
theorem getElem?_unread {i : ℕ} (hi : i < s.readableSize_) :
    (unread s chain)[i]? = (bytes chain)[s.usedSize_ + i]? := by
  unfold unread
  rw [List.getElem?_take_of_lt hi, List.getElem?_drop]

/-- A read walk from the read cursor copies the unread bytes in order. -/
theorem Layout.peekLoop (h : Layout s chain ri wi gap) {l : ℕ} (hl : l ≤ s.readableSize_) :
    s.peekLoop (s.heap.length + 1) s.readstr_ l [] =
      .ok (((bytes chain).drop s.usedSize_).take l) := by
  have hc := h.in_chain
  have hu := h.used
  have hlen := h.length_le_heap
  rcases h.reader.split with ⟨hnil, hp, hi, hpos⟩ | ⟨pre, c, post, hsp, hi, hp⟩
  · subst hnil
    have hz : l = 0 := by
      rw [bytes_nil, List.length_nil] at hc
      omega
    subst hz
    unfold KBuffer.peekLoop
    simp
  · have hlink := (seg_append.mp (hsp ▸ h.linked)).2
    have hnd : (addrs (c :: post)).Nodup := by
      have hall := h.nodup
      rw [hsp, addrs, List.map_append] at hall
      exact (List.nodup_append.mp hall).2.1
    have hsize : (bytes chain).length = ri * BLOCK_SIZE + (bytes (c :: post)).length := by
      rw [hsp, bytes_append, List.length_append, length_bytes pre, hi]
    have hbytes : (bytes chain).drop s.usedSize_ =
        (bytes (c :: post)).drop s.readablePos_ := by
      rw [← hu, hsp, bytes_append, ← hi, ← length_bytes pre, List.drop_length_add_append]
    have hpost : (c :: post).length ≤ chain.length := by
      rw [hsp, List.length_append]
      omega
    rw [peekLoop_head hlink hnd hp (by omega) h.reader.pos_le (by omega), hbytes]

/-- `peek` copies the first unread bytes, as many as asked for and available. -/
theorem Layout.peek (h : Layout s chain ri wi gap) (k : ℕ) :
    s.peek k = .ok ((unread s chain).take k) := by
  unfold KBuffer.peek unread
  rw [List.take_take]
  by_cases hk : k > s.readableSize_
  · rw [if_pos hk, h.peekLoop le_rfl, Nat.min_eq_right hk.le]
  · rw [if_neg hk, h.peekLoop (by omega), Nat.min_eq_left (by omega)]

/-- The walk of `retrieve` beyond its first block stops in the block that
holds the final dropped byte. -/
theorem retrieveLoop_tail {p : Ptr} {xs : List (ℕ × Block)} (hs : Seg s.heap p xs none)
    (hr : ∀ a ∈ addrs xs, some a ≠ s.readstr_) {l fuel : ℕ} (hpos : 0 < l)
    (hl : l ≤ xs.length * BLOCK_SIZE) (hf : xs.length < fuel) :
    ∃ j, s.retrieveLoop fuel (firstPtr xs none) l = .ok ((addrs xs)[j]?, l - j * BLOCK_SIZE) ∧
      j < xs.length ∧ j * BLOCK_SIZE < l ∧ l ≤ (j + 1) * BLOCK_SIZE := by
  induction xs generalizing p l fuel with
  | nil =>
    simp only [List.length_nil] at hl
    omega
  | cons c xs ih =>
    obtain ⟨fuel, rfl⟩ : ∃ n, fuel = n + 1 := ⟨fuel - 1, by omega⟩
    unfold KBuffer.retrieveLoop
    rw [firstPtr_cons, if_neg (hr c.1 (by simp))]
    by_cases hb : l ≤ BLOCK_SIZE
    · refine ⟨0, ?_, by simp, by omega, by omega⟩
      rw [if_pos hb]
      simp
    · rw [if_neg hb, deref_some hs.1, ok_bind]
      obtain ⟨j, he, hj, hlo, hhi⟩ := ih hs.2 (fun a ha => hr a (by simp [ha]))
        (l := l - BLOCK_SIZE) (by omega)
        (by simp only [List.length_cons, BLOCK_SIZE] at hl ⊢; omega) (by simpa using hf)
      refine ⟨j + 1, ?_, by simpa using hj, ?_, ?_⟩
      · have hsub : l - BLOCK_SIZE - j * BLOCK_SIZE = l - (j + 1) * BLOCK_SIZE := by
          rw [Nat.succ_mul]
          omega
        rw [he, hsub]
        rfl
      · rw [Nat.succ_mul]
        omega
      · rw [Nat.succ_mul]
        omega

/-- Settling a cursor keeps its linear position and leaves it at the end of a
block only on the final block. -/
theorem settle_at (hs : Seg s.heap none chain none) {p : Ptr} {i pos : ℕ}
    (h : At (addrs chain) p i pos) :
    ∃ p' i' pos', s.settle p pos = .ok (p', pos') ∧ At (addrs chain) p' i' pos' ∧
      i' * BLOCK_SIZE + pos' = i * BLOCK_SIZE + pos ∧
      (pos' = BLOCK_SIZE → i' + 1 = chain.length) := by
  unfold KBuffer.settle
  by_cases hb : pos = BLOCK_SIZE
  · rw [if_pos hb]
    rcases h.split with ⟨_, _, _, hpos⟩ | ⟨pre, c, post, hsp, hi, hp⟩
    · rw [hpos] at hb
      exact absurd hb (by decide)
    · have hget := seg_get (hsp ▸ hs)
      rw [hp, deref_some hget, ok_bind]
      cases post with
      | nil =>
        refine ⟨some c.1, i, pos, by simp, hp ▸ h, rfl, fun _ => ?_⟩
        rw [hsp, List.length_append, hi]
        rfl
      | cons d post =>
        refine ⟨some d.1, i + 1, 0, by simp, ?_, ?_, fun hz => absurd hz (by decide)⟩
        · have hcut : chain = (pre ++ [c]) ++ d :: post := by simpa using hsp
          have hlen : (pre ++ [c]).length = i + 1 := by simp [hi]
          rw [hcut, ← hlen]
          exact At.of_split (Nat.zero_le _)
        · rw [Nat.succ_mul, hb]
          omega
  · rw [if_neg hb]
    exact ⟨p, i, pos, rfl, h, rfl, fun he => absurd he hb⟩

/-- The walk of `retrieve` stops `l` bytes behind the read cursor. -/
theorem Layout.retrieveWalk (h : Layout s chain ri wi gap) {l : ℕ} (hl : l ≤ s.readableSize_) :
    ∃ p i pos, s.retrieveWalk l = .ok (p, pos) ∧
      At (addrs chain) p i pos ∧ i * BLOCK_SIZE + pos = s.usedSize_ + l := by
  unfold KBuffer.retrieveWalk
  by_cases hz : l = 0
  · rw [if_pos hz, hz]
    exact ⟨_, ri, _, rfl, h.reader, h.used⟩
  rw [if_neg hz]
  have hin := h.in_chain
  have hu := h.used
  have hlen := h.length_le_heap
  rw [length_bytes] at hin
  rcases h.reader.split with ⟨hnil, _⟩ | ⟨pre, c, post, hsp, hi, hp⟩
  · subst hnil
    simp only [List.length_nil, Nat.zero_mul] at hin
    omega
  · have hlink := (seg_append.mp (hsp ▸ h.linked)).2
    have hbound := h.reader.pos_le
    have hsize : chain.length = ri + 1 + post.length := by
      rw [hsp, List.length_append, List.length_cons, hi]
      omega
    have hother : ∀ a ∈ addrs post, some a ≠ s.readstr_ := by
      intro a ha he
      have hall := h.nodup
      rw [hsp, addrs, List.map_append] at hall
      rw [hp, Option.some.injEq] at he
      exact (List.nodup_cons.mp (List.nodup_append.mp hall).2.1).1 (he ▸ ha)
    unfold KBuffer.retrieveLoop
    rw [if_pos rfl]
    by_cases hb : l ≤ BLOCK_SIZE - s.readablePos_
    · refine ⟨s.readstr_, ri, s.readablePos_ + l, by rw [if_pos hb], ?_, by omega⟩
      rw [hp, hsp, ← hi]
      exact At.of_split (by omega)
    · have hrest : l - (BLOCK_SIZE - s.readablePos_) ≤ post.length * BLOCK_SIZE := by
        rw [hsize, Nat.add_mul, Nat.succ_mul] at hin
        omega
      obtain ⟨j, he, hj, hlo, hhi⟩ := retrieveLoop_tail hlink.2 hother
        (by omega : 0 < l - (BLOCK_SIZE - s.readablePos_)) hrest
        (by omega : post.length < s.heap.length)
      refine ⟨(addrs post)[j]?, ri + 1 + j, l - (BLOCK_SIZE - s.readablePos_) - j * BLOCK_SIZE,
        ?_, ⟨?_, ?_, Or.inl ?_⟩, ?_⟩
      · rw [if_neg hb, hp, deref_some hlink.1, ok_bind, he]
      · simp only [hsp, addrs, List.map_append, List.map_cons]
        rw [List.getElem?_append_right (by rw [List.length_map]; omega), List.length_map, hi,
          show ri + 1 + j - ri = j + 1 by omega, List.getElem?_cons_succ]
      · rw [Nat.succ_mul] at hhi
        omega
      · rw [List.length_map, hsize]
        omega
      · rw [Nat.add_mul, Nat.succ_mul]
        omega

/-- What `retrieve` leaves alone and what it recounts. -/
structure Retrieved (s s' : KBuffer) (k : ℕ) : Prop where
  /-- The read position moves forward. -/
  usedSize : s'.usedSize_ = s.usedSize_ + min k s.readableSize_
  /-- By as much the unread size shrinks. -/
  readableSize : s'.readableSize_ = s.readableSize_ - min k s.readableSize_
  /-- The writable size stays. -/
  writableSize : s'.writableSize_ = s.writableSize_
  /-- The write offset stays. -/
  writablePos : s'.writablePos_ = s.writablePos_
  /-- The size of the chain stays. -/
  buflen : s'.buflen_ = s.buflen_

/-- Moving the read position forward drops the front of the unread bytes. -/
theorem Retrieved.unread {s s' : KBuffer} {k : ℕ} (h : Retrieved s s' k)
    (chain : List (ℕ × Block)) : unread s' chain = (unread s chain).drop k := by
  unfold BlockLayout.unread
  rw [h.usedSize, h.readableSize, List.drop_take, List.drop_drop]
  by_cases hk : k ≤ s.readableSize_
  · rw [Nat.min_eq_left hk]
  · rw [Nat.min_eq_right (by omega), Nat.sub_self, Nat.sub_eq_zero_of_le (by omega),
      List.take_zero, List.take_zero]

/-- `retrieve` moves the read cursor forward by as many unread bytes as asked
for and available, and settles it. -/
theorem Layout.retrieve (h : Layout s chain ri wi gap) (k : ℕ) :
    ∃ s' i, s.retrieve k = .ok s' ∧ Layout s' chain i wi gap ∧ Retrieved s s' k ∧
      (s'.readablePos_ = BLOCK_SIZE → i + 1 = chain.length) := by
  have hclamp : (if k > s.readableSize_ then s.readableSize_ else k) = min k s.readableSize_ := by
    split <;> omega
  obtain ⟨p₀, i₀, pos₀, he₀, hat₀, hlin₀⟩ := h.retrieveWalk (Nat.min_le_right k s.readableSize_)
  obtain ⟨p, i, pos, he, hat, hlin, hend⟩ := settle_at h.linked hat₀
  refine ⟨{ s with
      readableSize_ := s.readableSize_ - min k s.readableSize_
      usedSize_ := s.usedSize_ + min k s.readableSize_
      readstr_ := p
      readablePos_ := pos }, i, ?_, ?_, ⟨rfl, rfl, rfl, rfl, rfl⟩, hend⟩
  · unfold KBuffer.retrieve
    simp only [hclamp, pure_eq_ok, he₀, ok_bind, he]
  · have hw := h.written
    have ht := h.total
    have hm := Nat.min_le_right k s.readableSize_
    exact { linked := h.linked, nodup := h.nodup, head := h.head, tail := h.tail
            reader := hat, writer := h.writer, used := hlin.trans hlin₀
            written := by dsimp only; omega, total := by dsimp only; omega, size := h.size }

/-- Copying into a block of the chain changes that block only. -/
theorem memcpyTo_chain {pre post : List (ℕ × Block)} {c : ℕ × Block} (off : ℕ) (data : List UInt8)
    (hs : Seg s.heap none (pre ++ c :: post) none) (hd : (addrs (pre ++ c :: post)).Nodup)
    (hfit : off + data.length ≤ BLOCK_SIZE) :
    ∃ h', s.memcpyTo (some c.1) off data = .ok { s with heap := h' } ∧
      Seg h' none (pre ++ (c.1, c.2.copy off data) :: post) none ∧ h'.length = s.heap.length := by
  have hlt : c.1 < s.heap.length := seg_lt hs c.1 (by simp)
  refine ⟨_, ?_, seg_setVal hs hd, by simp⟩
  unfold KBuffer.memcpyTo
  rw [deref_some (seg_get hs), ok_bind, if_pos hfit, setVal, modifyAt_some hlt]
  rfl

/-- There is nothing to copy to behind the null pointer. -/
@[simp] theorem memcpyTo_none (s : KBuffer) (off : ℕ) (data : List UInt8) :
    s.memcpyTo none off data = .error .nullBlock := rfl

/-- The write walk beyond its first block overwrites the following blocks
from their start, when they have the room. -/
theorem doWriteLoop_tail (buf : List UInt8) {pre post : List (ℕ × Block)}
    (hs : Seg s.heap none (pre ++ post) none) (hd : (addrs (pre ++ post)).Nodup)
    (hw : ∀ a ∈ addrs post, some a ≠ s.writestr_) {l fuel : ℕ} (hl : l < buf.length)
    (hfit : buf.length - l ≤ post.length * BLOCK_SIZE) (hf : post.length < fuel) :
    ∃ h' post' j, KBuffer.doWriteLoop buf fuel s (firstPtr post none) l =
        .ok ({ s with heap := h', writablePos_ := buf.length - l - j * BLOCK_SIZE },
          (addrs post)[j]?) ∧
      j < post.length ∧ j * BLOCK_SIZE < buf.length - l ∧
      buf.length - l ≤ (j + 1) * BLOCK_SIZE ∧
      Seg h' none (pre ++ post') none ∧ addrs post' = addrs post ∧
      bytes post' = overlay (bytes post) 0 (buf.drop l) := by
  induction post generalizing s pre l fuel with
  | nil =>
    simp only [List.length_nil, Nat.zero_mul] at hfit
    omega
  | cons c post ih =>
    have hc := c.2.2
    obtain ⟨fuel, rfl⟩ : ∃ n, fuel = n + 1 := ⟨fuel - 1, by omega⟩
    unfold KBuffer.doWriteLoop
    rw [if_pos hl, firstPtr_cons]
    dsimp only
    rw [if_neg (hw c.1 (by simp))]
    by_cases hb : buf.length - l ≤ BLOCK_SIZE
    · have hdata : (buf.drop l).take (buf.length - l) = buf.drop l :=
        List.take_of_length_le (by rw [List.length_drop])
      obtain ⟨h', he, hs', _⟩ := memcpyTo_chain 0 (buf.drop l) hs hd
        (by rw [List.length_drop]; omega)
      refine ⟨h', (c.1, c.2.copy 0 (buf.drop l)) :: post, 0, ?_, by simp, by omega, by omega, hs',
        rfl, ?_⟩
      · rw [if_pos hb, hdata, he, ok_bind]
        simp
      · rw [bytes_cons, bytes_cons, overlay_append_left _ (by rw [List.length_drop]; omega)]
        rfl
    · have hlen : ((buf.drop l).take BLOCK_SIZE).length = BLOCK_SIZE := by
        rw [List.length_take, List.length_drop]
        omega
      obtain ⟨h₁, he, hs₁, _⟩ := memcpyTo_chain 0 ((buf.drop l).take BLOCK_SIZE)
        hs hd (by omega)
      have hcut : pre ++ (c.1, c.2.copy 0 ((buf.drop l).take BLOCK_SIZE)) :: post =
          (pre ++ [(c.1, c.2.copy 0 ((buf.drop l).take BLOCK_SIZE))]) ++ post := by simp
      obtain ⟨h', post', j, he', hj, hlo, hhi, hs', ha', hb'⟩ :=
        ih (s := { s with heap := h₁ }) (l := l + BLOCK_SIZE) (hcut ▸ hs₁)
          (by simpa [addrs] using hd) (fun a ha => hw a (by simp [ha])) (by omega)
          (by rw [List.length_cons, Nat.succ_mul] at hfit; omega) (by simpa using hf)
      have hnext := deref_some (s := { s with heap := h₁ }) (seg_get hs₁)
      refine ⟨h', (c.1, c.2.copy 0 ((buf.drop l).take BLOCK_SIZE)) :: post', j + 1, ?_,
        by simpa using hj, by rw [Nat.succ_mul]; omega, by rw [Nat.succ_mul]; omega,
        by simpa using hs', by simp [ha'], ?_⟩
      · rw [if_neg hb, he, ok_bind, hnext, ok_bind, he']
        rw [show buf.length - (l + BLOCK_SIZE) - j * BLOCK_SIZE =
          buf.length - l - (j + 1) * BLOCK_SIZE by rw [Nat.succ_mul]; omega]
        rfl
      · rw [bytes_cons, bytes_cons, hb', overlay_append_cross _ (Nat.zero_le _)
          (by rw [List.length_drop]; omega), Nat.sub_zero, hc, List.drop_drop]
        rfl

/-- Without the room the write walk follows a null link. -/
theorem doWriteLoop_tail_null {buf : List UInt8} {pre post : List (ℕ × Block)}
    (hs : Seg s.heap none (pre ++ post) none) (hd : (addrs (pre ++ post)).Nodup)
    (hw : ∀ a ∈ addrs post, some a ≠ s.writestr_) {l fuel : ℕ}
    (hover : post.length * BLOCK_SIZE < buf.length - l) (hf : post.length < fuel) :
    KBuffer.doWriteLoop buf fuel s (firstPtr post none) l = .error .nullBlock := by
  induction post generalizing s pre l fuel with
  | nil =>
    obtain ⟨fuel, rfl⟩ : ∃ n, fuel = n + 1 := ⟨fuel - 1, by omega⟩
    unfold KBuffer.doWriteLoop
    rw [if_pos (by omega), firstPtr_nil]
    dsimp only
    simp only [memcpyTo_none, error_bind, ite_self]
  | cons c post ih =>
    obtain ⟨fuel, rfl⟩ : ∃ n, fuel = n + 1 := ⟨fuel - 1, by omega⟩
    rw [List.length_cons, Nat.succ_mul] at hover
    unfold KBuffer.doWriteLoop
    rw [if_pos (by omega), firstPtr_cons]
    dsimp only
    rw [if_neg (hw c.1 (by simp)), if_neg (by omega)]
    obtain ⟨h₁, he, hs₁, _⟩ := memcpyTo_chain 0 ((buf.drop l).take BLOCK_SIZE)
      hs hd (by rw [List.length_take]; omega)
    have hcut : pre ++ (c.1, c.2.copy 0 ((buf.drop l).take BLOCK_SIZE)) :: post =
        (pre ++ [(c.1, c.2.copy 0 ((buf.drop l).take BLOCK_SIZE))]) ++ post := by simp
    rw [he, ok_bind, deref_some (s := { s with heap := h₁ }) (seg_get hs₁), ok_bind]
    exact ih (s := { s with heap := h₁ }) (hcut ▸ hs₁) (by simpa [addrs] using hd)
      (fun a ha => hw a (by simp [ha])) (by omega) (by simpa using hf)

/-- No block behind the block of the write cursor is that block. -/
theorem Layout.writer_other (h : Layout s chain ri wi gap) {pre post : List (ℕ × Block)}
    {c : ℕ × Block} (hsp : chain = pre ++ c :: post) (hp : s.writestr_ = some c.1) :
    ∀ a ∈ addrs post, some a ≠ s.writestr_ := by
  intro a ha he
  have hall := h.nodup
  rw [hsp, addrs, List.map_append] at hall
  rw [hp, Option.some.injEq] at he
  exact (List.nodup_cons.mp (List.nodup_append.mp hall).2.1).1 (he ▸ ha)

/-- The write walk ends at a block of the chain, with the bytes behind the write cursor
overwritten. -/
def Overwrites (s : KBuffer) (chain : List (ℕ × Block)) (wi : ℕ) (buf : List UInt8) : Prop :=
  ∃ h' chain' p i pos, KBuffer.doWriteLoop buf (s.heap.length + 1) s s.writestr_ 0 =
      .ok ({ s with heap := h', writablePos_ := pos }, p) ∧
    Seg h' none chain' none ∧ addrs chain' = addrs chain ∧ At (addrs chain) p i pos ∧
    i * BLOCK_SIZE + pos = wi * BLOCK_SIZE + s.writablePos_ + buf.length ∧
    bytes chain' = overlay (bytes chain) (wi * BLOCK_SIZE + s.writablePos_) buf

/-- The write cursor is this far into the bytes. -/
theorem offset_of_split {pre : List (ℕ × Block)} (hi : pre.length = wi) (pos : ℕ) :
    wi * BLOCK_SIZE + pos = (bytes pre).length + pos := by
  rw [length_bytes, hi]

/-- The data ends in the block of the write cursor. -/
theorem Layout.doWriteLoop_within (h : Layout s chain ri wi gap) {buf : List UInt8}
    {pre post : List (ℕ × Block)} {c : ℕ × Block} (hsp : chain = pre ++ c :: post)
    (hi : pre.length = wi) (hp : s.writestr_ = some c.1) (hne : buf.length ≠ 0)
    (hb : buf.length ≤ BLOCK_SIZE - s.writablePos_) : Overwrites s chain wi buf := by
  have hc := c.2.2
  have hs := hsp ▸ h.linked
  have hd : (addrs (pre ++ c :: post)).Nodup := hsp ▸ h.nodup
  have hbound := h.writer.pos_le
  obtain ⟨h', he, hs', _⟩ := memcpyTo_chain s.writablePos_ buf hs hd (by omega)
  rw [← hp] at he
  refine ⟨h', _, some c.1, wi, s.writablePos_ + buf.length, ?_, hs', ?_, ?_, by omega, ?_⟩
  · unfold KBuffer.doWriteLoop
    rw [if_pos (by omega)]
    dsimp only
    rw [if_pos rfl, Nat.sub_zero, if_pos hb, List.drop_zero, List.take_length, he, ok_bind]
    simp only [pure_eq_ok, hp]
  · rw [hsp]
    simp
  · rw [hsp, ← hi]
    exact At.of_split (by omega)
  · rw [offset_of_split hi, hsp, bytes_append, bytes_append, bytes_cons, bytes_cons,
      overlay_append_right, overlay_append_left _ (by omega)]
    rfl

/-- The block of the write cursor is filled, and the walk goes on behind it. -/
theorem Layout.doWriteLoop_beyond (h : Layout s chain ri wi gap) {buf : List UInt8}
    {pre post : List (ℕ × Block)} {c : ℕ × Block} (hsp : chain = pre ++ c :: post)
    (hi : pre.length = wi) (hp : s.writestr_ = some c.1)
    (hb : ¬buf.length ≤ BLOCK_SIZE - s.writablePos_)
    (hfit : wi * BLOCK_SIZE + s.writablePos_ + buf.length ≤ chain.length * BLOCK_SIZE) :
    Overwrites s chain wi buf := by
  have hlen := h.length_le_heap
  have hbound := h.writer.pos_le
  have hc := c.2.2
  have hs := hsp ▸ h.linked
  have hd : (addrs (pre ++ c :: post)).Nodup := hsp ▸ h.nodup
  have htake : (buf.take (BLOCK_SIZE - s.writablePos_)).length = BLOCK_SIZE - s.writablePos_ := by
    rw [List.length_take]
    omega
  obtain ⟨h₁, he, hs₁, _⟩ := memcpyTo_chain s.writablePos_
    (buf.take (BLOCK_SIZE - s.writablePos_)) hs hd (by omega)
  have hcut : pre ++ (c.1, c.2.copy s.writablePos_ (buf.take (BLOCK_SIZE - s.writablePos_))) :: post =
      (pre ++ [(c.1, c.2.copy s.writablePos_ (buf.take (BLOCK_SIZE - s.writablePos_)))]) ++ post := by
    simp
  have hget := seg_get hs₁
  have hnext := (congrArg (KBuffer.deref { s with heap := h₁ }) hp).trans
    (deref_some (s := { s with heap := h₁ }) hget)
  rw [← hp] at he
  have hsize : chain.length = wi + 1 + post.length := by
    rw [hsp, List.length_append, List.length_cons, hi]
    omega
  rw [hsize, Nat.add_mul, Nat.succ_mul] at hfit
  obtain ⟨h', post', j, he', hj, hlo, hhi, hs', ha', hb'⟩ :=
    doWriteLoop_tail buf (s := { s with heap := h₁ }) (l := BLOCK_SIZE - s.writablePos_)
      (hcut ▸ hs₁) (by simpa [addrs] using hd) (h.writer_other hsp hp) (by omega) (by omega)
      (by omega : post.length < s.heap.length)
  refine ⟨h', _, (addrs post)[j]?, wi + 1 + j,
    buf.length - (BLOCK_SIZE - s.writablePos_) - j * BLOCK_SIZE, ?_, hs', ?_,
    ⟨?_, by rw [Nat.succ_mul] at hhi; omega, Or.inl (by rw [List.length_map]; omega)⟩, ?_, ?_⟩
  · unfold KBuffer.doWriteLoop
    rw [if_pos (by omega)]
    dsimp only
    rw [if_pos rfl, Nat.sub_zero, if_neg hb, List.drop_zero, he, ok_bind, hnext, ok_bind,
      Nat.zero_add, he']
  · rw [hsp]
    simp [ha']
  · simp only [hsp, addrs, List.map_append, List.map_cons]
    rw [List.getElem?_append_right (by rw [List.length_map]; omega), List.length_map, hi,
      show wi + 1 + j - wi = j + 1 by omega, List.getElem?_cons_succ]
  · rw [Nat.add_mul, Nat.succ_mul]
    omega
  · rw [offset_of_split hi, hsp, bytes_append, bytes_append, bytes_append, bytes_cons, bytes_cons,
      overlay_append_right, overlay_append_cross _ (by omega) (by omega), hb', hc,
      List.append_assoc]
    simp only [bytes_nil, List.append_nil]
    rfl

/-- The write walk overwrites the bytes behind the write cursor, when the
chain has the room. -/
theorem Layout.doWriteLoop (h : Layout s chain ri wi gap) (buf : List UInt8)
    (hfit : wi * BLOCK_SIZE + s.writablePos_ + buf.length ≤ chain.length * BLOCK_SIZE) :
    Overwrites s chain wi buf := by
  by_cases hz : buf.length = 0
  · have hnil : buf = [] := List.eq_nil_of_length_eq_zero hz
    subst hnil
    refine ⟨s.heap, chain, s.writestr_, wi, s.writablePos_, ?_, h.linked, rfl, h.writer, ?_, ?_⟩
    · unfold KBuffer.doWriteLoop
      rw [if_neg (by simp)]
    · rw [List.length_nil, Nat.add_zero]
    · rw [overlay_nil]
  rcases h.writer.split with ⟨hnil, _⟩ | ⟨pre, c, post, hsp, hi, hp⟩
  · subst hnil
    simp only [List.length_nil, Nat.zero_mul] at hfit
    omega
  · by_cases hb : buf.length ≤ BLOCK_SIZE - s.writablePos_
    · exact h.doWriteLoop_within hsp hi hp hz hb
    · exact h.doWriteLoop_beyond hsp hi hp hb hfit

/-- Without the room the write walk follows a null link. -/
theorem Layout.doWriteLoop_null (h : Layout s chain ri wi gap) {buf : List UInt8}
    (hover : chain.length * BLOCK_SIZE < wi * BLOCK_SIZE + s.writablePos_ + buf.length) :
    KBuffer.doWriteLoop buf (s.heap.length + 1) s s.writestr_ 0 = .error .nullBlock := by
  have hlen := h.length_le_heap
  have hbound := h.writer.pos_le
  have hlin := h.writer.linear_le
  unfold KBuffer.doWriteLoop
  rw [if_pos (by omega)]
  dsimp only
  rw [if_pos rfl]
  rcases h.writer.split with ⟨_, hp, _⟩ | ⟨pre, c, post, hsp, hi, hp⟩
  · rw [hp]
    simp only [memcpyTo_none, error_bind, ite_self]
  · have hs := hsp ▸ h.linked
    have hd : (addrs (pre ++ c :: post)).Nodup := hsp ▸ h.nodup
    have hsize : chain.length = wi + 1 + post.length := by
      rw [hsp, List.length_append, List.length_cons, hi]
      omega
    rw [hsize, Nat.add_mul, Nat.succ_mul] at hover
    rw [if_neg (by omega), hp, List.drop_zero]
    obtain ⟨h₁, he, hs₁, _⟩ := memcpyTo_chain s.writablePos_
      (buf.take (BLOCK_SIZE - s.writablePos_)) hs hd (by rw [List.length_take]; omega)
    have hcut : pre ++ (c.1, c.2.copy s.writablePos_ (buf.take (BLOCK_SIZE - s.writablePos_))) :: post =
        (pre ++ [(c.1, c.2.copy s.writablePos_ (buf.take (BLOCK_SIZE - s.writablePos_)))]) ++ post := by
      simp
    rw [he, ok_bind, deref_some (s := { s with heap := h₁ }) (seg_get hs₁), ok_bind, Nat.zero_add]
    exact doWriteLoop_tail_null (s := { s with heap := h₁ }) (hcut ▸ hs₁)
      (by simpa [addrs] using hd) (h.writer_other hsp hp) (by omega) (by omega)

/-- The layout survives a change of the bytes in the blocks of the chain. -/
theorem Layout.sameAddrs (h : Layout s chain ri wi gap) {h' : Heap Block}
    {chain' : List (ℕ × Block)} (hs : Seg h' none chain' none) (ha : addrs chain' = addrs chain) :
    Layout { s with heap := h' } chain' ri wi gap := by
  have hlen : chain'.length = chain.length := by
    have hl := congrArg List.length ha
    simpa only [List.length_map] using hl
  have hfirst : firstPtr chain' none = firstPtr chain none := by
    rw [firstPtr_eq, firstPtr_eq, ha]
  have hlast : lastPtr chain' none = lastPtr chain none := by
    rw [lastPtr_eq, lastPtr_eq, ha]
  exact { linked := hs, nodup := ha ▸ h.nodup, head := h.head.trans hfirst.symm
          tail := h.tail.trans hlast.symm, reader := ha ▸ h.reader, writer := ha ▸ h.writer
          used := h.used, written := h.written, total := h.total, size := hlen ▸ h.size }

/-- What `do_write` leaves alone and what it recounts. -/
structure Written (s s' : KBuffer) (n : ℕ) : Prop where
  /-- The read position stays. -/
  usedSize : s'.usedSize_ = s.usedSize_
  /-- The read offset stays. -/
  readablePos : s'.readablePos_ = s.readablePos_
  /-- The new bytes are unread. -/
  readableSize : s'.readableSize_ = s.readableSize_ + n
  /-- They take room. -/
  writableSize : s'.writableSize_ = s.writableSize_ - n
  /-- The size of the chain stays. -/
  buflen : s'.buflen_ = s.buflen_

/-- `do_write` with enough room overwrites the bytes behind the write cursor,
advances it by the data and settles it. -/
theorem Layout.doWrite_bytes (h : Layout s chain ri wi gap) (buf : List UInt8)
    (hfit : gap + buf.length ≤ s.writableSize_) :
    ∃ s' chain' i, s.doWrite buf = .ok s' ∧ Layout s' chain' ri i gap ∧
      Written s s' buf.length ∧ addrs chain' = addrs chain ∧
      (s'.writablePos_ = BLOCK_SIZE → i + 1 = chain'.length) ∧
      bytes chain' = overlay (bytes chain) (s.usedSize_ + s.readableSize_ + gap) buf := by
  have hroom := h.room
  have hw := h.written
  have ht := h.total
  obtain ⟨h', chain', p₀, i₀, pos₀, he₀, hs', ha', hat₀, hlin₀, hb'⟩ :=
    h.doWriteLoop buf (by omega)
  obtain ⟨p, i, pos, he, hat, hlin, hend⟩ :=
    settle_at (s := { s with heap := h', writablePos_ := pos₀ }) hs' (ha' ▸ hat₀)
  refine ⟨{ s with
      heap := h'
      readableSize_ := s.readableSize_ + buf.length
      writableSize_ := s.writableSize_ - buf.length
      writestr_ := p
      writablePos_ := pos }, chain', i, ?_, ?_, ⟨rfl, rfl, rfl, rfl, rfl⟩, ha', hend, hw ▸ hb'⟩
  · unfold KBuffer.doWrite
    rw [he₀, ok_bind]
    dsimp only
    rw [he, ok_bind]
    rfl
  · have hsame := h.sameAddrs hs' ha'
    exact { linked := hs', nodup := hsame.nodup, head := hsame.head, tail := hsame.tail
            reader := hsame.reader, writer := hat, used := h.used, written := by dsimp only; omega
            total := by dsimp only; omega, size := hsame.size }

/-- Without a gap the data written follows the unread bytes. -/
theorem Layout.doWrite (h : Layout s chain ri wi gap) (buf : List UInt8)
    (hfit : gap + buf.length ≤ s.writableSize_) :
    ∃ s' chain' i, s.doWrite buf = .ok s' ∧ Layout s' chain' ri i gap ∧
      Written s s' buf.length ∧ chain'.length = chain.length ∧
      (s'.writablePos_ = BLOCK_SIZE → i + 1 = chain'.length) ∧
      (gap = 0 → unread s' chain' = unread s chain ++ buf) := by
  have ht := h.total
  have hz := h.size
  obtain ⟨s', chain', i, he, hl, hwrote, ha, hend, hb⟩ := h.doWrite_bytes buf hfit
  have hlen := congrArg List.length ha
  simp only [List.length_map] at hlen
  refine ⟨s', chain', i, he, hl, hwrote, hlen, hend, fun hgap => ?_⟩
  have hin : s.usedSize_ + s.readableSize_ + buf.length ≤ (bytes chain).length := by
    rw [length_bytes]
    omega
  unfold unread
  rw [hb, hgap, Nat.add_zero, hwrote.usedSize, hwrote.readableSize]
  exact window_overlay hin

/-- `do_write` without the room follows a null block pointer. -/
theorem Layout.doWrite_null (h : Layout s chain ri wi gap) {buf : List UInt8}
    (hover : s.writableSize_ < gap + buf.length) : s.doWrite buf = .error .nullBlock := by
  have hroom := h.room
  unfold KBuffer.doWrite
  rw [h.doWriteLoop_null (by omega), error_bind]

/-- The read cursor is in the head block exactly when its index is zero. -/
theorem Layout.readstr_eq_head (h : Layout s chain ri wi gap) : s.readstr_ = s.head_ ↔ ri = 0 := by
  rw [h.reader.ptr, h.head, firstPtr_eq]
  constructor
  · intro he
    rcases h.reader.inside with hi | ⟨_, hi, _⟩
    · exact (List.getElem?_inj hi h.nodup).mp he
    · exact hi
  · intro hi
    rw [hi]

/-- A cursor keeps its block when the front part of the chain goes behind the
rest. -/
theorem At.rotate {pre post : List (ℕ × Block)} {p : Ptr} {i pos : ℕ}
    (h : At (addrs (pre ++ post)) p i pos) (hpost : post ≠ []) :
    At (addrs (post ++ pre)) p (if pre.length ≤ i then i - pre.length else i + post.length) pos where
  ptr := by
    rw [h.ptr]
    simp only [addrs, List.map_append]
    split
    · rw [List.getElem?_append_right (by rwa [List.length_map]), List.length_map]
      rcases h.inside with hi | ⟨hnil, _⟩
      · rw [List.length_map, List.length_append] at hi
        rw [List.getElem?_append_left (by rw [List.length_map]; omega)]
      · rw [List.map_eq_nil_iff, List.append_eq_nil_iff] at hnil
        exact absurd hnil.2 hpost
    · rw [List.getElem?_append_left (by rw [List.length_map]; omega),
        List.getElem?_append_right (by rw [List.length_map]; omega), List.length_map,
        Nat.add_sub_cancel]
  pos_le := h.pos_le
  inside := by
    rcases h.inside with hi | ⟨hnil, _⟩
    · rw [List.length_map, List.length_append] at hi
      refine Or.inl ?_
      rw [List.length_map, List.length_append]
      split <;> omega
    · rw [List.map_eq_nil_iff, List.append_eq_nil_iff] at hnil
      exact absurd hnil.2 hpost

/-- What `move_head` leaves alone and what it recounts. -/
structure Moved (s s' : KBuffer) : Prop where
  /-- The read offset stays. -/
  readablePos : s'.readablePos_ = s.readablePos_
  /-- The unread size stays. -/
  readableSize : s'.readableSize_ = s.readableSize_
  /-- The blocks before the read cursor become writable. -/
  writableSize : s'.writableSize_ = s.writableSize_ + (s.usedSize_ - s.readablePos_)
  /-- The read cursor is in the head block now. -/
  usedSize : s'.usedSize_ = s.readablePos_
  /-- The size of the chain stays. -/
  buflen : s'.buflen_ = s.buflen_

/-- A write cursor before the block of the read cursor is at the end of the
block just before it, and nothing is unread. -/
theorem Layout.overtaken (h : Layout s chain ri wi gap) (hlt : wi < ri) :
    wi + 1 = ri ∧ s.writablePos_ = BLOCK_SIZE ∧ s.readablePos_ = 0 ∧ s.readableSize_ = 0 ∧ gap = 0 := by
  have hu := h.used
  have hw := h.written
  have hp := h.writer.pos_le
  obtain ⟨d, rfl⟩ : ∃ d, ri = wi + 1 + d := ⟨ri - wi - 1, by omega⟩
  rw [Nat.add_mul, Nat.succ_mul] at hu
  have hd : d * BLOCK_SIZE = 0 := by omega
  have hz : d = 0 := by
    rcases Nat.mul_eq_zero.mp hd with hz | hz
    · exact hz
    · exact absurd hz (by decide)
  omega

/-- A read cursor behind the head block is in the chain. -/
theorem Layout.reader_lt (h : Layout s chain ri wi gap) (hri : ri ≠ 0) : ri < chain.length := by
  rcases h.reader.inside with hi | ⟨_, hi, _⟩
  · rwa [List.length_map] at hi
  · exact absurd hi hri

/-- `move_head` with the read cursor behind the head block. -/
theorem Layout.moveHead_rotate (h : Layout s chain ri wi gap) (hri : ri ≠ 0) :
    ∃ s' wi' gap', s.moveHead = .ok s' ∧
      Layout s' (chain.drop ri ++ chain.take ri) 0 wi' gap' ∧ Moved s s' ∧
      (ri ≤ wi → wi' = wi - ri ∧ gap' = gap) ∧ (wi < ri → gap' = chain.length * BLOCK_SIZE) := by
  have hne : s.readstr_ ≠ s.head_ := fun he => hri (h.readstr_eq_head.mp he)
  have hu := h.used
  have hw := h.written
  have ht := h.total
  rcases h.reader.split with ⟨_, _, hz, _⟩ | ⟨pre, c, post, hsp, hi, hp⟩
  · exact absurd hz hri
  · have hdrop : chain.drop ri = c :: post := by rw [hsp, ← hi, List.drop_left]
    have htake : chain.take ri = pre := by rw [hsp, ← hi, List.take_left]
    have hpre : pre ≠ [] := by
      intro hnil
      rw [hnil] at hi
      exact hri hi.symm
    have hs := hsp ▸ h.linked
    have hd : (addrs (pre ++ c :: post)).Nodup := hsp ▸ h.nodup
    obtain ⟨h₁, h₂, h₃, h₄, e₁, e₂, e₃, e₄, hs', _⟩ := seg_rotate hs hd hpre (by simp)
    have hhead : s.head_ = firstPtr pre none := by
      rw [h.head, hsp, firstPtr_append]
      cases pre with
      | nil => exact absurd rfl hpre
      | cons d pre => rfl
    have htail : s.tail_ = lastPtr (c :: post) none := by
      rw [h.tail, hsp, lastPtr_append]
      rfl
    have hread := (congrArg s.deref hp).trans (deref_some (seg_get hs))
    rw [firstPtr_cons, ← hp] at e₂
    rw [← hhead, ← htail] at e₃ e₄
    refine ⟨{ s with
        heap := h₄
        tail_ := lastPtr pre none
        head_ := s.readstr_
        writableSize_ := s.writableSize_ + (s.usedSize_ - s.readablePos_)
        usedSize_ := s.readablePos_ },
      if ri ≤ wi then wi - ri else wi + (c :: post).length,
      if ri ≤ wi then gap else chain.length * BLOCK_SIZE, ?_, ?_,
      ⟨rfl, rfl, rfl, rfl, rfl⟩, fun hle => ⟨if_pos hle, if_pos hle⟩,
      fun hlt => if_neg (by omega)⟩
    · unfold KBuffer.moveHead
      rw [if_pos hne, hread, ok_bind]
      dsimp only
      simp only [e₁, e₂, e₃, e₄, KBuffer.orNull, ok_bind, pure_eq_ok]
    · rw [hdrop, htake]
      have hlen : chain.length = ri + (c :: post).length := by
        rw [hsp, List.length_append, hi]
      have hreader := (hsp ▸ h.reader).rotate (by simp : c :: post ≠ [])
      have hwriter := (hsp ▸ h.writer).rotate (by simp : c :: post ≠ [])
      rw [hi] at hreader hwriter
      rw [if_pos le_rfl, Nat.sub_self] at hreader
      refine { linked := hs', nodup := ?_, head := hp, tail := ?_, reader := hreader
               writer := hwriter, used := by simp, written := ?_, total := by dsimp only; omega
               size := ?_ }
      · have hperm : (pre ++ c :: post).Perm (c :: post ++ pre) := List.perm_append_comm
        exact (hperm.map Prod.fst).nodup_iff.mp hd
      · rw [lastPtr_append]
        cases pre with
        | nil => exact absurd rfl hpre
        | cons d pre => rfl
      · dsimp only
        by_cases hle : ri ≤ wi
        · rw [if_pos hle, if_pos hle, Nat.sub_mul]
          have hmul := Nat.mul_le_mul_right BLOCK_SIZE hle
          omega
        · obtain ⟨hnext, hpos, hrp, hrs, hg⟩ := h.overtaken (by omega)
          rw [if_neg hle, if_neg hle, hlen, ← hnext, Nat.add_mul, Nat.add_mul, Nat.succ_mul]
          omega
      · dsimp only
        rw [h.size, hlen, List.length_append, hi, Nat.add_comm]

/-- Moving the head keeps the unread bytes. -/
theorem Layout.unread_rotate (h : Layout s chain ri wi gap) {s' : KBuffer} (hm : Moved s s') :
    unread s' (chain.drop ri ++ chain.take ri) = unread s chain := by
  have hc := h.in_chain
  have hu := h.used
  have hr := h.reader.linear_le
  have hsplit : bytes chain = bytes (chain.take ri) ++ bytes (chain.drop ri) := by
    rw [← bytes_append, List.take_append_drop]
  have htake : (bytes (chain.take ri)).length = ri * BLOCK_SIZE := by
    rw [length_bytes, List.length_take]
    rcases h.reader.inside with hi | ⟨_, hi, _⟩
    · rw [List.length_map] at hi
      rw [Nat.min_eq_left hi.le]
    · rw [hi, Nat.zero_min]
  rw [hsplit, List.length_append, htake] at hc
  unfold unread
  rw [hm.usedSize, hm.readableSize, bytes_append, hsplit, ← hu, ← htake, List.drop_length_add_append,
    List.drop_append_of_le_length (by omega),
    List.take_append_of_le_length (by rw [List.length_drop]; omega)]

/-- `move_head` puts the read cursor into the head block and keeps the unread
bytes. The write cursor keeps its place unless it was overtaken. -/
theorem Layout.moveHead (h : Layout s chain ri wi gap) :
    ∃ s' chain' wi' gap', s.moveHead = .ok s' ∧ Layout s' chain' 0 wi' gap' ∧ Moved s s' ∧
      unread s' chain' = unread s chain ∧ (ri ≤ wi → wi' = wi - ri ∧ gap' = gap) := by
  by_cases hri : ri = 0
  · have hu := h.used
    rw [hri, Nat.zero_mul, Nat.zero_add] at hu
    refine ⟨s, chain, wi, gap, ?_, hri ▸ h, ⟨rfl, rfl, by omega, hu.symm, rfl⟩, rfl,
      fun _ => ⟨by omega, rfl⟩⟩
    unfold KBuffer.moveHead
    rw [if_neg (not_not_intro (h.readstr_eq_head.mpr hri))]
    rfl
  · obtain ⟨s', wi', gap', he, hl, hm, hkeep, _⟩ := h.moveHead_rotate hri
    exact ⟨s', _, wi', gap', he, hl, hm, h.unread_rotate hm, hkeep⟩

/-- Appending a block to a nonempty chain. -/
theorem appendBlock_chain (hs : Seg s.heap none chain none) (hd : (addrs chain).Nodup)
    (hne : chain ≠ []) :
    ∃ h', s.appendBlock (lastPtr chain none) = .ok { s with heap := h' } ∧
      Seg h' none (chain ++ [(s.heap.length, Block.zero)]) none ∧
      (addrs (chain ++ [(s.heap.length, Block.zero)])).Nodup := by
  have hlast : lastPtr chain none ≠ none := by
    rw [lastPtr_eq]
    cases hc : (addrs chain).getLast? with
    | none => exact absurd (List.map_eq_nil_iff.mp (List.getLast?_eq_none_iff.mp hc)) hne
    | some a => simp
  obtain ⟨h', e, hs', _⟩ := seg_extend (v := Block.zero) hs hd hne
  have hfresh : s.heap.length ∉ addrs chain := fun hm => lt_irrefl _ (seg_lt hs _ hm)
  refine ⟨h', ?_, hs', ?_⟩
  · unfold KBuffer.appendBlock
    dsimp only
    rw [if_neg hlast, e]
    rfl
  · rw [addrs, List.map_append, List.nodup_append]
    refine ⟨hd, by simp, ?_⟩
    intro a ha b hb he
    rw [List.map_singleton, List.mem_singleton] at hb
    exact hfresh (by rwa [he, hb] at ha)

/-- The loop of `makeSpace` on a nonempty chain hangs zeroed blocks behind it,
just enough for `len` bytes. -/
theorem makeSpaceLoop_chain (hs : Seg s.heap none chain none) (hd : (addrs chain).Nodup)
    (hne : chain ≠ []) (len : ℕ) :
    ∃ h' extra, s.makeSpaceLoop (lastPtr chain none) len = .ok ({ s with
        heap := h'
        buflen_ := s.buflen_ + extra.length * BLOCK_SIZE
        writableSize_ := s.writableSize_ + extra.length * BLOCK_SIZE },
        lastPtr (chain ++ extra) none) ∧
      Seg h' none (chain ++ extra) none ∧ (addrs (chain ++ extra)).Nodup ∧
      len ≤ extra.length * BLOCK_SIZE ∧ extra.length * BLOCK_SIZE < len + BLOCK_SIZE := by
  induction len using Nat.strong_induction_on generalizing s chain with
  | _ len ih =>
    unfold KBuffer.makeSpaceLoop
    by_cases hz : len = 0
    · refine ⟨s.heap, [], ?_, by simpa using hs, by simpa using hd, by omega, ?_⟩
      · rw [dif_pos hz]
        simp
      · rw [hz]
        decide
    · obtain ⟨h₁, e₁, hs₁, hd₁⟩ := appendBlock_chain hs hd hne
      have hrest : (if len > BLOCK_SIZE then len - BLOCK_SIZE else 0) = len - BLOCK_SIZE := by
        split <;> omega
      have hless : len - BLOCK_SIZE < len := Nat.sub_lt (Nat.pos_of_ne_zero hz) (by decide)
      obtain ⟨h', extra, he, hs', hd', hlo, hhi⟩ := ih _ hless
        (s := { s with
          heap := h₁
          buflen_ := s.buflen_ + BLOCK_SIZE
          writableSize_ := s.writableSize_ + BLOCK_SIZE }) hs₁ hd₁ (by simp)
      refine ⟨h', (s.heap.length, Block.zero) :: extra, ?_, by simpa using hs', by simpa using hd',
        ?_, ?_⟩
      · rw [lastPtr_append, lastPtr_cons, lastPtr_nil, ← List.append_cons] at he
        rw [dif_neg hz, e₁, hrest, List.length_cons, Nat.succ_mul,
          Nat.add_comm (extra.length * BLOCK_SIZE), ← Nat.add_assoc, ← Nat.add_assoc]
        exact he
      · rw [List.length_cons, Nat.succ_mul]
        omega
      · rw [List.length_cons, Nat.succ_mul]
        by_cases hb : len ≤ BLOCK_SIZE
        · have hone : extra.length * BLOCK_SIZE < 1 * BLOCK_SIZE := by omega
          have hnil : extra.length = 0 := Nat.lt_one_iff.mp (Nat.lt_of_mul_lt_mul_right hone)
          rw [hnil]
          omega
        · omega

/-- A cursor keeps its block when the chain grows at its end. -/
theorem At.append {p : Ptr} {i pos : ℕ} (h : At (addrs chain) p i pos) (hne : chain ≠ [])
    (extra : List (ℕ × Block)) : At (addrs (chain ++ extra)) p i pos := by
  rcases h.inside with hi | ⟨hnil, _⟩
  · refine ⟨?_, h.pos_le, Or.inl ?_⟩
    · rw [h.ptr, addrs, addrs, List.map_append, List.getElem?_append_left hi]
    · simp only [List.length_map, List.length_append] at hi ⊢
      omega
  · exact absurd (List.map_eq_nil_iff.mp hnil) hne

/-- The forward link at a cursor leads to the next block of the chain. -/
theorem deref_at (hs : Seg s.heap none chain none) {p : Ptr} {i pos : ℕ}
    (h : At (addrs chain) p i pos) (hne : chain ≠ []) :
    ∃ b, s.deref p = .ok b ∧ b.next = (addrs chain)[i + 1]? := by
  rcases h.split with ⟨hnil, _⟩ | ⟨pre, c, post, hsp, hi, hp⟩
  · exact absurd hnil hne
  · refine ⟨_, (congrArg s.deref hp).trans (deref_some (seg_get (hsp ▸ hs))), ?_⟩
    simp only [hsp, addrs, List.map_append, List.map_cons, firstPtr_eq]
    rw [List.getElem?_append_right (by rw [List.length_map]; omega), List.length_map, hi,
      Nat.add_sub_cancel_left, List.getElem?_cons_succ]

/-- What `makeSpace` leaves alone and what it grows by `n` bytes. -/
structure Grown (s s' : KBuffer) (n : ℕ) : Prop where
  /-- The read offset stays. -/
  readablePos : s'.readablePos_ = s.readablePos_
  /-- The read position stays. -/
  usedSize : s'.usedSize_ = s.usedSize_
  /-- The unread size stays. -/
  readableSize : s'.readableSize_ = s.readableSize_
  /-- The new blocks are writable. -/
  writableSize : s'.writableSize_ = s.writableSize_ + n
  /-- The new blocks count. -/
  buflen : s'.buflen_ = s.buflen_ + n

/-- `make_space` on an empty chain: a head block, and the rest behind it. -/
theorem Layout.makeSpaceLoop_empty (h : Layout s [] ri wi gap) {len : ℕ} (hlen : 0 < len) :
    ∃ s' walk extra, s.makeSpaceLoop s.tail_ len = .ok (s', walk) ∧
      Layout { s' with tail_ := walk } extra ri wi gap ∧
      Grown s s' (extra.length * BLOCK_SIZE) ∧ s'.writablePos_ = s.writablePos_ ∧
      len ≤ extra.length * BLOCK_SIZE ∧ extra.length * BLOCK_SIZE < len + BLOCK_SIZE := by
  have hu := h.used
  have hw := h.written
  have ht := h.total
  have hz := h.size
  obtain ⟨hri, hrp⟩ : ri = 0 ∧ s.readablePos_ = 0 := by
    rcases h.reader.inside with hi | ⟨_, hi⟩
    · exact absurd hi (by simp)
    · exact hi
  obtain ⟨hwi, hwp⟩ : wi = 0 ∧ s.writablePos_ = 0 := by
    rcases h.writer.inside with hi | ⟨_, hi⟩
    · exact absurd hi (by simp)
    · exact hi
  have hs₁ : Seg (s.heap ++ [⟨Block.zero, none, none⟩]) none [(s.heap.length, Block.zero)] none :=
    ⟨by simp, trivial⟩
  obtain ⟨h', extra, he, hs', hd', hlo, hhi⟩ := makeSpaceLoop_chain
    (s := { s with
      heap := s.heap ++ [⟨Block.zero, none, none⟩]
      head_ := some s.heap.length
      writestr_ := some s.heap.length
      readstr_ := some s.heap.length
      buflen_ := s.buflen_ + BLOCK_SIZE
      writableSize_ := s.writableSize_ + BLOCK_SIZE })
    hs₁ (by simp) (by simp) (len - BLOCK_SIZE)
  have hrest : (if len > BLOCK_SIZE then len - BLOCK_SIZE else 0) = len - BLOCK_SIZE := by
    split <;> omega
  have hcount : ((s.heap.length, Block.zero) :: extra).length * BLOCK_SIZE =
      extra.length * BLOCK_SIZE + BLOCK_SIZE := by
    rw [List.length_cons, Nat.succ_mul]
  rw [List.length_nil, Nat.zero_mul] at hz
  refine ⟨{ s with
      heap := h'
      head_ := some s.heap.length
      writestr_ := some s.heap.length
      readstr_ := some s.heap.length
      buflen_ := s.buflen_ + BLOCK_SIZE + extra.length * BLOCK_SIZE
      writableSize_ := s.writableSize_ + BLOCK_SIZE + extra.length * BLOCK_SIZE },
    _, (s.heap.length, Block.zero) :: extra, ?_,
    { linked := by simpa using hs', nodup := by simpa using hd', head := rfl, tail := rfl
      reader := ⟨by rw [hri]; rfl, by simp [hrp], Or.inl (by simp [hri])⟩
      writer := ⟨by rw [hwi]; rfl, by simp [hwp], Or.inl (by simp [hwi])⟩
      used := hu, written := hw, total := ?_, size := ?_ },
    ⟨rfl, rfl, rfl, ?_, ?_⟩, rfl, ?_, ?_⟩
  · have hcall : s.makeSpaceLoop s.tail_ len = s.makeSpaceLoop none len :=
      congrArg (fun p => s.makeSpaceLoop p len) h.tail
    rw [hcall]
    unfold KBuffer.makeSpaceLoop
    rw [dif_neg (by omega), hrest]
    exact he
  · dsimp only
    omega
  · dsimp only
    omega
  · dsimp only
    omega
  · dsimp only
    omega
  · omega
  · by_cases hb : len ≤ BLOCK_SIZE
    · have hone : extra.length * BLOCK_SIZE < 1 * BLOCK_SIZE := by omega
      have hnil : extra.length = 0 := Nat.lt_one_iff.mp (Nat.lt_of_mul_lt_mul_right hone)
      rw [hcount, hnil]
      omega
    · omega

/-- `make_space` on a chain: the blocks go behind it. -/
theorem Layout.makeSpaceLoop_append (h : Layout s chain ri wi gap) (hne : chain ≠ []) (len : ℕ) :
    ∃ s' walk extra, s.makeSpaceLoop s.tail_ len = .ok (s', walk) ∧
      Layout { s' with tail_ := walk } (chain ++ extra) ri wi gap ∧
      Grown s s' (extra.length * BLOCK_SIZE) ∧ s'.writablePos_ = s.writablePos_ ∧
      len ≤ extra.length * BLOCK_SIZE ∧ extra.length * BLOCK_SIZE < len + BLOCK_SIZE := by
  have hu := h.used
  have hw := h.written
  have ht := h.total
  have hz := h.size
  obtain ⟨h', extra, he, hs', hd', hlo, hhi⟩ := makeSpaceLoop_chain h.linked h.nodup hne len
  refine ⟨{ s with
      heap := h'
      buflen_ := s.buflen_ + extra.length * BLOCK_SIZE
      writableSize_ := s.writableSize_ + extra.length * BLOCK_SIZE },
    _, extra, h.tail ▸ he,
    { linked := hs', nodup := hd', head := ?_, tail := rfl, reader := h.reader.append hne extra
      writer := h.writer.append hne extra, used := hu, written := hw, total := ?_, size := ?_ },
    ⟨rfl, rfl, rfl, rfl, rfl⟩, rfl, hlo, hhi⟩
  · rw [firstPtr_append]
    cases hc : chain with
    | nil => exact absurd hc hne
    | cons c rest => exact h.head.trans (by rw [hc]; rfl)
  · dsimp only
    omega
  · dsimp only
    rw [hz, List.length_append, Nat.add_mul]

/-- The loop of `makeSpace` on any chain; on the empty chain the first new
block receives both cursors. -/
theorem Layout.makeSpaceLoop (h : Layout s chain ri wi gap) {len : ℕ} (hlen : 0 < len) :
    ∃ s' walk extra, s.makeSpaceLoop s.tail_ len = .ok (s', walk) ∧
      Layout { s' with tail_ := walk } (chain ++ extra) ri wi gap ∧
      Grown s s' (extra.length * BLOCK_SIZE) ∧ s'.writablePos_ = s.writablePos_ ∧
      len ≤ extra.length * BLOCK_SIZE ∧ extra.length * BLOCK_SIZE < len + BLOCK_SIZE := by
  by_cases hne : chain = []
  · subst hne
    exact h.makeSpaceLoop_empty hlen
  · exact h.makeSpaceLoop_append hne len

/-- `makeSpace` appends zeroed blocks, just enough for `len` bytes, and moves a
write cursor at the end of its block on to the next one. -/
theorem Layout.makeSpace (h : Layout s chain ri wi gap) (len : ℕ) (hlen : 0 < len) :
    ∃ s' extra wi', s.makeSpace len = .ok s' ∧ Layout s' (chain ++ extra) ri wi' gap ∧
      Grown s s' (extra.length * BLOCK_SIZE) ∧
      len ≤ extra.length * BLOCK_SIZE ∧ extra.length * BLOCK_SIZE < len + BLOCK_SIZE := by
  obtain ⟨s₁, walk, extra, he, hl, hg, hwp, hlo, hhi⟩ := h.makeSpaceLoop hlen
  have hmore : 0 < extra.length := by
    by_contra hz
    have hnil : extra.length = 0 := by omega
    rw [hnil] at hlo
    omega
  unfold KBuffer.makeSpace
  rw [he, ok_bind]
  dsimp only
  by_cases hb : s₁.writablePos_ = BLOCK_SIZE
  · have hne : chain ++ extra ≠ [] := by
      intro hnil
      rw [(List.append_eq_nil_iff.mp hnil).2] at hmore
      exact absurd hmore (lt_irrefl _)
    obtain ⟨b, hd, hnext⟩ := deref_at hl.linked hl.writer hne
    have hw := hl.written
    have hlt : wi < chain.length := by
      rcases h.writer.inside with hi | ⟨_, _, hpos⟩
      · rwa [List.length_map] at hi
      · rw [← hwp, hb] at hpos
        exact absurd hpos (by decide)
    dsimp only at hd hw
    refine ⟨{ s₁ with tail_ := walk, writestr_ := b.next, writablePos_ := 0 }, extra, wi + 1, ?_,
      { linked := hl.linked, nodup := hl.nodup, head := hl.head, tail := hl.tail, reader := hl.reader
        writer := ⟨hnext, Nat.zero_le _, Or.inl ?_⟩, used := hl.used, written := ?_
        total := hl.total, size := hl.size },
      ⟨hg.readablePos, hg.usedSize, hg.readableSize, hg.writableSize, hg.buflen⟩, hlo, hhi⟩
    · rw [if_pos hb, hd, ok_bind]
      rfl
    · rw [List.length_map, List.length_append]
      omega
    · dsimp only
      rw [Nat.succ_mul]
      omega
  · exact ⟨_, extra, wi, if_neg hb, hl,
      ⟨hg.readablePos, hg.usedSize, hg.readableSize, hg.writableSize, hg.buflen⟩, hlo, hhi⟩

/-- New blocks at the end of the chain do not change the queue. -/
theorem Layout.unread_makeSpace (h : Layout s chain ri wi gap) {s' : KBuffer} {n : ℕ}
    (hg : Grown s s' n) (extra : List (ℕ × Block)) :
    unread s' (chain ++ extra) = unread s chain := by
  have hc := h.in_chain
  unfold unread
  rw [hg.usedSize, hg.readableSize, bytes_append, List.drop_append_of_le_length (by omega),
    List.take_append_of_le_length (by rw [List.length_drop]; omega)]

/-- A settled write cursor is never before the block of the read cursor. -/
theorem Layout.not_overtaken (h : Layout s chain ri wi gap)
    (hset : s.writablePos_ = BLOCK_SIZE → wi + 1 = chain.length) : ri ≤ wi := by
  by_contra hlt
  obtain ⟨hnext, hpos, _⟩ := h.overtaken (by omega)
  have hend := hset hpos
  have hin := h.reader_lt (by omega)
  omega

end KKNet.BlockLayout
