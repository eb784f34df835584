import KKNet.LinkedCells
import KKNet.ListOverlay
import KKNet.Results

/-!
# The block-chained buffer

Translation of `reactor/KBuffer.h` and `reactor/KBuffer.cpp`. The blocks live
on a heap and are reached only through their stored links; the two cursors,
the four size counters and the link surgery are those of the source. Sizes
are natural numbers: the layout invariant of the following module shows that
no `size_t` subtraction made here ever passes below zero. Following a null
block pointer, copying past a block and casting a pointer that is not the
start of a block are faults.
-/

namespace KKNet.BlockBuffer

open LinkedCells ListOverlay

/-- `BLOCK_SIZE`, the bytes of one block. -/
def BLOCK_SIZE : ℕ := 1024

/-- `MAX_BLOCK_SIZE`, the limit `write` tests against. -/
def MAX_BLOCK_SIZE : ℕ := 1310720

/-- What the source leaves undefined. -/
inductive Fault
  /-- A null block pointer is followed. -/
  | nullBlock
  /-- A copy would pass the end of a block. -/
  | overrun
  /-- An `iov_base` that is not the start of a block is cast to `DataBlock*`. -/
  | badCast
  /-- A walk visits more blocks than were ever allocated. -/
  | stuck
  /-- A function with a result ends without returning one. -/
  | noReturn
  deriving DecidableEq

/-- The bytes of a block, always `BLOCK_SIZE` many. -/
abbrev Block := { bytes : List UInt8 // bytes.length = BLOCK_SIZE }

/-- `DataBlock`: the array `buf` with the links `last` and `next`. -/
abbrev DataBlock := Cell Block

/-- `DataBlock*`. -/
abbrev Ptr := Option ℕ

/-- `buf{0}`, the contents of a new block. -/
def Block.zero : Block := ⟨List.replicate BLOCK_SIZE 0, List.length_replicate⟩

/-- `memcpy` into a block. -/
def Block.copy (b : Block) (off : ℕ) (data : List UInt8) : Block :=
  ⟨overlay b.1 off data, by rw [length_overlay]; exact b.2⟩

/-- The fields of `KBuffer`, with the heap its blocks live on. -/
structure KBuffer where
  /-- Every block allocated by this buffer. -/
  heap : Heap Block
  /-- First block of the chain. -/
  head_ : Ptr
  /-- Final block of the chain. -/
  tail_ : Ptr
  /-- Block of the read position. -/
  readstr_ : Ptr
  /-- Block of the write position. -/
  writestr_ : Ptr
  /-- Offset of the read position in its block. -/
  readablePos_ : ℕ
  /-- Offset of the write position in its block. -/
  writablePos_ : ℕ
  /-- Bytes from the read to the write position. -/
  readableSize_ : ℕ
  /-- Bytes from the write position to the end of the final block. -/
  writableSize_ : ℕ
  /-- Bytes from the head to the read position. -/
  usedSize_ : ℕ
  /-- Total size of the blocks on the chain. -/
  buflen_ : ℕ

namespace KBuffer

/-- `KBuffer::KBuffer`. -/
def fresh : KBuffer := ⟨[], none, none, none, none, 0, 0, 0, 0, 0, 0⟩

/-- Results that stem from following a pointer. -/
def orNull {α : Type} : Option α → Except Fault α
  | some a => .ok a
  | none => .error .nullBlock

/-- `*p`. -/
def deref (s : KBuffer) (p : Ptr) : Except Fault DataBlock := orNull (cellAt s.heap p)

/-- `memcpy(p->buf + off, data, data.length)`. -/
def memcpyTo (s : KBuffer) (p : Ptr) (off : ℕ) (data : List UInt8) : Except Fault KBuffer := do
  let b ← s.deref p
  if off + data.length ≤ BLOCK_SIZE then
    let h ← orNull (setVal s.heap p (b.val.copy off data))
    pure { s with heap := h }
  else
    throw .overrun

/-- How `do_write` and `retrieve` leave a cursor: at the start of the next
block when the block is used up and has a successor, else where it stopped. -/
def settle (s : KBuffer) (walk : Ptr) (pos : ℕ) : Except Fault (Ptr × ℕ) :=
  if pos = BLOCK_SIZE then do
    let b ← s.deref walk
    if b.next = none then pure (walk, pos) else pure (b.next, 0)
  else
    pure (walk, pos)

/-- `getReadableSize`. -/
def getReadableSize (s : KBuffer) : ℕ := s.readableSize_

/-- `getWritableSize`. -/
def getWritableSize (s : KBuffer) : ℕ := s.writableSize_

/-- The loop of `peek`: `l` bytes are still wanted and `out` was copied. -/
def peekLoop (s : KBuffer) : ℕ → Ptr → ℕ → List UInt8 → Except Fault (List UInt8)
  | fuel, walk, l, out =>
    if l = 0 then .ok out else
    match fuel with
    | 0 => .error .stuck
    | fuel + 1 => do
      let b ← s.deref walk
      if walk = s.readstr_ then
        if l ≤ BLOCK_SIZE - s.readablePos_ then
          pure (out ++ (b.val.1.drop s.readablePos_).take l)
        else
          s.peekLoop fuel b.next (l - (BLOCK_SIZE - s.readablePos_))
            (out ++ (b.val.1.drop s.readablePos_).take (BLOCK_SIZE - s.readablePos_))
      else if l ≤ BLOCK_SIZE then
        pure (out ++ b.val.1.take l)
      else
        s.peekLoop fuel b.next (l - BLOCK_SIZE) (out ++ b.val.1.take BLOCK_SIZE)

/-- `KBuffer::peek`: the bytes copied to the caller. -/
def peek (s : KBuffer) (size : ℕ) : Except Fault (List UInt8) :=
  let l := if size > s.readableSize_ then s.readableSize_ else size
  s.peekLoop (s.heap.length + 1) s.readstr_ l []

/-- The loop of `retrieve`: the block and offset where the walk stops. -/
def retrieveLoop (s : KBuffer) : ℕ → Ptr → ℕ → Except Fault (Ptr × ℕ)
  | 0, _, _ => .error .stuck
  | fuel + 1, walk, l =>
    if walk = s.readstr_ then
      if l ≤ BLOCK_SIZE - s.readablePos_ then
        .ok (walk, s.readablePos_ + l)
      else do
        let b ← s.deref walk
        s.retrieveLoop fuel b.next (l - (BLOCK_SIZE - s.readablePos_))
    else if l ≤ BLOCK_SIZE then
      .ok (walk, l)
    else do
      let b ← s.deref walk
      s.retrieveLoop fuel b.next (l - BLOCK_SIZE)

/-- The `while(len)` of `retrieve`: no walk at all for an empty drop. -/
def retrieveWalk (s : KBuffer) (len : ℕ) : Except Fault (Ptr × ℕ) :=
  if len = 0 then .ok (s.readstr_, s.readablePos_)
  else s.retrieveLoop (s.heap.length + 1) s.readstr_ len

/-- `KBuffer::retrieve`. -/
def retrieve (s : KBuffer) (len : ℕ) : Except Fault KBuffer := do
  let len := if len > s.readableSize_ then s.readableSize_ else len
  let stop ← s.retrieveWalk len
  let cursor ← s.settle stop.1 stop.2
  pure { s with
    readableSize_ := s.readableSize_ - len
    usedSize_ := s.usedSize_ + len
    readstr_ := cursor.1
    readablePos_ := cursor.2 }

/-- `KBuffer::read`: the bytes copied and the buffer after them. -/
def read (s : KBuffer) (size : ℕ) : Except Fault (List UInt8 × KBuffer) := do
  let out ← s.peek size
  let s ← s.retrieve size
  pure (out, s)

/-- The loop of `do_write`: `l` bytes of `buf` are copied. The first block is
filled from the write position on and every later block from its start. -/
def doWriteLoop (buf : List UInt8) : ℕ → KBuffer → Ptr → ℕ → Except Fault (KBuffer × Ptr)
  | fuel, s, walk, l =>
    if l < buf.length then
      match fuel with
      | 0 => .error .stuck
      | fuel + 1 =>
        if walk = s.writestr_ then
          if buf.length - l ≤ BLOCK_SIZE - s.writablePos_ then do
            -- the source copies `size` bytes here, from `buf + l`
            let s ← s.memcpyTo walk s.writablePos_ ((buf.drop l).take buf.length)
            pure ({ s with writablePos_ := s.writablePos_ + buf.length }, walk)
          else do
            let s' ← s.memcpyTo walk s.writablePos_ ((buf.drop l).take (BLOCK_SIZE - s.writablePos_))
            let b ← s'.deref walk
            doWriteLoop buf fuel s' b.next (l + (BLOCK_SIZE - s.writablePos_))
        else if buf.length - l ≤ BLOCK_SIZE then do
          let s ← s.memcpyTo walk 0 ((buf.drop l).take (buf.length - l))
          pure ({ s with writablePos_ := buf.length - l }, walk)
        else do
          let s' ← s.memcpyTo walk 0 ((buf.drop l).take BLOCK_SIZE)
          let b ← s'.deref walk
          doWriteLoop buf fuel s' b.next (l + BLOCK_SIZE)
    else
      .ok (s, walk)

/-- `KBuffer::do_write`. -/
def doWrite (s : KBuffer) (buf : List UInt8) : Except Fault KBuffer := do
  let stop ← doWriteLoop buf (s.heap.length + 1) s s.writestr_ 0
  let cursor ← stop.1.settle stop.2 stop.1.writablePos_
  pure { stop.1 with
    readableSize_ := stop.1.readableSize_ + buf.length
    writableSize_ := stop.1.writableSize_ - buf.length
    writestr_ := cursor.1
    writablePos_ := cursor.2 }

/-- `KBuffer::move_head`: hang the blocks before the read position behind the
final block. -/
def moveHead (s : KBuffer) : Except Fault KBuffer :=
  if s.readstr_ ≠ s.head_ then do
    let r ← s.deref s.readstr_
    let temp := r.last
    let h ← orNull (setNext s.heap temp none)
    let h ← orNull (setLast h s.readstr_ none)
    let h ← orNull (setLast h s.head_ s.tail_)
    let h ← orNull (setNext h s.tail_ s.head_)
    pure { s with
      heap := h
      tail_ := temp
      head_ := s.readstr_
      writableSize_ := s.writableSize_ + (s.usedSize_ - s.readablePos_)
      usedSize_ := s.readablePos_ }
  else
    pure s

/-- `new DataBlock()` linked behind `walk`; the first block of all becomes the
head and holds both cursors. -/
def appendBlock (s : KBuffer) (walk : Ptr) : Except Fault KBuffer :=
  let k : Ptr := some s.heap.length
  let h := s.heap ++ [⟨Block.zero, walk, none⟩]
  if walk = none then
    pure { s with heap := h, head_ := k, writestr_ := k, readstr_ := k }
  else do
    let h ← orNull (setNext h walk k)
    pure { s with heap := h }

/-- The loop of `makeSpace`: one zeroed block behind `walk` for every started
`BLOCK_SIZE` of `len`. -/
def makeSpaceLoop (s : KBuffer) (walk : Ptr) (len : ℕ) : Except Fault (KBuffer × Ptr) :=
  if hlen : len = 0 then .ok (s, walk) else do
    let k : Ptr := some s.heap.length
    let s ← s.appendBlock walk
    makeSpaceLoop { s with
      buflen_ := s.buflen_ + BLOCK_SIZE
      writableSize_ := s.writableSize_ + BLOCK_SIZE } k (if len > BLOCK_SIZE then len - BLOCK_SIZE else 0)
termination_by len
decreasing_by split <;> simp only [BLOCK_SIZE] at * <;> omega

/-- `KBuffer::makeSpace`. -/
def makeSpace (s : KBuffer) (len : ℕ) : Except Fault KBuffer := do
  let grown ← s.makeSpaceLoop s.tail_ len
  let s := { grown.1 with tail_ := grown.2 }
  if s.writablePos_ = BLOCK_SIZE then
    let b ← s.deref s.writestr_
    pure { s with writestr_ := b.next, writablePos_ := 0 }
  else
    pure s

/-- `KBuffer::write`: the buffer afterwards and the returned count. -/
def write (s : KBuffer) (buf : List UInt8) : Except Fault (KBuffer × ℕ) :=
  if buf.length > s.usedSize_ - s.readablePos_ + s.writableSize_ ∧ s.buflen_ ≥ MAX_BLOCK_SIZE then
    pure (s, 0)
  else if buf.length ≤ s.writableSize_ then do
    let s ← s.doWrite buf
    pure (s, buf.length)
  else if buf.length ≤ s.usedSize_ - s.readablePos_ + s.writableSize_ then do
    let s ← s.moveHead
    let s ← s.doWrite buf
    pure (s, buf.length)
  else do
    let s ← s.moveHead
    if buf.length > MAX_BLOCK_SIZE - s.writableSize_ then
      pure (s, 0)
    else
      let s ← s.makeSpace buf.length
      let s ← s.doWrite buf
      pure (s, buf.length)

/-- `struct iovec` over a part of a block: the block of `iov_base`, the offset of
`iov_base` in it, and `iov_len`. -/
structure IoVec where
  /-- Address of the block. -/
  block : ℕ
  /-- Offset of `iov_base` in the block. -/
  off : ℕ
  /-- `iov_len`. -/
  len : ℕ

/-- `sizeof extrabuf`. -/
def EXTRA_SIZE : ℕ := 65536

/-- The loop of `readFd` that lists the blocks from the write cursor on. -/
def ioVecs (s : KBuffer) : ℕ → Ptr → Except Fault (List IoVec)
  | _, none => .ok []
  | 0, some _ => .error .stuck
  | fuel + 1, some a => do
    let b ← s.deref (some a)
    let rest ← s.ioVecs fuel b.next
    pure ((if some a = s.writestr_ then ⟨a, s.writablePos_, BLOCK_SIZE - s.writablePos_⟩
      else ⟨a, 0, BLOCK_SIZE⟩) :: rest)

/-- The total length of the vectors, with `extrabuf` as the final one. -/
def iovLen (vec : List IoVec) : ℕ := (vec.map IoVec.len).sum + EXTRA_SIZE

/-- `readv` fills the vectors in order; what is left over lands in `extrabuf`. -/
def scatter (s : KBuffer) : List IoVec → List UInt8 → Except Fault (KBuffer × List UInt8)
  | [], data => .ok (s, data)
  | v :: vec, data => do
    let s ← s.memcpyTo (some v.block) v.off (data.take v.len)
    s.scatter vec (data.drop v.len)

/-- `static_cast<DataBlock*>(vec[pos].iov_base)`. -/
def castBase (vec : List IoVec) (pos : ℕ) : Except Fault Ptr :=
  match vec[pos]? with
  | some v => if v.off = 0 then .ok (some v.block) else .error .badCast
  | none => .error .badCast

/-- `readFd` after `t` bytes that fit the chain: the write cursor is computed
from the count. -/
def advance (s : KBuffer) (vec : List IoVec) (t : ℕ) : Except Fault KBuffer :=
  let s := { s with
    writableSize_ := s.writableSize_ - t
    readableSize_ := s.readableSize_ + t }
  let past := t - (BLOCK_SIZE - s.writablePos_)
  if t ≤ BLOCK_SIZE - s.writablePos_ then
    pure { s with writablePos_ := s.writablePos_ + t }
  else if past % BLOCK_SIZE = 0 then do
    let p ← castBase vec (past / BLOCK_SIZE)
    pure { s with writestr_ := p, writablePos_ := BLOCK_SIZE }
  else do
    let p ← castBase vec (past / BLOCK_SIZE + 1)
    pure { s with writestr_ := p, writablePos_ := past % BLOCK_SIZE }

/-- `readFd` after more bytes than fit the chain: `extra` is the filled part of
`extrabuf`. -/
def overflow (s : KBuffer) (extra : List UInt8) : Except Fault (KBuffer × ℕ) := do
  let out ← { s with
    writableSize_ := 0
    writestr_ := s.tail_
    writablePos_ := if s.tail_ = none then 0 else BLOCK_SIZE
    readableSize_ := s.readableSize_ + s.writableSize_ }.write extra
  pure (out.1, s.writableSize_ + out.2)

/-- The bytes `readv` delivers when `avail` waits on the descriptor. -/
def delivered (s : KBuffer) (avail : List UInt8) : Except Fault (List UInt8) := do
  let vec ← s.ioVecs (s.heap.length + 1) s.writestr_
  pure (avail.take (iovLen vec))

/-- `KBuffer::readFd`: the buffer afterwards and the returned count. On a failed
`readv` the source reaches the end of the function without a `return`. The array `vec`
is taken to hold the vectors, and `readv` to take so many of them: where there are more
than its limit, it fails. -/
def readFd (s : KBuffer) : Option (List UInt8) → Except Fault (KBuffer × ℕ)
  | none => .error .noReturn
  | some avail => do
    let vec ← s.ioVecs (s.heap.length + 1) s.writestr_
    let data := avail.take (iovLen vec)
    let filled ← s.scatter vec data
    if data.length ≤ s.writableSize_ then
      let s ← filled.1.advance vec data.length
      pure (s, data.length)
    else
      -- the leftover of the vectors is the `t - writable` bytes of `extrabuf`
      filled.1.overflow (filled.2.take (data.length - s.writableSize_))

/-- `string res(buf)` on a `char` array: the bytes up to the first zero, also
when that zero lies behind the array. -/
def cString (memory : List UInt8) : List UInt8 := memory.takeWhile (· ≠ 0)

/-- `peekAllAsString`. The scratch array has `buflen_` zeroed bytes; `beyond` is
whatever the memory behind the array holds. -/
def peekAllAsString (s : KBuffer) (beyond : List UInt8) : Except Fault (List UInt8) := do
  let data ← s.peek s.readableSize_
  pure (cString (data ++ List.replicate (s.buflen_ - data.length) 0 ++ beyond))

end KBuffer

end KKNet.BlockBuffer
