import KKNet.Monitors
import KKNet.Runs

/-!
# The blocking queue

Translation of `util/BlockingQueue.h`. A thread holds the mutex from the beginning
of a call, or from its return from `wait`, to the next `wait` or to the end of the
call; such a section is one step. The conditions are those of the monitor library,
so a notification picks any of the blocked threads, a thread may wake for no reason
and other threads may have the mutex before a picked one does.

The queue hands out what was put, in order and within its bound, and no wakeup is
lost: while a consumer is blocked, there are no more items than consumers on their
way to them, and while a producer is blocked, no more free slots than producers.
-/

namespace KKNet.BlockingQueues

open Runs Monitors

variable {τ α : Type}

/-- A call a thread is blocked in. -/
inductive Call (α : Type)
  /-- `put`, with its argument. -/
  | put (x : α)
  /-- `take`. -/
  | take

/-- `BlockingQueue`, between two sections. -/
structure BlockingQueue (τ α : Type) where
  /-- The items, oldest first. -/
  queue_ : List α
  /-- The bound, zero for none. -/
  maxQueueSize_ : Int32
  /-- Where consumers wait. -/
  notEmpty_ : Condition τ
  /-- Where producers wait. -/
  notFull_ : Condition τ

/-- A queue and the threads that use it. -/
structure System (τ α : Type) where
  /-- The queue. -/
  queue : BlockingQueue τ α
  /-- The call each thread is blocked in. -/
  calls : τ → Option (Call α)
  /-- The items put so far, in order. -/
  put : List α
  /-- The items taken so far, in order. -/
  taken : List α

/-- `BlockingQueue::BlockingQueue`. -/
def System.fresh : System τ α := ⟨⟨[], 0, .fresh, .fresh⟩, fun _ => none, [], []⟩

/-- An `int32_t` compared with a `size_t` is converted, modulo `2 ^ 64`. -/
def toSizeT (size : Int32) : ℕ := (size.toInt % 2 ^ 64).toNat

/-- `queue_.size() >= maxQueueSize_`. -/
def BlockingQueue.full (q : BlockingQueue τ α) : Prop := toSizeT q.maxQueueSize_ ≤ q.queue_.length

instance (q : BlockingQueue τ α) : Decidable q.full := inferInstanceAs (Decidable (_ ≤ _))

/-- `setMaxQueueSize`. -/
def BlockingQueue.setMaxQueueSize (q : BlockingQueue τ α) (size : Int32) : BlockingQueue τ α :=
  { q with maxQueueSize_ := size }

variable [DecidableEq τ]

/-- `notFull_.wait()` in `put`. -/
def System.waitFull (w : System τ α) (t : τ) (x : α) : System τ α :=
  { w with
    queue := { w.queue with notFull_ := w.queue.notFull_.wait t }
    calls := Function.update w.calls t (some (.put x)) }

/-- `notEmpty_.wait()` in `take`. -/
def System.waitEmpty (w : System τ α) (t : τ) : System τ α :=
  { w with
    queue := { w.queue with notEmpty_ := w.queue.notEmpty_.wait t }
    calls := Function.update w.calls t (some .take) }

/-- The end of `put`: the item goes to the back, and a consumer is notified. -/
def System.pushBack (w : System τ α) (t : τ) (x : α) (pick : Option τ) : Option (System τ α) :=
  (w.queue.notEmpty_.notify pick).map fun c =>
    { queue := { w.queue with queue_ := w.queue.queue_ ++ [x], notEmpty_ := c }
      calls := Function.update w.calls t none
      put := w.put ++ [x]
      taken := w.taken }

/-- The loop of `put`, and what follows it. -/
def System.putLoop (w : System τ α) (t : τ) (x : α) (pick : Option τ) : Option (System τ α) :=
  if w.queue.full then some (w.waitFull t x) else w.pushBack t x pick

/-- `put`. -/
def System.putSection (w : System τ α) (t : τ) (x : α) (pick : Option τ) : Option (System τ α) :=
  if w.queue.maxQueueSize_ ≠ 0 then w.putLoop t x pick else w.pushBack t x pick

/-- The end of `take`: the front leaves, and a producer is notified if there is a bound. -/
def System.popFront (w : System τ α) (t : τ) (front : α) (rest : List α) (pick : Option τ) :
    Option (System τ α) :=
  (if w.queue.maxQueueSize_ ≠ 0 then w.queue.notFull_.notify pick
    else some w.queue.notFull_).map fun c =>
    { queue := { w.queue with queue_ := rest, notFull_ := c }
      calls := Function.update w.calls t none
      put := w.put
      taken := w.taken ++ [front] }

/-- The loop of `take`, and what follows it. -/
def System.takeLoop (w : System τ α) (t : τ) (pick : Option τ) : Option (System τ α) :=
  match w.queue.queue_ with
  | [] => some (w.waitEmpty t)
  | front :: rest => w.popFront t front rest pick

/-- What can happen next. -/
inductive Event (τ α : Type)
  /-- A call of `setMaxQueueSize`. -/
  | setMaxQueueSize (size : Int32)
  /-- A thread calls `put`; a notification picks a thread. -/
  | put (t : τ) (x : α) (pick : Option τ)
  /-- A thread calls `take`; a notification picks a thread. -/
  | take (t : τ) (pick : Option τ)
  /-- A thread that is no longer blocked returns from `wait`. -/
  | resume (t : τ) (pick : Option τ)
  /-- A blocked thread wakes for no reason. -/
  | wake (t : τ)

/-- One step. -/
def step (w : System τ α) : Event τ α → Option (System τ α)
  | .setMaxQueueSize size => some { w with queue := w.queue.setMaxQueueSize size }
  | .put t x pick => if (w.calls t).isNone then w.putSection t x pick else none
  | .take t pick => if (w.calls t).isNone then w.takeLoop t pick else none
  | .resume t pick =>
    match w.calls t with
    | none => none
    | some (.put x) => (w.queue.notFull_.resume t).bind fun c =>
        System.putLoop { w with queue := { w.queue with notFull_ := c } } t x pick
    | some .take => (w.queue.notEmpty_.resume t).bind fun c =>
        System.takeLoop { w with queue := { w.queue with notEmpty_ := c } } t pick
  | .wake t =>
    match w.calls t with
    | none => none
    | some (.put _) => (w.queue.notFull_.wake t).map fun c =>
        { w with queue := { w.queue with notFull_ := c } }
    | some .take => (w.queue.notEmpty_.wake t).map fun c =>
        { w with queue := { w.queue with notEmpty_ := c } }

/-- The bound is set at most once, to `m`, and before the first `put`; where it is never
set, it stays the zero of the constructor, which bounds nothing. -/
def SetOnce (m : Int32) : List (Event τ α) → Prop
  | [] => True
  | .setMaxQueueSize size :: rest => size = m ∧ ∀ size', .setMaxQueueSize size' ∉ rest
  | .put _ _ _ :: rest => m = 0 ∧ ∀ size', .setMaxQueueSize size' ∉ rest
  | _ :: rest => SetOnce m rest

/-! ### The bound -/

/-- A positive bound is compared as it is. -/
theorem toSizeT_of_pos {m : Int32} (hm : 0 < m.toInt) : toSizeT m = m.toInt.toNat := by
  have hlt : m.toInt < 2 ^ 31 := Int32.toInt_lt m
  unfold toSizeT
  rw [Int.emod_eq_of_lt hm.le (by omega)]

/-- A positive bound is not zero. -/
theorem ne_zero_of_pos {m : Int32} (hm : 0 < m.toInt) : m ≠ 0 := by
  rintro rfl
  exact absurd hm (by decide)

/-! ### One section -/

variable {w w' : System τ α} {t : τ} {x : α} {pick : Option τ} {m : Int32} {i j : ℕ}

/-- The state of the queue while `i` consumers and `j` producers that were picked have
the mutex: what they were counted on for is still there. -/
structure Sound (m : Int32) (i j : ℕ) (w : System τ α) : Prop where
  /-- First in, first out. -/
  fifo : w.taken ++ w.queue.queue_ = w.put
  /-- The bound is in force. -/
  bound : w.queue.maxQueueSize_ = m
  /-- The items are within the bound. -/
  within : 0 < m.toInt → w.queue.queue_.length ≤ m.toInt.toNat
  /-- Consumers are on their way to the items. -/
  items : w.queue.notEmpty_.Covers (w.queue.queue_.length - i)
  /-- Producers are on their way to the free slots. -/
  slots : 0 < m.toInt → w.queue.notFull_.Covers (m.toInt.toNat - w.queue.queue_.length - j)

omit [DecidableEq τ] in
/-- The comparison with a positive bound. -/
theorem Sound.full_iff (hw : Sound m i j w) (hm : 0 < m.toInt) :
    w.queue.full ↔ m.toInt.toNat ≤ w.queue.queue_.length := by
  unfold BlockingQueue.full
  rw [hw.bound, toSizeT_of_pos hm]

omit [DecidableEq τ] in
/-- A producer may have the mutex in any state. -/
theorem Sound.producing (hw : Sound m 0 0 w) : Sound m 0 1 w :=
  { hw with slots := fun hm => (hw.slots hm).mono (Nat.sub_le _ 1) }

omit [DecidableEq τ] in
/-- So may a consumer. -/
theorem Sound.consuming (hw : Sound m 0 0 w) : Sound m 1 0 w :=
  { hw with items := hw.items.mono (Nat.sub_le _ 1) }

/-- `push_back` into a free slot. -/
theorem Sound.pushBack (hw : Sound m 0 1 w)
    (hfree : 0 < m.toInt → w.queue.queue_.length < m.toInt.toNat)
    (h : w.pushBack t x pick = some w') : Sound m 0 0 w' := by
  obtain ⟨c, hc, rfl⟩ := Option.map_eq_some_iff.mp h
  have hlen : (w.queue.queue_ ++ [x]).length = w.queue.queue_.length + 1 := List.length_append
  refine ⟨?_, hw.bound, fun hm => ?_, ?_, fun hm => ?_⟩
  · change w.taken ++ (w.queue.queue_ ++ [x]) = w.put ++ [x]
    rw [← List.append_assoc, hw.fifo]
  · have hlt := hfree hm
    dsimp only
    omega
  · have hcovers := hw.items.notify hc
    exact hcovers.mono (by dsimp only; omega)
  · exact (hw.slots hm).mono (by dsimp only; omega)

/-- The loop of `put`. -/
theorem Sound.putLoop (hw : Sound m 0 1 w) (h : w.putLoop t x pick = some w') :
    Sound m 0 0 w' := by
  unfold System.putLoop at h
  split at h
  · rename_i hfull
    cases h
    refine ⟨hw.fifo, hw.bound, hw.within, hw.items, fun hm => ?_⟩
    -- a producer waits only if there is no free slot
    have hle := (hw.full_iff hm).mp hfull
    exact (Condition.covers_wait w.queue.notFull_ t).mono
      (by dsimp only [System.waitFull]; omega)
  · rename_i hfull
    exact hw.pushBack (fun hm => not_le.mp fun hle => hfull ((hw.full_iff hm).mpr hle)) h

/-- `put`. -/
theorem Sound.putSection (hw : Sound m 0 0 w) (h : w.putSection t x pick = some w') :
    Sound m 0 0 w' := by
  unfold System.putSection at h
  split at h
  · exact hw.producing.putLoop h
  · rename_i hzero
    rw [hw.bound] at hzero
    exact hw.producing.pushBack (fun hm => absurd (ne_zero_of_pos hm) hzero) h

/-- `pop_front`. -/
theorem Sound.popFront {front : α} {rest : List α} (hw : Sound m 1 0 w)
    (hq : w.queue.queue_ = front :: rest) (h : w.popFront t front rest pick = some w') :
    Sound m 0 0 w' := by
  obtain ⟨c, hc, rfl⟩ := Option.map_eq_some_iff.mp h
  have hlen : w.queue.queue_.length = rest.length + 1 := by rw [hq, List.length_cons]
  refine ⟨?_, hw.bound, fun hm => ?_, ?_, fun hm => ?_⟩
  · have hfifo := hw.fifo
    rw [hq] at hfifo
    change w.taken ++ [front] ++ rest = w.put
    rw [List.append_assoc, List.singleton_append, hfifo]
  · have hle := hw.within hm
    dsimp only
    omega
  · exact hw.items.mono (by dsimp only; omega)
  · have hle := hw.within hm
    rw [hw.bound, if_pos (ne_zero_of_pos hm)] at hc
    exact ((hw.slots hm).notify hc).mono (by dsimp only; omega)

/-- The loop of `take`. -/
theorem Sound.takeLoop (hw : Sound m 1 0 w) (h : w.takeLoop t pick = some w') :
    Sound m 0 0 w' := by
  unfold System.takeLoop at h
  split at h
  · rename_i hempty
    cases h
    refine ⟨hw.fifo, hw.bound, hw.within, ?_, hw.slots⟩
    -- a consumer waits only if there is no item
    exact (Condition.covers_wait w.queue.notEmpty_ t).mono
      (by dsimp only [System.waitEmpty]; rw [hempty]; exact Nat.le_refl 0)
  · rename_i front rest hq
    exact hw.popFront hq h

/-! ### One step -/

/-- Every step with the bound set keeps the queue sound. -/
theorem Sound.step {e : Event τ α} (hw : Sound m 0 0 w) (hset : ∀ size, e ≠ .setMaxQueueSize size)
    (h : step w e = some w') : Sound m 0 0 w' := by
  unfold BlockingQueues.step at h
  cases e with
  | setMaxQueueSize size => exact absurd rfl (hset size)
  | put t x pick =>
    dsimp only at h
    split at h
    · exact hw.putSection h
    · cases h
  | take t pick =>
    dsimp only at h
    split at h
    · exact hw.consuming.takeLoop h
    · cases h
  | resume t pick =>
    dsimp only at h
    split at h
    · cases h
    · obtain ⟨c, hc, h⟩ := Option.bind_eq_some_iff.mp h
      have hin : Sound m 0 1 { w with queue := { w.queue with notFull_ := c } } :=
        ⟨hw.fifo, hw.bound, hw.within, hw.items, fun hm => (hw.slots hm).resume hc⟩
      exact hin.putLoop h
    · obtain ⟨c, hc, h⟩ := Option.bind_eq_some_iff.mp h
      have hin : Sound m 1 0 { w with queue := { w.queue with notEmpty_ := c } } :=
        ⟨hw.fifo, hw.bound, hw.within, hw.items.resume hc, hw.slots⟩
      exact hin.takeLoop h
  | wake t =>
    dsimp only at h
    split at h
    · cases h
    · obtain ⟨c, hc, rfl⟩ := Option.map_eq_some_iff.mp h
      exact ⟨hw.fifo, hw.bound, hw.within, hw.items, fun hm => (hw.slots hm).wake hc⟩
    · obtain ⟨c, hc, rfl⟩ := Option.map_eq_some_iff.mp h
      exact ⟨hw.fifo, hw.bound, hw.within, hw.items.wake hc, hw.slots⟩

/-! ### Who is where -/

/-- Consumers are inside `notEmpty_` and producers inside `notFull_`, each thread once
and with the call it is blocked in. -/
structure Consistent (w : System τ α) : Prop where
  /-- The threads blocked in `take`. -/
  consumers : w.queue.notEmpty_.Holds fun t => w.calls t = some .take
  /-- The threads blocked in `put`. -/
  producers : w.queue.notFull_.Holds fun t => ∃ x, w.calls t = some (.put x)

/-- The same while a thread has the mutex: it is inside neither. -/
structure Running (t : τ) (w : System τ α) : Prop where
  /-- The threads blocked in `take`. -/
  consumers : w.queue.notEmpty_.Holds fun s => s ≠ t ∧ w.calls s = some .take
  /-- The threads blocked in `put`. -/
  producers : w.queue.notFull_.Holds fun s => s ≠ t ∧ ∃ x, w.calls s = some (.put x)

/-- What an update of the thread's call leaves alone. -/
theorem update_iff {calls : τ → Option (Call α)} {t s : τ} {c : Option (Call α)}
    {P : Option (Call α) → Prop} :
    P (Function.update calls t c s) ↔ s = t ∧ P c ∨ s ≠ t ∧ P (calls s) := by
  by_cases hs : s = t
  · subst hs
    simp
  · simp [hs]

omit [DecidableEq τ] in
/-- A thread enters a call. -/
theorem Consistent.enter (hw : Consistent w) (ht : (w.calls t).isNone) : Running t w := by
  rw [Option.isNone_iff_eq_none] at ht
  constructor
  · refine hw.consumers.congr fun s => (and_iff_right_of_imp ?_).symm
    rintro hs rfl
    rw [ht] at hs
    cases hs
  · refine hw.producers.congr fun s => (and_iff_right_of_imp ?_).symm
    rintro ⟨x, hs⟩ rfl
    rw [ht] at hs
    cases hs

/-- A producer returns from `wait`. -/
theorem Consistent.resumePut {c : Condition τ} (hw : Consistent w)
    (hc : w.queue.notFull_.resume t = some c) :
    Running t { w with queue := { w.queue with notFull_ := c } } := by
  obtain ⟨⟨x, hput⟩, hheld⟩ := hw.producers.resume hc
  refine ⟨hw.consumers.congr fun s => (and_iff_right_of_imp ?_).symm, hheld⟩
  rintro hs rfl
  rw [hput] at hs
  cases hs

/-- A consumer returns from `wait`. -/
theorem Consistent.resumeTake {c : Condition τ} (hw : Consistent w)
    (hc : w.queue.notEmpty_.resume t = some c) :
    Running t { w with queue := { w.queue with notEmpty_ := c } } := by
  obtain ⟨htake, hheld⟩ := hw.consumers.resume hc
  refine ⟨hheld, hw.producers.congr fun s => (and_iff_right_of_imp ?_).symm⟩
  rintro ⟨x, hs⟩ rfl
  rw [htake] at hs
  cases hs

/-- A producer waits. -/
theorem Running.waitFull (hw : Running t w) (x : α) : Consistent (w.waitFull t x) := by
  constructor
  · refine hw.consumers.congr fun s => ?_
    rw [System.waitFull, update_iff (P := fun c => c = some .take)]
    simp
  · refine (hw.producers.wait fun h => h.1 rfl).congr fun s => ?_
    rw [System.waitFull, update_iff (P := fun c => ∃ x, c = some (.put x))]
    simp

/-- A consumer waits. -/
theorem Running.waitEmpty (hw : Running t w) : Consistent (w.waitEmpty t) := by
  constructor
  · refine (hw.consumers.wait fun h => h.1 rfl).congr fun s => ?_
    rw [System.waitEmpty, update_iff (P := fun c => c = some .take)]
    simp
  · refine hw.producers.congr fun s => ?_
    rw [System.waitEmpty, update_iff (P := fun c => ∃ x, c = some (.put x))]
    simp

/-- The call of the thread ends. -/
theorem Running.leave {q : BlockingQueue τ α} {put taken : List α}
    (hempty : q.notEmpty_.Holds fun s => s ≠ t ∧ w.calls s = some .take)
    (hfull : q.notFull_.Holds fun s => s ≠ t ∧ ∃ x, w.calls s = some (.put x)) :
    Consistent (System.mk q (Function.update w.calls t none) put taken) := by
  constructor
  · refine hempty.congr fun s => ?_
    rw [update_iff (P := fun c => c = some .take)]
    simp
  · refine hfull.congr fun s => ?_
    rw [update_iff (P := fun c => ∃ x, c = some (.put x))]
    simp

/-- `push_back`. -/
theorem Running.pushBack (hw : Running t w) (h : w.pushBack t x pick = some w') :
    Consistent w' := by
  obtain ⟨c, hc, rfl⟩ := Option.map_eq_some_iff.mp h
  exact Running.leave (hw.consumers.notify hc) hw.producers

/-- The loop of `put`. -/
theorem Running.putLoop (hw : Running t w) (h : w.putLoop t x pick = some w') :
    Consistent w' := by
  unfold System.putLoop at h
  split at h
  · cases h
    exact hw.waitFull x
  · exact hw.pushBack h

/-- The loop of `take`. -/
theorem Running.takeLoop (hw : Running t w) (h : w.takeLoop t pick = some w') :
    Consistent w' := by
  unfold System.takeLoop at h
  split at h
  · cases h
    exact hw.waitEmpty
  · obtain ⟨c, hc, rfl⟩ := Option.map_eq_some_iff.mp h
    refine Running.leave hw.consumers ?_
    split at hc
    · exact hw.producers.notify hc
    · cases hc
      exact hw.producers

/-- Every step keeps the threads where they belong. -/
theorem Consistent.step {e : Event τ α} (hw : Consistent w) (h : step w e = some w') :
    Consistent w' := by
  unfold BlockingQueues.step at h
  cases e with
  | setMaxQueueSize size =>
    cases h
    exact ⟨hw.consumers, hw.producers⟩
  | put t x pick =>
    dsimp only at h
    split at h
    · rename_i ht
      unfold System.putSection at h
      split at h
      · exact (hw.enter ht).putLoop h
      · exact (hw.enter ht).pushBack h
    · cases h
  | take t pick =>
    dsimp only at h
    split at h
    · rename_i ht
      exact (hw.enter ht).takeLoop h
    · cases h
  | resume t pick =>
    dsimp only at h
    split at h
    · cases h
    · obtain ⟨c, hc, h⟩ := Option.bind_eq_some_iff.mp h
      exact (hw.resumePut hc).putLoop h
    · obtain ⟨c, hc, h⟩ := Option.bind_eq_some_iff.mp h
      exact (hw.resumeTake hc).takeLoop h
  | wake t =>
    dsimp only at h
    split at h
    · cases h
    · obtain ⟨c, hc, rfl⟩ := Option.map_eq_some_iff.mp h
      exact ⟨hw.consumers, hw.producers.wake hc⟩
    · obtain ⟨c, hc, rfl⟩ := Option.map_eq_some_iff.mp h
      exact ⟨hw.consumers.wake hc, hw.producers⟩

/-- In every reachable state the threads are where they belong. -/
theorem consistent_run {events : List (Event τ α)} (hrun : run step System.fresh events = some w) :
    Consistent w := by
  refine invariant Consistent (fun _ _ _ hw h => hw.step h) ⟨?_, ?_⟩ hrun
  · exact Condition.holds_fresh.congr fun t => by simp [System.fresh]
  · exact Condition.holds_fresh.congr fun t => by simp [System.fresh]

/-! ### Every run -/

/-- Before the first `put` there is nothing to hand out. -/
structure Unused (w : System τ α) : Prop where
  /-- No item was put. -/
  put : w.put = []
  /-- No item is queued. -/
  queue : w.queue.queue_ = []
  /-- No item was taken. -/
  taken : w.taken = []
  /-- No producer waits. -/
  producers : w.queue.notFull_ = .fresh
  /-- There is no bound. -/
  bound : w.queue.maxQueueSize_ = 0

omit [DecidableEq τ] in
/-- An unused queue with its bound set. -/
theorem Unused.sound (hw : Unused w) (m : Int32) :
    Sound m 0 0 { w with queue := w.queue.setMaxQueueSize m } := by
  refine ⟨?_, rfl, fun hm => ?_, ?_, fun hm => ?_⟩
  · dsimp only [BlockingQueue.setMaxQueueSize]
    rw [hw.taken, hw.queue, hw.put]
    rfl
  · dsimp only [BlockingQueue.setMaxQueueSize]
    rw [hw.queue]
    exact Nat.zero_le _
  · dsimp only [BlockingQueue.setMaxQueueSize]
    rw [hw.queue]
    exact fun _ => Nat.zero_le _
  · dsimp only [BlockingQueue.setMaxQueueSize]
    rw [hw.producers]
    exact Condition.covers_fresh _

omit [DecidableEq τ] in
/-- An unused queue whose bound stays what it is. -/
theorem Unused.sound_zero (hw : Unused w) : Sound 0 0 0 w := by
  have hsame : w.queue.setMaxQueueSize 0 = w.queue := by
    unfold BlockingQueue.setMaxQueueSize
    rw [← hw.bound]
  have hsound := hw.sound 0
  rwa [hsame] at hsound

/-- A consumer of an unused queue waits. -/
theorem Unused.takeLoop (hw : Unused w) (h : w.takeLoop t pick = some w') : Unused w' := by
  unfold System.takeLoop at h
  rw [hw.queue] at h
  cases h
  exact ⟨hw.put, hw.queue, hw.taken, hw.producers, hw.bound⟩

/-- Until the first `put` the queue stays unused. -/
theorem Unused.step {e : Event τ α} (hw : Unused w) (hset : ∀ size, e ≠ .setMaxQueueSize size)
    (hput : ∀ t x pick, e ≠ .put t x pick) (h : step w e = some w') : Unused w' := by
  unfold BlockingQueues.step at h
  cases e with
  | setMaxQueueSize size => exact absurd rfl (hset size)
  | put t x pick => exact absurd rfl (hput t x pick)
  | take t pick =>
    dsimp only at h
    split at h
    · exact hw.takeLoop h
    · cases h
  | resume t pick =>
    dsimp only at h
    split at h
    · cases h
    · rw [hw.producers] at h
      cases h
    · obtain ⟨c, _, h⟩ := Option.bind_eq_some_iff.mp h
      have hin : Unused { w with queue := { w.queue with notEmpty_ := c } } :=
        ⟨hw.put, hw.queue, hw.taken, hw.producers, hw.bound⟩
      exact hin.takeLoop h
  | wake t =>
    dsimp only at h
    split at h
    · cases h
    · rw [hw.producers] at h
      cases h
    · obtain ⟨c, _, rfl⟩ := Option.map_eq_some_iff.mp h
      exact ⟨hw.put, hw.queue, hw.taken, hw.producers, hw.bound⟩

/-- A queue whose bound is set once, before the first `put`, or never, is unused or sound. -/
theorem unused_or_sound {events : List (Event τ α)} (hw : Unused w) (hset : SetOnce m events)
    (hrun : run step w events = some w') : Unused w' ∨ Sound m 0 0 w' := by
  induction events generalizing w with
  | nil =>
    cases hrun
    exact Or.inl hw
  | cons e events ih =>
    rw [run_cons] at hrun
    obtain ⟨w₁, he, hrest⟩ := Option.bind_eq_some_iff.mp hrun
    cases e with
    | setMaxQueueSize size =>
      obtain ⟨rfl, honce⟩ := hset
      cases he
      have hmeets : Meets step (fun _ e => ∀ size', e ≠ .setMaxQueueSize size')
          { w with queue := w.queue.setMaxQueueSize size } events :=
        meets_of_forall (fun e => ∀ size', e ≠ Event.setMaxQueueSize size')
          (fun e he size' heq => honce size' (heq ▸ he)) _
      exact Or.inr (invariant_of_meets (Sound size 0 0) (fun _ _ _ hw he h => hw.step he h)
        (hw.sound size) hmeets hrest)
    | put t x pick =>
      obtain ⟨rfl, hnone⟩ := hset
      have hmeets : Meets step (fun _ e => ∀ size', e ≠ .setMaxQueueSize size') w₁ events :=
        meets_of_forall (fun e => ∀ size', e ≠ Event.setMaxQueueSize size')
          (fun e he size' heq => hnone size' (heq ▸ he)) _
      exact Or.inr (invariant_of_meets (Sound 0 0 0) (fun _ _ _ hw he h => hw.step he h)
        (hw.sound_zero.step (fun _ h => by cases h) he) hmeets hrest)
    | take t pick | resume t pick | wake t =>
      exact ih (hw.step (fun _ h => by cases h) (fun _ _ _ h => by cases h) he) hset hrest

/-- In every reachable state the queue is first in first out and within its bound, and
nobody is blocked who is needed. The lists of a condition name every thread once and
by its call (`consistent_run`), so their lengths count threads. -/
theorem fifo_without_lost_wakeup {events : List (Event τ α)} (hset : SetOnce m events)
    (hrun : run step System.fresh events = some w) :
    w.taken ++ w.queue.queue_ = w.put ∧
      (0 < m.toInt → (w.queue.queue_.length : ℤ) ≤ m.toInt) ∧
      (w.queue.notEmpty_.waiting ≠ [] →
        w.queue.queue_.length ≤ w.queue.notEmpty_.signalled.length) ∧
      (0 < m.toInt → w.queue.notFull_.waiting ≠ [] →
        m.toInt - w.queue.queue_.length ≤ w.queue.notFull_.signalled.length) := by
  have hfresh : Unused (System.fresh : System τ α) := ⟨rfl, rfl, rfl, rfl, rfl⟩
  rcases unused_or_sound hfresh hset hrun with hw | hw
  · rw [hw.put, hw.queue, hw.taken, hw.producers]
    exact ⟨rfl, fun hm => hm.le, fun _ => Nat.zero_le _, fun _ h => absurd rfl h⟩
  · refine ⟨hw.fifo, fun hm => ?_, hw.items, fun hm hwait => ?_⟩
    · have hle := hw.within hm
      omega
    · have hle := hw.slots hm hwait
      omega

/-- A consumer is picked, another one takes the item before it goes on; with the second
item a producer waits, which the first consumer lets in. -/
def overtaking : List (Event ℕ ℕ) :=
  [.take 0 none, .setMaxQueueSize 1, .put 1 10 (some 0), .take 2 none, .resume 0 none,
    .put 1 11 (some 0), .put 3 12 none, .resume 0 (some 3)]

theorem fifo_without_lost_wakeup_overtaking :
    ∃ w, run step System.fresh overtaking = some w ∧ w.put = [10, 11] ∧
      w.queue.notFull_.signalled = [3] ∧ w.taken ++ w.queue.queue_ = w.put ∧
      (w.queue.notEmpty_.waiting ≠ [] →
        w.queue.queue_.length ≤ w.queue.notEmpty_.signalled.length) :=
  have hset : SetOnce 1 overtaking := ⟨rfl, by simp⟩
  have hsound := fifo_without_lost_wakeup hset rfl
  ⟨_, rfl, rfl, rfl, hsound.1, hsound.2.2.1⟩

/-! ### No state is stuck -/

/-- A notification that finds its thread lets `put` end. -/
theorem pushBack_enabled (w : System τ α) (t : τ) (x : α) :
    ∃ pick w', w.pushBack t x pick = some w' := by
  obtain ⟨pick, c, hc⟩ := w.queue.notEmpty_.exists_notify
  exact ⟨pick, _, Option.map_eq_some_iff.mpr ⟨c, hc, rfl⟩⟩

/-- The loop of `put` waits or ends. -/
theorem putLoop_enabled (w : System τ α) (t : τ) (x : α) :
    ∃ pick w', w.putLoop t x pick = some w' := by
  unfold System.putLoop
  split
  · exact ⟨none, _, rfl⟩
  · exact pushBack_enabled w t x

/-- The loop of `take` waits or ends. -/
theorem takeLoop_enabled (w : System τ α) (t : τ) :
    ∃ pick w', w.takeLoop t pick = some w' := by
  unfold System.takeLoop
  split
  · exact ⟨none, _, rfl⟩
  · obtain ⟨pick, c, hc⟩ := w.queue.notFull_.exists_notify
    unfold System.popFront
    split
    · exact ⟨pick, _, Option.map_eq_some_iff.mpr ⟨c, hc, rfl⟩⟩
    · exact ⟨pick, _, rfl⟩

/-- A thread that is in no call can begin any. -/
theorem call_enabled (ht : w.calls t = none) (x : α) :
    (∃ pick w', step w (.put t x pick) = some w') ∧ ∃ pick w', step w (.take t pick) = some w' := by
  simp only [step, ht, Option.isNone_none, if_true]
  refine ⟨?_, takeLoop_enabled w t⟩
  unfold System.putSection
  split
  · exact putLoop_enabled w t x
  · exact pushBack_enabled w t x

/-- In every reachable state a thread that is in a call is blocked, or can go on. -/
theorem waiting_or_enabled {events : List (Event τ α)}
    (hrun : run step System.fresh events = some w) (ht : (w.calls t).isSome) :
    t ∈ w.queue.notEmpty_.waiting ∨ t ∈ w.queue.notFull_.waiting ∨
      ∃ pick w', step w (.resume t pick) = some w' := by
  have hw := consistent_run hrun
  obtain ⟨call, hcall⟩ := Option.isSome_iff_exists.mp ht
  cases call with
  | take =>
    rcases Condition.waiting_or_resume ((hw.consumers.mem_iff t).mpr hcall) with hwait | ⟨c, hc⟩
    · exact Or.inl hwait
    · simp only [step, hcall, hc, Option.bind_some]
      exact Or.inr (Or.inr (takeLoop_enabled _ t))
  | put x =>
    rcases Condition.waiting_or_resume ((hw.producers.mem_iff t).mpr ⟨x, hcall⟩) with
      hwait | ⟨c, hc⟩
    · exact Or.inr (Or.inl hwait)
    · simp only [step, hcall, hc, Option.bind_some]
      exact Or.inr (Or.inr (putLoop_enabled _ t x))

end KKNet.BlockingQueues
