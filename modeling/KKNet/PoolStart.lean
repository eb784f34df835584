import KKNet.CountDownLatch
import KKNet.EventloopPool
import KKNet.Runs

/-!
# Starting the pool

Translation of `EventloopPool::start` and `EventloopPool::poolFunc` of
`reactor/EventloopPool.cpp` with what they run of `util/Thread.cpp`: the thread that
starts the pool and the threads it creates take their steps in any order. A step is
an access to what they share, or a section that holds the mutex of the latch. Event
loops are named by their addresses; the one a thread constructs on its stack is where
no loop lives yet, and stays there, for nothing asks a loop to quit before the pool is
destroyed.

A round creates one thread and waits for its loop. No thread of an earlier round has
anything left to do that the rounds share, so the one count of a round comes from its
own thread, and the pointer the round reads is the one this thread stored.
-/

namespace KKNet.PoolStart

open Runs Monitors CountDownLatches

/-- Where a created thread is, in `threadFunc` and `poolFunc`. -/
inductive PoolThread
  /-- It has not set its status. -/
  | created
  /-- Its status is `kRunning`, and its loop is not constructed. -/
  | running
  /-- Its loop is constructed. -/
  | constructed (loop : ℕ)
  /-- The pointer to its loop is stored. -/
  | stored (loop : ℕ)
  /-- It has left the section of `countDown`: it returns from the call and loops. -/
  | counted (loop : ℕ)
  deriving DecidableEq

/-- The loop on the stack of a thread. -/
def PoolThread.loop : PoolThread → Option ℕ
  | .created => none
  | .running => none
  | .constructed loop => some loop
  | .stored loop => some loop
  | .counted loop => some loop

/-- `threadData_->status == kRunning`. -/
def PoolThread.isRunning : PoolThread → Bool
  | .created => false
  | _ => true

/-- Where the starting thread is, in `start`. -/
inductive Starter
  /-- Before the test of the loop. -/
  | test
  /-- Before it creates a thread. -/
  | create
  /-- In `Thread::start`, which waits for the status. -/
  | spin
  /-- Before `latch_.wait()`. -/
  | wait
  /-- In `cond_.wait()`. -/
  | blocked
  /-- After `latch_.wait()`. -/
  | push
  /-- Before `latch_.setCount(1)`. -/
  | reset
  /-- `start` has returned. -/
  | returned
  deriving DecidableEq

/-- `EventloopPool`; `none` is the null pointer, and threads are named by their order. -/
structure EventloopPool where
  /-- The loops of the pool. -/
  loops_ : List (Option ℕ)
  /-- The threads of the pool. -/
  threads_ : List ℕ
  /-- The number of loops the pool should have. -/
  num_ : ℤ
  /-- The loop that was constructed last. -/
  currentLoop_ : Option ℕ
  /-- The latch of all rounds, where only the starting thread waits. -/
  latch_ : CountDownLatch Unit

/-- `EventloopPool::EventloopPool`. -/
def EventloopPool.construct (loop : ℕ) : EventloopPool :=
  ⟨[some loop], [], 1, none, .construct 1⟩

/-- `setThreadNum`. -/
def EventloopPool.setThreadNum (p : EventloopPool) (n : ℤ) : EventloopPool := { p with num_ := n }

/-- A pool and the threads that start it. -/
structure System where
  /-- The pool. -/
  pool : EventloopPool
  /-- The base loop. -/
  base : ℕ
  /-- The starting thread. -/
  starter : Starter
  /-- Its variable. -/
  i : ℤ
  /-- The threads it created, in order. -/
  created : List PoolThread

/-- `start` is called on a pool of `num` loops. -/
def System.called (loop : ℕ) (num : ℤ) : System :=
  ⟨(EventloopPool.construct loop).setThreadNum num, loop, .test, 1, []⟩

/-- The loops that live. -/
def System.live (w : System) : List ℕ := w.base :: w.created.filterMap PoolThread.loop

/-- The starting thread leaves the loop of `latch_.wait()`, or is blocked in it. -/
def System.waited (w : System) (r : CountDownLatch Unit × Bool) : System :=
  { w with
    pool := { w.pool with latch_ := r.1 }
    starter := if r.2 then .push else .blocked }

/-- The next step of `start`. -/
def System.start (w : System) : Option System :=
  match w.starter with
  | .test =>
    if w.i < w.pool.num_ then
      some { w with pool := { w.pool with currentLoop_ := none }, starter := .create }
    else some { w with starter := .returned }
  | .create => some { w with starter := .spin, created := w.created ++ [.created] }
  | .spin =>
    if w.created.getLast?.any PoolThread.isRunning then some { w with starter := .wait } else some w
  | .wait => some (w.waited (w.pool.latch_.wait ()))
  | .blocked => (w.pool.latch_.resume ()).map w.waited
  | .push => some { w with
      pool := { w.pool with
        loops_ := w.pool.loops_ ++ [w.pool.currentLoop_]
        threads_ := w.pool.threads_ ++ [w.created.length - 1] }
      starter := .reset }
  | .reset => some { w with
      pool := { w.pool with latch_ := w.pool.latch_.setCount 1 }
      starter := .test
      i := w.i + 1 }
  | .returned => none

/-- The next step of a created thread; `address` is where it constructs its loop, beside
the loops that live. -/
def EventloopPool.thread (p : EventloopPool) (live : List ℕ) (address : ℕ) :
    PoolThread → Option (EventloopPool × PoolThread)
  | .created => some (p, .running)
  | .running => if address ∈ live then none else some (p, .constructed address)
  | .constructed loop => some ({ p with currentLoop_ := some loop }, .stored loop)
  | .stored loop => some ({ p with latch_ := p.latch_.countDown }, .counted loop)
  | .counted _ => none

/-- What can happen next. -/
inductive Event
  /-- The next step of the starting thread. -/
  | start
  /-- The starting thread wakes for no reason. -/
  | wake
  /-- The next step of a created thread. -/
  | thread (t address : ℕ)
  deriving DecidableEq

/-- One step. -/
def step (w : System) : Event → Option System
  | .start => w.start
  | .wake => (w.pool.latch_.wake ()).map fun l => { w with pool := { w.pool with latch_ := l } }
  | .thread t address => w.created[t]?.bind fun c =>
      (w.pool.thread w.live address c).map fun r =>
        { w with pool := r.1, created := w.created.set t r.2 }

/-- What `start` should leave: the base loop and after it those of the created threads, in
order, none null and no two the same, and a latch nobody will count down. -/
structure Started (w : System) (addresses : List ℕ) : Prop where
  /-- Every thread has its loop, and has counted down. -/
  threads : w.created = addresses.map .counted
  /-- The loops of the pool. -/
  loops : w.pool.loops_ = (w.base :: addresses).map some
  /-- They are different. -/
  distinct : (w.base :: addresses).Nodup
  /-- They are as many as the pool should have. -/
  num : (w.pool.loops_.length : ℤ) = w.pool.num_
  /-- The latch is as it was. -/
  count : w.pool.latch_.getCount = 1

/-- A step keeps the rounds apart. -/
structure Apart (w : System) (e : Event) (w' : System) : Prop where
  /-- Only the thread of the round counts down, once. -/
  counts : w'.pool.latch_.getCount < w.pool.latch_.getCount →
    w.pool.latch_.getCount = 1 ∧ w'.pool.latch_.getCount = 0 ∧
      ∃ t address, e = .thread t address ∧ w.i = t + 1
  /-- `wait` returns after the thread of the round has, and with its loop. -/
  waits : w.starter ≠ .push → w'.starter = .push →
    ∃ loop, w.created[(w.i - 1).toNat]? = some (.counted loop) ∧ w.pool.currentLoop_ = some loop

/-- What a step of `start` does, place by place. -/
inductive Moves (w : System) : System → Prop
  /-- Another round begins. -/
  | next (hs : w.starter = .test) (hlt : w.i < w.pool.num_) :
    Moves w { w with pool := { w.pool with currentLoop_ := none }, starter := .create }
  /-- There is none. -/
  | finish (hs : w.starter = .test) (hle : w.pool.num_ ≤ w.i) :
    Moves w { w with starter := .returned }
  /-- The thread of the round is created. -/
  | create (hs : w.starter = .create) :
    Moves w { w with starter := .spin, created := w.created ++ [.created] }
  /-- It does not run. -/
  | spin (hs : w.starter = .spin) : Moves w w
  /-- It runs. -/
  | running (hs : w.starter = .spin) : Moves w { w with starter := .wait }
  /-- The call of `wait`. -/
  | wait (hs : w.starter = .wait) : Moves w (w.waited (w.pool.latch_.wait ()))
  /-- The starting thread is no longer blocked. -/
  | resume (hs : w.starter = .blocked) {c : Condition Unit}
    (hc : w.pool.latch_.cond_.resume () = some c) :
    Moves w (w.waited (CountDownLatch.wait { w.pool.latch_ with cond_ := c } ()))
  /-- The loop of the round goes into the pool. -/
  | push (hs : w.starter = .push) : Moves w { w with
      pool := { w.pool with
        loops_ := w.pool.loops_ ++ [w.pool.currentLoop_]
        threads_ := w.pool.threads_ ++ [w.created.length - 1] }
      starter := .reset }
  /-- The latch is set back. -/
  | reset (hs : w.starter = .reset) : Moves w { w with
      pool := { w.pool with latch_ := w.pool.latch_.setCount 1 }
      starter := .test
      i := w.i + 1 }

/-- `start` does nothing else. -/
theorem moves_of_start {w w' : System} (h : w.start = some w') : Moves w w' := by
  unfold System.start at h
  cases hs : w.starter with
  | test =>
    rw [hs] at h
    dsimp only at h
    split at h
    · rename_i hlt
      cases h
      exact Moves.next hs hlt
    · rename_i hge
      cases h
      exact Moves.finish hs (not_lt.mp hge)
  | create =>
    rw [hs] at h
    cases h
    exact Moves.create hs
  | spin =>
    rw [hs] at h
    dsimp only at h
    split at h
    · cases h
      exact Moves.running hs
    · cases h
      exact Moves.spin hs
  | wait =>
    rw [hs] at h
    cases h
    exact Moves.wait hs
  | blocked =>
    rw [hs] at h
    obtain ⟨r, hr, rfl⟩ := Option.map_eq_some_iff.mp h
    obtain ⟨c, hc, rfl⟩ := Option.map_eq_some_iff.mp hr
    exact Moves.resume hs hc
  | push =>
    rw [hs] at h
    cases h
    exact Moves.push hs
  | reset =>
    rw [hs] at h
    cases h
    exact Moves.reset hs
  | returned =>
    rw [hs] at h
    cases h

/-! ### The rounds -/

/-- The threads of earlier rounds have counted down, and their loops are in the pool;
`rest` is the thread of the round, if there is one. -/
structure Books (w : System) (all : List ℕ) (rest : List PoolThread) : Prop where
  /-- The threads. -/
  created : w.created = all.map .counted ++ rest
  /-- The loops of the pool. -/
  loops : w.pool.loops_ = (w.base :: all).map some
  /-- The threads of the pool. -/
  threads : w.pool.threads_ = List.range all.length
  /-- No two loops that live have one address. -/
  distinct : (w.base :: all ++ rest.filterMap PoolThread.loop).Nodup

/-- What a thread still has to do before its round can end. -/
def Pending (p : EventloopPool) : PoolThread → Prop
  | .created => p.latch_.count_ = 1
  | .running => p.latch_.count_ = 1
  | .constructed _ => p.latch_.count_ = 1
  | .stored loop => p.latch_.count_ = 1 ∧ p.currentLoop_ = some loop
  | .counted loop => p.latch_.count_ = 0 ∧ p.currentLoop_ = some loop

/-- Between two rounds. -/
structure Idle (w : System) (all : List ℕ) : Prop extends Books w all [] where
  /-- The number of the next round. -/
  round : w.i = all.length + 1
  /-- The latch waits for one thread. -/
  count : w.pool.latch_.count_ = 1

/-- In the round of the thread `c`. -/
structure Busy (w : System) (all : List ℕ) (c : PoolThread) : Prop extends Books w all [c] where
  /-- The number of the round. -/
  round : w.i = all.length + 1
  /-- The round takes place. -/
  more : w.i < w.pool.num_
  /-- What the thread has done. -/
  pending : Pending w.pool c

/-- At the end of a round. -/
structure Ending (w : System) (all : List ℕ) : Prop extends Books w all [] where
  /-- The number of the round. -/
  round : w.i = all.length
  /-- The round took place. -/
  more : w.i < w.pool.num_
  /-- The latch was counted down. -/
  count : w.pool.latch_.count_ = 0

/-- What holds where the starting thread is. -/
def Round (w : System) : Prop :=
  match w.starter with
  | .test => ∃ all, Idle w all ∧ w.i ≤ w.pool.num_
  | .create => ∃ all, Idle w all ∧ w.i < w.pool.num_
  | .spin => ∃ all c, Busy w all c
  | .wait => ∃ all c, Busy w all c
  | .blocked => ∃ all c, Busy w all c
  | .push => ∃ all loop, Busy w all (.counted loop)
  | .reset => ∃ all, Ending w all
  | .returned => ∃ all, Idle w all ∧ w.i = w.pool.num_

variable {w w' : System} {all : List ℕ} {c c' : PoolThread} {p p' : EventloopPool} {t address : ℕ}

/-- The books are about the threads and what the pool has of them. -/
theorem Books.congr {rest : List PoolThread} (h : Books w all rest) (hcreated : w'.created = w.created)
    (hbase : w'.base = w.base) (hloops : w'.pool.loops_ = w.pool.loops_)
    (hthreads : w'.pool.threads_ = w.pool.threads_) : Books w' all rest := by
  refine ⟨hcreated.trans h.created, ?_, hthreads.trans h.threads, ?_⟩
  · rw [hloops, hbase, h.loops]
  · rw [hbase]
    exact h.distinct

/-- The thread of the round comes after all others. -/
theorem Books.getElem {rest : List PoolThread} (h : Books w all rest) (hc : w.created[t]? = some c)
    (hcount : ∀ loop, c ≠ .counted loop) :
    all.length ≤ t ∧ rest[t - all.length]? = some c := by
  rw [h.created] at hc
  rcases lt_or_ge t all.length with hlt | hge
  · rw [List.getElem?_append_left (by rwa [List.length_map]), List.getElem?_map] at hc
    obtain ⟨loop, _, hloop⟩ := Option.map_eq_some_iff.mp hc
    exact absurd hloop.symm (hcount loop)
  · rw [List.getElem?_append_right (by rwa [List.length_map]), List.length_map] at hc
    exact ⟨hge, hc⟩

/-- Without a round nobody has anything left to do. -/
theorem Books.not_idle (h : Books w all []) (hc : w.created[t]? = some c)
    (hcount : ∀ loop, c ≠ .counted loop) : False := by
  obtain ⟨_, hnone⟩ := h.getElem hc hcount
  cases hnone

/-- In a round it is its thread that has. -/
theorem Books.eq_of_getElem (h : Books w all [c']) (hc : w.created[t]? = some c)
    (hcount : ∀ loop, c ≠ .counted loop) : t = all.length ∧ c = c' := by
  obtain ⟨hle, hget⟩ := h.getElem hc hcount
  have hlt : t - all.length < 1 := (List.getElem?_eq_some_iff.mp hget).1
  have hzero : t - all.length = 0 := by omega
  rw [hzero] at hget
  cases hget
  exact ⟨by omega, rfl⟩

/-- A thread with something left to do is the one of a round that the starting thread
waits for. -/
theorem Round.busy (h : Round w) (hc : w.created[t]? = some c)
    (hcount : ∀ loop, c ≠ .counted loop) :
    (w.starter = .spin ∨ w.starter = .wait ∨ w.starter = .blocked) ∧
      ∃ all, t = all.length ∧ Busy w all c := by
  have hround : ∀ all c', Busy w all c' → ∃ all, t = all.length ∧ Busy w all c := by
    intro all c' hbusy
    obtain ⟨ht, heq⟩ := hbusy.toBooks.eq_of_getElem hc hcount
    exact ⟨all, ht, heq ▸ hbusy⟩
  unfold Round at h
  cases hs : w.starter with
  | test =>
    rw [hs] at h
    obtain ⟨all, hidle, _⟩ := h
    exact (hidle.toBooks.not_idle hc hcount).elim
  | create =>
    rw [hs] at h
    obtain ⟨all, hidle, _⟩ := h
    exact (hidle.toBooks.not_idle hc hcount).elim
  | spin =>
    rw [hs] at h
    obtain ⟨all, c', hbusy⟩ := h
    exact ⟨Or.inl rfl, hround all c' hbusy⟩
  | wait =>
    rw [hs] at h
    obtain ⟨all, c', hbusy⟩ := h
    exact ⟨Or.inr (Or.inl rfl), hround all c' hbusy⟩
  | blocked =>
    rw [hs] at h
    obtain ⟨all, c', hbusy⟩ := h
    exact ⟨Or.inr (Or.inr rfl), hround all c' hbusy⟩
  | push =>
    rw [hs] at h
    obtain ⟨all, loop, hbusy⟩ := h
    exact absurd (hbusy.toBooks.eq_of_getElem hc hcount).2 (hcount loop)
  | reset =>
    rw [hs] at h
    obtain ⟨all, hending⟩ := h
    exact (hending.toBooks.not_idle hc hcount).elim
  | returned =>
    rw [hs] at h
    obtain ⟨all, hidle, _⟩ := h
    exact (hidle.toBooks.not_idle hc hcount).elim

/-- In these places the starting thread waits for the thread of a round. -/
theorem round_of_busy (hs : w.starter = .spin ∨ w.starter = .wait ∨ w.starter = .blocked)
    (h : Busy w all c) : Round w := by
  unfold Round
  rcases hs with hs | hs | hs <;> rw [hs] <;> exact ⟨all, c, h⟩

/-! ### The steps of a created thread -/

/-- The loops that live. -/
theorem Books.live {rest : List PoolThread} (h : Books w all rest) :
    w.live = w.base :: all ++ rest.filterMap PoolThread.loop := by
  have hcounted : (all.map PoolThread.counted).filterMap PoolThread.loop = all := by
    rw [List.filterMap_map]
    exact List.filterMap_some
  unfold System.live
  rw [h.created, List.filterMap_append, hcounted, List.cons_append]

/-- The thread of the round takes a step. -/
theorem Books.set (h : Books w all [c]) (hloops : p'.loops_ = w.pool.loops_)
    (hthreads : p'.threads_ = w.pool.threads_)
    (hdistinct : (w.base :: all ++ [c'].filterMap PoolThread.loop).Nodup) :
    Books { w with pool := p', created := w.created.set all.length c' } all [c'] := by
  refine ⟨?_, hloops.trans h.loops, hthreads.trans h.threads, hdistinct⟩
  dsimp only
  rw [h.created, List.set_append_right _ _ (List.length_map _).le, List.length_map, Nat.sub_self]
  rfl

/-- It keeps what is known of the round. -/
theorem Busy.thread (h : Busy w all c)
    (hthread : w.pool.thread w.live address c = some (p', c')) :
    Busy { w with pool := p', created := w.created.set all.length c' } all c' := by
  unfold EventloopPool.thread at hthread
  cases c with
  | created =>
    cases hthread
    exact ⟨h.toBooks.set rfl rfl h.distinct, h.round, h.more, h.pending⟩
  | running =>
    dsimp only at hthread
    split at hthread
    · cases hthread
    · rename_i hfree
      cases hthread
      -- the new loop is beside those that live
      rw [h.toBooks.live] at hfree
      have hdistinct : (w.base :: all ++ [address]).Nodup := by
        refine List.nodup_append.mpr ⟨?_, List.nodup_singleton address, fun x hx y hy heq => ?_⟩
        · exact (List.append_nil (w.base :: all)) ▸ h.distinct
        · rw [heq, List.mem_singleton.mp hy] at hx
          exact hfree (List.mem_append_left _ hx)
      exact ⟨h.toBooks.set rfl rfl hdistinct, h.round, h.more, h.pending⟩
  | constructed loop =>
    cases hthread
    exact ⟨h.toBooks.set rfl rfl h.distinct, h.round, h.more, h.pending, rfl⟩
  | stored loop =>
    cases hthread
    obtain ⟨hcount, hcurrent⟩ := h.pending
    refine ⟨h.toBooks.set rfl rfl h.distinct, h.round, h.more, ?_, hcurrent⟩
    change w.pool.latch_.count_ - 1 = 0
    omega
  | counted loop => cases hthread

/-- A thread that takes a step has something left to do. -/
theorem ne_counted_of_thread {p : EventloopPool} {live : List ℕ}
    (hthread : p.thread live address c = some (p', c')) (loop : ℕ) : c ≠ .counted loop := by
  rintro rfl
  cases hthread

/-- Every step of a created thread is one in its own round. -/
theorem Round.thread (h : Round w) (hc : w.created[t]? = some c)
    (hthread : w.pool.thread w.live address c = some (p', c')) :
    Round { w with pool := p', created := w.created.set t c' } := by
  obtain ⟨hs, all, ht, hbusy⟩ := h.busy hc (ne_counted_of_thread hthread)
  subst ht
  exact round_of_busy hs (hbusy.thread hthread)

/-! ### The steps of the starting thread -/

/-- The latch waits for the thread of the round, or it has counted down. -/
theorem Pending.count (h : Pending p c) : p.latch_.count_ = 1 ∨
    ∃ loop, c = .counted loop ∧ p.latch_.count_ = 0 ∧ p.currentLoop_ = some loop := by
  cases c with
  | created => exact Or.inl h
  | running => exact Or.inl h
  | constructed loop => exact Or.inl h
  | stored loop => exact Or.inl h.1
  | counted loop => exact Or.inr ⟨loop, rfl, h⟩

/-- Only the count and the pointer matter. -/
theorem Pending.congr (h : Pending p c) (hcount : p'.latch_.count_ = p.latch_.count_)
    (hcurrent : p'.currentLoop_ = p.currentLoop_) : Pending p' c := by
  cases c with
  | created => exact hcount.trans h
  | running => exact hcount.trans h
  | constructed loop => exact hcount.trans h
  | stored loop => exact ⟨hcount.trans h.1, hcurrent.trans h.2⟩
  | counted loop => exact ⟨hcount.trans h.1, hcurrent.trans h.2⟩

/-- The loop of `wait` is left once the thread of the round has counted down. -/
theorem Busy.waited (h : Busy w all c) {l : CountDownLatch Unit}
    (hl : l.count_ = w.pool.latch_.count_) : Round (w.waited (l.wait ())) := by
  have hcount := (CountDownLatch.count_wait l ()).trans hl
  have hkeep : Busy (w.waited (l.wait ())) all c :=
    ⟨h.toBooks.congr rfl rfl rfl rfl, h.round, h.more, h.pending.congr hcount rfl⟩
  rcases h.pending.count with hone | ⟨loop, rfl, hzero, _⟩
  · have hblocked : (w.waited (l.wait ())).starter = .blocked := by
      rw [CountDownLatch.wait_of_pos (by omega)]
      rfl
    exact round_of_busy (Or.inr (Or.inr hblocked)) hkeep
  · have hpush : (w.waited (l.wait ())).starter = .push := by
      rw [CountDownLatch.wait_of_nonpos (by omega)]
      rfl
    unfold Round
    rw [hpush]
    exact ⟨all, loop, hkeep⟩

/-- The loop of the round goes into the pool. -/
theorem Busy.push {loop : ℕ} (h : Busy w all (.counted loop)) :
    Ending { w with
      pool := { w.pool with
        loops_ := w.pool.loops_ ++ [w.pool.currentLoop_]
        threads_ := w.pool.threads_ ++ [w.created.length - 1] }
      starter := .reset } (all ++ [loop]) := by
  obtain ⟨hzero, hcurrent⟩ := h.pending
  have hlength : w.created.length - 1 = all.length := by
    rw [h.created, List.length_append, List.length_map]
    exact Nat.add_sub_cancel _ 1
  refine ⟨⟨?_, ?_, ?_, ?_⟩, ?_, h.more, hzero⟩
  · dsimp only
    rw [h.created, List.map_append, List.append_nil]
    rfl
  · dsimp only
    rw [h.loops, hcurrent, ← List.cons_append, List.map_append]
    rfl
  · dsimp only
    rw [h.threads, hlength, List.length_append, List.length_singleton, List.range_succ]
  · rw [List.filterMap_nil, List.append_nil]
    exact h.distinct
  · dsimp only
    rw [h.round, List.length_append, List.length_singleton]
    push_cast
    rfl

/-- A thread is created. -/
theorem Idle.create (h : Idle w all) (hmore : w.i < w.pool.num_) :
    Busy { w with starter := .spin, created := w.created ++ [.created] } all .created := by
  refine ⟨⟨?_, h.loops, h.threads, h.distinct⟩, h.round, hmore, h.count⟩
  dsimp only
  rw [h.created, List.append_nil]

/-- Every step of `start` is one of the round it is in. -/
theorem Round.start (h : Round w) (hstart : w.start = some w') : Round w' := by
  have hround := h
  unfold Round at h
  cases moves_of_start hstart with
  | next hs hlt =>
    rw [hs] at h
    obtain ⟨all, hidle, _⟩ := h
    exact ⟨all, ⟨hidle.toBooks.congr rfl rfl rfl rfl, hidle.round, hidle.count⟩, hlt⟩
  | finish hs hge =>
    rw [hs] at h
    obtain ⟨all, hidle, hle⟩ := h
    exact ⟨all, ⟨hidle.toBooks.congr rfl rfl rfl rfl, hidle.round, hidle.count⟩,
      le_antisymm hle hge⟩
  | create hs =>
    rw [hs] at h
    obtain ⟨all, hidle, hlt⟩ := h
    exact ⟨all, .created, hidle.create hlt⟩
  | spin hs => exact hround
  | running hs =>
    rw [hs] at h
    obtain ⟨all, c, hbusy⟩ := h
    have hbooks := hbusy.toBooks
    exact ⟨all, c, hbooks.congr rfl rfl rfl rfl, hbusy.round, hbusy.more, hbusy.pending⟩
  | wait hs =>
    rw [hs] at h
    obtain ⟨all, c, hbusy⟩ := h
    exact hbusy.waited rfl
  | resume hs hc =>
    rw [hs] at h
    obtain ⟨all, c, hbusy⟩ := h
    exact hbusy.waited rfl
  | push hs =>
    rw [hs] at h
    obtain ⟨all, loop, hbusy⟩ := h
    exact ⟨all ++ [loop], hbusy.push⟩
  | reset hs =>
    rw [hs] at h
    obtain ⟨all, hending⟩ := h
    have hround : w.i + 1 = all.length + 1 := congrArg (fun i => i + 1) hending.round
    exact ⟨all, ⟨hending.toBooks.congr rfl rfl rfl rfl, hround, rfl⟩, hending.more⟩

end KKNet.PoolStart
