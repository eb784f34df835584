import KKNet.PoolHandshake
import KKNet.Progress

/-!
# The end of `start`

Wherever the threads are, some step is possible that leaves less to do: the thread of
the round has one until it has counted down, and then the starting thread has, for it
is not blocked in the latch. So `start` can always return.
-/

namespace KKNet.PoolStart

open Runs Monitors CountDownLatches

variable {w w' : System} {all : List ℕ} {c c' : PoolThread} {p p' : EventloopPool} {t address : ℕ}

/-- The steps `start` has left in a round. -/
def Starter.left : Starter → ℕ
  | .returned => 0
  | .reset => 1
  | .push => 2
  | .blocked => 3
  | .wait => 4
  | .spin => 5
  | .create => 10
  | .test => 11

/-- The steps a thread has left before it loops. -/
def PoolThread.left : PoolThread → ℕ
  | .counted _ => 0
  | .stored _ => 1
  | .constructed _ => 2
  | .running => 3
  | .created => 4

/-- The steps that are left, with the rounds to come. -/
def System.left (w : System) : ℕ :=
  12 * (w.pool.num_ - w.i).toNat + w.starter.left + (w.created.map PoolThread.left).sum

/-- The starting thread goes on to `place`. -/
theorem left_lt {s : Starter} (place : Starter) (hcreated : w'.created = w.created)
    (hi : w'.i = w.i) (hnum : w'.pool.num_ = w.pool.num_) (hs : w.starter = s)
    (hplace : w'.starter = place) (hlt : place.left < s.left) : w'.left < w.left := by
  unfold System.left
  rw [hcreated, hi, hnum, hs, hplace]
  omega

/-- Threads that have counted down have nothing left. -/
theorem Books.left {rest : List PoolThread} (h : Books w all rest) :
    (w.created.map PoolThread.left).sum = (rest.map PoolThread.left).sum := by
  have hzero : ∀ all : List ℕ, ((all.map PoolThread.counted).map PoolThread.left).sum = 0 := by
    intro all
    induction all with
    | nil => rfl
    | cons loop all ih =>
      rw [List.map_cons, List.map_cons, List.sum_cons, ih]
      rfl
  rw [h.created, List.map_append, List.sum_append, hzero, Nat.zero_add]

/-- A thread that has not counted down can take a step. -/
theorem exists_thread (p : EventloopPool) (live : List ℕ) (hcount : ∀ loop, c ≠ .counted loop) :
    ∃ address p' c', p.thread live address c = some (p', c') ∧ p'.num_ = p.num_ ∧
      c'.left < c.left := by
  cases c with
  | created => exact ⟨0, _, _, rfl, rfl, by decide⟩
  | running =>
    obtain ⟨address, hfree⟩ := Infinite.exists_notMem_finset live.toFinset
    rw [List.mem_toFinset] at hfree
    exact ⟨address, _, _, if_neg hfree, rfl, Nat.lt_succ_self _⟩
  | constructed loop => exact ⟨0, _, _, rfl, rfl, Nat.lt_succ_self _⟩
  | stored loop => exact ⟨0, _, _, rfl, rfl, Nat.lt_succ_self _⟩
  | counted loop => exact absurd rfl (hcount loop)

/-- While its thread has something left to do, a round can go on. -/
theorem Busy.exists_thread (h : Busy w all c) (hcount : ∀ loop, c ≠ .counted loop) :
    ∃ e w', PoolStart.step w e = some w' ∧ w'.left < w.left := by
  obtain ⟨address, p', c', hthread, hnum, hlt⟩ := PoolStart.exists_thread w.pool w.live hcount
  have hget : w.created[all.length]? = some c := by
    rw [h.created, List.getElem?_append_right (List.length_map _).le, List.length_map, Nat.sub_self]
    rfl
  have hstep : step w (.thread all.length address) =
      some { w with pool := p', created := w.created.set all.length c' } := by
    unfold PoolStart.step
    dsimp only
    rw [hget, Option.bind_some, hthread]
    rfl
  refine ⟨_, _, hstep, ?_⟩
  have hleft := (h.thread hthread).toBooks.left
  unfold System.left
  rw [hleft, h.toBooks.left]
  dsimp only
  rw [hnum, List.map_singleton, List.map_singleton, List.sum_singleton, List.sum_singleton]
  omega

/-- Once its thread has counted down, the starting thread can go on. -/
theorem Inv.exists_start {loop : ℕ} (h : Inv w) (hbusy : Busy w all (.counted loop))
    (hs : w.starter = .spin ∨ w.starter = .wait ∨ w.starter = .blocked) :
    ∃ e w', PoolStart.step w e = some w' ∧ w'.left < w.left := by
  have hzero : w.pool.latch_.count_ ≤ 0 := hbusy.pending.1.le
  refine ⟨.start, ?_⟩
  unfold PoolStart.step System.start
  rcases hs with hs | hs | hs
  · have hlast : w.created.getLast? = some (.counted loop) := by
      rw [hbusy.created]
      exact List.getLast?_concat
    rw [hs, hlast]
    exact ⟨_, rfl, left_lt .wait rfl rfl rfl hs rfl (by decide)⟩
  · rw [hs]
    dsimp only
    rw [CountDownLatch.wait_of_nonpos hzero]
    exact ⟨_, rfl, left_lt .push rfl rfl rfl hs rfl (by decide)⟩
  · obtain ⟨cond, _, hresume⟩ := h.tight.returns hzero ((h.inside.mem_iff ()).mpr hs)
    rw [hs]
    dsimp only
    rw [hresume]
    exact ⟨_, rfl, left_lt .push rfl rfl rfl hs rfl (by decide)⟩

/-- Until `start` has returned, some step leaves less to do. -/
theorem Inv.progress (h : Inv w) (hrun : w.starter ≠ .returned) :
    ∃ e w', PoolStart.step w e = some w' ∧ w'.left < w.left := by
  have hround := h.round
  unfold Round at hround
  have hbusy : ∀ all c, Busy w all c →
      w.starter = .spin ∨ w.starter = .wait ∨ w.starter = .blocked →
      ∃ e w', PoolStart.step w e = some w' ∧ w'.left < w.left := by
    intro all c hbusy hs
    by_cases hcount : ∃ loop, c = .counted loop
    · obtain ⟨loop, rfl⟩ := hcount
      exact h.exists_start hbusy hs
    · exact hbusy.exists_thread fun loop heq => hcount ⟨loop, heq⟩
  cases hs : w.starter with
  | test =>
    refine ⟨.start, ?_⟩
    unfold PoolStart.step System.start
    rw [hs]
    dsimp only
    split
    · exact ⟨_, rfl, left_lt .create rfl rfl rfl hs rfl (by decide)⟩
    · exact ⟨_, rfl, left_lt .returned rfl rfl rfl hs rfl (by decide)⟩
  | create =>
    have hstep : PoolStart.step w .start =
        some { w with starter := .spin, created := w.created ++ [.created] } := by
      unfold PoolStart.step System.start
      rw [hs]
    refine ⟨.start, _, hstep, ?_⟩
    unfold System.left
    rw [hs, List.map_append, List.sum_append, List.map_singleton, List.sum_singleton]
    dsimp only [Starter.left, PoolThread.left]
    omega
  | spin =>
    rw [hs] at hround
    obtain ⟨all, c, hopen⟩ := hround
    exact hbusy all c hopen (Or.inl hs)
  | wait =>
    rw [hs] at hround
    obtain ⟨all, c, hopen⟩ := hround
    exact hbusy all c hopen (Or.inr (Or.inl hs))
  | blocked =>
    rw [hs] at hround
    obtain ⟨all, c, hopen⟩ := hround
    exact hbusy all c hopen (Or.inr (Or.inr hs))
  | push =>
    refine ⟨.start, ?_⟩
    unfold PoolStart.step System.start
    rw [hs]
    exact ⟨_, rfl, left_lt .reset rfl rfl rfl hs rfl (by decide)⟩
  | reset =>
    rw [hs] at hround
    obtain ⟨all, hending⟩ := hround
    have hmore := hending.more
    have hstep : PoolStart.step w .start = some { w with
        pool := { w.pool with latch_ := w.pool.latch_.setCount 1 }
        starter := .test
        i := w.i + 1 } := by
      unfold PoolStart.step System.start
      rw [hs]
    refine ⟨.start, _, hstep, ?_⟩
    unfold System.left
    rw [hs]
    dsimp only [Starter.left]
    omega
  | returned => exact absurd hs hrun

/-- From every state a run can go on until `start` returns. -/
theorem Inv.returns (h : Inv w) :
    ∃ events w', run PoolStart.step w events = some w' ∧ Inv w' ∧ w'.starter = .returned := by
  refine exists_run_of_progress System.left (fun w hw hs => ?_) h
  obtain ⟨e, w₁, he, hlt⟩ := hw.progress hs
  exact ⟨e, w₁, he, hw.step he, hlt⟩

/-- Whatever the threads have done so far, they can go on until `start` returns, and the
pool is started then. -/
theorem start_can_return (loop : ℕ) {num : ℤ} (hnum : 1 ≤ num) {events : List Event}
    (hrun : run step (System.called loop num) events = some w) :
    ∃ rest w' addresses, run step w rest = some w' ∧ w'.starter = .returned ∧
      Started w' addresses := by
  have hw : Inv w := invariant Inv (fun _ _ _ h he => h.step he) (inv_called loop hnum) hrun
  obtain ⟨rest, w', hrest, hw', hs⟩ := hw.returns
  obtain ⟨addresses, hstarted⟩ := hw'.started hs
  exact ⟨rest, w', addresses, hrest, hs, hstarted⟩

/-- The starting thread is blocked while the thread it created runs its function. -/
def waiting : List Event := [.start, .start, .thread 0 7, .start, .start]

/-- From there `start` can return. -/
theorem start_can_return_waiting :
    ∃ w rest w', run step (System.called 3 2) waiting = some w ∧ w.starter = .blocked ∧
      run step w rest = some w' ∧ w'.starter = .returned := by
  have hnum : (1 : ℤ) ≤ 2 := by decide
  have hrun : run step (System.called 3 2) waiting = some _ := rfl
  obtain ⟨rest, w', _, hrest, hs, _⟩ := start_can_return 3 hnum hrun
  exact ⟨_, rest, w', hrun, rfl, hrest, hs⟩

/-- The pool that `getNextEvent` chooses from. -/
theorem Started.pool {addresses : List ℕ} (h : Started w addresses) :
    w.pool.loops_ = (EventloopPools.EventloopPool.started w.base addresses).loops_.map some ∧
      w.pool.num_ = (EventloopPools.EventloopPool.started w.base addresses).num_ := by
  have hnum := h.num
  rw [h.loops, List.length_map, List.length_cons] at hnum
  refine ⟨h.loops, hnum.symm.trans ?_⟩
  push_cast
  rfl

end KKNet.PoolStart
