import KKNet.Progress
import KKNet.ThreadPool

/-!
# When a thread pool gets stuck

The workers are also producers: a task may put tasks of its own, and waits where the
queue is full. While one worker is not waiting like that, the pool can go on until
everything that was put has been run. Once all of them are, it is stuck for ever, for
nobody else takes tasks.
-/

namespace KKNet.ThreadPools

open Runs Monitors
open BlockingQueues (Call Enters Left Moves SetOnce Consistent Sound Unused toSizeT moves_of_step)

variable {τ α : Type}

/-! ### Producers and the free slots -/

/-- The state of the queue, whatever its bound, while `j` producers that were picked have
the mutex. -/
structure Slotted (m : Int32) (j : ℕ) (w : BlockingQueues.System τ α) : Prop where
  /-- The bound is in force. -/
  bound : w.queue.maxQueueSize_ = m
  /-- Without a bound nobody waits. -/
  unbounded : m = 0 → w.queue.notFull_.members = []
  /-- Producers are on their way to the free slots. -/
  slots : m ≠ 0 → w.queue.notFull_.Covers (toSizeT m - w.queue.queue_.length - j)

/-- A bound other than zero leaves a slot at least. -/
theorem toSizeT_pos {m : Int32} (hm : m ≠ 0) : 0 < toSizeT m := by
  have hlt : m.toInt < 2 ^ 31 := Int32.toInt_lt m
  have hle : -2 ^ 31 ≤ m.toInt := Int32.le_toInt m
  have hne : m.toInt ≠ 0 := fun h => hm (Int32.toInt_inj.mp h)
  unfold toSizeT
  omega

variable [DecidableEq τ] {w w' : BlockingQueues.System τ α} {t : τ} {x : α} {pick : Option τ}
  {m : Int32} {j : ℕ}

omit [DecidableEq τ] in
/-- A producer may have the mutex in any state. -/
theorem Slotted.producing (hw : Slotted m 0 w) : Slotted m 1 w :=
  { hw with slots := fun hm => (hw.slots hm).mono (Nat.sub_le _ 1) }

/-- `push_back`. -/
theorem Slotted.pushBack (hw : Slotted m 1 w) (h : w.pushBack t x pick = some w') :
    Slotted m 0 w' := by
  obtain ⟨c, hc, rfl⟩ := Option.map_eq_some_iff.mp h
  refine ⟨hw.bound, hw.unbounded, fun hm => (hw.slots hm).mono ?_⟩
  dsimp only
  rw [List.length_append, List.length_singleton]
  omega

/-- The loop of `put`. -/
theorem Slotted.putLoop (hw : Slotted m 1 w) (hm : m ≠ 0) (h : w.putLoop t x pick = some w') :
    Slotted m 0 w' := by
  unfold BlockingQueues.System.putLoop at h
  split at h
  · rename_i hfull
    cases h
    unfold BlockingQueues.BlockingQueue.full at hfull
    rw [hw.bound] at hfull
    exact ⟨hw.bound, fun hz => absurd hz hm, fun _ => (Condition.covers_wait _ t).mono
      (by dsimp only [BlockingQueues.System.waitFull]; omega)⟩
  · exact hw.pushBack h

/-- `put`. -/
theorem Slotted.putSection (hw : Slotted m 0 w) (h : w.putSection t x pick = some w') :
    Slotted m 0 w' := by
  unfold BlockingQueues.System.putSection at h
  split at h
  · rename_i hm
    exact hw.producing.putLoop (hw.bound ▸ hm) h
  · exact hw.producing.pushBack h

/-- The loop of `take`. -/
theorem Slotted.takeLoop (hw : Slotted m 0 w) (h : w.takeLoop t pick = some w') :
    Slotted m 0 w' := by
  unfold BlockingQueues.System.takeLoop at h
  split at h
  · cases h
    exact ⟨hw.bound, hw.unbounded, hw.slots⟩
  · rename_i front rest hq
    obtain ⟨c, hc, rfl⟩ := Option.map_eq_some_iff.mp h
    have hlen : w.queue.queue_.length = rest.length + 1 := by rw [hq, List.length_cons]
    rw [hw.bound] at hc
    refine ⟨hw.bound, fun hm => ?_, fun hm => ?_⟩
    · rw [if_neg (not_not.mpr hm)] at hc
      cases hc
      exact hw.unbounded hm
    · rw [if_pos hm] at hc
      exact ((hw.slots hm).notify hc).mono (by dsimp only; omega)

/-- Every step with the bound set keeps this. -/
theorem Slotted.step {e : BlockingQueues.Event τ α} (hw : Slotted m 0 w)
    (hset : ∀ size, e ≠ .setMaxQueueSize size) (h : BlockingQueues.step w e = some w') :
    Slotted m 0 w' := by
  unfold BlockingQueues.step at h
  cases e with
  | setMaxQueueSize size => exact absurd rfl (hset size)
  | put t x pick =>
    dsimp only at h
    split at h
    · exact hw.putSection h
    · cases h
  | take t pick =>
    dsimp only at h
    split at h
    · exact hw.takeLoop h
    · cases h
  | resume t pick =>
    dsimp only at h
    split at h
    · cases h
    · obtain ⟨c, hc, h⟩ := Option.bind_eq_some_iff.mp h
      have hm : m ≠ 0 := fun hz => by
        have hperm := Condition.members_resume hc
        rw [hw.unbounded hz] at hperm
        cases hperm.nil_eq
      have hin : Slotted m 1 { w with queue := { w.queue with notFull_ := c } } :=
        ⟨hw.bound, fun hz => absurd hz hm, fun _ => (hw.slots hm).resume hc⟩
      exact hin.putLoop hm h
    · obtain ⟨c, hc, h⟩ := Option.bind_eq_some_iff.mp h
      have hin : Slotted m 0 { w with queue := { w.queue with notEmpty_ := c } } :=
        ⟨hw.bound, hw.unbounded, hw.slots⟩
      exact hin.takeLoop h
  | wake t =>
    dsimp only at h
    split at h
    · cases h
    · obtain ⟨c, hc, rfl⟩ := Option.map_eq_some_iff.mp h
      refine ⟨hw.bound, fun hz => ?_, fun hm => (hw.slots hm).wake hc⟩
      have hperm := Condition.members_wake hc
      rw [hw.unbounded hz] at hperm
      exact hperm.eq_nil
    · obtain ⟨c, hc, rfl⟩ := Option.map_eq_some_iff.mp h
      exact ⟨hw.bound, hw.unbounded, hw.slots⟩

omit [DecidableEq τ] in
/-- An unused queue with its bound set. -/
theorem slotted_unused (hw : Unused w) (m : Int32) :
    Slotted m 0 { w with queue := w.queue.setMaxQueueSize m } := by
  have hempty : w.queue.notFull_.members = [] := by
    rw [hw.producers]
    rfl
  refine ⟨rfl, fun _ => hempty, fun _ => ?_⟩
  dsimp only [BlockingQueues.BlockingQueue.setMaxQueueSize]
  rw [hw.producers]
  exact Condition.covers_fresh _

/-! ### What the workers still have to do -/

namespace ThreadPool

/-- The workers that run nothing and are in no call. -/
def idle (p : ThreadPool τ α) : Finset ℕ :=
  (Finset.range p.threads_).filter fun i => p.running i = none ∧ p.queue_.calls (.worker i) = none

/-- What the pool may do before somebody puts a task, or a thread wakes for no reason. -/
def potential (p : ThreadPool τ α) : ℕ :=
  p.queue_.potential + 2 * (p.threadSize_ - p.threads_) + p.idle.card + 2 * p.tasks.length

end ThreadPool

/-- The event is the pool's own: it goes on with what was put and creates its workers. -/
def Event.own : Event τ α → Bool
  | .start | .take _ _ | .resume _ _ | .finish _ => true
  | .setMaxQueueSize _ | .put _ _ _ | .wake _ => false

/-- What an event adds to the potential. -/
def Event.gain : Event τ α → ℕ
  | .put _ _ _ => 5
  | .wake _ => 1
  | _ => 0

variable {p p' : ThreadPool τ α} {e : Event τ α} {events : List (Event τ α)} {i : ℕ}

omit [DecidableEq τ] in
theorem mem_idle : i ∈ p.idle ↔
    i < p.threads_ ∧ p.running i = none ∧ p.queue_.calls (.worker i) = none := by
  unfold ThreadPool.idle
  rw [Finset.mem_filter, Finset.mem_range]

/-- A section makes nobody idle. -/
theorem idle_of_section {t : Thread τ} {call : Option (Call α)} (hthreads : p'.threads_ = p.threads_)
    (hcalls : p'.queue_.calls = Function.update p.queue_.calls t call)
    (hothers : ∀ j, t ≠ .worker j → p'.running j = p.running j)
    (hbusy : ∀ j, t = .worker j → p'.running j = none → call ≠ none) : p'.idle ⊆ p.idle := by
  intro j hj
  obtain ⟨hlt, hnone, hcall⟩ := mem_idle.mp hj
  rw [hcalls] at hcall
  by_cases ht : t = .worker j
  · subst ht
    rw [Function.update_self] at hcall
    exact absurd hcall (hbusy j rfl hnone)
  · rw [Function.update_of_ne (Ne.symm ht)] at hcall
    exact mem_idle.mpr ⟨hthreads ▸ hlt, hothers j ht ▸ hnone, hcall⟩

/-- A worker that calls `take` is no longer idle. -/
theorem idle_take {pick : Option (Thread τ)} (he : step p (.take i pick) = some p') :
    i ∈ p.idle ∧ i ∉ p'.idle := by
  unfold step at he
  dsimp only at he
  split at he
  · rename_i hidle
    obtain ⟨q, hq, rfl⟩ := Option.map_eq_some_iff.mp he
    have hm := moves_of_step hq
    cases hm with
    | bound size hset => cases hset
    | woken t hwake => cases hwake
    | waitFull t x henters => cases henters
    | pushBack t x henters => cases henters
    | waitEmpty t henters hempty hleft =>
      cases henters with
      | take t pick hout =>
        refine ⟨mem_idle.mpr ⟨hidle.1, hidle.2, hout⟩, fun hmem => ?_⟩
        rw [after_of_same hleft.taken] at hmem
        have hcall := (mem_idle.mp hmem).2.2
        dsimp only at hcall
        rw [hleft.calls, Function.update_self] at hcall
        cases hcall
    | popFront t front rest henters hitems hleft =>
      cases henters with
      | take t pick hout =>
        refine ⟨mem_idle.mpr ⟨hidle.1, hidle.2, hout⟩, fun hmem => ?_⟩
        rw [after_of_pop hleft.taken] at hmem
        have hnone := (mem_idle.mp hmem).2.1
        dsimp only at hnone
        rw [Function.update_self] at hnone
        cases hnone
  · cases he

/-- Only a new worker and one whose task returns become idle. -/
theorem idle_step (hp : Inv p) (he : step p e = some p') :
    p'.idle ⊆ p.idle ∨ (e = .start ∧ p'.idle ⊆ insert p.threads_ p.idle) ∨
      ∃ i, e = .finish i ∧ p'.idle ⊆ insert i p.idle := by
  cases acts_of_step he with
  | bound size hset => exact Or.inl (Finset.Subset.refl _)
  | woken q hcalls hitems hput htaken hbound =>
    refine Or.inl fun j hj => ?_
    obtain ⟨hlt, hnone, hcall⟩ := mem_idle.mp hj
    dsimp only at hcall
    rw [hcalls] at hcall
    exact mem_idle.mpr ⟨hlt, hnone, hcall⟩
  | start hstart hlt =>
    refine Or.inr (Or.inl ⟨hstart, fun j hj => ?_⟩)
    obtain ⟨hlt, hnone, hcall⟩ := mem_idle.mp hj
    rcases Nat.lt_succ_iff_lt_or_eq.mp hlt with hlt | heq
    · exact Finset.mem_insert_of_mem (mem_idle.mpr ⟨hlt, hnone, hcall⟩)
    · exact heq ▸ Finset.mem_insert_self _ _
  | block s call q hallowed hfull hleft =>
    exact Or.inl (idle_of_section rfl hleft.calls (fun _ _ => rfl) fun _ _ _ h => by cases h)
  | push s y q hallowed hfree hleft =>
    refine Or.inl (idle_of_section rfl hleft.calls (fun _ _ => rfl) ?_)
    rintro j rfl hnone
    have hrun := hp.putter hallowed
    rw [hnone] at hrun
    cases hrun
  | pop s front rest q hallowed hitems hleft =>
    obtain ⟨j, rfl, hj, hidle⟩ := hp.taker hallowed
    rw [after_of_pop hleft.taken]
    refine Or.inl (idle_of_section rfl hleft.calls (fun k hk => ?_) ?_)
    · exact Function.update_of_ne (fun heq => hk (congrArg Thread.worker heq.symm)) _ _
    · rintro k heq hnone
      cases heq
      dsimp only at hnone
      rw [Function.update_self] at hnone
      cases hnone
  | finish i x hfinish hrunning hout =>
    refine Or.inr (Or.inr ⟨i, hfinish, fun j hj => ?_⟩)
    obtain ⟨hlt, hnone, hcall⟩ := mem_idle.mp hj
    by_cases hji : j = i
    · exact hji ▸ Finset.mem_insert_self _ _
    · dsimp only at hnone
      rw [Function.update_of_ne hji] at hnone
      exact Finset.mem_insert_of_mem (mem_idle.mpr ⟨hlt, hnone, hcall⟩)

/-- A section leaves the workers and what has returned alone. -/
theorem section_frame (hp : Inv p) (he : step p e = some p') (hstart : e ≠ .start)
    (hfinish : ∀ i, e ≠ .finish i) :
    p'.threads_ = p.threads_ ∧ p'.threadSize_ = p.threadSize_ ∧ p'.finished = p.finished ∧
      p.queue_.taken.length ≤ p'.queue_.taken.length := by
  cases acts_of_step he with
  | bound size hset => exact ⟨rfl, rfl, rfl, le_rfl⟩
  | woken q hcalls hitems hput htaken hbound => exact ⟨rfl, rfl, rfl, (congrArg _ htaken).ge⟩
  | start hs hlt => exact absurd hs hstart
  | block s call q hallowed hfull hleft => exact ⟨rfl, rfl, rfl, (congrArg _ hleft.taken).ge⟩
  | push s y q hallowed hfree hleft => exact ⟨rfl, rfl, rfl, (congrArg _ hleft.taken).ge⟩
  | pop s front rest q hallowed hitems hleft =>
    obtain ⟨j, rfl, hj, hidle⟩ := hp.taker hallowed
    rw [after_of_pop hleft.taken]
    refine ⟨rfl, rfl, rfl, ?_⟩
    dsimp only
    rw [hleft.taken, List.length_append]
    exact Nat.le_add_right _ _
  | finish i x hf hrunning hout => exact absurd hf (hfinish i)

omit [DecidableEq τ] in
/-- How many tasks were started. -/
theorem Inv.started (hp : Inv p) :
    p.queue_.taken.length = p.finished.length + p.tasks.length := by
  rw [hp.accounts.length_eq, List.length_append]

/-- The pool's own steps are paid out of its potential, and only tasks that are put and
threads that wake for no reason add to it. -/
theorem potential_step (hp : Inv p) (he : step p e = some p') :
    p'.potential + e.own.toNat ≤ p.potential + e.gain := by
  have hstarted := hp.started
  have hstarted' := (hp.step he).started
  have hidle := idle_step hp he
  have hq := queue_step he
  unfold ThreadPool.potential
  cases e with
  | setMaxQueueSize size | put t x pick | resume t pick | wake t =>
    obtain ⟨hthreads, hsize, hfinished, htaken⟩ :=
      section_frame hp he (fun h => by cases h) fun _ h => by cases h
    have hcard : p'.idle.card ≤ p.idle.card := by
      rcases hidle with hsub | ⟨hstart, _⟩ | ⟨_, hfinish, _⟩
      · exact Finset.card_le_card hsub
      · cases hstart
      · cases hfinish
    have hcost := BlockingQueues.potential_step hq
    rw [hthreads, hsize]
    rw [hfinished] at hstarted'
    dsimp only [Event.own, Event.gain, BlockingQueues.Event.cost, BlockingQueues.Event.gain,
      Bool.toNat, cond] at hcost ⊢
    omega
  | take i pick =>
    obtain ⟨hthreads, hsize, hfinished, htaken⟩ :=
      section_frame hp he (fun h => by cases h) fun _ h => by cases h
    have hcard : p'.idle.card < p.idle.card := by
      rcases hidle with hsub | ⟨hstart, _⟩ | ⟨_, hfinish, _⟩
      · obtain ⟨hin, hout⟩ := idle_take he
        exact Finset.card_lt_card ((Finset.ssubset_iff_of_subset hsub).mpr ⟨i, hin, hout⟩)
      · cases hstart
      · cases hfinish
    have hcost := BlockingQueues.potential_step hq
    rw [hthreads, hsize]
    rw [hfinished] at hstarted'
    dsimp only [Event.own, Event.gain, BlockingQueues.Event.cost, BlockingQueues.Event.gain,
      Bool.toNat, cond] at hcost ⊢
    omega
  | start =>
    have hcard : p'.idle.card ≤ p.idle.card + 1 := by
      rcases hidle with hsub | ⟨_, hsub⟩ | ⟨_, hfinish, _⟩
      · exact (Finset.card_le_card hsub).trans (Nat.le_succ _)
      · exact (Finset.card_le_card hsub).trans (Finset.card_insert_le _ _)
      · cases hfinish
    unfold step at he
    dsimp only at he
    split at he
    · cases he
      dsimp only [Event.own, Event.gain, Bool.toNat, cond] at hcard hstarted' ⊢
      omega
    · cases he
  | finish i =>
    have hcard : p'.idle.card ≤ p.idle.card + 1 := by
      rcases hidle with hsub | ⟨hstart, _⟩ | ⟨_, _, hsub⟩
      · exact (Finset.card_le_card hsub).trans (Nat.le_succ _)
      · cases hstart
      · exact (Finset.card_le_card hsub).trans (Finset.card_insert_le _ _)
    unfold step at he
    dsimp only at he
    split at he
    · cases he
    · split at he
      · cases he
        rw [List.length_append, List.length_singleton] at hstarted'
        dsimp only [Event.own, Event.gain, Bool.toNat, cond] at hcard hstarted' ⊢
        omega
      · cases he

/-! ### Jammed, drained, or able to go on -/

/-- Every worker is inside `put`. -/
def Jammed (p : ThreadPool τ α) : Prop :=
  ∀ i < p.threadSize_, ∃ x, p.queue_.calls (.worker i) = some (.put x)

/-- What was put has been run, and nobody is about to put. -/
structure Drained (p : ThreadPool τ α) : Prop where
  /-- No task is queued. -/
  queue : p.queue_.queue.queue_ = []
  /-- No task is running. -/
  tasks : p.tasks = []
  /-- Nobody is inside `put`. -/
  putting : ∀ t x, p.queue_.calls t ≠ some (.put x)

omit [DecidableEq τ] in
/-- In a drained pool all that was put has returned. -/
theorem Drained.finished (h : Drained p) (hp : Inv p) : p.finished.Perm p.queue_.put := by
  have hfifo := hp.fifo
  rw [h.queue, List.append_nil] at hfifo
  have haccounts := hp.accounts
  rw [h.tasks, List.append_nil, hfifo] at haccounts
  exact haccounts.symm

omit [DecidableEq τ] in
/-- A worker that runs a task is one of those asked for. -/
theorem Inv.lt_of_running (hp : Inv p) (h : (p.running i).isSome) : i < p.threadSize_ := by
  obtain ⟨x, hx⟩ := Option.isSome_iff_exists.mp h
  exact (hp.running i x hx).trans_le hp.size

omit [DecidableEq τ] in
/-- A jammed pool has a producer, and so the queue a bound. -/
theorem Jammed.ne_zero (hj : Jammed p) (hsize : 0 < p.threadSize_) (hw : Consistent p.queue_)
    {m : Int32} (hs : Slotted m 0 p.queue_) : m ≠ 0 := by
  intro hm
  obtain ⟨x, hx⟩ := hj 0 hsize
  have hmem := (hw.producers.mem_iff (.worker 0)).mpr ⟨x, hx⟩
  rw [hs.unbounded hm] at hmem
  cases hmem

/-- The pool while the bound of its queue is in force. -/
structure Settled (m : Int32) (p : ThreadPool τ α) : Prop where
  /-- What holds in every state. -/
  inv : Inv p
  /-- The threads are where they belong. -/
  consistent : Consistent p.queue_
  /-- Consumers are on their way to the items. -/
  sound : Sound m 0 0 p.queue_
  /-- Producers are on their way to the free slots. -/
  slotted : Slotted m 0 p.queue_
  /-- Where all the workers are inside `put`, there is no free slot. -/
  full : Jammed p → p.queue_.queue.full

/-- The step of the queue in a step of the pool. -/
theorem queue_keeps {P : BlockingQueues.System (Thread τ) α → Prop} (h : P p.queue_)
    (hkeep : ∀ f q, e.onQueue = some f → BlockingQueues.step p.queue_ f = some q → P q)
    (he : step p e = some p') : P p'.queue_ := by
  have hq := queue_step he
  cases hf : e.onQueue with
  | none =>
    rw [hf] at hq
    exact hq ▸ h
  | some f =>
    rw [hf] at hq
    exact hkeep f _ hf hq

omit [DecidableEq τ] in
/-- The event does not set the bound, for the queue either. -/
theorem onQueue_ne_set (hset : ∀ size, e ≠ .setMaxQueueSize size)
    {f : BlockingQueues.Event (Thread τ) α} (hf : e.onQueue = some f) (size : Int32) :
    f ≠ .setMaxQueueSize size := by
  rintro rfl
  cases e with
  | setMaxQueueSize size' => exact hset size' rfl
  | _ => cases hf

/-- Where a step leaves all the workers inside `put`, there is no free slot. -/
theorem Settled.full_step {m : Int32} (h : Settled m p) (hsize : 0 < p.threadSize_)
    (hset : ∀ size, e ≠ .setMaxQueueSize size) (he : step p e = some p') (hj : Jammed p') :
    p'.queue_.queue.full := by
  cases acts_of_step he with
  | bound size hs => exact absurd hs (hset size)
  | woken q hcalls hitems hput htaken hbound =>
    have hold : p.queue_.queue.full := h.full fun i hi => hcalls ▸ hj i hi
    unfold BlockingQueues.BlockingQueue.full at hold ⊢
    rwa [hitems, hbound]
  | start hstart hlt => exact h.full hj
  | block t call q hallowed hfull hleft =>
    have hold : p.queue_.queue.full := by
      cases call with
      | put x => exact hfull x rfl
      | take =>
        -- the one that blocks is a worker inside `take`
        obtain ⟨i, rfl, hi, hidle⟩ := h.inv.taker hallowed
        obtain ⟨x, hx⟩ := hj i (hi.trans_le h.inv.size)
        dsimp only at hx
        rw [hleft.calls, Function.update_self] at hx
        cases hx
    unfold BlockingQueues.BlockingQueue.full at hold ⊢
    rwa [hleft.items, hleft.bound]
  | push t x q hallowed hfree hleft =>
    have hold : Jammed p := by
      intro i hi
      obtain ⟨y, hy⟩ := hj i hi
      dsimp only at hy
      rw [hleft.calls, BlockingQueues.update_iff (P := fun c => c = some (.put y))] at hy
      rcases hy with ⟨_, hnone⟩ | ⟨_, hy⟩
      · cases hnone
      · exact ⟨y, hy⟩
    have hne := hold.ne_zero hsize h.consistent h.slotted
    exact absurd (h.full hold) (hfree (h.slotted.bound ▸ hne))
  | pop t front rest q hallowed hitems hleft =>
    obtain ⟨i, rfl, hi, hidle⟩ := h.inv.taker hallowed
    obtain ⟨x, hx⟩ := hj i (hi.trans_le h.inv.size)
    rw [after_of_pop hleft.taken] at hx
    dsimp only at hx
    rw [hleft.calls, Function.update_self] at hx
    cases hx
  | finish i x hfinish hrunning hout => exact h.full hj

/-- The workers asked for stay as many. -/
theorem threadSize_step (he : step p e = some p') : p'.threadSize_ = p.threadSize_ := by
  cases acts_of_step he with
  | pop t front rest q hallowed hitems hleft =>
    unfold ThreadPool.after
    rfl
  | _ => rfl

/-- Every step with the bound set keeps the pool settled. -/
theorem Settled.step {m : Int32} (h : Settled m p) (hsize : 0 < p.threadSize_)
    (hset : ∀ size, e ≠ .setMaxQueueSize size) (he : ThreadPools.step p e = some p') :
    Settled m p' where
  inv := h.inv.step he
  consistent := queue_keeps h.consistent (fun _ _ _ hq => h.consistent.step hq) he
  sound := queue_keeps h.sound (fun _ _ hf hq => h.sound.step (onQueue_ne_set hset hf) hq) he
  slotted := queue_keeps h.slotted (fun _ _ hf hq => h.slotted.step (onQueue_ne_set hset hf) hq) he
  full := h.full_step hsize hset he

/-- A run with the bound set keeps the pool settled. -/
theorem Settled.run {m : Int32} (h : Settled m p) (hsize : 0 < p.threadSize_)
    (hset : ∀ size, .setMaxQueueSize size ∉ events)
    (hrun : Runs.run ThreadPools.step p events = some p') :
    Settled m p' ∧ p'.threadSize_ = p.threadSize_ := by
  have hmeets : Meets ThreadPools.step (fun _ e => ∀ size, e ≠ .setMaxQueueSize size) p events :=
    meets_of_forall (fun e => ∀ size, e ≠ Event.setMaxQueueSize size)
      (fun e he size heq => hset size (heq ▸ he)) p
  refine invariant_of_meets (fun p' => Settled m p' ∧ p'.threadSize_ = p.threadSize_)
    (fun _ _ _ h he hstep => ?_) ⟨h, rfl⟩ hmeets hrun
  exact ⟨h.1.step (h.2 ▸ hsize) he hstep, (threadSize_step hstep).trans h.2⟩

/-- The state of a pool whose bound is set once, to `m`, before the first `put`, or never. -/
structure Settling (m : Int32) (p : ThreadPool τ α) : Prop where
  /-- What holds in every state. -/
  inv : Inv p
  /-- The threads are where they belong. -/
  consistent : Consistent p.queue_
  /-- The bound is not in force before it is set. -/
  settled : Unused p.queue_ ∨ Settled m p

/-- An unused pool whose bound is set. -/
theorem settled_setMaxQueueSize (hp : Inv p) (hw : Consistent p.queue_) (hu : Unused p.queue_)
    (hsize : 0 < p.threadSize_) (m : Int32) :
    Settled m { p with
      queue_ := { p.queue_ with queue := p.queue_.queue.setMaxQueueSize m } } where
  inv := hp.step (e := .setMaxQueueSize m) rfl
  consistent := hw.step (e := .setMaxQueueSize m) rfl
  sound := hu.sound m
  slotted := slotted_unused hu m
  full hj := by
    obtain ⟨x, hx⟩ := hj 0 hsize
    have hmem := (hw.producers.mem_iff (.worker 0)).mpr ⟨x, hx⟩
    rw [hu.producers] at hmem
    cases hmem

/-- An unused pool whose bound stays what it is. -/
theorem settled_zero (hp : Inv p) (hw : Consistent p.queue_) (hu : Unused p.queue_)
    (hsize : 0 < p.threadSize_) : Settled 0 p := by
  have hsame : p.queue_.queue.setMaxQueueSize 0 = p.queue_.queue := by
    unfold BlockingQueues.BlockingQueue.setMaxQueueSize
    rw [← hu.bound]
  have hsettled := settled_setMaxQueueSize hp hw hu hsize 0
  rwa [hsame] at hsettled

/-- Every run leaves the pool unused or settled. -/
theorem settling_run {m : Int32} (hp : Inv p) (hw : Consistent p.queue_) (hu : Unused p.queue_)
    (hsize : 0 < p.threadSize_) (hset : SetOnce m (events.filterMap Event.onQueue))
    (hrun : run step p events = some p') :
    Settling m p' ∧ p'.threadSize_ = p.threadSize_ := by
  induction events generalizing p with
  | nil =>
    cases hrun
    exact ⟨⟨hp, hw, Or.inl hu⟩, rfl⟩
  | cons e events ih =>
    rw [run_cons] at hrun
    obtain ⟨p₁, he, hrest⟩ := Option.bind_eq_some_iff.mp hrun
    have hp₁ := hp.step he
    have hw₁ : Consistent p₁.queue_ := queue_keeps hw (fun _ _ _ hq => hw.step hq) he
    have hsize₁ := threadSize_step he
    have hq := queue_step he
    cases e with
    | setMaxQueueSize size =>
      obtain ⟨rfl, honce⟩ := hset
      cases he
      have hnone : ∀ size', .setMaxQueueSize size' ∉ events := by
        intro size' hmem
        exact honce size' (List.mem_filterMap.mpr ⟨_, hmem, rfl⟩)
      obtain ⟨hs, hkeep⟩ :=
        (settled_setMaxQueueSize hp hw hu hsize size).run hsize hnone hrest
      exact ⟨⟨hs.inv, hs.consistent, Or.inr hs⟩, hkeep⟩
    | put t x pick =>
      obtain ⟨rfl, honce⟩ := hset
      have hnone : ∀ size', .setMaxQueueSize size' ∉ events := by
        intro size' hmem
        exact honce size' (List.mem_filterMap.mpr ⟨_, hmem, rfl⟩)
      have hs₁ := (settled_zero hp hw hu hsize).step hsize (fun _ h => by cases h) he
      obtain ⟨hs, hkeep⟩ := hs₁.run (hsize₁ ▸ hsize) hnone hrest
      exact ⟨⟨hs.inv, hs.consistent, Or.inr hs⟩, hkeep.trans hsize₁⟩
    | start | finish i =>
      obtain ⟨hs, hkeep⟩ := ih hp₁ hw₁ (hq ▸ hu) (hsize₁ ▸ hsize) hset hrest
      exact ⟨hs, hkeep.trans hsize₁⟩
    | take i pick | resume t pick | wake t =>
      have hu₁ := hu.step (fun _ h => by cases h) (fun _ _ _ h => by cases h) hq
      obtain ⟨hs, hkeep⟩ := ih hp₁ hw₁ hu₁ (hsize₁ ▸ hsize) hset hrest
      exact ⟨hs, hkeep.trans hsize₁⟩

/-- A pool that was just constructed is unused. -/
theorem settling_construct {m : Int32} {size : ℕ} (hsize : 0 < size)
    (hset : SetOnce m (events.filterMap Event.onQueue))
    (hrun : run step (ThreadPool.construct size) events = some p) :
    Settling m p ∧ p.threadSize_ = size := by
  have hfresh : run BlockingQueues.step BlockingQueues.System.fresh [] =
    some (ThreadPool.construct size : ThreadPool τ α).queue_ := rfl
  exact settling_run (inv_construct size) (BlockingQueues.consistent_run hfresh)
    ⟨rfl, rfl, rfl, rfl, rfl⟩ hsize hset hrun

/-! ### A pool that is not jammed goes on -/

/-- A worker's task that is in no call can return. -/
theorem finish_enabled {x : α} (hrunning : p.running i = some x)
    (hout : p.queue_.calls (.worker i) = none) : ∃ p', step p (.finish i) = some p' := by
  unfold step
  dsimp only
  rw [hrunning]
  dsimp only
  rw [if_pos hout]
  exact ⟨_, rfl⟩

/-- A thread that its condition lets go on is a step of the pool. -/
theorem resume_enabled {t : Thread τ}
    (h : ∃ pick w', BlockingQueues.step p.queue_ (.resume t pick) = some w') :
    ∃ pick p', step p (.resume t pick) = some p' := by
  obtain ⟨pick, w', hw⟩ := h
  exact ⟨pick, _, Option.map_eq_some_iff.mpr ⟨w', hw, rfl⟩⟩

/-- A worker that runs nothing and is in no call can call `take`. -/
theorem take_enabled (hi : i < p.threads_) (hidle : p.running i = none)
    (hout : p.queue_.calls (.worker i) = none) :
    ∃ pick p', step p (.take i pick) = some p' := by
  obtain ⟨pick, w', hw⟩ : ∃ pick w',
      BlockingQueues.step p.queue_ (.take (.worker i) pick) = some w' := by
    simp only [BlockingQueues.step, hout, Option.isNone_none, if_true]
    exact BlockingQueues.takeLoop_enabled p.queue_ (.worker i)
  refine ⟨pick, p.after (.worker i) w', ?_⟩
  unfold step
  dsimp only
  rw [if_pos ⟨hi, hidle⟩, hw]
  rfl

/-- Where consumers are blocked and there are items, a consumer can go on. -/
theorem Settled.consumer_enabled {m : Int32} (h : Settled m p) {t : Thread τ}
    (ht : p.queue_.calls t = some .take) (hitems : p.queue_.queue.queue_ ≠ []) :
    ∃ s pick p', ThreadPools.step p (.resume s pick) = some p' := by
  rcases Condition.waiting_or_resume ((h.consistent.consumers.mem_iff t).mpr ht) with
    hwait | ⟨c, hc⟩
  · have hle := h.sound.items (List.ne_nil_of_mem hwait)
    have hpos := List.length_pos_iff.mpr hitems
    obtain ⟨s, hs⟩ := List.exists_mem_of_length_pos (hpos.trans_le hle)
    exact ⟨s, resume_enabled (BlockingQueues.resume_enabled_consumer h.consistent (if_pos hs))⟩
  · exact ⟨t, resume_enabled (BlockingQueues.resume_enabled_consumer h.consistent hc)⟩

/-- Where producers are blocked and there are no items, a producer can go on. -/
theorem Settled.producer_enabled {m : Int32} (h : Settled m p) {t : Thread τ} {x : α}
    (ht : p.queue_.calls t = some (.put x)) (hitems : p.queue_.queue.queue_ = []) :
    ∃ s pick p', ThreadPools.step p (.resume s pick) = some p' := by
  have hmem := (h.consistent.producers.mem_iff t).mpr ⟨x, ht⟩
  have hm : m ≠ 0 := by
    intro hzero
    rw [h.slotted.unbounded hzero] at hmem
    cases hmem
  rcases Condition.waiting_or_resume hmem with hwait | ⟨c, hc⟩
  · have hle := h.slotted.slots hm (List.ne_nil_of_mem hwait)
    have hpos := toSizeT_pos hm
    rw [hitems, List.length_nil] at hle
    obtain ⟨s, hs⟩ := List.exists_mem_of_length_pos (hpos.trans_le hle)
    exact ⟨s, resume_enabled (BlockingQueues.resume_enabled_producer h.consistent (if_pos hs))⟩
  · exact ⟨t, resume_enabled (BlockingQueues.resume_enabled_producer h.consistent hc)⟩

/-- While a worker is not inside `put`, the pool goes on until it is drained. -/
theorem Settling.own_enabled {m : Int32} (h : Settling m p) (hj : ¬Jammed p) (hd : ¬Drained p) :
    ∃ e p', e.own = true ∧ ThreadPools.step p e = some p' := by
  rcases h.settled with hu | hs
  · -- nothing was put yet
    refine absurd ⟨hu.queue, ?_, fun t x ht => ?_⟩ hd
    · have hlen := h.inv.started
      rw [hu.taken, List.length_nil] at hlen
      exact List.length_eq_zero_iff.mp (by omega)
    · have hmem := (h.consistent.producers.mem_iff t).mpr ⟨x, ht⟩
      rw [hu.producers] at hmem
      cases hmem
  · by_cases hthreads : p.threads_ < p.threadSize_
    · exact ⟨.start, _, rfl, if_pos hthreads⟩
    have hall : p.threads_ = p.threadSize_ := le_antisymm h.inv.size (not_lt.mp hthreads)
    by_cases hbusy : ∃ i x, p.running i = some x ∧ p.queue_.calls (.worker i) = none
    · obtain ⟨i, x, hrunning, hout⟩ := hbusy
      obtain ⟨p', he⟩ := finish_enabled hrunning hout
      exact ⟨.finish i, p', rfl, he⟩
    -- a worker that runs a task is inside `put`
    have hputs : ∀ i x, p.running i = some x → ∃ y, p.queue_.calls (.worker i) = some (.put y) := by
      intro i x hrunning
      cases hcall : p.queue_.calls (.worker i) with
      | none => exact absurd ⟨i, x, hrunning, hcall⟩ hbusy
      | some call =>
        cases call with
        | put y => exact ⟨y, rfl⟩
        | take =>
          obtain ⟨k, hk, _, hidle⟩ := h.inv.taking _ hcall
          cases hk
          rw [hrunning] at hidle
          cases hidle
    obtain ⟨i, hi, hfree⟩ : ∃ i < p.threadSize_, ¬∃ y, p.queue_.calls (.worker i) = some (.put y) := by
      unfold Jammed at hj
      push Not at hj ⊢
      exact hj
    have hidle : p.running i = none := by
      by_contra hsome
      obtain ⟨x, hx⟩ := Option.ne_none_iff_exists'.mp hsome
      exact hfree (hputs i x hx)
    cases hcall : p.queue_.calls (.worker i) with
    | none =>
      obtain ⟨pick, p', he⟩ := take_enabled (hall.symm ▸ hi) hidle hcall
      exact ⟨.take i pick, p', rfl, he⟩
    | some call =>
      cases call with
      | put y => exact absurd ⟨y, hcall⟩ hfree
      | take =>
        by_cases hitems : p.queue_.queue.queue_ = []
        · by_cases hproducer : ∃ t x, p.queue_.calls t = some (.put x)
          · obtain ⟨t, x, ht⟩ := hproducer
            obtain ⟨s, pick, p', he⟩ := hs.producer_enabled ht hitems
            exact ⟨.resume s pick, p', rfl, he⟩
          · -- no task is queued, running or about to be put
            refine absurd ⟨hitems, ?_, fun t x ht => hproducer ⟨t, x, ht⟩⟩ hd
            refine List.filterMap_eq_nil_iff.mpr fun j _ => ?_
            by_contra hsome
            obtain ⟨x, hx⟩ := Option.ne_none_iff_exists'.mp hsome
            obtain ⟨y, hy⟩ := hputs j x hx
            exact hproducer ⟨_, y, hy⟩
        · obtain ⟨s, pick, p', he⟩ := hs.consumer_enabled hcall hitems
          exact ⟨.resume s pick, p', rfl, he⟩

/-- Only a call of `put` brings a thread inside it. -/
theorem put_of_step {w w' : BlockingQueues.System τ α} {f : BlockingQueues.Event τ α} {t : τ} {x : α}
    (h : BlockingQueues.step w f = some w') (hput : ∀ s y pick, f ≠ .put s y pick)
    (ht : w'.calls t = some (.put x)) : w.calls t = some (.put x) := by
  have hleft : ∀ {s call items put taken}, Left w w' s call items put taken →
      (s = t → call = some (.put x) → w.calls t = some (.put x)) → w.calls t = some (.put x) := by
    intro s call items put taken hleft hs
    rw [hleft.calls, BlockingQueues.update_iff (P := fun c => c = some (.put x))] at ht
    rcases ht with ⟨heq, hcall⟩ | ⟨_, ht⟩
    · exact hs heq.symm hcall
    · exact ht
  cases moves_of_step h with
  | bound size hset heq => rwa [heq] at ht
  | woken s hwake hcalls => rwa [hcalls] at ht
  | waitFull s y henters hfull hl =>
    refine hleft hl fun hst hcall => ?_
    cases hcall
    cases henters with
    | put s x pick hout => exact absurd rfl (hput s x pick)
    | resume s pick call hin => exact hst ▸ hin
  | waitEmpty s henters hempty hl => exact hleft hl fun _ hcall => by cases hcall
  | pushBack s y henters hfree hl => exact hleft hl fun _ hcall => by cases hcall
  | popFront s front rest henters hitems hl => exact hleft hl fun _ hcall => by cases hcall

/-- The pool's own steps do not jam it. -/
theorem not_jammed_step (hj : ¬Jammed p) (hown : e.own = true) (he : step p e = some p') :
    ¬Jammed p' := by
  intro hj'
  refine hj fun i hi => ?_
  obtain ⟨x, hx⟩ := hj' i ((threadSize_step he).symm ▸ hi)
  have hq := queue_step he
  cases hf : e.onQueue with
  | none =>
    rw [hf] at hq
    exact ⟨x, hq ▸ hx⟩
  | some f =>
    rw [hf] at hq
    refine ⟨x, put_of_step hq (fun s y pick => ?_) hx⟩
    rintro rfl
    cases e with
    | put t x pick => cases hown
    | _ => cases hf

/-! ### Every run -/

/-- The pool's own steps keep what holds before the bound is set and after it. -/
theorem Settling.step_own {m : Int32} (h : Settling m p) (hsize : 0 < p.threadSize_)
    (hown : e.own = true) (he : ThreadPools.step p e = some p') : Settling m p' := by
  have hset : ∀ size, e ≠ .setMaxQueueSize size := by
    rintro size rfl
    cases hown
  refine ⟨h.inv.step he, queue_keeps h.consistent (fun _ _ _ hq => h.consistent.step hq) he, ?_⟩
  rcases h.settled with hu | hs
  · refine Or.inl (queue_keeps hu (fun f q hf hq => ?_) he)
    refine hu.step (onQueue_ne_set hset hf) (fun t x pick => ?_) hq
    rintro rfl
    cases e with
    | put t x pick => cases hown
    | _ => cases hf
  · exact Or.inr (hs.step hsize hset he)

/-- In every reachable state in which some worker is not inside `put`, the pool goes on by
itself, in whichever order its threads take their steps: they can take no more steps
than the potential, and at the end of them all that was put has been run. -/
theorem drains_unless_jammed (size : ℕ) (m : Int32) (events more : List (Event τ α))
    (p p' : ThreadPool τ α) (hsize : 0 < size)
    (hset : SetOnce m (events.filterMap Event.onQueue))
    (hrun : run step (ThreadPool.construct size) events = some p) (hjammed : ¬Jammed p)
    (hown : ∀ e ∈ more, e.own = true) (hmore : run step p more = some p') :
    more.length ≤ p.potential ∧
      ((∃ e p'', e.own = true ∧ step p' e = some p'') ∨
        Drained p' ∧ p'.finished.Perm p'.queue_.put) := by
  obtain ⟨h, hkeep⟩ := settling_construct hsize hset hrun
  have hmeets : Meets step (fun _ (e : Event τ α) => e.own = true) p more :=
    meets_of_forall (fun e : Event τ α => e.own = true) hown p
  have hend : (Settling m p' ∧ p'.threadSize_ = size) ∧ ¬Jammed p' :=
    invariant_of_meets (fun q => (Settling m q ∧ q.threadSize_ = size) ∧ ¬Jammed q)
      (fun q (e : Event τ α) q' hq he hstep => ⟨⟨hq.1.1.step_own (hq.1.2 ▸ hsize) he hstep,
        (threadSize_step hstep).trans hq.1.2⟩, not_jammed_step hq.2 he hstep⟩)
      ⟨⟨h, hkeep⟩, hjammed⟩ hmeets hmore
  have hcost := cost_le_potential ThreadPool.potential (fun e => (Event.own e).toNat) Event.gain
    (fun q e q' hq he => ⟨hq.step he, potential_step hq he⟩) h.inv hmore
  constructor
  · have hsteps : (more.map fun e => (Event.own e).toNat).sum = more.length := by
      rw [List.map_congr_left fun e he => congrArg Bool.toNat (hown e he)]
      simp
    have hgain : (more.map Event.gain).sum = 0 := by
      refine List.sum_eq_zero fun n hn => ?_
      obtain ⟨e, he, rfl⟩ := List.mem_map.mp hn
      have howne := hown e he
      cases e with
      | put t x pick | wake t => cases howne
      | _ => rfl
    omega
  · by_cases hd : Drained p'
    · exact Or.inr ⟨hd, hd.finished hend.1.1.inv⟩
    · exact Or.inl (hend.1.1.own_enabled hend.2 hd)

/-- A task that puts two more returns; the pool goes on to run them. -/
def twoMore : List (Event ℕ ℕ) :=
  [.setMaxQueueSize 2, .start, .put (.caller 0) 7 none, .take 0 none, .put (.worker 0) 8 none,
    .put (.worker 0) 9 none]

/-- The worker runs what its task put. -/
theorem drains_unless_jammed_two :
    ∃ p p', run step (ThreadPool.construct 1) twoMore = some p ∧
      run step p [.finish 0, .take 0 none, .finish 0, .take 0 none, .finish 0] = some p' ∧
      5 ≤ p.potential ∧ p'.finished = [7, 8, 9] := by
  have hjammed : ∀ p, run step (ThreadPool.construct 1) twoMore = some p → ¬Jammed p := by
    intro p hrun hj
    obtain ⟨x, hx⟩ := hj 0 (by cases hrun; decide)
    cases hrun
    cases hx
  exact ⟨_, _, rfl, rfl, (drains_unless_jammed 1 2 twoMore
    [.finish 0, .take 0 none, .finish 0, .take 0 none, .finish 0] _ _ (by decide)
    ⟨rfl, by simp [Event.onQueue]⟩ rfl (hjammed _ rfl) (by decide) rfl).1, rfl⟩

/-- Once every worker is inside `put`, only threads of the user still move, and they
get nothing done. -/
theorem jammed_step {m : Int32} (h : Settled m p) (hsize : 0 < p.threadSize_) (hj : Jammed p)
    (hset : ∀ size, e ≠ .setMaxQueueSize size) (he : step p e = some p') :
    Jammed p' ∧ p'.queue_.put = p.queue_.put ∧ p'.queue_.taken = p.queue_.taken ∧
      p'.finished = p.finished := by
  have hworker : ∀ i, (p.running i).isSome → ∃ x, p.queue_.calls (.worker i) = some (.put x) :=
    fun i hi => hj i (h.inv.lt_of_running hi)
  have hidle : ∀ i < p.threads_, p.running i ≠ none := by
    intro i hi hnone
    obtain ⟨x, hx⟩ := hj i (hi.trans_le h.inv.size)
    have hrun := h.inv.putting i x hx
    rw [hnone] at hrun
    cases hrun
  cases acts_of_step he with
  | bound size hs => exact absurd hs (hset size)
  | woken q hcalls hitems hput htaken hbound =>
    exact ⟨fun i hi => hcalls ▸ hj i hi, hput, htaken, rfl⟩
  | start hstart hlt =>
    obtain ⟨x, hx⟩ := hj p.threads_ hlt
    obtain ⟨y, hy⟩ := Option.isSome_iff_exists.mp (h.inv.putting _ x hx)
    exact absurd (h.inv.running _ y hy) (lt_irrefl _)
  | block t call q hallowed hfull hleft =>
    refine ⟨fun i hi => ?_, hleft.put, hleft.taken, rfl⟩
    obtain ⟨x, hx⟩ := hj i hi
    dsimp only
    rw [hleft.calls]
    by_cases ht : Thread.worker i = t
    · subst ht
      rcases hallowed with hin | ⟨hout, _⟩
      · rw [hx] at hin
        cases hin
        exact ⟨x, Function.update_self _ _ _⟩
      · cases hx.symm.trans hout
    · exact ⟨x, (Function.update_of_ne ht _ _).trans hx⟩
  | push t x q hallowed hfree hleft =>
    have hne := hj.ne_zero hsize h.consistent h.slotted
    exact absurd (h.full hj) (hfree (h.slotted.bound ▸ hne))
  | pop t front rest q hallowed hitems hleft =>
    obtain ⟨i, _, hi, hnone⟩ := h.inv.taker hallowed
    exact absurd hnone (hidle i hi)
  | finish i x hfinish hrunning hout =>
    obtain ⟨y, hy⟩ := hworker i (hrunning ▸ rfl)
    cases hy.symm.trans hout

/-- Once every worker is inside `put`, the pool never again starts, finishes or accepts a
task, unless its bound is set once more. -/
theorem jammed_for_ever (size : ℕ) (m : Int32) (events more : List (Event τ α))
    (p p' : ThreadPool τ α) (hsize : 0 < size)
    (hset : SetOnce m (events.filterMap Event.onQueue))
    (hrun : run step (ThreadPool.construct size) events = some p) (hjammed : Jammed p)
    (hmore : ∀ bound, .setMaxQueueSize bound ∉ more) (hrest : run step p more = some p') :
    Jammed p' ∧ p'.queue_.put = p.queue_.put ∧ p'.queue_.taken = p.queue_.taken ∧
      p'.finished = p.finished := by
  obtain ⟨h, hkeep⟩ := settling_construct hsize hset hrun
  have hs : Settled m p := by
    rcases h.settled with hu | hs
    · obtain ⟨x, hx⟩ := hjammed 0 (hkeep.symm ▸ hsize)
      have hmem := (h.consistent.producers.mem_iff _).mpr ⟨x, hx⟩
      rw [hu.producers] at hmem
      cases hmem
    · exact hs
  have hmeets : Meets step (fun _ e => ∀ bound, e ≠ .setMaxQueueSize bound) p more :=
    meets_of_forall (fun e => ∀ bound, e ≠ Event.setMaxQueueSize bound)
      (fun e he bound heq => hmore bound (heq ▸ he)) p
  have hend := invariant_of_meets
    (fun q => (Settled m q ∧ q.threadSize_ = size) ∧ Jammed q ∧ q.queue_.put = p.queue_.put ∧
      q.queue_.taken = p.queue_.taken ∧ q.finished = p.finished)
    (fun q e q' hq he hstep => ?_) ⟨⟨hs, hkeep⟩, hjammed, rfl, rfl, rfl⟩ hmeets hrest
  · exact hend.2
  · obtain ⟨⟨hq, hqsize⟩, hj, hput, htaken, hfinished⟩ := hq
    have hpos : 0 < q.threadSize_ := hqsize ▸ hsize
    obtain ⟨hj', hput', htaken', hfinished'⟩ := jammed_step hq hpos hj he hstep
    exact ⟨⟨hq.step hpos he hstep, (threadSize_step hstep).trans hqsize⟩, hj',
      hput'.trans hput, htaken'.trans htaken, hfinished'.trans hfinished⟩

/-- The only worker runs a task that puts two more where the queue has one slot. -/
def oneSlot : List (Event ℕ ℕ) :=
  [.setMaxQueueSize 1, .start, .put (.caller 0) 7 none, .take 0 none, .put (.worker 0) 8 none,
    .put (.worker 0) 9 none]

/-- A caller that puts a task then waits for ever. -/
theorem jammed_for_ever_one :
    ∃ p p', run step (ThreadPool.construct 1) oneSlot = some p ∧
      run step p [.put (.caller 0) 10 none, .wake (.worker 0), .resume (.worker 0) none] =
        some p' ∧ p'.finished = [] ∧ Jammed p' := by
  have hjammed : ∀ p, run step (ThreadPool.construct 1) oneSlot = some p → Jammed p := by
    intro p hrun
    cases hrun
    intro i hi
    obtain rfl : i = 0 := Nat.lt_one_iff.mp hi
    exact ⟨9, rfl⟩
  exact ⟨_, _, rfl, rfl, rfl, (jammed_for_ever 1 1 oneSlot
    [.put (.caller 0) 10 none, .wake (.worker 0), .resume (.worker 0) none] _ _ (by decide)
    ⟨rfl, by simp [Event.onQueue]⟩ rfl (hjammed _ rfl) (by simp) rfl).1⟩

end KKNet.ThreadPools
