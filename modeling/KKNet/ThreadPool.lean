import KKNet.BlockingQueueMoves

/-!
# The thread pool

Translation of `util/ThreadPool.h` and `util/ThreadPool.cpp`. The workers take tasks
from a blocking queue and run them, for ever; any thread may put tasks, also a worker
from within the task it runs. What was put is started once, in the order in which it
was put, each time by a worker that runs nothing else.
-/

namespace KKNet.ThreadPools

open Runs Monitors
open BlockingQueues (Call Enters Left Moves moves_of_step)

variable {τ α : Type}

/-- A thread that uses the pool. -/
inductive Thread (τ : Type)
  /-- The thread of `threads_[i]`. -/
  | worker (i : ℕ)
  /-- A thread of the user. -/
  | caller (t : τ)
  deriving DecidableEq

/-- `ThreadPool`, with the threads that use it. -/
structure ThreadPool (τ α : Type) where
  /-- The queue. -/
  queue_ : BlockingQueues.System (Thread τ) α
  /-- How many workers `threads_` has. -/
  threads_ : ℕ
  /-- How many it is to have. -/
  threadSize_ : ℕ
  /-- The task a worker runs. -/
  running : ℕ → Option α
  /-- The tasks that returned, in this order. -/
  finished : List α

/-- What can happen next. -/
inductive Event (τ α : Type)
  /-- `setMaxQueueSize`. -/
  | setMaxQueueSize (size : Int32)
  /-- A turn of the loop of `start`, which creates the next worker. -/
  | start
  /-- A thread calls `put`. -/
  | put (t : Thread τ) (x : α) (pick : Option (Thread τ))
  /-- A worker calls `take`. -/
  | take (i : ℕ) (pick : Option (Thread τ))
  /-- A thread that is no longer blocked returns from `wait`. -/
  | resume (t : Thread τ) (pick : Option (Thread τ))
  /-- A blocked thread wakes for no reason. -/
  | wake (t : Thread τ)
  /-- The task a worker runs returns. -/
  | finish (i : ℕ)

namespace ThreadPool

/-- `ThreadPool::ThreadPool`. -/
def construct (size : ℕ) : ThreadPool τ α := ⟨.fresh, 0, size, fun _ => none, []⟩

/-- `getQueueSize`. -/
def getQueueSize (p : ThreadPool τ α) : ℕ := p.queue_.queue.queue_.length

/-- The thread calls `put` from its own code: a worker does so in a task. -/
def mayPut (p : ThreadPool τ α) : Thread τ → Bool
  | .worker i => (p.running i).isSome
  | .caller _ => true

/-- The queue after a section of the thread `t`; a worker that got a task runs it. -/
def after (p : ThreadPool τ α) (t : Thread τ) (q : BlockingQueues.System (Thread τ) α) :
    ThreadPool τ α :=
  { p with
    queue_ := q
    running := match t, q.taken.drop p.queue_.taken.length with
      | .worker i, x :: _ => Function.update p.running i (some x)
      | _, _ => p.running }

/-- The tasks that are running. -/
def tasks (p : ThreadPool τ α) : List α := (List.range p.threads_).filterMap p.running

end ThreadPool

variable [DecidableEq τ]

/-- One step; there is none where the event cannot happen. -/
def step (p : ThreadPool τ α) : Event τ α → Option (ThreadPool τ α)
  | .setMaxQueueSize size =>
    (BlockingQueues.step p.queue_ (.setMaxQueueSize size)).map fun q => { p with queue_ := q }
  | .start => if p.threads_ < p.threadSize_ then some { p with threads_ := p.threads_ + 1 } else none
  | .put t x pick =>
    if p.mayPut t then (BlockingQueues.step p.queue_ (.put t x pick)).map (p.after t) else none
  | .take i pick =>
    if i < p.threads_ ∧ p.running i = none then
      (BlockingQueues.step p.queue_ (.take (.worker i) pick)).map (p.after (.worker i))
    else none
  | .resume t pick => (BlockingQueues.step p.queue_ (.resume t pick)).map (p.after t)
  | .wake t => (BlockingQueues.step p.queue_ (.wake t)).map (p.after t)
  | .finish i =>
    match p.running i with
    | none => none
    | some x =>
      if p.queue_.calls (.worker i) = none then
        some { p with running := Function.update p.running i none, finished := p.finished ++ [x] }
      else none

/-- What the event does to the queue. -/
def Event.onQueue : Event τ α → Option (BlockingQueues.Event (Thread τ) α)
  | .setMaxQueueSize size => some (.setMaxQueueSize size)
  | .start => none
  | .put t x pick => some (.put t x pick)
  | .take i pick => some (.take (.worker i) pick)
  | .resume t pick => some (.resume t pick)
  | .wake t => some (.wake t)
  | .finish _ => none

variable {p p' : ThreadPool τ α} {e : Event τ α} {events : List (Event τ α)} {t : Thread τ}
  {i : ℕ} {x : α} {pick : Option (Thread τ)}

/-! ### The queue of the pool -/

/-- A step of the pool is a step of its queue, or leaves it alone. -/
theorem queue_step (h : step p e = some p') :
    match e.onQueue with
    | some f => BlockingQueues.step p.queue_ f = some p'.queue_
    | none => p'.queue_ = p.queue_ := by
  unfold step at h
  cases e with
  | setMaxQueueSize size | resume t pick | wake t =>
    obtain ⟨q, hq, rfl⟩ := Option.map_eq_some_iff.mp h
    exact hq
  | start =>
    dsimp only at h
    split at h
    · cases h
      rfl
    · cases h
  | put t x pick | take i pick =>
    dsimp only at h
    split at h
    · obtain ⟨q, hq, rfl⟩ := Option.map_eq_some_iff.mp h
      exact hq
    · cases h
  | finish i =>
    dsimp only at h
    split at h
    · cases h
    · split at h
      · cases h
        rfl
      · cases h

/-- A run of the pool is a run of its queue. -/
theorem queue_run (h : run step p events = some p') :
    run BlockingQueues.step p.queue_ (events.filterMap Event.onQueue) = some p'.queue_ := by
  induction events generalizing p with
  | nil =>
    cases h
    rfl
  | cons e events ih =>
    rw [run_cons] at h
    obtain ⟨p₁, he, hrest⟩ := Option.bind_eq_some_iff.mp h
    have hq := queue_step he
    have hmore := ih hrest
    cases hf : e.onQueue with
    | none =>
      rw [hf] at hq
      rw [List.filterMap_cons_none hf, ← hq]
      exact hmore
    | some f =>
      rw [hf] at hq
      rw [List.filterMap_cons_some hf, run_cons_of_step hq]
      exact hmore

/-! ### One step -/

/-- The thread is in the call, or may begin it. -/
def Allowed (p : ThreadPool τ α) (t : Thread τ) (call : Call α) : Prop :=
  p.queue_.calls t = some call ∨ p.queue_.calls t = none ∧
    match call with
    | .put _ => p.mayPut t = true
    | .take => ∃ i, t = .worker i ∧ i < p.threads_ ∧ p.running i = none

/-- What an event does to the pool. -/
inductive Acts (p : ThreadPool τ α) (e : Event τ α) : ThreadPool τ α → Prop
  /-- The bound is set. -/
  | bound (size : Int32) (hset : e = .setMaxQueueSize size) : Acts p e { p with
      queue_ := { p.queue_ with queue := p.queue_.queue.setMaxQueueSize size } }
  /-- A thread wakes for no reason. -/
  | woken (q : BlockingQueues.System (Thread τ) α) (hcalls : q.calls = p.queue_.calls)
      (hitems : q.queue.queue_ = p.queue_.queue.queue_) (hput : q.put = p.queue_.put)
      (htaken : q.taken = p.queue_.taken)
      (hbound : q.queue.maxQueueSize_ = p.queue_.queue.maxQueueSize_) :
      Acts p e { p with queue_ := q }
  /-- A worker is created. -/
  | start (hstart : e = .start) (hlt : p.threads_ < p.threadSize_) :
      Acts p e { p with threads_ := p.threads_ + 1 }
  /-- A thread blocks in its call. -/
  | block (t : Thread τ) (call : Call α) (q : BlockingQueues.System (Thread τ) α)
      (hallowed : Allowed p t call) (hfull : ∀ x, call = .put x → p.queue_.queue.full)
      (hleft : Left p.queue_ q t (some call) p.queue_.queue.queue_ p.queue_.put p.queue_.taken) :
      Acts p e { p with queue_ := q }
  /-- A task is put. -/
  | push (t : Thread τ) (x : α) (q : BlockingQueues.System (Thread τ) α)
      (hallowed : Allowed p t (.put x))
      (hfree : p.queue_.queue.maxQueueSize_ ≠ 0 → ¬p.queue_.queue.full)
      (hleft : Left p.queue_ q t none (p.queue_.queue.queue_ ++ [x]) (p.queue_.put ++ [x])
        p.queue_.taken) : Acts p e { p with queue_ := q }
  /-- A task is taken. -/
  | pop (t : Thread τ) (front : α) (rest : List α) (q : BlockingQueues.System (Thread τ) α)
      (hallowed : Allowed p t .take) (hitems : p.queue_.queue.queue_ = front :: rest)
      (hleft : Left p.queue_ q t none rest p.queue_.put (p.queue_.taken ++ [front])) :
      Acts p e (p.after t q)
  /-- A task returns. -/
  | finish (i : ℕ) (x : α) (hfinish : e = .finish i) (hrunning : p.running i = some x)
      (hout : p.queue_.calls (.worker i) = none) : Acts p e { p with
        running := Function.update p.running i none, finished := p.finished ++ [x] }

omit [DecidableEq τ] in
/-- Nobody starts a task where none is taken. -/
theorem after_of_same {q : BlockingQueues.System (Thread τ) α} (h : q.taken = p.queue_.taken) :
    p.after t q = { p with queue_ := q } := by
  unfold ThreadPool.after
  rw [h, List.drop_length]
  cases t <;> rfl

omit [DecidableEq τ] in
/-- A worker that takes a task runs it. -/
theorem after_of_pop {q : BlockingQueues.System (Thread τ) α}
    (h : q.taken = p.queue_.taken ++ [x]) :
    p.after (.worker i) q =
      { p with queue_ := q, running := Function.update p.running i (some x) } := by
  unfold ThreadPool.after
  rw [h, List.drop_left]

/-- A section of the thread `t`, as a step of the pool. -/
theorem acts_of_moves {f : BlockingQueues.Event (Thread τ) α}
    {q : BlockingQueues.System (Thread τ) α} (hm : Moves p.queue_ f q)
    (hset : ∀ size, f ≠ .setMaxQueueSize size)
    (hallowed : ∀ s call, Enters p.queue_ f s call → s = t ∧ Allowed p s call) :
    Acts p e (p.after t q) := by
  cases hm with
  | bound size heq => exact absurd heq (hset size)
  | woken s hwake hcalls hitems hput htaken hbound =>
    rw [after_of_same htaken]
    exact .woken q hcalls hitems hput htaken hbound
  | waitFull s x henters hfull hleft =>
    rw [after_of_same hleft.taken]
    exact .block s _ q (hallowed s _ henters).2 (fun _ _ => hfull) hleft
  | waitEmpty s henters hempty hleft =>
    rw [after_of_same hleft.taken]
    exact .block s _ q (hallowed s _ henters).2 (fun _ hcall => by cases hcall) hleft
  | pushBack s x henters hfree hleft =>
    rw [after_of_same hleft.taken]
    exact .push s x q (hallowed s _ henters).2 hfree hleft
  | popFront s front rest henters hitems hleft =>
    obtain ⟨rfl, hs⟩ := hallowed s _ henters
    exact .pop s front rest q hs hitems hleft

/-- Every step is one of these. -/
theorem acts_of_step (h : step p e = some p') : Acts p e p' := by
  unfold step at h
  cases e with
  | setMaxQueueSize size =>
    cases h
    exact .bound size rfl
  | start =>
    dsimp only at h
    split at h
    · rename_i hlt
      cases h
      exact .start rfl hlt
    · cases h
  | put t x pick =>
    dsimp only at h
    split at h
    · rename_i hmay
      obtain ⟨q, hq, rfl⟩ := Option.map_eq_some_iff.mp h
      refine acts_of_moves (moves_of_step hq) (fun _ heq => by cases heq) fun s call henters => ?_
      cases henters with
      | put s x pick hout => exact ⟨rfl, Or.inr ⟨hout, hmay⟩⟩
    · cases h
  | take i pick =>
    dsimp only at h
    split at h
    · rename_i hidle
      obtain ⟨q, hq, rfl⟩ := Option.map_eq_some_iff.mp h
      refine acts_of_moves (moves_of_step hq) (fun _ heq => by cases heq) fun s call henters => ?_
      cases henters with
      | take s pick hout => exact ⟨rfl, Or.inr ⟨hout, i, rfl, hidle⟩⟩
    · cases h
  | resume t pick =>
    obtain ⟨q, hq, rfl⟩ := Option.map_eq_some_iff.mp h
    refine acts_of_moves (moves_of_step hq) (fun _ heq => by cases heq) fun s call henters => ?_
    cases henters with
    | resume s pick call hin => exact ⟨rfl, Or.inl hin⟩
  | wake t =>
    obtain ⟨q, hq, rfl⟩ := Option.map_eq_some_iff.mp h
    refine acts_of_moves (moves_of_step hq) (fun _ heq => by cases heq) fun s call henters => ?_
    cases henters
  | finish i =>
    dsimp only at h
    split at h
    · cases h
    · rename_i x hrunning
      split at h
      · rename_i hout
        cases h
        exact .finish i x rfl hrunning hout
      · cases h

/-! ### Every run -/

/-- What holds of the pool in every state. -/
structure Inv (p : ThreadPool τ α) : Prop where
  /-- No more workers are created than asked for. -/
  size : p.threads_ ≤ p.threadSize_
  /-- Only workers run tasks. -/
  running : ∀ i x, p.running i = some x → i < p.threads_
  /-- Only workers that run nothing take tasks. -/
  taking : ∀ t, p.queue_.calls t = some .take →
    ∃ i, t = .worker i ∧ i < p.threads_ ∧ p.running i = none
  /-- Only workers in a task put tasks. -/
  putting : ∀ i x, p.queue_.calls (.worker i) = some (.put x) → (p.running i).isSome
  /-- Tasks are taken in the order in which they were put. -/
  fifo : p.queue_.taken ++ p.queue_.queue.queue_ = p.queue_.put
  /-- A task that was taken is running or has returned. -/
  accounts : p.queue_.taken.Perm (p.finished ++ p.tasks)

omit [DecidableEq τ] in
/-- One more worker runs a task. -/
theorem tasks_update {f : ℕ → Option α} {n : ℕ} (hi : i < n) (hf : f i = none) (x : α) :
    ((List.range n).filterMap (Function.update f i (some x))).Perm
      (x :: (List.range n).filterMap f) := by
  have hmem : i ∈ List.range n := List.mem_range.mpr hi
  have hout : (List.range n).Perm (i :: (List.range n).erase i) := List.perm_cons_erase hmem
  have hrest : ((List.range n).erase i).filterMap (Function.update f i (some x)) =
      ((List.range n).erase i).filterMap f := by
    refine List.filterMap_congr fun j hj => Function.update_of_ne ?_ _ _
    rintro rfl
    exact List.nodup_range.not_mem_erase hj
  have hnew := hout.filterMap (Function.update f i (some x))
  have hold := hout.filterMap f
  rw [List.filterMap_cons_some (Function.update_self i (some x) f), hrest] at hnew
  rw [List.filterMap_cons_none hf] at hold
  exact hnew.trans (hold.symm.cons x)

omit [DecidableEq τ] in
/-- One worker fewer runs a task. -/
theorem tasks_clear {f : ℕ → Option α} {n : ℕ} (hi : i < n) (hf : f i = some x) :
    ((List.range n).filterMap f).Perm
      (x :: (List.range n).filterMap (Function.update f i none)) := by
  have h := tasks_update (f := Function.update f i none) hi (Function.update_self i none f) x
  rwa [Function.update_idem, ← hf, Function.update_eq_self] at h

omit [DecidableEq τ] in
/-- A new worker runs nothing. -/
theorem tasks_range_succ {f : ℕ → Option α} {n : ℕ} (hf : f n = none) :
    (List.range (n + 1)).filterMap f = (List.range n).filterMap f := by
  rw [List.range_succ, List.filterMap_append, List.filterMap_cons_none hf, List.filterMap_nil,
    List.append_nil]

omit [DecidableEq τ] in
/-- A thread that takes is a worker that runs nothing. -/
theorem Inv.taker (h : Inv p) (ht : Allowed p t .take) :
    ∃ i, t = .worker i ∧ i < p.threads_ ∧ p.running i = none := by
  rcases ht with hin | ⟨_, hidle⟩
  · exact h.taking t hin
  · exact hidle

omit [DecidableEq τ] in
/-- A worker that puts runs a task. -/
theorem Inv.putter (h : Inv p) (ht : Allowed p (.worker i) (.put x)) : (p.running i).isSome := by
  rcases ht with hin | ⟨_, hmay⟩
  · exact h.putting i x hin
  · exact hmay

/-- A thread blocks in its call. -/
theorem Inv.block (h : Inv p) {call : Call α} {q : BlockingQueues.System (Thread τ) α}
    (ht : Allowed p t call)
    (hleft : Left p.queue_ q t (some call) p.queue_.queue.queue_ p.queue_.put p.queue_.taken) :
    Inv { p with queue_ := q } := by
  refine ⟨h.size, h.running, fun s hs => ?_, fun i x hs => ?_, ?_, ?_⟩
  · dsimp only at hs
    rw [hleft.calls, BlockingQueues.update_iff (P := fun c => c = some .take)] at hs
    rcases hs with ⟨rfl, hcall⟩ | ⟨_, hs⟩
    · cases hcall
      exact h.taker ht
    · exact h.taking s hs
  · dsimp only at hs
    rw [hleft.calls, BlockingQueues.update_iff (P := fun c => c = some (.put x))] at hs
    rcases hs with ⟨rfl, hcall⟩ | ⟨_, hs⟩
    · cases hcall
      exact h.putter ht
    · exact h.putting i x hs
  · dsimp only
    rw [hleft.taken, hleft.items, hleft.put]
    exact h.fifo
  · dsimp only
    rw [hleft.taken]
    exact h.accounts

/-- A task is put. -/
theorem Inv.push (h : Inv p) {q : BlockingQueues.System (Thread τ) α}
    (hleft : Left p.queue_ q t none (p.queue_.queue.queue_ ++ [x]) (p.queue_.put ++ [x])
      p.queue_.taken) : Inv { p with queue_ := q } := by
  refine ⟨h.size, h.running, fun s hs => ?_, fun i y hs => ?_, ?_, ?_⟩
  · dsimp only at hs
    rw [hleft.calls, BlockingQueues.update_iff (P := fun c => c = some .take)] at hs
    rcases hs with ⟨_, hnone⟩ | ⟨_, hs⟩
    · cases hnone
    · exact h.taking s hs
  · dsimp only at hs
    rw [hleft.calls, BlockingQueues.update_iff (P := fun c => c = some (.put y))] at hs
    rcases hs with ⟨_, hnone⟩ | ⟨_, hs⟩
    · cases hnone
    · exact h.putting i y hs
  · dsimp only
    rw [hleft.taken, hleft.items, hleft.put, ← List.append_assoc, h.fifo]
  · dsimp only
    rw [hleft.taken]
    exact h.accounts

/-- A worker takes a task and runs it. -/
theorem Inv.pop (h : Inv p) {rest : List α} {q : BlockingQueues.System (Thread τ) α}
    (hi : i < p.threads_) (hidle : p.running i = none)
    (hitems : p.queue_.queue.queue_ = x :: rest)
    (hleft : Left p.queue_ q (.worker i) none rest p.queue_.put (p.queue_.taken ++ [x])) :
    Inv { p with queue_ := q, running := Function.update p.running i (some x) } := by
  refine ⟨h.size, fun j y hj => ?_, fun s hs => ?_, fun j y hs => ?_, ?_, ?_⟩
  · by_cases hji : j = i
    · exact hji ▸ hi
    · dsimp only at hj
      rw [Function.update_of_ne hji] at hj
      exact h.running j y hj
  · dsimp only at hs
    rw [hleft.calls, BlockingQueues.update_iff (P := fun c => c = some .take)] at hs
    rcases hs with ⟨_, hnone⟩ | ⟨hne, hs⟩
    · cases hnone
    · obtain ⟨j, rfl, hj, hrun⟩ := h.taking s hs
      have hji : j ≠ i := fun heq => hne (congrArg Thread.worker heq)
      exact ⟨j, rfl, hj, (Function.update_of_ne hji _ _).trans hrun⟩
  · dsimp only at hs
    rw [hleft.calls, BlockingQueues.update_iff (P := fun c => c = some (.put y))] at hs
    rcases hs with ⟨_, hnone⟩ | ⟨hne, hs⟩
    · cases hnone
    · have hji : j ≠ i := fun heq => hne (congrArg Thread.worker heq)
      dsimp only
      rw [Function.update_of_ne hji]
      exact h.putting j y hs
  · dsimp only
    rw [hleft.taken, hleft.items, hleft.put, ← h.fifo, hitems, List.append_assoc]
    rfl
  · dsimp only
    rw [hleft.taken]
    have hmore := tasks_update hi hidle x
    have hback : (p.finished ++ p.tasks ++ [x]).Perm (p.finished ++ (x :: p.tasks)) := by
      rw [List.append_assoc]
      exact (List.perm_append_singleton x p.tasks).append_left p.finished
    exact (h.accounts.append_right [x]).trans (hback.trans (hmore.symm.append_left p.finished))

omit [DecidableEq τ] in
/-- A task returns. -/
theorem Inv.finish (h : Inv p) (hrunning : p.running i = some x)
    (hout : p.queue_.calls (.worker i) = none) : Inv { p with
      running := Function.update p.running i none, finished := p.finished ++ [x] } := by
  have hi := h.running i x hrunning
  refine ⟨h.size, fun j y hj => ?_, fun s hs => ?_, fun j y hs => ?_, h.fifo, ?_⟩
  · dsimp only at hj
    by_cases hji : j = i
    · exact hji ▸ hi
    · rw [Function.update_of_ne hji] at hj
      exact h.running j y hj
  · obtain ⟨j, rfl, hj, hrun⟩ := h.taking s hs
    refine ⟨j, rfl, hj, ?_⟩
    by_cases hji : j = i
    · subst hji
      exact Function.update_self j none p.running
    · exact (Function.update_of_ne hji none p.running).trans hrun
  · have hji : j ≠ i := by
      rintro rfl
      cases hout.symm.trans hs
    dsimp only
    rw [Function.update_of_ne hji]
    exact h.putting j y hs
  · have hfewer := tasks_clear hi hrunning
    refine h.accounts.trans ?_
    dsimp only
    rw [List.append_assoc]
    exact hfewer.append_left p.finished

/-- Every step keeps the invariant. -/
theorem Inv.step (h : Inv p) (he : ThreadPools.step p e = some p') : Inv p' := by
  cases acts_of_step he with
  | bound size hset => exact ⟨h.size, h.running, h.taking, h.putting, h.fifo, h.accounts⟩
  | woken q hcalls hitems hput htaken hbound =>
    refine ⟨h.size, h.running, ?_, ?_, ?_, ?_⟩
    · rw [hcalls]
      exact h.taking
    · rw [hcalls]
      exact h.putting
    · rw [htaken, hitems, hput]
      exact h.fifo
    · rw [htaken]
      exact h.accounts
  | start hstart hlt =>
    have hnone : p.running p.threads_ = none := by
      by_contra hsome
      obtain ⟨x, hx⟩ := Option.ne_none_iff_exists'.mp hsome
      exact absurd (h.running _ x hx) (lt_irrefl _)
    refine ⟨hlt, fun i x hx => Nat.lt_succ_of_lt (h.running i x hx), fun t ht => ?_, h.putting,
      h.fifo, ?_⟩
    · obtain ⟨i, rfl, hi, hrun⟩ := h.taking t ht
      exact ⟨i, rfl, Nat.lt_succ_of_lt hi, hrun⟩
    · have hsame := tasks_range_succ hnone
      unfold ThreadPool.tasks
      dsimp only
      rw [hsame]
      exact h.accounts
  | block t call q hallowed hfull hleft => exact h.block hallowed hleft
  | push t x q hallowed hfree hleft => exact h.push hleft
  | pop t front rest q hallowed hitems hleft =>
    obtain ⟨i, rfl, hi, hidle⟩ := h.taker hallowed
    rw [after_of_pop hleft.taken]
    exact h.pop hi hidle hitems hleft
  | finish i x hfinish hrunning hout => exact h.finish hrunning hout

omit [DecidableEq τ] in
/-- A pool that was just constructed. -/
theorem inv_construct (size : ℕ) : Inv (ThreadPool.construct size : ThreadPool τ α) := by
  refine ⟨Nat.zero_le size, fun i x h => ?_, fun t h => ?_, fun i x h => ?_, rfl, List.Perm.refl _⟩
  · cases h
  · cases h
  · cases h

/-- In every reachable state the pool is in order. -/
theorem inv_run {size : ℕ} (hrun : run step (ThreadPool.construct size) events = some p) : Inv p :=
  invariant Inv (fun _ _ _ h he => h.step he) (inv_construct size) hrun

/-- The step hands on a task that was taken to a worker that runs nothing, and only such
a worker starts one; a task that returns was running. -/
structure Hands (p : ThreadPool τ α) (p' : ThreadPool τ α) : Prop where
  /-- A task is started when it is taken, and only then. -/
  starts : p'.queue_.taken = p.queue_.taken ∧ (∀ i x, p'.running i = some x → p.running i = some x) ∨
    ∃ i x, p'.queue_.taken = p.queue_.taken ++ [x] ∧ p.running i = none ∧
      p'.running = Function.update p.running i (some x)
  /-- A task returns where it was running. -/
  returns : p'.finished = p.finished ∨ ∃ i x, p'.finished = p.finished ++ [x] ∧
    p.running i = some x ∧ p'.running = Function.update p.running i none

/-- Every step of a pool that is in order hands tasks on like this. -/
theorem Inv.hands (h : Inv p) (he : ThreadPools.step p e = some p') : Hands p p' := by
  cases acts_of_step he with
  | bound size hset => exact ⟨Or.inl ⟨rfl, fun _ _ h => h⟩, Or.inl rfl⟩
  | woken q hcalls hitems hput htaken hbound => exact ⟨Or.inl ⟨htaken, fun _ _ h => h⟩, Or.inl rfl⟩
  | start hstart hlt => exact ⟨Or.inl ⟨rfl, fun _ _ h => h⟩, Or.inl rfl⟩
  | block t call q hallowed hfull hleft => exact ⟨Or.inl ⟨hleft.taken, fun _ _ h => h⟩, Or.inl rfl⟩
  | push t x q hallowed hfree hleft => exact ⟨Or.inl ⟨hleft.taken, fun _ _ h => h⟩, Or.inl rfl⟩
  | pop t front rest q hallowed hitems hleft =>
    obtain ⟨i, rfl, _, hidle⟩ := h.taker hallowed
    rw [after_of_pop hleft.taken]
    exact ⟨Or.inr ⟨i, front, hleft.taken, hidle, rfl⟩, Or.inl rfl⟩
  | finish i x hfinish hrunning hout =>
    refine ⟨Or.inl ⟨rfl, fun j y hj => ?_⟩, Or.inr ⟨i, x, rfl, hrunning, rfl⟩⟩
    dsimp only at hj
    by_cases hji : j = i
    · subst hji
      rw [Function.update_self] at hj
      cases hj
    · rwa [Function.update_of_ne hji] at hj

/-- Every task that was put is started at most once, in the order in which tasks were
put, by a worker that runs nothing else; what was started is running or has returned,
and no more tasks run at a time than the pool has workers. -/
theorem tasks_run_once (size : ℕ) (events : List (Event τ α)) (p : ThreadPool τ α)
    (hrun : run step (ThreadPool.construct size) events = some p) :
    p.queue_.taken ++ p.queue_.queue.queue_ = p.queue_.put ∧
      p.queue_.taken.Perm (p.finished ++ p.tasks) ∧ p.tasks.length ≤ p.threadSize_ ∧
      ∀ more, Along step (fun p _ p' => Hands p p') p more := by
  have h := inv_run hrun
  refine ⟨h.fifo, h.accounts, ?_, fun more => ?_⟩
  · calc p.tasks.length ≤ (List.range p.threads_).length := List.length_filterMap_le _ _
      _ = p.threads_ := List.length_range
      _ ≤ p.threadSize_ := h.size
  · exact along_of_invariant Inv (fun _ _ _ h he => ⟨h.step he, h.hands he⟩) h more

/-- A caller puts two tasks; one worker takes the first, another one the second, which
returns before the first. -/
def twoTasks : List (Event ℕ ℕ) :=
  [.start, .put (.caller 0) 7 none, .take 0 none, .start, .take 1 none,
    .put (.caller 0) 8 (some (.worker 1)), .resume (.worker 1) none, .finish 1]

/-- The first task is running when the second has returned. -/
theorem tasks_run_once_two :
    ∃ p, run step (ThreadPool.construct 2) twoTasks = some p ∧ p.finished = [8] ∧
      p.tasks = [7] ∧ p.queue_.taken.Perm (p.finished ++ p.tasks) :=
  ⟨_, rfl, rfl, rfl, (tasks_run_once 2 twoTasks _ rfl).2.1⟩

end KKNet.ThreadPools
