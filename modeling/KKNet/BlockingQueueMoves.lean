import KKNet.BlockingQueue

/-!
# The sections of the blocking queue

What the thread that has the mutex can do to a blocking queue, once for all events: it
blocks in its call, pushes its item, or pops the front. The rest of a step is about the
conditions alone.
-/

namespace KKNet.BlockingQueues

open Runs Monitors

variable {τ α : Type} [DecidableEq τ]

/-- What a section of the thread `t` leaves: its call, the items, and what was put and
taken so far. -/
structure Left (w w' : System τ α) (t : τ) (call : Option (Call α)) (items put taken : List α) :
    Prop where
  calls : w'.calls = Function.update w.calls t call
  items : w'.queue.queue_ = items
  put : w'.put = put
  taken : w'.taken = taken
  bound : w'.queue.maxQueueSize_ = w.queue.maxQueueSize_

/-- In the event the thread begins the call, or goes on with it after `wait`. -/
inductive Enters (w : System τ α) : Event τ α → τ → Call α → Prop
  | put (t : τ) (x : α) (pick : Option τ) (hout : w.calls t = none) :
    Enters w (.put t x pick) t (.put x)
  | take (t : τ) (pick : Option τ) (hout : w.calls t = none) : Enters w (.take t pick) t .take
  | resume (t : τ) (pick : Option τ) (call : Call α) (hin : w.calls t = some call) :
    Enters w (.resume t pick) t call

/-- What an event does to the items and the calls. -/
inductive Moves (w : System τ α) (e : Event τ α) (w' : System τ α) : Prop
  /-- The bound is set. -/
  | bound (size : Int32) (hset : e = .setMaxQueueSize size)
      (heq : w' = { w with queue := w.queue.setMaxQueueSize size })
  /-- A thread wakes for no reason. -/
  | woken (t : τ) (hwake : e = .wake t) (hcalls : w'.calls = w.calls)
      (hitems : w'.queue.queue_ = w.queue.queue_) (hput : w'.put = w.put)
      (htaken : w'.taken = w.taken) (hbound : w'.queue.maxQueueSize_ = w.queue.maxQueueSize_)
  /-- A producer waits for a slot. -/
  | waitFull (t : τ) (x : α) (henters : Enters w e t (.put x)) (hfull : w.queue.full)
      (hleft : Left w w' t (some (.put x)) w.queue.queue_ w.put w.taken)
  /-- A consumer waits for an item. -/
  | waitEmpty (t : τ) (henters : Enters w e t .take) (hempty : w.queue.queue_ = [])
      (hleft : Left w w' t (some .take) w.queue.queue_ w.put w.taken)
  /-- A producer leaves its item. -/
  | pushBack (t : τ) (x : α) (henters : Enters w e t (.put x))
      (hfree : w.queue.maxQueueSize_ ≠ 0 → ¬w.queue.full)
      (hleft : Left w w' t none (w.queue.queue_ ++ [x]) (w.put ++ [x]) w.taken)
  /-- A consumer gets the front. -/
  | popFront (t : τ) (front : α) (rest : List α) (henters : Enters w e t .take)
      (hitems : w.queue.queue_ = front :: rest)
      (hleft : Left w w' t none rest w.put (w.taken ++ [front]))

variable {w w' : System τ α} {t : τ} {x : α} {pick : Option τ}

/-- The end of `put`. -/
theorem left_pushBack (h : w.pushBack t x pick = some w') :
    Left w w' t none (w.queue.queue_ ++ [x]) (w.put ++ [x]) w.taken := by
  obtain ⟨c, _, rfl⟩ := Option.map_eq_some_iff.mp h
  exact ⟨rfl, rfl, rfl, rfl, rfl⟩

/-- The producer waits for a slot, or leaves its item in a free one. -/
def Produces (w w' : System τ α) (t : τ) (x : α) : Prop :=
  w.queue.full ∧ Left w w' t (some (.put x)) w.queue.queue_ w.put w.taken ∨
    (w.queue.maxQueueSize_ ≠ 0 → ¬w.queue.full) ∧
      Left w w' t none (w.queue.queue_ ++ [x]) (w.put ++ [x]) w.taken

/-- The loop of `put`, and what follows it. -/
theorem produces_putLoop (h : w.putLoop t x pick = some w') : Produces w w' t x := by
  unfold System.putLoop at h
  by_cases hfull : w.queue.full
  · rw [if_pos hfull] at h
    cases h
    exact Or.inl ⟨hfull, rfl, rfl, rfl, rfl, rfl⟩
  · rw [if_neg hfull] at h
    exact Or.inr ⟨fun _ => hfull, left_pushBack h⟩

/-- `put`. -/
theorem produces_putSection (h : w.putSection t x pick = some w') : Produces w w' t x := by
  unfold System.putSection at h
  split at h
  · exact produces_putLoop h
  · rename_i hzero
    exact Or.inr ⟨fun hne => absurd hne hzero, left_pushBack h⟩

/-- The loop of `take`, and what follows it. -/
theorem left_takeLoop (h : w.takeLoop t pick = some w') :
    w.queue.queue_ = [] ∧ Left w w' t (some .take) w.queue.queue_ w.put w.taken ∨
      ∃ front rest, w.queue.queue_ = front :: rest ∧
        Left w w' t none rest w.put (w.taken ++ [front]) := by
  unfold System.takeLoop at h
  cases hq : w.queue.queue_ with
  | nil =>
    rw [hq] at h
    cases h
    exact Or.inl ⟨rfl, rfl, hq, rfl, rfl, rfl⟩
  | cons front rest =>
    rw [hq] at h
    obtain ⟨c, _, rfl⟩ := Option.map_eq_some_iff.mp h
    exact Or.inr ⟨front, rest, rfl, rfl, rfl, rfl, rfl, rfl⟩

/-- The systems differ in the conditions alone. -/
structure SameItems (w₁ w : System τ α) : Prop where
  items : w₁.queue.queue_ = w.queue.queue_
  bound : w₁.queue.maxQueueSize_ = w.queue.maxQueueSize_
  calls : w₁.calls = w.calls
  put : w₁.put = w.put
  taken : w₁.taken = w.taken

/-- What a section leaves does not depend on the conditions. -/
theorem Left.of_same {w₁ : System τ α} {call : Option (Call α)} {items put taken : List α}
    (hl : Left w₁ w' t call items put taken) (hs : SameItems w₁ w) :
    Left w w' t call items put taken :=
  ⟨hs.calls ▸ hl.calls, hl.items, hl.put, hl.taken, hl.bound.trans hs.bound⟩

/-- A producer has the mutex. -/
theorem moves_put {w₁ : System τ α} {e : Event τ α} (henters : Enters w e t (.put x))
    (h : Produces w₁ w' t x) (hs : SameItems w₁ w) : Moves w e w' := by
  have hfull : w₁.queue.full ↔ w.queue.full := by
    unfold BlockingQueue.full
    rw [hs.items, hs.bound]
  unfold Produces at h
  rw [hfull, hs.items, hs.bound, hs.put, hs.taken] at h
  rcases h with ⟨hf, hl⟩ | ⟨hf, hl⟩
  · exact .waitFull t x henters hf (hl.of_same hs)
  · exact .pushBack t x henters hf (hl.of_same hs)

/-- A consumer has the mutex. -/
theorem moves_take {w₁ : System τ α} {e : Event τ α} (henters : Enters w e t .take)
    (h : w₁.takeLoop t pick = some w') (hs : SameItems w₁ w) : Moves w e w' := by
  rcases left_takeLoop h with ⟨hempty, hl⟩ | ⟨front, rest, hq, hl⟩
  · rw [hs.items, hs.put, hs.taken] at hl
    exact .waitEmpty t henters (hs.items ▸ hempty) (hl.of_same hs)
  · rw [hs.put, hs.taken] at hl
    exact .popFront t front rest henters (hs.items ▸ hq) (hl.of_same hs)

/-- Every step is one of these. -/
theorem moves_of_step {e : Event τ α} (h : step w e = some w') : Moves w e w' := by
  unfold step at h
  cases e with
  | setMaxQueueSize size =>
    cases h
    exact .bound size rfl rfl
  | put t x pick =>
    dsimp only at h
    split at h
    · rename_i hout
      rw [Option.isNone_iff_eq_none] at hout
      exact moves_put (.put t x pick hout) (produces_putSection h) ⟨rfl, rfl, rfl, rfl, rfl⟩
    · cases h
  | take t pick =>
    dsimp only at h
    split at h
    · rename_i hout
      rw [Option.isNone_iff_eq_none] at hout
      exact moves_take (.take t pick hout) h ⟨rfl, rfl, rfl, rfl, rfl⟩
    · cases h
  | resume t pick =>
    dsimp only at h
    split at h
    · cases h
    · rename_i x hcall
      obtain ⟨c, _, h⟩ := Option.bind_eq_some_iff.mp h
      exact moves_put (.resume t pick _ hcall) (produces_putLoop h) ⟨rfl, rfl, rfl, rfl, rfl⟩
    · rename_i hcall
      obtain ⟨c, _, h⟩ := Option.bind_eq_some_iff.mp h
      exact moves_take (.resume t pick _ hcall) h ⟨rfl, rfl, rfl, rfl, rfl⟩
  | wake t =>
    dsimp only at h
    split at h
    · cases h
    · obtain ⟨c, _, rfl⟩ := Option.map_eq_some_iff.mp h
      exact .woken t rfl rfl rfl rfl rfl rfl
    · obtain ⟨c, _, rfl⟩ := Option.map_eq_some_iff.mp h
      exact .woken t rfl rfl rfl rfl rfl rfl

/-! ### What a step costs -/

omit [DecidableEq τ] in
/-- What the items, the producers inside and the threads that may resume still cost. -/
def System.potential (w : System τ α) : ℕ :=
  4 * w.queue.queue_.length + 5 * w.queue.notFull_.members.length + w.queue.notEmpty_.awake +
    w.queue.notFull_.awake

/-- What an event adds to it. -/
def Event.gain : Event τ α → ℕ
  | .put _ _ _ => 5
  | .wake _ => 1
  | _ => 0

/-- What a step of a call that has begun costs. -/
def Event.cost : Event τ α → ℕ
  | .resume _ _ => 1
  | _ => 0

/-- The end of `put`. -/
theorem potential_pushBack (h : w.pushBack t x pick = some w') :
    w'.potential ≤ w.potential + 5 ∧ w'.taken = w.taken := by
  obtain ⟨c, hc, rfl⟩ := Option.map_eq_some_iff.mp h
  have hawake := Condition.awake_notify hc
  refine ⟨?_, rfl⟩
  unfold System.potential
  dsimp only
  rw [List.length_append, List.length_singleton]
  omega

/-- The loop of `put`. -/
theorem potential_putLoop (h : w.putLoop t x pick = some w') :
    w'.potential ≤ w.potential + 5 ∧ w'.taken = w.taken := by
  unfold System.putLoop at h
  split at h
  · cases h
    refine ⟨?_, rfl⟩
    unfold System.potential System.waitFull Condition.awake
    dsimp only
    rw [Condition.members_wait, List.length_cons]
    dsimp only [Condition.wait]
    omega
  · exact potential_pushBack h

/-- The loop of `take`: an item that leaves pays for the worker that got it. -/
theorem potential_takeLoop (h : w.takeLoop t pick = some w') :
    w'.potential + 3 * w'.taken.length ≤ w.potential + 3 * w.taken.length := by
  unfold System.takeLoop at h
  split at h
  · cases h
    exact le_rfl
  · rename_i front rest hq
    obtain ⟨c, hc, rfl⟩ := Option.map_eq_some_iff.mp h
    have hnotified : c.awake ≤ w.queue.notFull_.awake + 1 ∧
        c.members.length = w.queue.notFull_.members.length := by
      split at hc
      · exact ⟨Condition.awake_notify hc, (Condition.members_notify hc).length_eq⟩
      · cases hc
        exact ⟨Nat.le_succ _, rfl⟩
    unfold System.potential
    dsimp only
    rw [hq, List.length_cons, List.length_append, List.length_singleton]
    omega

/-- Only `put`, and threads that wake for no reason, add to what is still to be paid. -/
theorem potential_step {e : Event τ α} (h : step w e = some w') :
    w'.potential + 3 * w'.taken.length + e.cost ≤ w.potential + 3 * w.taken.length + e.gain := by
  unfold step at h
  cases e with
  | setMaxQueueSize size =>
    cases h
    exact le_rfl
  | put t x pick =>
    dsimp only at h
    split at h
    · have hput : w'.potential ≤ w.potential + 5 ∧ w'.taken = w.taken := by
        unfold System.putSection at h
        split at h
        · exact potential_putLoop h
        · exact potential_pushBack h
      rw [hput.2]
      dsimp only [Event.cost, Event.gain]
      omega
    · cases h
  | take t pick =>
    dsimp only at h
    split at h
    · exact potential_takeLoop h
    · cases h
  | resume t pick =>
    dsimp only at h
    split at h
    · cases h
    · obtain ⟨c, hc, h⟩ := Option.bind_eq_some_iff.mp h
      obtain ⟨hput, htaken⟩ := potential_putLoop h
      have hawake := Condition.awake_resume hc
      have hmembers := (Condition.members_resume hc).length_eq
      rw [List.length_cons] at hmembers
      rw [htaken]
      unfold System.potential at hput ⊢
      dsimp only [Event.cost, Event.gain] at hput ⊢
      omega
    · obtain ⟨c, hc, h⟩ := Option.bind_eq_some_iff.mp h
      have htake := potential_takeLoop h
      have hawake := Condition.awake_resume hc
      unfold System.potential at htake ⊢
      dsimp only [Event.cost, Event.gain] at htake ⊢
      omega
  | wake t =>
    dsimp only at h
    split at h
    · cases h
    · obtain ⟨c, hc, rfl⟩ := Option.map_eq_some_iff.mp h
      have hawake := Condition.awake_wake hc
      have hmembers := (Condition.members_wake hc).length_eq
      unfold System.potential
      dsimp only [Event.cost, Event.gain]
      omega
    · obtain ⟨c, hc, rfl⟩ := Option.map_eq_some_iff.mp h
      have hawake := Condition.awake_wake hc
      unfold System.potential
      dsimp only [Event.cost, Event.gain]
      omega

/-! ### A thread that can go on -/

/-- A thread that a condition lets go on has a step. -/
theorem resume_enabled_consumer {c : Condition τ} (hw : Consistent w)
    (hc : w.queue.notEmpty_.resume t = some c) : ∃ pick w', step w (.resume t pick) = some w' := by
  have hcall := (hw.consumers.resume hc).1
  simp only [step, hcall, hc, Option.bind_some]
  exact takeLoop_enabled _ t

theorem resume_enabled_producer {c : Condition τ} (hw : Consistent w)
    (hc : w.queue.notFull_.resume t = some c) : ∃ pick w', step w (.resume t pick) = some w' := by
  obtain ⟨x, hcall⟩ := (hw.producers.resume hc).1
  simp only [step, hcall, hc, Option.bind_some]
  exact putLoop_enabled _ t x

end KKNet.BlockingQueues
