import KKNet.TimerBook

/-!
# Runs of the timer queue

What a step of the system does to the queue, its thread and the timers on their
way, once the bookkeeping of the queue is known to be in order; and that it stays
in order. So no run follows a dangling pointer: a timer is deleted once, and
neither run nor read nor put back after that, whatever lies at its address.
-/

namespace KKNet.TimerRuns

open OrderedSets Runs TimerQueues TimerBook

variable {w w' : World} {e : Event}

/-- `handleRead` is running callbacks. -/
def isCalling : Phase → Bool
  | .idle => false
  | .calling _ _ _ => true

/-- What holds in every reachable state. -/
structure Inv (w : World) : Prop where
  /-- The books are in order for the batch and the timers on their way. -/
  book : Book w.queue (w.phase.expired.map Entry.timer ++ w.waiting)
  /-- The callbacks that still have to run end the batch. -/
  todo : w.phase.todo <:+ w.phase.expired
  /-- The flag of the queue says whether callbacks are running. -/
  calling : w.queue.callingExpiredTimers_ = isCalling w.phase
  /-- A live timer was issued. -/
  issued : ∀ a t, w.queue.heap a = some t → ⟨a, t.sequence_⟩ ∈ w.issued
  /-- Numbers are given out in order. -/
  numbers : ∀ p ∈ w.issued, p.origin ≤ w.queue.num_
  /-- No number is given out twice. -/
  distinct : ∀ p ∈ w.issued, ∀ p' ∈ w.issued, p.origin = p'.origin → p = p'

/-- The event makes the thread of the loop execute `cancelInLoop` for a timer. -/
def Cancels (w : World) (e : Event) (id : ActiveTimer) : Prop :=
  e = .runCancel id ∨ ∃ clock tasks, e = .runTask clock ∧ w.phase = .idle ∧
    w.tasks_ = .cancelInLoop id :: tasks

/-- The event makes the thread of the loop execute `addTimerInLoop` for a timer, with a
reading of the clock. -/
def Adds (w : World) (e : Event) (p : TimerPtr) (clock : ℤ) : Prop :=
  (∃ i, e = .runAdd i clock) ∨ ∃ tasks, e = .runTask clock ∧
    w.tasks_ = .addTimerInLoop p :: tasks

/-- What a step of `handleRead` does. -/
inductive Reads (w : World) : Event → World → Prop
  /-- `handleRead` begins. -/
  | start {now : ℤ} {q : TimerQueue} {expired : List Entry} (hph : w.phase = .idle)
      (hs : Started w.queue q now expired) (hb : Book q (expired.map Entry.timer ++ w.waiting)) :
      Reads w (.startRead now) { w with queue := q, phase := .calling now expired expired }
  /-- `handleRead` starts a callback. -/
  | next {now : ℤ} {expired todo : List Entry} {x : Entry} {timer : Timer}
      (hph : w.phase = .calling now expired (x :: todo)) (hat : w.queue.at? x.timer = some timer) :
      Reads w .runNext { w with
        phase := .calling now expired todo
        history := w.history ++ [⟨timer.sequence_, timer.interval_, now⟩] }
  /-- `handleRead` ends. -/
  | finish {now clock : ℤ} {expired : List Entry} {q : TimerQueue}
      (hph : w.phase = .calling now expired [])
      (hr : Restarted { w.queue with callingExpiredTimers_ := false } q now expired)
      (hb : Book q w.waiting) :
      Reads w (.finishRead clock) { w with queue := rearmed q clock, phase := .idle }

/-- What a step does. -/
inductive Moves (w : World) : Event → World → Prop
  /-- A timer is constructed at a free address. -/
  | construct {addr : ℕ} {time : ℤ} {interval : Interval} (hfree : w.queue.heap addr = none)
      (haddr : addr < UINTPTR_MAX) :
      Moves w (.construct addr time interval) { w with
        queue := w.queue.construct addr time interval
        built := w.built ++ [⟨addr, w.queue.num_ + 1⟩]
        issued := w.issued ++ [⟨addr, w.queue.num_ + 1⟩] }
  /-- A number is given out elsewhere. -/
  | elsewhere : Moves w .elsewhere { w with queue := { w.queue with num_ := w.queue.num_ + 1 } }
  /-- A timer is handed to the loop. -/
  | queueAdd {i : ℕ} {p : TimerPtr} (hp : w.built[i]? = some p) :
      Moves w (.queueAdd i) { w with
        built := w.built.eraseIdx i
        tasks_ := w.tasks_ ++ [.addTimerInLoop p] }
  /-- A timer on its way is added. -/
  | add {e : Event} {p : TimerPtr} {timer : Timer} {clock : ℤ} {built : List TimerPtr}
      {tasks : List Task} (hadds : Adds w e p clock)
      (hwait : w.waiting.Perm (p :: World.waiting { w with built := built, tasks_ := tasks }))
      (hat : w.queue.at? p = some timer) :
      Moves w e { w with
        queue := added w.queue timer p clock
        built := built
        tasks_ := tasks }
  /-- A cancellation is handed to the loop. -/
  | queueCancel {id : ActiveTimer} :
      Moves w (.queueCancel id) { w with tasks_ := w.tasks_ ++ [.cancelInLoop id] }
  /-- An active timer is cancelled. -/
  | cancel {e : Event} {id x : ActiveTimer} {timer : Timer} {tasks : List Task}
      (hid : Cancels w e id) (hwait : tasks.filterMap Task.adds = w.tasks_.filterMap Task.adds)
      (hx : x ∈ w.queue.activeTimers_) (hkey : x.key = id.key)
      (hat : w.queue.at? x.timer_ = some timer) :
      Moves w e { w with queue := removed w.queue timer x, tasks_ := tasks }
  /-- A cancellation of a timer that is not active is noted, or forgotten. -/
  | note {e : Event} {id : ActiveTimer} {tasks : List Task} (hid : Cancels w e id)
      (hwait : tasks.filterMap Task.adds = w.tasks_.filterMap Task.adds)
      (hno : ∀ x ∈ w.queue.activeTimers_, x.key ≠ id.key) :
      Moves w e { w with queue := noted w.queue id, tasks_ := tasks }
  /-- The thread of the loop goes on with `handleRead`. -/
  | read {e : Event} {w' : World} (hread : Reads w e w') : Moves w e w'
  /-- The timerfd fires. -/
  | fire {now deadline : ℤ} (harmed : w.queue.timerfd_ = .armed now deadline) :
      Moves w .fire { w with queue := { w.queue with timerfd_ := .fired } }

/-- A timer taken out of the constructed ones is the next one to be added. -/
theorem waiting_eraseIdx {i : ℕ} {p : TimerPtr} (hp : w.built[i]? = some p) :
    w.waiting.Perm (p :: World.waiting { w with built := w.built.eraseIdx i }) := by
  obtain ⟨hi, hget⟩ := List.getElem?_eq_some_iff.mp hp
  have hperm : w.built.Perm (p :: w.built.eraseIdx i) := by
    rw [← hget]
    exact (List.getElem_cons_eraseIdx_perm hi).symm
  exact hperm.append_right _

/-- A cancellation on its way is not a timer on its way. -/
theorem waiting_queueCancel (w : World) (id : ActiveTimer) :
    World.waiting { w with tasks_ := w.tasks_ ++ [.cancelInLoop id] } = w.waiting := by
  unfold World.waiting
  dsimp only
  rw [List.filterMap_append]
  exact congrArg (w.built ++ ·) (List.append_nil _)

/-- With the books in order no step faults, and it does one of these. -/
theorem moves_of_perform (h : Inv w) {out : Except Fault World} (he : perform w e = some out) :
    ∃ w', out = .ok w' ∧ Moves w e w' := by
  have hbook := h.book
  have hlive : ∀ p ∈ w.waiting, ∃ t, w.queue.at? p = some t :=
    fun p hp => hbook.alive p (List.mem_append_right _ hp)
  unfold perform at he
  cases e with
  | construct addr time interval =>
    dsimp only at he
    split at he
    · rename_i hcan
      cases he
      exact ⟨_, rfl, .construct (Option.isNone_iff_eq_none.mp hcan.1) hcan.2⟩
    · cases he
  | elsewhere =>
    cases he
    exact ⟨_, rfl, .elsewhere⟩
  | queueAdd i =>
    obtain ⟨p, hp, hout⟩ := Option.map_eq_some_iff.mp he
    subst hout
    exact ⟨_, rfl, .queueAdd hp⟩
  | runAdd i clock =>
    obtain ⟨p, hp, hout⟩ := Option.map_eq_some_iff.mp he
    subst hout
    have hwait := waiting_eraseIdx hp
    obtain ⟨t, hat⟩ := hlive p (hwait.mem_iff.mpr List.mem_cons_self)
    rw [addTimerInLoop_ok hat]
    exact ⟨_, rfl, .add (Or.inl ⟨i, rfl⟩) hwait hat⟩
  | queueCancel id =>
    cases he
    exact ⟨_, rfl, .queueCancel⟩
  | runCancel id =>
    cases he
    rcases cancelInLoop_ok hbook id with ⟨x, hx, hkey, t, hat, hout⟩ | ⟨hno, hout⟩
    · rw [hout]
      exact ⟨_, rfl, .cancel (Or.inl rfl) rfl hx hkey hat⟩
    · rw [hout]
      exact ⟨_, rfl, .note (Or.inl rfl) rfl hno⟩
  | runTask clock =>
    dsimp only at he
    split at he
    · rename_i p tasks hph htasks
      cases he
      have hwait : w.waiting.Perm (p :: World.waiting { w with tasks_ := tasks }) := by
        unfold World.waiting
        rw [htasks]
        exact List.perm_middle
      obtain ⟨t, hat⟩ := hlive p (hwait.mem_iff.mpr List.mem_cons_self)
      rw [addTimerInLoop_ok hat]
      exact ⟨_, rfl, .add (Or.inr ⟨tasks, rfl, htasks⟩) hwait hat⟩
    · rename_i id tasks hph htasks
      cases he
      have hid : Cancels w (.runTask clock) id := Or.inr ⟨clock, tasks, rfl, hph, htasks⟩
      have hwait : tasks.filterMap Task.adds = w.tasks_.filterMap Task.adds := by
        rw [htasks]
        rfl
      rcases cancelInLoop_ok hbook id with ⟨x, hx, hkey, t, hat, hout⟩ | ⟨hno, hout⟩
      · rw [hout]
        exact ⟨_, rfl, .cancel hid hwait hx hkey hat⟩
      · rw [hout]
        exact ⟨_, rfl, .note hid hwait hno⟩
    · cases he
  | startRead now =>
    dsimp only at he
    split at he
    · rename_i hph
      cases he
      rw [hph] at hbook
      obtain ⟨q, expired, hout, hs, hb⟩ := startRead_ok hbook now
      rw [hout]
      exact ⟨_, rfl, .read (.start hph hs hb)⟩
    · cases he
  | runNext =>
    dsimp only at he
    split at he
    · rename_i now expired x todo hph
      cases he
      have hmem : x ∈ expired := by
        have htodo := h.todo
        rw [hph] at htodo
        exact htodo.subset List.mem_cons_self
      rw [hph] at hbook
      obtain ⟨t, hat⟩ := hbook.alive x.timer (List.mem_append_left _ (List.mem_map_of_mem hmem))
      rw [deref_of_at? hat]
      exact ⟨_, rfl, .read (.next hph hat)⟩
    · cases he
  | finishRead clock =>
    dsimp only at he
    split at he
    · rename_i now expired hph
      cases he
      have hbatch : Book w.queue (expired.map Entry.timer ++ w.waiting) := by
        rw [hph] at hbook
        exact hbook
      obtain ⟨q, hout, hr, hb⟩ := finishRead_ok hbatch now clock
      rw [hout]
      exact ⟨_, rfl, .read (.finish hph hr hb)⟩
    · cases he
  | fire =>
    dsimp only at he
    split at he
    · rename_i now deadline harmed
      cases he
      exact ⟨_, rfl, .fire harmed⟩
    · cases he

/-- A step does one of these. -/
theorem moves_of_step (h : Inv w) (he : step w e = some w') : Moves w e w' := by
  unfold step at he
  obtain ⟨out, hout, hok⟩ := Option.bind_eq_some_iff.mp he
  obtain ⟨w₁, hw₁, hmoves⟩ := moves_of_perform h hout
  subst hw₁
  cases hok
  exact hmoves

/-- A timer that is left alive was issued. -/
theorem issued_of_kept (h : Inv w) {q : TimerQueue}
    (hkept : ∀ p t', q.at? p = some t' → ∃ t, w.queue.at? p = some t) (a : ℕ) (t : Timer)
    (ha : q.heap a = some t) : ⟨a, t.sequence_⟩ ∈ w.issued := by
  obtain ⟨t₀, hat⟩ := hkept ⟨a, t.sequence_⟩ t (at?_eq_some.mpr ⟨ha, rfl⟩)
  obtain ⟨hheap, hseq⟩ := at?_eq_some.mp hat
  dsimp only at hheap hseq
  rw [← hseq]
  exact h.issued a t₀ hheap

/-- A step of `handleRead` keeps the invariant. -/
theorem inv_reads (h : Inv w) (hm : Reads w e w') : Inv w' := by
  have hbook := h.book
  cases hm with
  | @start now q expired hph hs hb =>
    exact { book := hb
            todo := List.suffix_rfl
            calling := hs.calling
            issued := fun a t ha => h.issued a t (hs.heap ▸ ha)
            numbers := fun p hp => (h.numbers p hp).trans_eq hs.num_.symm
            distinct := h.distinct }
  | @next now expired todo x timer hph hat =>
    have htodo := h.todo
    have hcalling := h.calling
    rw [hph] at hbook htodo hcalling
    exact { book := hbook
            todo := (List.suffix_cons x todo).trans htodo
            calling := hcalling
            issued := h.issued, numbers := h.numbers, distinct := h.distinct }
  | @finish now clock expired q hph hr hb =>
    exact { book := hb.rearmed clock
            todo := List.suffix_rfl
            calling := (rearmed_callingExpiredTimers_ q clock).trans hr.calling
            issued := by
              intro a t ha
              refine issued_of_kept h (fun p t' hp => ?_) a t (rearmed_heap q clock ▸ ha)
              obtain ⟨t₀, hat, _⟩ := hr.kept p t' hp
              exact ⟨t₀, hat⟩
            numbers := fun p hp => (h.numbers p hp).trans_eq ((rearmed_num_ q clock).trans hr.num_).symm
            distinct := h.distinct }

/-- Each of these keeps the invariant. -/
theorem inv_moves (h : Inv w) (hm : Moves w e w') : Inv w' := by
  have hbook := h.book
  cases hm with
  | @construct addr time interval hfree haddr =>
    have hnum : ∀ p ∈ w.issued ++ [⟨addr, w.queue.num_ + 1⟩],
        p ∈ w.issued ∧ p.origin ≤ w.queue.num_ ∨ p = ⟨addr, w.queue.num_ + 1⟩ := by
      intro p hp
      rcases List.mem_append.mp hp with hp | hp
      · exact Or.inl ⟨hp, h.numbers p hp⟩
      · exact Or.inr (List.mem_singleton.mp hp)
    exact { book := by
              refine (hbook.constructed hfree haddr).perm ?_
              refine List.perm_middle.symm.trans (List.Perm.append_left _ ?_)
              unfold World.waiting
              dsimp only
              rw [List.append_assoc]
              exact List.perm_middle.symm
            todo := h.todo
            calling := h.calling
            issued := by
              intro a t ha
              have hat : (w.queue.construct addr time interval).at? ⟨a, t.sequence_⟩ = some t :=
                at?_eq_some.mpr ⟨ha, rfl⟩
              rcases (at?_construct hfree).mp hat with hold | ⟨hp, _⟩
              · exact List.mem_append_left _ (h.issued a t (at?_eq_some.mp hold).1)
              · rw [hp]
                exact List.mem_append_right _ (List.mem_singleton_self _)
            numbers := by
              intro p hp
              have hself : (w.queue.construct addr time interval).num_ = w.queue.num_ + 1 := rfl
              rcases hnum p hp with ⟨_, hle⟩ | hnew
              · dsimp only
                omega
              · rw [hnew]
                exact hself.ge
            distinct := by
              intro p hp p' hp' ho
              rcases hnum p hp with ⟨hold, hle⟩ | hnew
              · rcases hnum p' hp' with ⟨hold', hle'⟩ | hnew'
                · exact h.distinct p hold p' hold' ho
                · rw [hnew'] at ho
                  dsimp only at ho
                  omega
              · rcases hnum p' hp' with ⟨hold', hle'⟩ | hnew'
                · rw [hnew] at ho
                  dsimp only at ho
                  omega
                · rw [hnew, hnew'] }
  | elsewhere =>
    exact { book := hbook.of_same rfl (Nat.le_succ _) rfl rfl
            todo := h.todo, calling := h.calling, issued := h.issued
            numbers := fun p hp => (h.numbers p hp).trans (Nat.le_succ _)
            distinct := h.distinct }
  | @queueAdd i p hp =>
    exact { book := by
              refine hbook.perm (List.Perm.append_left _ ((waiting_eraseIdx hp).trans ?_))
              unfold World.waiting
              dsimp only
              rw [List.filterMap_append, ← List.append_assoc]
              exact List.perm_append_singleton p _ |>.symm
            todo := h.todo, calling := h.calling, issued := h.issued, numbers := h.numbers
            distinct := h.distinct }
  | @add _ p timer clock built tasks hadds hwait hat =>
    have hmoved : Book w.queue (p :: (w.phase.expired.map Entry.timer ++
        World.waiting { w with built := built, tasks_ := tasks })) :=
      hbook.perm ((List.Perm.append_left _ hwait).trans List.perm_middle)
    exact { book := hmoved.added hat clock
            todo := h.todo
            calling := (added_callingExpiredTimers_ ..).trans h.calling
            issued := fun a t ha => h.issued a t (added_heap w.queue timer p clock ▸ ha)
            numbers := fun p hp => (h.numbers p hp).trans_eq (added_num_ ..).symm
            distinct := h.distinct }
  | @queueCancel id =>
    exact { book := by
              rw [waiting_queueCancel]
              exact hbook
            todo := h.todo, calling := h.calling, issued := h.issued, numbers := h.numbers
            distinct := h.distinct }
  | @cancel _ id x timer tasks hid hwait hx hkey hat =>
    exact { book := by
              unfold World.waiting
              dsimp only
              rw [hwait]
              exact hbook.removed hx hat
            todo := h.todo
            calling := h.calling
            issued := issued_of_kept h fun p t hp => ⟨t, ((at?_deleted rfl).mp hp).1⟩
            numbers := h.numbers
            distinct := h.distinct }
  | @note _ id tasks hid hwait hno =>
    exact { book := by
              unfold World.waiting
              dsimp only
              rw [hwait]
              exact hbook.noted id
            todo := h.todo
            calling := (noted_callingExpiredTimers_ ..).trans h.calling
            issued := fun a t ha => h.issued a t (noted_heap w.queue id ▸ ha)
            numbers := fun p hp => (h.numbers p hp).trans_eq (noted_num_ ..).symm
            distinct := h.distinct }
  | read hread => exact inv_reads h hread
  | fire harmed =>
    exact { book := hbook.of_same rfl le_rfl rfl rfl
            todo := h.todo, calling := h.calling, issued := h.issued, numbers := h.numbers
            distinct := h.distinct }

/-- A queue that was just constructed. -/
theorem inv_fresh : Inv World.fresh where
  book :=
    { numbered := fun a t ha => by cases ha
      unique := fun a b t u ha => by cases ha
      current := fun e he => absurd he List.not_mem_nil
      active := fun x hx => absurd hx List.not_mem_nil
      listed := fun e he => absurd he List.not_mem_nil
      alive := fun p hp => absurd hp List.not_mem_nil
      once := List.nodup_nil
      apart := fun p hp => absurd hp List.not_mem_nil }
  todo := List.suffix_rfl
  calling := rfl
  issued := fun a t ha => by cases ha
  numbers := fun p hp => absurd hp List.not_mem_nil
  distinct := fun p hp => absurd hp List.not_mem_nil

/-- Every reachable state has the invariant. -/
theorem inv_run {events : List Event} (hrun : run step World.fresh events = some w) : Inv w :=
  invariant Inv (fun _ _ _ h he => inv_moves h (moves_of_step h he)) inv_fresh hrun

/-- What a step that is not one of `handleRead` leaves as it is. -/
structure Aside (w w' : World) : Prop where
  /-- `handleRead` stays where it is. -/
  phase : w'.phase = w.phase
  /-- No callback is started. -/
  history : w'.history = w.history
  /-- Numbers are given out in order. -/
  num_ : w.queue.num_ ≤ w'.queue.num_
  /-- New timers on their way have new numbers. -/
  waiting : ∀ p ∈ w'.waiting, p ∈ w.waiting ∨ w.queue.num_ < p.origin
  /-- Timers stay issued. -/
  issued : ∀ p ∈ w.issued, p ∈ w'.issued
  /-- New entries are for timers that were on their way. -/
  entries : ∀ e ∈ w'.queue.timers_, e ∈ w.queue.timers_ ∨ e.timer ∈ w.waiting
  /-- New timers have new numbers, and the others keep their interval. -/
  kept : ∀ p t', w'.queue.at? p = some t' →
    (∃ t, w.queue.at? p = some t ∧ t'.interval_ = t.interval_) ∨ w.queue.num_ < p.origin
  /-- Cancellations stay noted. -/
  canceling : ∀ x ∈ w.queue.cancelingTimers_, x ∈ w'.queue.cancelingTimers_

/-- The event is a step of `handleRead`. -/
def isRead : Event → Bool
  | .startRead _ => true
  | .runNext => true
  | .finishRead _ => true
  | _ => false

/-- An event of `handleRead` does what a step of `handleRead` does. -/
theorem reads_of_isRead (hm : Moves w e w') (he : isRead e = true) : Reads w e w' := by
  cases hm with
  | read hread => exact hread
  | add hadds hwait hat =>
    rcases hadds with ⟨i, hadd⟩ | ⟨tasks, hadd, _⟩
    · rw [hadd] at he
      cases he
    · rw [hadd] at he
      cases he
  | cancel hid hwait hx hkey hat =>
    rcases hid with hid | ⟨clock, tasks, hid, _⟩
    · rw [hid] at he
      cases he
    · rw [hid] at he
      cases he
  | note hid hwait hno =>
    rcases hid with hid | ⟨clock, tasks, hid, _⟩
    · rw [hid] at he
      cases he
    · rw [hid] at he
      cases he
  | construct hfree haddr => cases he
  | elsewhere => cases he
  | queueAdd hp => cases he
  | queueCancel => cases he
  | fire harmed => cases he

/-- A step is one of `handleRead`, or stands aside from it. -/
theorem aside_or_reads (h : Inv w) (hm : Moves w e w') : Aside w w' ∨ Reads w e w' := by
  cases hm with
  | read hread => exact Or.inr hread
  | @construct addr time interval hfree haddr =>
    refine Or.inl { phase := rfl, history := rfl, num_ := Nat.le_succ _
                    issued := fun p hp => List.mem_append_left _ hp
                    waiting := ?_, entries := fun e he => Or.inl he
                    kept := ?_, canceling := fun x hx => hx }
    · intro p hp
      unfold World.waiting at hp
      dsimp only at hp
      rw [List.append_assoc, List.mem_append, List.mem_append, List.mem_singleton] at hp
      rcases hp with hp | hp | hp
      · exact Or.inl (List.mem_append_left _ hp)
      · rw [hp]
        exact Or.inr (Nat.lt_succ_self _)
      · exact Or.inl (List.mem_append_right _ hp)
    · intro p t' hp
      rcases (at?_construct hfree).mp hp with hold | ⟨hnew, _⟩
      · exact Or.inl ⟨t', hold, rfl⟩
      · rw [hnew]
        exact Or.inr (Nat.lt_succ_self _)
  | elsewhere =>
    exact Or.inl { phase := rfl, history := rfl, issued := fun p hp => hp, num_ := Nat.le_succ _
                   waiting := fun p hp => Or.inl hp, entries := fun e he => Or.inl he
                   kept := fun p t hp => Or.inl ⟨t, hp, rfl⟩, canceling := fun x hx => hx }
  | @queueAdd i p hp =>
    refine Or.inl { phase := rfl, history := rfl, issued := fun p hp => hp, num_ := le_rfl
                    waiting := ?_, entries := fun e he => Or.inl he
                    kept := fun p t hp => Or.inl ⟨t, hp, rfl⟩, canceling := fun x hx => hx }
    intro p' hp'
    refine Or.inl ((waiting_eraseIdx hp).mem_iff.mpr ?_)
    unfold World.waiting at hp'
    dsimp only at hp'
    rw [List.filterMap_append, ← List.append_assoc] at hp'
    rcases List.mem_append.mp hp' with hp' | hp'
    · exact List.mem_cons_of_mem p hp'
    · exact List.mem_singleton.mp hp' ▸ List.mem_cons_self
  | @add _ p timer clock built tasks hadds hwait hat =>
    have hbook : Book w.queue (p :: (w.phase.expired.map Entry.timer ++
        World.waiting { w with built := built, tasks_ := tasks })) :=
      h.book.perm ((List.Perm.append_left _ hwait).trans List.perm_middle)
    refine Or.inl { phase := rfl, history := rfl, issued := fun p hp => hp, num_ := (added_num_ ..).ge
                    waiting := fun p' hp' => Or.inl (hwait.mem_iff.mpr (List.mem_cons_of_mem p hp'))
                    entries := ?_, kept := ?_, canceling := fun x hx => ?_ }
    · intro e he
      dsimp only at he
      rw [added_timers_] at he
      rcases (mem_inserted hbook).mp he with hold | hnew
      · exact Or.inl hold
      · rw [hnew]
        exact Or.inr (hwait.mem_iff.mpr List.mem_cons_self)
    · intro p' t' hp'
      dsimp only at hp'
      rw [at?_congr (added_heap ..)] at hp'
      exact Or.inl ⟨t', hp', rfl⟩
    · dsimp only
      rw [added_cancelingTimers_]
      exact hx
  | queueCancel =>
    refine Or.inl { phase := rfl, history := rfl, issued := fun p hp => hp, num_ := le_rfl
                    waiting := fun p hp => Or.inl ?_, entries := fun e he => Or.inl he
                    kept := fun p t hp => Or.inl ⟨t, hp, rfl⟩, canceling := fun x hx => hx }
    rw [waiting_queueCancel] at hp
    exact hp
  | cancel hid hwait hx hkey hat =>
    refine Or.inl { phase := rfl, history := rfl, issued := fun p hp => hp, num_ := le_rfl
                    waiting := fun p hp => Or.inl ?_
                    entries := fun e he => Or.inl ((mem_removed h.book hat).mp he).1
                    kept := fun p t hp => Or.inl ⟨t, ((at?_deleted rfl).mp hp).1, rfl⟩
                    canceling := fun x hx => hx }
    unfold World.waiting at hp ⊢
    dsimp only at hp
    exact hwait ▸ hp
  | @note _ id tasks hid hwait hno =>
    unfold noted
    refine Or.inl { phase := rfl, history := rfl, issued := fun p hp => hp, num_ := ?_
                    waiting := fun p hp => Or.inl ?_
                    entries := fun e he => Or.inl ?_, kept := fun p t hp => Or.inl ⟨t, ?_, rfl⟩
                    canceling := fun x hx => ?_ }
    · split <;> exact le_rfl
    · unfold World.waiting at hp ⊢
      dsimp only at hp
      exact hwait ▸ hp
    · split at he <;> exact he
    · split at hp <;> exact hp
    · split
      · exact OrderedSet.mem_insert.mpr (Or.inl hx)
      · exact hx
  | fire harmed =>
    exact Or.inl { phase := rfl, history := rfl, issued := fun p hp => hp, num_ := le_rfl
                   waiting := fun p hp => Or.inl hp, entries := fun e he => Or.inl he
                   kept := fun p t hp => Or.inl ⟨t, hp, rfl⟩, canceling := fun x hx => hx }

/-- Callbacks that were started stay started. -/
theorem history_run (h : Inv w) {events : List Event} (hrun : run step w events = some w') :
    Inv w' ∧ w.history <+: w'.history := by
  refine invariant (fun w' => Inv w' ∧ w.history <+: w'.history) ?_ ⟨h, List.prefix_rfl⟩ hrun
  intro w₁ e w₂ hw he
  have hm := moves_of_step hw.1 he
  refine ⟨inv_moves hw.1 hm, hw.2.trans ?_⟩
  rcases aside_or_reads hw.1 hm with ha | hread
  · rw [ha.history]
  · cases hread with
    | start hph hs hb => exact List.prefix_rfl
    | next hph hat => exact List.prefix_append _ _
    | finish hph hr hb => exact List.prefix_rfl

/-- The books of the queue, as a reader of its fields sees them. -/
structure Consistent (w : World) : Prop where
  /-- The two sets hold the same timers. -/
  same : ∀ p, (∃ e ∈ w.queue.timers_, e.timer = p) ↔ ∃ x ∈ w.queue.activeTimers_, x.timer_ = p
  /-- An entry carries the current expiry of its timer. -/
  current : ∀ e ∈ w.queue.timers_, ∃ t, w.queue.at? e.timer = some t ∧ t.time_ = e.time
  /-- An active timer carries the number of its timer. -/
  number : ∀ x ∈ w.queue.activeTimers_, ∃ t, w.queue.at? x.timer_ = some t ∧
    t.sequence_ = x.sequence_
  /-- A timer has at most one entry. -/
  once : ∀ e ∈ w.queue.timers_, ∀ e' ∈ w.queue.timers_, e.timer = e'.timer → e = e'
  /-- A timer is in the batch at most once. -/
  batch : (w.phase.expired.map Entry.timer).Nodup
  /-- A timer of the batch is in neither set. -/
  apart : ∀ x ∈ w.phase.expired, (∀ e ∈ w.queue.timers_, e.timer ≠ x.timer) ∧
    ∀ y ∈ w.queue.activeTimers_, y.timer_ ≠ x.timer

/-- With the books in order the sets and the batch are consistent. -/
theorem consistent_of_inv (h : Inv w) : Consistent w := by
  have hbook := h.book
  exact { same := by
            intro p
            constructor
            · rintro ⟨e, he, hep⟩
              exact ⟨_, hbook.listed e he, hep⟩
            · rintro ⟨x, hx, hxp⟩
              obtain ⟨_, e, he, het⟩ := hbook.active x hx
              exact ⟨e, he, het.trans hxp⟩
          current := hbook.current
          number := by
            intro x hx
            obtain ⟨hseq, e, he, het⟩ := hbook.active x hx
            obtain ⟨t, hat, _⟩ := hbook.current e he
            rw [het] at hat
            exact ⟨t, hat, (at?_eq_some.mp hat).2.trans hseq.symm⟩
          once := fun e he e' he' => hbook.entry_unique he he'
          batch := (List.nodup_append.mp hbook.once).1
          apart := by
            intro x hx
            have hmem : x.timer ∈ w.phase.expired.map Entry.timer ++ w.waiting :=
              List.mem_append_left _ (List.mem_map_of_mem hx)
            refine ⟨hbook.apart x.timer hmem, fun y hy hyx => ?_⟩
            obtain ⟨_, e, he, het⟩ := hbook.active y hy
            exact hbook.apart x.timer hmem e he (het.trans hyx) }

/-- In every reachable state the sets and the batch are consistent, and no step
follows a pointer to a timer that was deleted. -/
theorem timers_consistent (events : List Event) (w : World)
    (hrun : run step World.fresh events = some w) :
    Consistent w ∧ ∀ e out, perform w e = some out → ∃ w', out = .ok w' := by
  have h := inv_run hrun
  refine ⟨consistent_of_inv h, fun e out he => ?_⟩
  obtain ⟨w', hout, _⟩ := moves_of_perform h he
  exact ⟨w', hout⟩

/-- Two timers expire together and the first cancels the second; later a timer
gets the address of the first, and the first is cancelled. -/
def reuse : List Event :=
  [.construct 16 5 .zero, .construct 32 5 (.every 3), .runAdd 0 1, .runAdd 0 1, .fire,
    .startRead 10, .runNext, .runCancel ⟨⟨32, 2⟩, 2⟩, .runNext, .finishRead 11,
    .construct 16 20 (.every 3), .queueAdd 0, .runTask 12, .runCancel ⟨⟨16, 1⟩, 1⟩]

/-- The timer that got the address is the one that is left. -/
theorem timers_consistent_reuse :
    ∃ w, run step World.fresh reuse = some w ∧ w.queue.timers_.items = [⟨20, ⟨16, 3⟩⟩] ∧
      Consistent w ∧ ∀ e out, perform w e = some out → ∃ w', out = .ok w' :=
  ⟨_, rfl, rfl, timers_consistent reuse _ rfl⟩

end KKNet.TimerRuns
