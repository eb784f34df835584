import KKNet.PoolStart

/-!
# The handshake of a round

The rounds and the latch are kept by every step. So `start` leaves the base loop and
the loops of the created threads in order, and no count of one round is taken for that
of another.
-/

namespace KKNet.PoolStart

open Runs Monitors CountDownLatches

variable {w w' : System} {all : List ℕ} {c c' : PoolThread} {p p' : EventloopPool} {t address : ℕ}

/-! ### The latch -/

/-- What every step keeps. -/
structure Inv (w : System) : Prop where
  /-- The rounds. -/
  round : Round w
  /-- The starting thread is not left behind. -/
  tight : w.pool.latch_.Tight
  /-- It is in the latch when it says so. -/
  inside : w.pool.latch_.cond_.Holds fun _ => w.starter = .blocked

/-- A thread at most counts the latch down. -/
theorem latch_of_thread {live : List ℕ} (hthread : p.thread live address c = some (p', c')) :
    p'.latch_ = p.latch_ ∨ p'.latch_ = p.latch_.countDown := by
  unfold EventloopPool.thread at hthread
  cases c with
  | created =>
    cases hthread
    exact Or.inl rfl
  | running =>
    dsimp only at hthread
    split at hthread
    · cases hthread
    · cases hthread
      exact Or.inl rfl
  | constructed loop =>
    cases hthread
    exact Or.inl rfl
  | stored loop =>
    cases hthread
    exact Or.inr rfl
  | counted loop => cases hthread

/-- Every step of a created thread keeps the latch. -/
theorem Inv.thread (h : Inv w) (hc : w.created[t]? = some c)
    (hthread : w.pool.thread w.live address c = some (p', c')) :
    Inv { w with pool := p', created := w.created.set t c' } := by
  refine ⟨h.round.thread hc hthread, ?_, ?_⟩
  · rcases latch_of_thread hthread with heq | heq
    · exact heq ▸ h.tight
    · exact heq ▸ h.tight.countDown
  · rcases latch_of_thread hthread with heq | heq
    · exact heq ▸ h.inside
    · exact heq ▸ CountDownLatch.holds_countDown h.inside

/-- So does the loop of `wait`. -/
theorem Inv.waited {l : CountDownLatch Unit} (hround : Round (w.waited (l.wait ()))) (htight : l.Tight)
    (hout : l.cond_.Holds fun _ => False) : Inv (w.waited (l.wait ())) := by
  refine ⟨hround, htight.wait (), ?_⟩
  refine (CountDownLatch.holds_wait hout not_false).congr fun _ => ?_
  unfold System.waited
  cases (l.wait ()).2 <;> simp

/-- Every step of `start` does. -/
theorem Inv.start (h : Inv w) (hstart : w.start = some w') : Inv w' := by
  have hround := h.round.start hstart
  -- outside of `wait` a step leaves the condition, where the starting thread is not
  have hout : ∀ s place : Starter, w.starter = s → s ≠ .blocked → place ≠ .blocked →
      w.pool.latch_.cond_.Holds fun _ => place = .blocked := by
    intro s place hs hne hplace
    exact h.inside.congr fun _ => iff_of_false (fun heq => hne (hs.symm.trans heq)) hplace
  cases moves_of_start hstart with
  | next hs _ => exact ⟨hround, h.tight, hout .test .create hs nofun nofun⟩
  | finish hs _ => exact ⟨hround, h.tight, hout .test .returned hs nofun nofun⟩
  | create hs => exact ⟨hround, h.tight, hout .create .spin hs nofun nofun⟩
  | spin hs => exact h
  | running hs => exact ⟨hround, h.tight, hout .spin .wait hs nofun nofun⟩
  | wait hs =>
    have hfree : w.pool.latch_.cond_.Holds fun _ => False :=
      h.inside.congr fun _ => by rw [hs]; decide
    exact Inv.waited hround h.tight hfree
  | resume hs hc =>
    obtain ⟨_, hrest⟩ := h.inside.resume hc
    exact Inv.waited hround (h.tight.resume hc) (hrest.congr fun _ => by simp)
  | push hs => exact ⟨hround, h.tight, hout .push .reset hs nofun nofun⟩
  | reset hs =>
    have htight := CountDownLatch.tight_setCount Int.one_pos w.pool.latch_
    exact ⟨hround, htight, hout .reset .test hs nofun nofun⟩

/-- The starting thread wakes only where it is blocked. -/
theorem Inv.wake {l : CountDownLatch Unit} (h : Inv w) (hl : w.pool.latch_.wake () = some l) :
    Inv { w with pool := { w.pool with latch_ := l } } := by
  have htight := h.tight.wake hl
  obtain ⟨cond, hcond, rfl⟩ := Option.map_eq_some_iff.mp hl
  have hs : w.starter = .blocked := by
    refine (h.inside.mem_iff ()).mp (List.mem_append_left _ (List.mem_append_left _ ?_))
    exact (Condition.waiting_wake hcond).1
  refine ⟨?_, htight, h.inside.wake hcond⟩
  have hround := h.round
  unfold Round at hround
  rw [hs] at hround
  obtain ⟨all, c, hbusy⟩ := hround
  have hkeep : Busy { w with pool := { w.pool with latch_ := { w.pool.latch_ with cond_ := cond } } }
      all c :=
    ⟨hbusy.toBooks.congr rfl rfl rfl rfl, hbusy.round, hbusy.more, hbusy.pending.congr rfl rfl⟩
  exact round_of_busy (Or.inr (Or.inr hs)) hkeep

/-- Every step keeps the rounds and the latch. -/
theorem Inv.step {e : Event} (h : Inv w) (he : step w e = some w') : Inv w' := by
  cases e with
  | start => exact h.start he
  | wake =>
    obtain ⟨l, hl, rfl⟩ := Option.map_eq_some_iff.mp he
    exact h.wake hl
  | thread t address =>
    obtain ⟨c, hc, hrest⟩ := Option.bind_eq_some_iff.mp he
    obtain ⟨⟨p', c'⟩, hthread, rfl⟩ := Option.map_eq_some_iff.mp hrest
    exact h.thread hc hthread

/-! ### Every run -/

/-- The call of `start`. -/
theorem inv_called (loop : ℕ) {num : ℤ} (hnum : 1 ≤ num) : Inv (System.called loop num) :=
  have hbooks : Books (System.called loop num) [] [] := ⟨rfl, rfl, rfl, List.nodup_singleton loop⟩
  ⟨⟨[], ⟨hbooks, rfl, rfl⟩, hnum⟩, CountDownLatch.tight_construct 1,
    Condition.holds_fresh.congr fun _ => by simp [System.called]⟩

/-- `start` does not count down. -/
theorem Inv.count_start (h : Inv w) (hstart : w.start = some w') :
    w.pool.latch_.count_ ≤ w'.pool.latch_.count_ := by
  have hround := h.round
  unfold Round at hround
  cases moves_of_start hstart with
  | next hs _ => exact le_refl _
  | finish hs _ => exact le_refl _
  | create hs => exact le_refl _
  | spin hs => exact le_refl _
  | running hs => exact le_refl _
  | wait hs => exact (CountDownLatch.count_wait _ ()).ge
  | resume hs hc => exact (CountDownLatch.count_wait _ ()).ge
  | push hs => exact le_refl _
  | reset hs =>
    rw [hs] at hround
    obtain ⟨all, hending⟩ := hround
    exact hending.count.le.trans Int.one_pos.le

/-- A thread that counts down is the one of the round. -/
theorem Inv.count_thread (h : Inv w) (hc : w.created[t]? = some c)
    (hthread : w.pool.thread w.live address c = some (p', c'))
    (hlt : p'.latch_.count_ < w.pool.latch_.count_) :
    w.pool.latch_.count_ = 1 ∧ p'.latch_.count_ = 0 ∧ w.i = t + 1 := by
  have hnot := ne_counted_of_thread hthread
  obtain ⟨_, all, rfl, hbusy⟩ := h.round.busy hc hnot
  have hone : w.pool.latch_.count_ = 1 := by
    rcases hbusy.pending.count with hone | ⟨loop, heq, _⟩
    · exact hone
    · exact absurd heq (hnot loop)
  rcases latch_of_thread hthread with heq | heq
  · rw [heq] at hlt
    exact absurd hlt (lt_irrefl _)
  · rw [heq, CountDownLatch.count_countDown, hone]
    exact ⟨rfl, rfl, hbusy.round⟩

/-- Leaving `wait` leaves what the threads did. -/
theorem push_of_start (hstart : w.start = some w') (hne : w.starter ≠ .push)
    (hpush : w'.starter = .push) :
    w'.created = w.created ∧ w'.i = w.i ∧ w'.pool.currentLoop_ = w.pool.currentLoop_ := by
  cases moves_of_start hstart with
  | next hs _ => cases hpush
  | finish hs _ => cases hpush
  | create hs => cases hpush
  | spin hs => exact absurd hpush hne
  | running hs => cases hpush
  | wait hs => exact ⟨rfl, rfl, rfl⟩
  | resume hs hc => exact ⟨rfl, rfl, rfl⟩
  | push hs => cases hpush
  | reset hs => cases hpush

/-- Every step keeps the rounds apart. -/
theorem Inv.apart {e : Event} (h : Inv w) (he : PoolStart.step w e = some w') : Apart w e w' := by
  have hround := (h.step he).round
  cases e with
  | start =>
    refine ⟨fun hlt => absurd hlt (not_lt.mpr (h.count_start he)), fun hne hpush => ?_⟩
    obtain ⟨hcreated, hi, hcurrent⟩ := push_of_start he hne hpush
    unfold Round at hround
    rw [hpush] at hround
    obtain ⟨all, loop, hbusy⟩ := hround
    have hindex : (w.i - 1).toNat = all.length := by
      have hi' := hbusy.round
      omega
    refine ⟨loop, ?_, hcurrent ▸ hbusy.pending.2⟩
    rw [hindex, ← hcreated, hbusy.created, List.getElem?_append_right (List.length_map _).le,
      List.length_map, Nat.sub_self]
    rfl
  | wake =>
    obtain ⟨l, hl, rfl⟩ := Option.map_eq_some_iff.mp he
    obtain ⟨cond, _, rfl⟩ := Option.map_eq_some_iff.mp hl
    exact ⟨fun hlt => absurd hlt (lt_irrefl _), fun hne hpush => absurd hpush hne⟩
  | thread t address =>
    obtain ⟨c, hc, hrest⟩ := Option.bind_eq_some_iff.mp he
    obtain ⟨⟨p', c'⟩, hthread, rfl⟩ := Option.map_eq_some_iff.mp hrest
    refine ⟨fun hlt => ?_, fun hne hpush => absurd hpush hne⟩
    obtain ⟨hone, hzero, hi⟩ := h.count_thread hc hthread hlt
    exact ⟨hone, hzero, t, address, rfl, hi⟩

/-- Where `start` returns the pool is started. -/
theorem Inv.started (h : Inv w) (hs : w.starter = .returned) : ∃ addresses, Started w addresses := by
  have hround := h.round
  unfold Round at hround
  rw [hs] at hround
  obtain ⟨all, hidle, hnum⟩ := hround
  refine ⟨all, ?_, hidle.loops, ?_, ?_, hidle.count⟩
  · rw [hidle.created, List.append_nil]
  · have hdistinct := hidle.distinct
    rwa [List.filterMap_nil, List.append_nil] at hdistinct
  · rw [hidle.loops, List.length_map, List.length_cons, ← hnum, hidle.round]
    push_cast
    rfl

/-- Whatever the order of the steps, no count of one round is taken for that of another,
and a pool whose `start` returns has the base loop and after it those of the threads it
created, in order and all different, and a latch as it was. -/
theorem start_handshake (loop : ℕ) {num : ℤ} (hnum : 1 ≤ num) (events : List Event) :
    Along step Apart (System.called loop num) events ∧
      ∀ w, run step (System.called loop num) events = some w → w.starter = .returned →
        ∃ addresses, Started w addresses := by
  have hcalled := inv_called loop hnum
  constructor
  · exact along_of_invariant Inv (fun _ _ _ h he => ⟨h.step he, h.apart he⟩) hcalled events
  · intro w hrun hs
    exact (invariant Inv (fun _ _ _ h he => h.step he) hcalled hrun).started hs

/-- In a pool of two loops the starting thread is blocked, wakes for no reason, and
returns from `wait` after the created thread has stored its loop and counted down. -/
def pair : List Event :=
  [.start, .start, .thread 0 7, .start, .start, .thread 0 7, .wake, .start, .thread 0 7,
    .thread 0 7, .start, .start, .start, .start]

/-- The pool has both loops. -/
theorem start_handshake_pair :
    (1 : ℤ) ≤ 2 ∧ Along step Apart (System.called 3 2) pair ∧
      ∃ w, run step (System.called 3 2) pair = some w ∧ w.pool.loops_ = [some 3, some 7] ∧
        ∃ addresses, Started w addresses := by
  have hnum : (1 : ℤ) ≤ 2 := by decide
  obtain ⟨halong, hreturn⟩ := start_handshake 3 hnum pair
  exact ⟨hnum, halong, _, rfl, rfl, hreturn _ rfl rfl⟩

end KKNet.PoolStart
