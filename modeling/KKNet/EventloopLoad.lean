import KKNet.PollDescriptors
import KKNet.Tallies

/-!
# The load of an event loop

Translation of the constructor of `reactor/Eventloop.cpp`, of `addFd`, `deleteFd`
and `getFdNums` of `reactor/Eventloop.h` and of the constructor of `TimerQueue` in
`reactor/TimeEvent.cpp`. The members of a loop are initialised in the order they are
declared in: the timer queue comes before the counter, so the counter counts the
descriptor of the timers first and is set to zero afterwards.

The counter follows the balance of a tally whose first addition it forgot. So it is
exact after a sequence of calls exactly if the additions of registered descriptors
are one more than the deletions of descriptors that were not registered, up to the
width of the counter.
-/

namespace KKNet.EventloopLoad

open OrderedSets PollSelects PollRegistry Tallies

/-- The poller and the counter of `Eventloop`. -/
structure Eventloop where
  /-- The poller. -/
  poll_ : PollSelect
  /-- The number of descriptors, which the pool compares loops by. -/
  fdnums_ : Int32

/-- `Eventloop::addFd`. -/
def Eventloop.addFd (l : Eventloop) (fd : ℤ) (h : ℕ) : Eventloop where
  poll_ := l.poll_.addFd fd h
  fdnums_ := l.fdnums_ + 1

/-- `Eventloop::deleteFd`; the result of the poller is dropped. -/
def Eventloop.deleteFd (l : Eventloop) (fd : ℤ) : Eventloop where
  poll_ := (l.poll_.deleteFd fd).1
  fdnums_ := l.fdnums_ - 1

/-- `Eventloop::setEvent`. -/
def Eventloop.setEvent (l : Eventloop) (fd : ℤ) (type : EventType) : Eventloop :=
  { l with poll_ := (l.poll_.setEvent fd type).1 }

/-- `Eventloop::deleteEvent`. -/
def Eventloop.deleteEvent (l : Eventloop) (fd : ℤ) (type : EventType) : Eventloop :=
  { l with poll_ := (l.poll_.deleteEvent fd type).1 }

/-- `Eventloop::getFdNums`. -/
def Eventloop.getFdNums (l : Eventloop) : Int32 := l.fdnums_

/-- The name of the handler of the timers. -/
def timerfdHandler_ : ℕ := 0

/-- The name of the handler of the wakeups. -/
def wakeupHandler_ : ℕ := 1

/-- `TimerQueue::TimerQueue`: what it does to the loop. -/
def timerQueue (l : Eventloop) (timerfd : ℤ) : Eventloop :=
  (l.addFd timerfd timerfdHandler_).setEvent timerfd .kRead

/-- What the memory of a loop held before its constructor. -/
structure Memory where
  /-- Under `maxfd_` of the poller, which stays. -/
  maxfd : ℤ
  /-- Under `fdnums_`. -/
  fdnums : Int32

/-- `Eventloop::Eventloop`; the descriptors are what the kernel returned, negative where
it failed. -/
def Eventloop.construct (m : Memory) (timerfd wakeupFd : ℤ) : Eventloop :=
  let poll_ : Eventloop := ⟨⟨OrderedSet.empty, m.maxfd⟩, m.fdnums⟩
  let timerQueue_ := timerQueue poll_ timerfd
  let fdnums_ : Eventloop := { timerQueue_ with fdnums_ := 0 }
  (fdnums_.addFd wakeupFd wakeupHandler_).setEvent wakeupFd .kRead

/-- A call on the loop. -/
def Eventloop.perform (l : Eventloop) : Call → Eventloop
  | .addFd fd h => l.addFd fd h
  | .setEvent fd type => l.setEvent fd type
  | .deleteEvent fd type => l.deleteEvent fd type
  | .deleteFd fd => l.deleteFd fd

/-- The loop after a sequence of calls. -/
def Eventloop.after (l : Eventloop) (calls : List Call) : Eventloop := calls.foldl perform l

/-- What a call asks of the set of descriptors. -/
def request (t : Tally ℤ) : Call → Tally ℤ
  | .addFd fd _ => t.add fd
  | .deleteFd fd => t.remove fd
  | .setEvent _ _ => t
  | .deleteEvent _ _ => t

/-- The requests of the constructor and of a sequence of calls. -/
def requests (timerfd wakeupFd : ℤ) (calls : List Call) : Tally ℤ :=
  calls.foldl request ((Tally.empty.add timerfd).add wakeupFd)

/-- The counter shows the number of registered descriptors. -/
def Eventloop.Exact (l : Eventloop) : Prop := l.getFdNums.toInt = l.poll_.fds.card

/-- The poller has the descriptors of the tally, and the counter its balance without
the first addition. -/
structure Follows (l : Eventloop) (t : Tally ℤ) : Prop where
  /-- The same descriptors. -/
  fds : l.poll_.fds = t.members
  /-- One less than the balance. -/
  counter : l.fdnums_ = Int32.ofInt (t.balance - 1)

variable {l : Eventloop} {t : Tally ℤ}

theorem Follows.addFd (h : Follows l t) (fd : ℤ) (name : ℕ) :
    Follows (l.addFd fd name) (t.add fd) := by
  constructor
  · exact (fds_addFd name).trans (congrArg (insert fd) h.fds)
  · have hbalance : (t.add fd).balance - 1 = t.balance - 1 + 1 := by
      rw [Tally.balance_add]
      ring
    rw [hbalance, Int32.ofInt_add, ← h.counter]
    rfl

theorem Follows.deleteFd (h : Follows l t) (fd : ℤ) : Follows (l.deleteFd fd) (t.remove fd) := by
  constructor
  · exact fds_deleteFd.trans (congrArg (fun fds => fds.erase fd) h.fds)
  · have hbalance : (t.remove fd).balance - 1 = t.balance - 1 - 1 := by
      rw [Tally.balance_remove]
    rw [hbalance, Int32.ofInt_sub, ← h.counter]
    rfl

theorem Follows.setEvent (h : Follows l t) (fd : ℤ) (type : EventType) :
    Follows (l.setEvent fd type) t := ⟨fds_setEvent.trans h.fds, h.counter⟩

theorem Follows.deleteEvent (h : Follows l t) (fd : ℤ) (type : EventType) :
    Follows (l.deleteEvent fd type) t := ⟨fds_deleteEvent.trans h.fds, h.counter⟩

/-- Each call does to the loop what it asks for. -/
theorem Follows.perform (h : Follows l t) (c : Call) : Follows (l.perform c) (request t c) := by
  cases c with
  | addFd fd name => exact h.addFd fd name
  | setEvent fd type => exact h.setEvent fd type
  | deleteEvent fd type => exact h.deleteEvent fd type
  | deleteFd fd => exact h.deleteFd fd

/-- So does a sequence of calls. -/
theorem Follows.after (h : Follows l t) (calls : List Call) :
    Follows (l.after calls) (calls.foldl request t) := by
  induction calls generalizing l t with
  | nil => exact h
  | cons c calls ih => exact ih (h.perform c)

/-- The constructor forgets the descriptor of the timers. -/
theorem follows_construct (m : Memory) (timerfd wakeupFd : ℤ) :
    Follows (Eventloop.construct m timerfd wakeupFd) (requests timerfd wakeupFd []) := by
  let started : Eventloop := ⟨⟨OrderedSet.empty, m.maxfd⟩, m.fdnums⟩
  have hqueue : Follows { timerQueue started timerfd with fdnums_ := 0 }
      (Tally.empty.add timerfd) := by
    constructor
    · exact fds_setEvent.trans (fds_addFd timerfdHandler_)
    · rw [Tally.balance_add, Tally.balance_empty]
      rfl
  exact (hqueue.addFd wakeupFd wakeupHandler_).setEvent wakeupFd .kRead

/-- A loop that follows a tally is exact if the repeats are one more than the misses, as
far as its counter can tell. -/
theorem Follows.exact_iff (h : Follows l t) :
    l.Exact ↔ t.repeats ≡ t.misses + 1 [MOD 2 ^ 32] ∧ t.members.card < 2 ^ 31 := by
  have hbmod : l.getFdNums.toInt = (t.balance - 1).bmod (2 ^ 32) := by
    unfold Eventloop.getFdNums
    rw [h.counter, Int32.toInt_ofInt]
    rfl
  have hmod : t.repeats ≡ t.misses + 1 [MOD 2 ^ 32] ↔
      ((2 ^ 32 : ℕ) : ℤ) ∣ t.members.card - (t.balance - 1) := by
    rw [← Int.modEq_iff_dvd, sub_eq_add_neg, Tally.modEq_card_iff, ← Int.natCast_modEq_iff]
    push_cast
    constructor
    · intro hcong
      have hsub := hcong.add_right (-1)
      rwa [add_neg_cancel_right] at hsub
    · intro hcong
      have hadd := hcong.add_right 1
      rwa [neg_add_cancel_right] at hadd
  unfold Eventloop.Exact
  rw [hbmod, h.fds, Int.bmod_eq_iff (Nat.two_pow_pos 32), hmod]
  constructor
  · rintro ⟨_, hlt, hdvd⟩
    exact ⟨hdvd, by omega⟩
  · rintro ⟨hdvd, hlt⟩
    exact ⟨by omega, by omega, hdvd⟩

/-- After a sequence of calls the counter shows the number of registered descriptors
exactly if the additions of registered ones are one more than the deletions of others,
modulo the width of the counter, and the number is not beyond it. -/
theorem getFdNums_exact_iff (m : Memory) (timerfd wakeupFd : ℤ) (calls : List Call) :
    ((Eventloop.construct m timerfd wakeupFd).after calls).Exact ↔
      (requests timerfd wakeupFd calls).repeats ≡
          (requests timerfd wakeupFd calls).misses + 1 [MOD 2 ^ 32] ∧
        (requests timerfd wakeupFd calls).members.card < 2 ^ 31 :=
  ((follows_construct m timerfd wakeupFd).after calls).exact_iff

/-- A loop that was just constructed has two descriptors and counts one; it is right
after one of them was added again, and wrong again after a deletion of no descriptor. -/
theorem miscounted :
    ¬((Eventloop.construct ⟨0, 0⟩ 3 4).after []).Exact ∧
      ((Eventloop.construct ⟨0, 0⟩ 3 4).after [.addFd 4 1]).Exact ∧
      ¬((Eventloop.construct ⟨0, 0⟩ 3 4).after [.addFd 4 1, .deleteFd 5]).Exact := by
  refine ⟨?_, ?_, ?_⟩ <;> unfold Eventloop.Exact <;> decide

end KKNet.EventloopLoad
