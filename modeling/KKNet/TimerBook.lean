import KKNet.TimerQueue

/-!
# Bookkeeping of the timer queue

The two sets of the queue hold the same timers, under their current expiry, and
every timer that is alive is in the sets, in the batch being processed, or on its
way to be added, in only one of them. Under this the pointers the code follows
are never dangling, and each function of the queue comes down to what it does to
the set of armed entries.
-/

namespace KKNet.TimerBook

open OrderedSets Runs TimerQueues Results

variable {q : TimerQueue} {p : TimerPtr} {out : List TimerPtr} {timer : Timer}

/-- The memory a pointer leads to holds the timer it was made for. -/
theorem at?_eq_some :
    q.at? p = some timer ↔ q.heap p.addr = some timer ∧ timer.sequence_ = p.origin := by
  unfold TimerQueue.at?
  rw [Option.filter_eq_some_iff, decide_eq_true_eq]

/-- With the same memory the same timers are alive. -/
theorem at?_congr {q' : TimerQueue} (hheap : q'.heap = q.heap) (p : TimerPtr) :
    q'.at? p = q.at? p := by
  unfold TimerQueue.at?
  rw [hheap]

/-- Following a pointer to a timer that is alive. -/
theorem deref_of_at? (h : q.at? p = some timer) : q.deref p = .ok timer := by
  unfold TimerQueue.deref
  rw [h]

/-- Two live timers at one address are one timer. -/
theorem eq_of_addr {p' : TimerPtr} {timer' : Timer} (h : q.at? p = some timer)
    (h' : q.at? p' = some timer') (ha : p.addr = p'.addr) : p = p' := by
  obtain ⟨hheap, hseq⟩ := at?_eq_some.mp h
  obtain ⟨hheap', hseq'⟩ := at?_eq_some.mp h'
  rw [ha, hheap', Option.some.injEq] at hheap
  subst hheap
  obtain ⟨addr, origin⟩ := p
  obtain ⟨addr', origin'⟩ := p'
  dsimp only at ha hseq hseq'
  rw [ha, ← hseq, ← hseq']

/-- The queue and the timers outside its sets. -/
structure Book (q : TimerQueue) (out : List TimerPtr) : Prop where
  /-- Numbers are given out in order, and no timer lies at `UINTPTR_MAX`. -/
  numbered : ∀ a t, q.heap a = some t → t.sequence_ ≤ q.num_ ∧ a < UINTPTR_MAX
  /-- Every timer has a number of its own. -/
  unique : ∀ a b t u, q.heap a = some t → q.heap b = some u → t.sequence_ = u.sequence_ → a = b
  /-- An entry carries the current expiry of its timer. -/
  current : ∀ e ∈ q.timers_, ∃ t, q.at? e.timer = some t ∧ t.time_ = e.time
  /-- An active timer carries its number and has an entry. -/
  active : ∀ x ∈ q.activeTimers_,
    x.sequence_ = x.timer_.origin ∧ ∃ e ∈ q.timers_, e.timer = x.timer_
  /-- The timer of an entry is active. -/
  listed : ∀ e ∈ q.timers_, ⟨e.timer, e.timer.origin⟩ ∈ q.activeTimers_
  /-- The timers outside are alive. -/
  alive : ∀ p ∈ out, ∃ t, q.at? p = some t
  /-- The timers outside are different. -/
  once : out.Nodup
  /-- The timers outside have no entry. -/
  apart : ∀ p ∈ out, ∀ e ∈ q.timers_, e.timer ≠ p

/-- The order of the timers outside does not matter. -/
theorem Book.perm (h : Book q out) {out' : List TimerPtr} (hp : out.Perm out') : Book q out' where
  numbered := h.numbered
  unique := h.unique
  current := h.current
  active := h.active
  listed := h.listed
  alive := fun p hmem => h.alive p (hp.mem_iff.mpr hmem)
  once := hp.nodup_iff.mp h.once
  apart := fun p hmem => h.apart p (hp.mem_iff.mpr hmem)

/-- The parts of the queue that the sets and the memory do not touch. -/
theorem Book.of_same (h : Book q out) {q' : TimerQueue} (hheap : q'.heap = q.heap)
    (hnum : q.num_ ≤ q'.num_) (htimers : q'.timers_ = q.timers_)
    (hactive : q'.activeTimers_ = q.activeTimers_) : Book q' out := by
  have hat := at?_congr hheap
  exact { numbered := fun a t ha => by
            rw [hheap] at ha
            exact ⟨(h.numbered a t ha).1.trans hnum, (h.numbered a t ha).2⟩
          unique := fun a b t u ha hb => by
            rw [hheap] at ha hb
            exact h.unique a b t u ha hb
          current := fun e he => by
            rw [hat]
            exact h.current e (htimers ▸ he)
          active := fun x hx => by
            rw [htimers]
            exact h.active x (hactive ▸ hx)
          listed := fun e he => by
            rw [hactive]
            exact h.listed e (htimers ▸ he)
          alive := fun p hp => by
            rw [hat]
            exact h.alive p hp
          once := h.once
          apart := fun p hp e he => h.apart p hp e (htimers ▸ he) }

/-- Timers with one number are one timer. -/
theorem Book.eq_of_origin (h : Book q out) {p' : TimerPtr} {timer' : Timer}
    (hp : q.at? p = some timer) (hp' : q.at? p' = some timer') (ho : p.origin = p'.origin) :
    p = p' := by
  obtain ⟨hheap, hseq⟩ := at?_eq_some.mp hp
  obtain ⟨hheap', hseq'⟩ := at?_eq_some.mp hp'
  refine eq_of_addr hp hp' (h.unique _ _ _ _ hheap hheap' ?_)
  rw [hseq, hseq', ho]

/-- A timer has at most one entry. -/
theorem Book.entry_unique (h : Book q out) {e e' : Entry} (he : e ∈ q.timers_)
    (he' : e' ∈ q.timers_) (ht : e.timer = e'.timer) : e = e' := by
  obtain ⟨t, hat, htime⟩ := h.current e he
  obtain ⟨t', hat', htime'⟩ := h.current e' he'
  rw [ht, hat', Option.some.injEq] at hat
  obtain ⟨time, p⟩ := e
  obtain ⟨time', p'⟩ := e'
  dsimp only at ht htime htime'
  rw [ht, ← htime, ← htime', hat]

/-- The queue with an entry for a timer. -/
def inserted (q : TimerQueue) (timer : Timer) (p : TimerPtr) : TimerQueue :=
  { q with
    timers_ := q.timers_.insert ⟨timer.time_, p⟩
    activeTimers_ := q.activeTimers_.insert ⟨p, timer.sequence_⟩ }

/-- An entry for a timer outside comes to the entries there are. -/
theorem mem_inserted (h : Book q (p :: out)) {e : Entry} :
    e ∈ (inserted q timer p).timers_ ↔ e ∈ q.timers_ ∨ e = ⟨timer.time_, p⟩ := by
  have hfree : ∀ z ∈ q.timers_, z.key ≠ Entry.key ⟨timer.time_, p⟩ := by
    intro z hz hkey
    obtain ⟨t, hat⟩ := h.alive p List.mem_cons_self
    obtain ⟨u, hau, _⟩ := h.current z hz
    have haddr : z.timer.addr = p.addr := congrArg Prod.snd (toLex.injective hkey)
    exact h.apart p List.mem_cons_self z hz (eq_of_addr hau hat haddr)
  unfold inserted
  rw [OrderedSet.mem_insert]
  constructor
  · rintro (he | ⟨he, _⟩)
    · exact Or.inl he
    · exact Or.inr he
  · rintro (he | he)
    · exact Or.inl he
    · exact Or.inr ⟨he, hfree⟩

/-- An active timer for a timer outside comes to the active timers there are. -/
theorem mem_active_inserted (h : Book q (p :: out)) (hat : q.at? p = some timer)
    {x : ActiveTimer} :
    x ∈ (inserted q timer p).activeTimers_ ↔ x ∈ q.activeTimers_ ∨ x = ⟨p, p.origin⟩ := by
  have hseq : timer.sequence_ = p.origin := (at?_eq_some.mp hat).2
  have hfree : ∀ z ∈ q.activeTimers_, z.key ≠ ActiveTimer.key ⟨p, p.origin⟩ := by
    intro z hz hkey
    obtain ⟨_, e, he, het⟩ := h.active z hz
    obtain ⟨u, hau, _⟩ := h.current e he
    have haddr : z.timer_.addr = p.addr := congrArg Prod.fst (toLex.injective hkey)
    rw [← het] at haddr
    exact h.apart p List.mem_cons_self e he (eq_of_addr hau hat haddr)
  unfold inserted
  rw [hseq, OrderedSet.mem_insert]
  constructor
  · rintro (he | ⟨he, _⟩)
    · exact Or.inl he
    · exact Or.inr he
  · rintro (he | he)
    · exact Or.inl he
    · exact Or.inr ⟨he, hfree⟩

/-- A timer outside moves into the sets. -/
theorem Book.inserted (h : Book q (p :: out)) (hat : q.at? p = some timer) :
    Book (inserted q timer p) out where
  numbered := h.numbered
  unique := h.unique
  current := by
    intro e he
    rcases (mem_inserted h).mp he with hold | hnew
    · exact h.current e hold
    · subst hnew
      exact ⟨timer, hat, rfl⟩
  active := by
    intro x hx
    rcases (mem_active_inserted h hat).mp hx with hold | hnew
    · obtain ⟨hseq, e, he, het⟩ := h.active x hold
      exact ⟨hseq, e, (mem_inserted h).mpr (Or.inl he), het⟩
    · subst hnew
      exact ⟨rfl, _, (mem_inserted h).mpr (Or.inr rfl), rfl⟩
  listed := by
    intro e he
    rw [mem_active_inserted h hat]
    rcases (mem_inserted h).mp he with hold | hnew
    · exact Or.inl (h.listed e hold)
    · subst hnew
      exact Or.inr rfl
  alive := fun p' hp' => h.alive p' (List.mem_cons_of_mem p hp')
  once := (List.nodup_cons.mp h.once).2
  apart := by
    intro p' hp' e he
    rcases (mem_inserted h).mp he with hold | hnew
    · exact h.apart p' (List.mem_cons_of_mem p hp') e hold
    · subst hnew
      intro hpp
      dsimp only at hpp
      exact (List.nodup_cons.mp h.once).1 (hpp ▸ hp')

/-- The first entry has the earliest expiry. -/
theorem first_time_le {e e' : Entry} (h : q.timers_.first = some e) (he' : e' ∈ q.timers_) :
    e.time ≤ e'.time := by
  have hle := OrderedSet.first_le h he'
  unfold Entry.key at hle
  rcases Prod.Lex.le_iff.mp hle with hlt | ⟨heq, _⟩
  · exact hlt.le
  · exact heq.le

/-- A time is before every expiry, as `insert` tests it. -/
def isEarliest (q : TimerQueue) (time : ℤ) : Bool :=
  match q.timers_.first with
  | none => true
  | some e => decide (time < e.time)

/-- The test looks at the first entry only. -/
theorem isEarliest_iff {time : ℤ} : isEarliest q time = true ↔ ∀ e ∈ q.timers_, time < e.time := by
  unfold isEarliest
  cases hfirst : q.timers_.first with
  | none => exact ⟨fun _ e he => absurd he (OrderedSet.first_eq_none.mp hfirst e), fun _ => rfl⟩
  | some e =>
    rw [decide_eq_true_eq]
    constructor
    · exact fun hlt e' he' => hlt.trans_le (first_time_le hfirst he')
    · exact fun hall => hall e (OrderedSet.first_mem hfirst)

/-- `insert` puts a live timer into the sets, and tells whether it expires before
every other one. -/
theorem insert_ok (hat : q.at? p = some timer) :
    q.insert p = .ok (inserted q timer p, isEarliest q timer.time_) := by
  unfold TimerQueue.insert
  rw [deref_of_at? hat]
  rfl

/-- What `addTimerInLoop` leaves behind. -/
def added (q : TimerQueue) (timer : Timer) (p : TimerPtr) (now : ℤ) : TimerQueue :=
  if isEarliest q timer.time_ then (inserted q timer p).resetTimerfd timer.time_ now
  else inserted q timer p

/-- `addTimerInLoop` puts a live timer into the sets, and arms the timerfd if it
is the earliest. -/
theorem addTimerInLoop_ok (hat : q.at? p = some timer) (now : ℤ) :
    q.addTimerInLoop p now = .ok (added q timer p now) := by
  have hat' : (inserted q timer p).at? p = some timer := hat
  unfold TimerQueue.addTimerInLoop added
  rw [insert_ok hat]
  rw [ok_bind]
  by_cases hearly : isEarliest q timer.time_ = true
  · rw [if_pos hearly, if_pos hearly, deref_of_at? hat']
    rfl
  · rw [if_neg hearly, if_neg hearly]
    rfl

/-- Adding a timer changes the sets and the timerfd only. -/
@[simp] theorem added_heap (q : TimerQueue) (timer : Timer) (p : TimerPtr) (now : ℤ) :
    (added q timer p now).heap = q.heap := by
  unfold added
  split <;> rfl

/-- Adding a timer changes the sets and the timerfd only. -/
@[simp] theorem added_num_ (q : TimerQueue) (timer : Timer) (p : TimerPtr) (now : ℤ) :
    (added q timer p now).num_ = q.num_ := by
  unfold added
  split <;> rfl

/-- Adding a timer changes the sets and the timerfd only. -/
@[simp] theorem added_timers_ (q : TimerQueue) (timer : Timer) (p : TimerPtr) (now : ℤ) :
    (added q timer p now).timers_ = (inserted q timer p).timers_ := by
  unfold added
  split <;> rfl

/-- Adding a timer changes the sets and the timerfd only. -/
@[simp] theorem added_callingExpiredTimers_ (q : TimerQueue) (timer : Timer) (p : TimerPtr) (now : ℤ) :
    (added q timer p now).callingExpiredTimers_ = q.callingExpiredTimers_ := by
  unfold added
  split <;> rfl

/-- Adding a timer changes the sets and the timerfd only. -/
@[simp] theorem added_cancelingTimers_ (q : TimerQueue) (timer : Timer) (p : TimerPtr) (now : ℤ) :
    (added q timer p now).cancelingTimers_ = q.cancelingTimers_ := by
  unfold added
  split <;> rfl

/-- Adding a timer moves it into the sets. -/
theorem Book.added (h : Book q (p :: out)) (hat : q.at? p = some timer) (now : ℤ) :
    Book (added q timer p now) out := by
  unfold TimerBook.added
  split
  · exact (h.inserted hat).of_same rfl le_rfl rfl rfl
  · exact h.inserted hat

/-- The queue without a timer of its sets. -/
def removed (q : TimerQueue) (timer : Timer) (x : ActiveTimer) : TimerQueue :=
  { q with
    heap := Function.update q.heap x.timer_.addr none
    timers_ := q.timers_.erase (Entry.key ⟨timer.time_, x.timer_⟩)
    activeTimers_ := q.activeTimers_.erase x.key }

/-- A timer that is alive after another one was deleted. -/
theorem at?_deleted {addr : ℕ} {q' : TimerQueue} (hheap : q'.heap = Function.update q.heap addr none)
    {p : TimerPtr} {t : Timer} : q'.at? p = some t ↔ q.at? p = some t ∧ p.addr ≠ addr := by
  rw [at?_eq_some, at?_eq_some, hheap]
  by_cases haddr : p.addr = addr
  · rw [haddr, Function.update_self]
    constructor
    · rintro ⟨hnone, _⟩
      cases hnone
    · rintro ⟨_, hne⟩
      exact absurd rfl hne
  · rw [Function.update_of_ne haddr]
    exact ⟨fun h => ⟨h, haddr⟩, fun h => h.1⟩

/-- The entry that leaves is the one of the timer. -/
theorem mem_removed (h : Book q out) {x : ActiveTimer}
    (hat : q.at? x.timer_ = some timer) {e : Entry} :
    e ∈ (removed q timer x).timers_ ↔ e ∈ q.timers_ ∧ e.timer ≠ x.timer_ := by
  unfold removed
  rw [OrderedSet.mem_erase]
  refine and_congr_right fun he => not_congr ?_
  constructor
  · intro hkey
    obtain ⟨u, hau, _⟩ := h.current e he
    exact eq_of_addr hau hat (congrArg Prod.snd (toLex.injective hkey))
  · intro het
    obtain ⟨u, hau, htime⟩ := h.current e he
    rw [het, hat, Option.some.injEq] at hau
    unfold Entry.key
    dsimp only
    rw [het, ← htime, hau]

/-- The active timer that leaves is the one of the timer. -/
theorem mem_active_removed (h : Book q out) {x : ActiveTimer} (hx : x ∈ q.activeTimers_)
    {y : ActiveTimer} :
    y ∈ (removed q timer x).activeTimers_ ↔ y ∈ q.activeTimers_ ∧ y.timer_ ≠ x.timer_ := by
  unfold removed
  rw [OrderedSet.mem_erase]
  refine and_congr_right fun hy => not_congr ?_
  constructor
  · intro hkey
    exact congrArg ActiveTimer.timer_ (OrderedSet.eq_of_key hy hx hkey)
  · intro hyt
    unfold ActiveTimer.key
    rw [(h.active y hy).1, (h.active x hx).1, hyt]

/-- A timer of the sets is deleted. -/
theorem Book.removed (h : Book q out) {x : ActiveTimer} (hx : x ∈ q.activeTimers_)
    (hat : q.at? x.timer_ = some timer) : Book (removed q timer x) out := by
  have hlive : ∀ {p t}, (TimerBook.removed q timer x).at? p = some t ↔
      q.at? p = some t ∧ p.addr ≠ x.timer_.addr := at?_deleted rfl
  have hheap : ∀ {a t}, (TimerBook.removed q timer x).heap a = some t → q.heap a = some t := by
    intro a t ha
    have hself : (TimerBook.removed q timer x).heap =
        Function.update q.heap x.timer_.addr none := rfl
    rw [hself, Function.update_apply] at ha
    split at ha
    · cases ha
    · exact ha
  have hother : ∀ {p t}, q.at? p = some t → p ≠ x.timer_ → p.addr ≠ x.timer_.addr :=
    fun hp hne ha => hne (eq_of_addr hp hat ha)
  exact { numbered := fun a t ha => h.numbered a t (hheap ha)
          unique := fun a b t u ha hb => h.unique a b t u (hheap ha) (hheap hb)
          current := by
            intro e he
            obtain ⟨hold, hne⟩ := (mem_removed h hat).mp he
            obtain ⟨t, hat', htime⟩ := h.current e hold
            exact ⟨t, hlive.mpr ⟨hat', hother hat' hne⟩, htime⟩
          active := by
            intro y hy
            obtain ⟨hold, hne⟩ := (mem_active_removed h hx).mp hy
            obtain ⟨hseq, e, he, het⟩ := h.active y hold
            exact ⟨hseq, e, (mem_removed h hat).mpr ⟨he, het ▸ hne⟩, het⟩
          listed := by
            intro e he
            obtain ⟨hold, hne⟩ := (mem_removed h hat).mp he
            exact (mem_active_removed h hx).mpr ⟨h.listed e hold, hne⟩
          alive := by
            intro p hp
            obtain ⟨t, hat'⟩ := h.alive p hp
            obtain ⟨_, e, he, het⟩ := h.active x hx
            exact ⟨t, hlive.mpr ⟨hat', hother hat' fun hpx => h.apart p hp e he (het.trans hpx.symm)⟩⟩
          once := h.once
          apart := fun p hp e he => h.apart p hp e ((mem_removed h hat).mp he).1 }

/-- What `cancelInLoop` does to a timer that is not active. -/
def noted (q : TimerQueue) (id : ActiveTimer) : TimerQueue :=
  if q.callingExpiredTimers_ then { q with cancelingTimers_ := q.cancelingTimers_.insert id } else q

/-- A note changes the cancelled timers only. -/
@[simp] theorem noted_heap (q : TimerQueue) (id : ActiveTimer) :
    (noted q id).heap = q.heap := by
  unfold noted
  split <;> rfl

/-- A note changes the cancelled timers only. -/
@[simp] theorem noted_num_ (q : TimerQueue) (id : ActiveTimer) :
    (noted q id).num_ = q.num_ := by
  unfold noted
  split <;> rfl

/-- A note changes the cancelled timers only. -/
@[simp] theorem noted_timers_ (q : TimerQueue) (id : ActiveTimer) :
    (noted q id).timers_ = q.timers_ := by
  unfold noted
  split <;> rfl

/-- A note changes the cancelled timers only. -/
@[simp] theorem noted_timerfd_ (q : TimerQueue) (id : ActiveTimer) :
    (noted q id).timerfd_ = q.timerfd_ := by
  unfold noted
  split <;> rfl

/-- A note changes the cancelled timers only. -/
@[simp] theorem noted_callingExpiredTimers_ (q : TimerQueue) (id : ActiveTimer) :
    (noted q id).callingExpiredTimers_ = q.callingExpiredTimers_ := by
  unfold noted
  split <;> rfl

/-- `cancelInLoop` deletes an active timer, and takes a note otherwise. -/
theorem cancelInLoop_ok (h : Book q out) (id : ActiveTimer) :
    (∃ x ∈ q.activeTimers_, x.key = id.key ∧ ∃ timer, q.at? x.timer_ = some timer ∧
      q.cancelInLoop id = .ok (removed q timer x)) ∨
    (∀ x ∈ q.activeTimers_, x.key ≠ id.key) ∧ q.cancelInLoop id = .ok (noted q id) := by
  unfold TimerQueue.cancelInLoop
  cases hfind : q.activeTimers_.find id.key with
  | some x =>
    obtain ⟨hx, hkey⟩ := OrderedSet.find_eq_some.mp hfind
    obtain ⟨_, e, he, het⟩ := h.active x hx
    obtain ⟨timer, hat, _⟩ := h.current e he
    rw [het] at hat
    refine Or.inl ⟨x, hx, hkey, timer, hat, ?_⟩
    have hat' : TimerQueue.at? { q with
        timers_ := q.timers_.erase (Entry.key ⟨timer.time_, x.timer_⟩) } x.timer_ = some timer := hat
    dsimp only
    rw [deref_of_at? hat, ok_bind]
    unfold TimerQueue.delete
    rw [deref_of_at? hat', ok_bind]
    rfl
  | none =>
    refine Or.inr ⟨OrderedSet.find_eq_none.mp hfind, ?_⟩
    unfold noted
    dsimp only
    split <;> rfl

/-- A note changes neither the sets nor the memory. -/
theorem Book.noted (h : Book q out) (id : ActiveTimer) : Book (noted q id) out := by
  unfold TimerBook.noted
  split
  · exact h.of_same rfl le_rfl rfl rfl
  · exact h

/-- An entry is before the sentry if it is due. -/
theorem lt_sentry_iff (h : Book q out) {e : Entry} (he : e ∈ q.timers_) {now : ℤ} :
    e.key < TimerQueue.sentry now ↔ e.time ≤ now := by
  obtain ⟨t, hat, _⟩ := h.current e he
  have haddr : e.timer.addr < UINTPTR_MAX := (h.numbered _ _ (at?_eq_some.mp hat).1).2
  unfold Entry.key TimerQueue.sentry
  rw [Prod.Lex.toLex_lt_toLex]
  constructor
  · rintro (hlt | ⟨heq, _⟩)
    · exact hlt.le
    · exact heq.le
  · intro hle
    rcases hle.lt_or_eq with hlt | heq
    · exact Or.inl hlt
    · exact Or.inr ⟨heq, haddr⟩

/-- The timers of a batch leave the active timers. -/
theorem deactivate_ok {q : TimerQueue} {expired : List Entry}
    (halive : ∀ e ∈ expired, ∃ t, q.at? e.timer = some t) :
    ∃ active, q.deactivate expired = .ok { q with activeTimers_ := active } ∧
      ∀ x, x ∈ active ↔ x ∈ q.activeTimers_ ∧
        ∀ e ∈ expired, x.key ≠ ActiveTimer.key ⟨e.timer, e.timer.origin⟩ := by
  induction expired generalizing q with
  | nil => exact ⟨q.activeTimers_, rfl, fun x => by simp⟩
  | cons e expired ih =>
    obtain ⟨t, hat⟩ := halive e List.mem_cons_self
    have hseq := (at?_eq_some.mp hat).2
    obtain ⟨active, hrun, hmem⟩ := ih (q := { q with
      activeTimers_ := q.activeTimers_.erase (ActiveTimer.key ⟨e.timer, t.sequence_⟩) })
      fun e' he' => halive e' (List.mem_cons_of_mem e he')
    refine ⟨active, ?_, fun x => ?_⟩
    · rw [TimerQueue.deactivate, deref_of_at? hat, ok_bind]
      exact hrun
    · rw [hmem, OrderedSet.mem_erase, hseq, List.forall_mem_cons, and_assoc]

/-- The queue once `handleRead` has taken its batch. -/
structure Started (q q' : TimerQueue) (now : ℤ) (expired : List Entry) : Prop where
  /-- The batch is what is due, in order. -/
  batch : expired = q.timers_.below (TimerQueue.sentry now)
  /-- The other entries stay. -/
  rest : ∀ e, e ∈ q'.timers_ ↔ e ∈ q.timers_ ∧ e ∉ expired
  /-- The memory is the same. -/
  heap : q'.heap = q.heap
  /-- The numbers are the same. -/
  num_ : q'.num_ = q.num_
  /-- The timerfd was read. -/
  timerfd_ : q'.timerfd_ = q.readTimerfd.timerfd_
  /-- Callbacks are running. -/
  calling : q'.callingExpiredTimers_ = true
  /-- None of them has cancelled anything. -/
  canceling : ∀ x, x ∉ q'.cancelingTimers_

/-- Reading the timerfd changes nothing else. -/
theorem readTimerfd_eq (q : TimerQueue) :
    q.readTimerfd = { q with timerfd_ := q.readTimerfd.timerfd_ } := by
  unfold TimerQueue.readTimerfd
  split <;> rfl

/-- The batch leaves both sets. -/
theorem Book.started (h : Book q out) {q' : TimerQueue} {now : ℤ} {expired : List Entry}
    (hs : Started q q' now expired)
    (hactive : ∀ x, x ∈ q'.activeTimers_ ↔ x ∈ q.activeTimers_ ∧
      ∀ e ∈ expired, x.key ≠ ActiveTimer.key ⟨e.timer, e.timer.origin⟩) :
    Book q' (expired.map Entry.timer ++ out) := by
  have hat := at?_congr hs.heap
  have hmem : ∀ e ∈ expired, e ∈ q.timers_ := by
    intro e he
    rw [hs.batch] at he
    exact (OrderedSet.mem_below.mp he).1
  have hkey : ∀ {e e'}, e ∈ q.timers_ → e' ∈ q.timers_ →
      ActiveTimer.key ⟨e.timer, e.timer.origin⟩ = ActiveTimer.key ⟨e'.timer, e'.timer.origin⟩ →
      e = e' := by
    intro e e' he he' hk
    obtain ⟨t, ht, _⟩ := h.current e he
    obtain ⟨t', ht', _⟩ := h.current e' he'
    exact h.entry_unique he he' (eq_of_addr ht ht' (congrArg Prod.fst (toLex.injective hk)))
  have hnodup : expired.Nodup := by
    rw [hs.batch]
    exact (OrderedSet.sorted_below _ _).imp fun hlt => ne_of_apply_ne Entry.key hlt.ne
  exact { numbered := fun a t ha => by
            rw [hs.num_]
            exact h.numbered a t (hs.heap ▸ ha)
          unique := fun a b t u ha hb => h.unique a b t u (hs.heap ▸ ha) (hs.heap ▸ hb)
          current := fun e he => by
            rw [hat]
            exact h.current e ((hs.rest e).mp he).1
          active := by
            intro x hx
            obtain ⟨hold, hkeep⟩ := (hactive x).mp hx
            obtain ⟨hseq, e, he, het⟩ := h.active x hold
            refine ⟨hseq, e, (hs.rest e).mpr ⟨he, fun hexp => hkeep e hexp ?_⟩, het⟩
            unfold ActiveTimer.key
            rw [hseq, het]
          listed := by
            intro e he
            obtain ⟨hold, hnot⟩ := (hs.rest e).mp he
            refine (hactive _).mpr ⟨h.listed e hold, fun e' he' hk => hnot ?_⟩
            rw [hkey hold (hmem e' he') hk]
            exact he'
          alive := by
            intro p hp
            rw [hat]
            rcases List.mem_append.mp hp with hp | hp
            · obtain ⟨e, he, hep⟩ := List.mem_map.mp hp
              obtain ⟨t, ht, _⟩ := h.current e (hmem e he)
              exact ⟨t, hep ▸ ht⟩
            · exact h.alive p hp
          once := by
            refine List.nodup_append.mpr ⟨?_, h.once, ?_⟩
            · exact hnodup.map_on fun e he e' he' het => h.entry_unique (hmem e he) (hmem e' he') het
            · intro p hp p' hp' hpp
              obtain ⟨e, he, hep⟩ := List.mem_map.mp hp
              exact h.apart p' hp' e (hmem e he) (hep.trans hpp)
          apart := by
            intro p hp e he hep
            obtain ⟨hold, hnot⟩ := (hs.rest e).mp he
            rcases List.mem_append.mp hp with hp | hp
            · obtain ⟨e', he', hep'⟩ := List.mem_map.mp hp
              exact hnot (h.entry_unique hold (hmem e' he') (hep.trans hep'.symm) ▸ he')
            · exact h.apart p hp e hold hep }

/-- `handleRead` moves what is due out of both sets. -/
theorem startRead_ok (h : Book q out) (now : ℤ) :
    ∃ q' expired, q.startRead now = .ok (q', expired) ∧ Started q q' now expired ∧
      Book q' (expired.map Entry.timer ++ out) := by
  have halive : ∀ e ∈ q.timers_.below (TimerQueue.sentry now), ∃ t, TimerQueue.at? { q with
      timerfd_ := q.readTimerfd.timerfd_
      timers_ := q.timers_.dropBelow (TimerQueue.sentry now) } e.timer = some t := by
    intro e he
    obtain ⟨t, hat, _⟩ := h.current e (OrderedSet.mem_below.mp he).1
    exact ⟨t, hat⟩
  obtain ⟨active, hrun, hactive⟩ := deactivate_ok halive
  have hs : Started q { q with
      timerfd_ := q.readTimerfd.timerfd_
      timers_ := q.timers_.dropBelow (TimerQueue.sentry now)
      activeTimers_ := active
      callingExpiredTimers_ := true
      cancelingTimers_ := OrderedSet.empty } now (q.timers_.below (TimerQueue.sentry now)) :=
    { batch := rfl
      rest := by
        intro e
        rw [OrderedSet.mem_dropBelow, OrderedSet.mem_below, not_and]
        exact ⟨fun he => ⟨he.1, fun _ => he.2⟩, fun he => ⟨he.1, he.2 he.1⟩⟩
      heap := rfl
      num_ := rfl
      timerfd_ := rfl
      calling := rfl
      canceling := fun _ => OrderedSet.not_mem_empty }
  refine ⟨_, _, ?_, hs, h.started hs hactive⟩
  unfold TimerQueue.startRead TimerQueue.getExpired
  rw [readTimerfd_eq]
  dsimp only
  rw [hrun]
  rfl

/-- The queue with a timer overwritten. -/
def rewritten (q : TimerQueue) (p : TimerPtr) (timer : Timer) : TimerQueue :=
  { q with heap := Function.update q.heap p.addr (some timer) }

/-- A live timer was overwritten by one with its number. -/
theorem at?_rewritten (hat : q.at? p = some timer) (timer' : Timer)
    (hseq : timer'.sequence_ = timer.sequence_) (p' : TimerPtr) :
    (rewritten q p timer').at? p' = if p' = p then some timer' else q.at? p' := by
  have hself := (at?_eq_some.mp hat).2
  unfold TimerQueue.at? rewritten
  dsimp only
  by_cases hp : p' = p
  · rw [if_pos hp, hp, Function.update_self, Option.filter_some, if_pos]
    rw [hseq, hself, decide_eq_true_eq]
  · rw [if_neg hp]
    by_cases haddr : p'.addr = p.addr
    · have hne : p.origin ≠ p'.origin := by
        intro ho
        obtain ⟨addr, origin⟩ := p
        obtain ⟨addr', origin'⟩ := p'
        dsimp only at haddr ho
        exact hp (by rw [haddr, ho])
      rw [haddr, Function.update_self, (at?_eq_some.mp hat).1, Option.filter_some,
        Option.filter_some, if_neg, if_neg]
      · rw [decide_eq_true_eq, hself]
        exact hne
      · rw [decide_eq_true_eq, hseq, hself]
        exact hne
    · rw [Function.update_of_ne haddr]

/-- A timer outside may be overwritten by one with its number. -/
theorem Book.rewritten (h : Book q (p :: out)) (hat : q.at? p = some timer) (timer' : Timer)
    (hseq : timer'.sequence_ = timer.sequence_) : Book (rewritten q p timer') (p :: out) := by
  have hlive := at?_rewritten hat timer' hseq
  have hcell : ∀ a t, Function.update q.heap p.addr (some timer') a = some t →
      ∃ u, q.heap a = some u ∧ u.sequence_ = t.sequence_ := by
    intro a t ha
    rw [Function.update_apply] at ha
    split at ha
    · rename_i haddr
      cases ha
      exact ⟨timer, haddr ▸ (at?_eq_some.mp hat).1, hseq.symm⟩
    · exact ⟨t, ha, rfl⟩
  exact { numbered := by
            intro a t ha
            obtain ⟨u, hu, hs⟩ := hcell a t ha
            exact hs ▸ h.numbered a u hu
          unique := by
            intro a b t u ha hb hs
            obtain ⟨t', ht', hst⟩ := hcell a t ha
            obtain ⟨u', hu', hsu⟩ := hcell b u hb
            exact h.unique a b t' u' ht' hu' (by rw [hst, hsu, hs])
          current := by
            intro e he
            rw [hlive, if_neg (h.apart p List.mem_cons_self e he)]
            exact h.current e he
          active := h.active
          listed := h.listed
          alive := by
            intro p' hp'
            rw [hlive]
            split
            · exact ⟨timer', rfl⟩
            · exact h.alive p' hp'
          once := h.once
          apart := h.apart }

/-- A timer outside may be deleted. -/
theorem Book.deleted (h : Book q (p :: out)) (hat : q.at? p = some timer) :
    Book { q with heap := Function.update q.heap p.addr none } out := by
  have hlive : ∀ {p' t}, TimerQueue.at? { q with heap := Function.update q.heap p.addr none } p' =
      some t ↔ q.at? p' = some t ∧ p'.addr ≠ p.addr := at?_deleted rfl
  have hcell : ∀ a t, Function.update q.heap p.addr none a = some t → q.heap a = some t := by
    intro a t ha
    rw [Function.update_apply] at ha
    split at ha
    · cases ha
    · exact ha
  exact { numbered := fun a t ha => h.numbered a t (hcell a t ha)
          unique := fun a b t u ha hb => h.unique a b t u (hcell a t ha) (hcell b u hb)
          current := by
            intro e he
            obtain ⟨t, hat', htime⟩ := h.current e he
            refine ⟨t, hlive.mpr ⟨hat', fun ha => ?_⟩, htime⟩
            exact h.apart p List.mem_cons_self e he (eq_of_addr hat' hat ha)
          active := h.active
          listed := h.listed
          alive := by
            intro p' hp'
            obtain ⟨t, hat'⟩ := h.alive p' (List.mem_cons_of_mem p hp')
            refine ⟨t, hlive.mpr ⟨hat', fun ha => ?_⟩⟩
            exact (List.nodup_cons.mp h.once).1 (eq_of_addr hat' hat ha ▸ hp')
          once := (List.nodup_cons.mp h.once).2
          apart := fun p' hp' => h.apart p' (List.mem_cons_of_mem p hp') }

/-- An entry of the batch that `reset` puts back. -/
def Repeats (q : TimerQueue) (now : ℤ) (x e : Entry) : Prop :=
  ∃ t, q.at? x.timer = some t ∧ t.repeat_ = true ∧
    q.cancelingTimers_.find (ActiveTimer.key ⟨x.timer, x.timer.origin⟩) = none ∧
    e = ⟨addTime now t.interval_, x.timer⟩

/-- The queue once `reset` has gone through a batch. -/
structure Restarted (q q' : TimerQueue) (now : ℤ) (expired : List Entry) : Prop where
  /-- Repeating timers that were not cancelled are back. -/
  entries : ∀ e, e ∈ q'.timers_ ↔ e ∈ q.timers_ ∨ ∃ x ∈ expired, Repeats q now x e
  /-- The timers that are left are as they were, up to their expiry. -/
  kept : ∀ p t', q'.at? p = some t' → ∃ t, q.at? p = some t ∧ t'.interval_ = t.interval_
  /-- Timers outside the batch are as they were. -/
  same : ∀ p, (∀ e ∈ expired, e.timer ≠ p) → q'.at? p = q.at? p
  /-- The numbers are the same. -/
  num_ : q'.num_ = q.num_
  /-- The timerfd is the same. -/
  timerfd_ : q'.timerfd_ = q.timerfd_
  /-- The flag is the same. -/
  calling : q'.callingExpiredTimers_ = q.callingExpiredTimers_
  /-- The cancelled timers are the same. -/
  canceling : q'.cancelingTimers_ = q.cancelingTimers_

/-- One turn of `reset` puts a timer back or deletes it. -/
theorem resetOne_ok {e : Entry} (out : List TimerPtr) (h : Book q (e.timer :: out)) (now : ℤ) :
    ∃ q', q.resetOne now e = .ok q' ∧ Restarted q q' now [e] ∧ Book q' out := by
  obtain ⟨t, hat⟩ := h.alive e.timer List.mem_cons_self
  have hseq := (at?_eq_some.mp hat).2
  unfold TimerQueue.resetOne
  rw [deref_of_at? hat, ok_bind, hseq]
  by_cases hkeep : t.repeat_ = true ∧
      (q.cancelingTimers_.find (ActiveTimer.key ⟨e.timer, e.timer.origin⟩)).isNone = true
  · rw [if_pos hkeep]
    obtain ⟨hrepeat, hfind⟩ := hkeep
    rw [Option.isNone_iff_eq_none] at hfind
    have hnew := h.rewritten hat (t.restart now) rfl
    have hlive := at?_rewritten hat (t.restart now) rfl
    have hat' := (hlive e.timer).trans (if_pos rfl)
    have hinsert : TimerQueue.insert { q with
        heap := Function.update q.heap e.timer.addr (some (t.restart now)) } e.timer =
        .ok (inserted (rewritten q e.timer (t.restart now)) (t.restart now) e.timer, _) :=
      insert_ok hat'
    rw [hinsert, ok_bind]
    refine ⟨_, rfl, ?_, hnew.inserted hat'⟩
    have htime : (t.restart now).time_ = addTime now t.interval_ := if_pos hrepeat
    exact { entries := by
              intro e'
              rw [mem_inserted hnew, htime]
              refine or_congr_right ⟨fun he' => ?_, fun he' => ?_⟩
              · exact ⟨e, List.mem_singleton_self e, t, hat, hrepeat, hfind, he'⟩
              · obtain ⟨x, hx, u, hau, _, _, he'⟩ := he'
                rw [List.mem_singleton.mp hx] at hau he'
                rw [hat, Option.some.injEq] at hau
                rw [he', hau]
            kept := by
              intro p t' hp
              have hp' : (TimerBook.rewritten q e.timer (t.restart now)).at? p = some t' := hp
              rw [hlive] at hp'
              split at hp'
              · rename_i hpe
                rw [Option.some.injEq] at hp'
                exact ⟨t, hpe ▸ hat, hp' ▸ rfl⟩
              · exact ⟨t', hp', rfl⟩
            same := fun p hp =>
              (hlive p).trans (if_neg fun hpe => hp e (List.mem_singleton_self e) hpe.symm)
            num_ := rfl, timerfd_ := rfl, calling := rfl, canceling := rfl }
  · rw [if_neg hkeep]
    have hlive : ∀ {p' t'}, TimerQueue.at? { q with
        heap := Function.update q.heap e.timer.addr none } p' = some t' ↔
        q.at? p' = some t' ∧ p'.addr ≠ e.timer.addr := at?_deleted rfl
    unfold TimerQueue.delete
    rw [deref_of_at? hat, ok_bind]
    refine ⟨_, rfl, ?_, h.deleted hat⟩
    exact { entries := by
              intro e'
              refine ⟨Or.inl, fun he' => he'.resolve_right ?_⟩
              rintro ⟨x, hx, u, hau, hrepeat, hfind, _⟩
              rw [List.mem_singleton.mp hx] at hau hfind
              rw [hat, Option.some.injEq] at hau
              exact hkeep ⟨hau ▸ hrepeat, Option.isNone_iff_eq_none.mpr hfind⟩
            kept := fun p t' hp => ⟨t', (hlive.mp hp).1, rfl⟩
            same := by
              intro p hp
              refine Option.ext fun t' => hlive.trans ⟨And.left, fun hp' => ⟨hp', fun ha => ?_⟩⟩
              exact hp e (List.mem_singleton_self e) (eq_of_addr hat hp' ha.symm)
            num_ := rfl, timerfd_ := rfl, calling := rfl, canceling := rfl }

/-- `reset` goes through its batch. -/
theorem resetLoop_ok {expired : List Entry} (h : Book q (expired.map Entry.timer ++ out))
    (now : ℤ) : ∃ q', q.resetLoop now expired = .ok q' ∧ Restarted q q' now expired ∧
      Book q' out := by
  induction expired generalizing q with
  | nil =>
    refine ⟨q, rfl, ?_, h⟩
    exact { entries := fun e => by simp
            kept := fun p t' hp => ⟨t', hp, rfl⟩
            same := fun _ _ => rfl
            num_ := rfl, timerfd_ := rfl, calling := rfl, canceling := rfl }
  | cons e expired ih =>
    obtain ⟨q₁, hone, hr₁, hb₁⟩ := resetOne_ok (expired.map Entry.timer ++ out) h now
    obtain ⟨q', hloop, hr', hb'⟩ := ih hb₁
    refine ⟨q', ?_, ?_, hb'⟩
    · rw [TimerQueue.resetLoop, hone, ok_bind]
      exact hloop
    · have hother : ∀ x ∈ expired, q₁.at? x.timer = q.at? x.timer := by
        intro x hx
        refine hr₁.same x.timer fun e' he' => ?_
        rw [List.mem_singleton.mp he']
        intro het
        refine (List.nodup_cons.mp h.once).1 ?_
        rw [het]
        exact List.mem_append_left out (List.mem_map_of_mem hx)
      have hrepeats : ∀ x ∈ expired, ∀ e', Repeats q₁ now x e' ↔ Repeats q now x e' := by
        intro x hx e'
        unfold Repeats
        rw [hother x hx, hr₁.canceling]
      exact { entries := by
                intro e'
                rw [hr'.entries, hr₁.entries]
                constructor
                · rintro ((hold | ⟨x, hx, hrep⟩) | ⟨x, hx, hrep⟩)
                  · exact Or.inl hold
                  · rw [List.mem_singleton.mp hx] at hrep
                    exact Or.inr ⟨e, List.mem_cons_self, hrep⟩
                  · exact Or.inr ⟨x, List.mem_cons_of_mem e hx, (hrepeats x hx e').mp hrep⟩
                · rintro (hold | ⟨x, hx, hrep⟩)
                  · exact Or.inl (Or.inl hold)
                  · rcases List.mem_cons.mp hx with hx | hx
                    · exact Or.inl (Or.inr ⟨e, List.mem_singleton_self e, hx ▸ hrep⟩)
                    · exact Or.inr ⟨x, hx, (hrepeats x hx e').mpr hrep⟩
              kept := by
                intro p t' hp
                obtain ⟨t₁, hp₁, hi₁⟩ := hr'.kept p t' hp
                obtain ⟨t, hp₀, hi⟩ := hr₁.kept p t₁ hp₁
                exact ⟨t, hp₀, hi₁.trans hi⟩
              same := by
                intro p hp
                rw [hr'.same p fun x hx => hp x (List.mem_cons_of_mem e hx)]
                refine hr₁.same p fun x hx => ?_
                rw [List.mem_singleton.mp hx]
                exact hp e List.mem_cons_self
              num_ := hr'.num_.trans hr₁.num_
              timerfd_ := hr'.timerfd_.trans hr₁.timerfd_
              calling := hr'.calling.trans hr₁.calling
              canceling := hr'.canceling.trans hr₁.canceling }

/-- What the end of `reset` does to the timerfd. -/
def rearmed (q : TimerQueue) (clock : ℤ) : TimerQueue :=
  match q.timers_.first with
  | some e => if valid e.time then q.resetTimerfd e.time clock else q
  | none => q

/-- The end of `reset` arms the timerfd for the first entry. -/
theorem rearm_ok (h : Book q out) (clock : ℤ) : q.rearm clock = .ok (rearmed q clock) := by
  unfold TimerQueue.rearm rearmed
  cases hfirst : q.timers_.first with
  | none =>
    have hzero : ¬valid 0 := lt_irrefl 0
    exact congrArg Except.ok (if_neg hzero)
  | some e =>
    obtain ⟨t, hat, htime⟩ := h.current e (OrderedSet.first_mem hfirst)
    dsimp only
    rw [deref_of_at? hat]
    rw [← htime]
    rfl

/-- Arming the timerfd changes nothing else. -/
theorem rearmed_eq (q : TimerQueue) (clock : ℤ) :
    rearmed q clock = { q with timerfd_ := (rearmed q clock).timerfd_ } := by
  unfold rearmed
  split
  · split <;> rfl
  · rfl

/-- The end of `handleRead` puts back the timers that repeat, and arms the
timerfd. -/
theorem finishRead_ok {expired : List Entry} (h : Book q (expired.map Entry.timer ++ out))
    (now clock : ℤ) : ∃ q', q.finishRead expired now clock = .ok (rearmed q' clock) ∧
      Restarted { q with callingExpiredTimers_ := false } q' now expired ∧ Book q' out := by
  have hflag : Book { q with callingExpiredTimers_ := false } (expired.map Entry.timer ++ out) :=
    h.of_same rfl le_rfl rfl rfl
  obtain ⟨q', hloop, hr, hb⟩ := resetLoop_ok hflag now
  refine ⟨q', ?_, hr, hb⟩
  unfold TimerQueue.finishRead TimerQueue.reset
  rw [hloop, ok_bind]
  exact rearm_ok hb clock

/-- Arming the timerfd changes nothing else. -/
@[simp] theorem rearmed_heap (q : TimerQueue) (clock : ℤ) :
    (rearmed q clock).heap = q.heap := by
  rw [rearmed_eq]

/-- Arming the timerfd changes nothing else. -/
@[simp] theorem rearmed_num_ (q : TimerQueue) (clock : ℤ) :
    (rearmed q clock).num_ = q.num_ := by
  rw [rearmed_eq]

/-- Arming the timerfd changes nothing else. -/
@[simp] theorem rearmed_timers_ (q : TimerQueue) (clock : ℤ) :
    (rearmed q clock).timers_ = q.timers_ := by
  rw [rearmed_eq]

/-- Arming the timerfd changes nothing else. -/
@[simp] theorem rearmed_callingExpiredTimers_ (q : TimerQueue) (clock : ℤ) :
    (rearmed q clock).callingExpiredTimers_ = q.callingExpiredTimers_ := by
  rw [rearmed_eq]

/-- Arming the timerfd keeps the books. -/
theorem Book.rearmed (h : Book q out) (clock : ℤ) : Book (rearmed q clock) out := by
  rw [rearmed_eq]
  exact h.of_same rfl le_rfl rfl rfl

/-- The timers that are alive after one was constructed. -/
theorem at?_construct {addr : ℕ} {time : ℤ} {interval : Interval} (hfree : q.heap addr = none) :
    (q.construct addr time interval).at? p = some timer ↔ q.at? p = some timer ∨
      p = ⟨addr, q.num_ + 1⟩ ∧ timer = ⟨time, interval, q.num_ + 1⟩ := by
  have hheap : (q.construct addr time interval).heap =
      Function.update q.heap addr (some ⟨time, interval, q.num_ + 1⟩) := rfl
  rw [at?_eq_some, at?_eq_some, hheap]
  by_cases haddr : p.addr = addr
  · rw [haddr, Function.update_self, hfree, Option.some.injEq]
    constructor
    · rintro ⟨ht, hseq⟩
      subst ht
      refine Or.inr ⟨?_, rfl⟩
      obtain ⟨a, o⟩ := p
      dsimp only at haddr hseq
      rw [haddr, ← hseq]
    · rintro (⟨hnone, _⟩ | ⟨hp, ht⟩)
      · cases hnone
      · rw [ht, hp]
        exact ⟨rfl, rfl⟩
  · rw [Function.update_of_ne haddr]
    constructor
    · exact Or.inl
    · rintro (hold | ⟨hp, _⟩)
      · exact hold
      · exact absurd (congrArg TimerPtr.addr hp) haddr

/-- A timer that was just constructed is outside the sets. -/
theorem Book.constructed (h : Book q out) {addr : ℕ} {time : ℤ} {interval : Interval}
    (hfree : q.heap addr = none) (haddr : addr < UINTPTR_MAX) :
    Book (q.construct addr time interval) (⟨addr, q.num_ + 1⟩ :: out) := by
  have hlive : ∀ {p t}, (q.construct addr time interval).at? p = some t ↔ q.at? p = some t ∨
      p = ⟨addr, q.num_ + 1⟩ ∧ t = ⟨time, interval, q.num_ + 1⟩ := at?_construct hfree
  have hcell : ∀ a t, (q.construct addr time interval).heap a = some t →
      q.heap a = some t ∨ a = addr ∧ t.sequence_ = q.num_ + 1 := by
    intro a t ha
    have hheap : (q.construct addr time interval).heap =
        Function.update q.heap addr (some ⟨time, interval, q.num_ + 1⟩) := rfl
    rw [hheap, Function.update_apply] at ha
    split at ha
    · rename_i haa
      cases ha
      exact Or.inr ⟨haa, rfl⟩
    · exact Or.inl ha
  have hnew : ∀ p t, q.at? p = some t → p ≠ ⟨addr, q.num_ + 1⟩ := by
    intro p t hat hp
    have hheap := (at?_eq_some.mp hat).1
    rw [hp, hfree] at hheap
    cases hheap
  exact { numbered := by
            intro a t ha
            have hnum : (q.construct addr time interval).num_ = q.num_ + 1 := rfl
            rcases hcell a t ha with hold | ⟨haa, hseq⟩
            · have hle := h.numbered a t hold
              exact ⟨by omega, hle.2⟩
            · rw [haa]
              exact ⟨by omega, haddr⟩
          unique := by
            intro a b t u ha hb hs
            rcases hcell a t ha with hold | ⟨haa, hseq⟩
            · rcases hcell b u hb with hold' | ⟨hbb, hseq'⟩
              · exact h.unique a b t u hold hold' hs
              · have hle := (h.numbered a t hold).1
                omega
            · rcases hcell b u hb with hold' | ⟨hbb, hseq'⟩
              · have hle := (h.numbered b u hold').1
                omega
              · rw [haa, hbb]
          current := by
            intro e he
            obtain ⟨t, hat, htime⟩ := h.current e he
            exact ⟨t, hlive.mpr (Or.inl hat), htime⟩
          active := h.active
          listed := h.listed
          alive := by
            intro p hp
            rcases List.mem_cons.mp hp with hp | hp
            · exact ⟨_, hlive.mpr (Or.inr ⟨hp, rfl⟩)⟩
            · obtain ⟨t, hat⟩ := h.alive p hp
              exact ⟨t, hlive.mpr (Or.inl hat)⟩
          once := by
            refine List.nodup_cons.mpr ⟨fun hp => ?_, h.once⟩
            obtain ⟨t, hat⟩ := h.alive _ hp
            exact hnew _ t hat rfl
          apart := by
            intro p hp e he
            rcases List.mem_cons.mp hp with hp | hp
            · obtain ⟨t, hat, _⟩ := h.current e he
              rw [hp]
              exact hnew _ t hat
            · exact h.apart p hp e he }

end KKNet.TimerBook
