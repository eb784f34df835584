import KKNet.PollRegistry

/-!
# Dispatching events

One round of `Eventloop::loop` from `wait` through the handlers. `wait` stores the
reported events as flags in the handlers, whatever `select` returned, and only
`handleEvents` clears them, which `loop` calls only for a positive count. The
callbacks that run are the reported ones as long as no `select` fails with an
interest set: on a failure it leaves the sets as they were passed in, so every
interest is flagged, and the flags stay.
-/

namespace KKNet.EventDispatch

open OrderedSets PollSelects PollRegistry Runs

/-- The interest in a type of events. -/
def FdEvent.interest (e : FdEvent) : EventType → Bool
  | .kRead => e.read
  | .kWrite => e.write
  | .kError => e.error
  | .kClose => false

/-- The flag of a type of events. -/
def EventHandler.flag (f : EventHandler) : EventType → Bool
  | .kRead => f.read_
  | .kWrite => f.write_
  | .kError => f.error_
  | .kClose => f.close_

/-- Membership in the set of a type of events. -/
def Selected.reports (sel : Selected) : EventType → ℤ → Bool
  | .kRead => sel.rset
  | .kWrite => sel.wset
  | .kError => sel.eset
  | .kClose => fun _ => false

/-- `EventHandler::handleEvents`: the callbacks that are invoked, of those that
are set, in order. -/
def handleEvents (f : EventHandler) (callbacks : EventType → Bool) : List EventType :=
  [EventType.kClose, .kRead, .kWrite, .kError].filter fun type =>
    EventHandler.flag f type && callbacks type

/-- The flags `wait` leaves in the handlers. -/
def mark (flags : ℕ → EventHandler) (srevents : List (ℕ × List EventType)) : ℕ → EventHandler :=
  srevents.foldl (fun f m => Function.update f m.1 (m.2.foldl EventHandler.setEventFlag (f m.1))) flags

/-- The loop of `handleEvents` calls: the flags afterwards, and the callbacks that
were invoked. -/
def dispatch (callbacks : ℕ → EventType → Bool) :
    (ℕ → EventHandler) → List ℕ → (ℕ → EventHandler) × List (ℕ × EventType)
  | flags, [] => (flags, [])
  | flags, h :: handlers =>
    let rest := dispatch callbacks (Function.update flags h .clear) handlers
    (rest.1, (handleEvents (flags h) (callbacks h)).map (fun type => (h, type)) ++ rest.2)

/-- What `select` makes of the sets it is passed. -/
inductive Answer
  /-- It returns a positive count and these parts of the sets. -/
  | ready (others : ℕ) (rset wset eset : ℤ → Bool)
  /-- It returns `0` and empty sets. -/
  | timeout
  /-- It returns `-1` and leaves the sets. -/
  | failed

/-- The set passed to `select` for a type of events. -/
def passed (p : PollSelect) (type : EventType) (fd : ℤ) : Bool :=
  p.events_.items.any fun x => x.2.any fun e => e.fd = fd && FdEvent.interest e type

/-- What `select` returns, and the sets it leaves. -/
def Answer.selected (p : PollSelect) : Answer → Selected
  | .ready others rset wset eset => ⟨others + 1, fun fd => rset fd && passed p .kRead fd,
      fun fd => wset fd && passed p .kWrite fd, fun fd => eset fd && passed p .kError fd⟩
  | .timeout => ⟨0, fun _ => false, fun _ => false, fun _ => false⟩
  | .failed => ⟨-1, passed p .kRead, passed p .kWrite, passed p .kError⟩

/-- The poller, the flags of the handlers, and the callbacks of the last round. -/
structure Dispatcher where
  /-- The poller. -/
  poll_ : PollSelect
  /-- The flags of each handler. -/
  flags : ℕ → EventHandler
  /-- The callbacks the last round invoked, in order. -/
  invoked : List (ℕ × EventType)

/-- A loop about to enter `loop()`, with no flag set. -/
def Dispatcher.start (p : PollSelect) : Dispatcher := ⟨p, fun _ => .clear, []⟩

/-- A round: what `select` answers, and the calls on the poller that callbacks,
tasks and other threads make until the next one. -/
structure Round where
  /-- The answer of `select`. -/
  answer : Answer
  /-- The calls on the poller. -/
  calls : List Call

/-- One round; there is none where `wait` follows a null entry. -/
def step (callbacks : ℕ → EventType → Bool) (d : Dispatcher) (r : Round) : Option Dispatcher := do
  let sel := r.answer.selected d.poll_
  let srevents ← d.poll_.wait sel
  let flags := mark d.flags srevents
  let out := if sel.n > 0 then dispatch callbacks flags (srevents.map Prod.fst) else (flags, [])
  pure ⟨r.calls.foldl (fun p c => (perform p c).1) d.poll_, out.1, out.2⟩

/-- A descriptor of the handler is reported ready for a type it has interest in. -/
def Reported (p : PollSelect) (sel : Selected) (h : ℕ) (type : EventType) : Prop :=
  ∃ fd e, (fd, some e) ∈ p.events_ ∧ e.handler = h ∧ Selected.reports sel type e.fd = true ∧
    FdEvent.interest e type = true

/-- The callbacks invoked are those of the events reported in the round. -/
structure OnlyReported (callbacks : ℕ → EventType → Bool) (d : Dispatcher) (r : Round)
    (d' : Dispatcher) : Prop where
  /-- A callback that is set is invoked exactly if `select` succeeded and reported its event. -/
  invoked : ∀ h type, (h, type) ∈ d'.invoked ↔ callbacks h type = true ∧
    0 < (r.answer.selected d.poll_).n ∧ Reported d.poll_ (r.answer.selected d.poll_) h type
  /-- No flag is left for a later round. -/
  cleared : ∀ h, d'.flags h = .clear

/-- `select` does not fail, or has no interest to leave. -/
def Steady (d : Dispatcher) (r : Round) : Prop :=
  r.answer = .failed → ∀ fd e type, (fd, some e) ∈ d.poll_.events_ → FdEvent.interest e type = false

variable {callbacks : ℕ → EventType → Bool} {p : PollSelect} {sel : Selected}

/-- `wait` sets a flag for an interest that is reported. -/
theorem mem_marks {e : FdEvent} {type : EventType} :
    type ∈ sel.marks e ↔ Selected.reports sel type e.fd = true ∧ FdEvent.interest e type = true := by
  unfold Selected.marks Selected.reports FdEvent.interest
  cases type <;> simp [List.mem_append, List.mem_ite_nil_right]

/-- What `wait` yields, from the registry. -/
theorem mem_wait {srevents : List (ℕ × List EventType)} (h : p.wait sel = some srevents)
    {m : ℕ × List EventType} : m ∈ srevents ↔
      ∃ fd e, (fd, some e) ∈ p.events_ ∧ m = (e.handler, sel.marks e) ∧ sel.marks e ≠ [] := by
  constructor
  · exact wait_mem h
  · rintro ⟨fd, e, hx, hm, hne⟩
    unfold PollSelect.wait at h
    obtain ⟨entries, hentries, hout⟩ := Option.bind_eq_some_iff.mp h
    cases hout
    have he : e ∈ entries := by
      obtain ⟨e', he', hsame⟩ := exists_of_mapM hentries hx
      cases hsame
      exact he'
    rw [List.mem_filter, List.mem_map, hm]
    exact ⟨⟨e, he, rfl⟩, decide_eq_true hne⟩

/-- Setting flags one after another. -/
theorem flag_foldl (types : List EventType) (f : EventHandler) (type : EventType) :
    EventHandler.flag (types.foldl EventHandler.setEventFlag f) type = true ↔
      EventHandler.flag f type = true ∨ type ∈ types := by
  have hone : ∀ (f : EventHandler) (t : EventType),
      EventHandler.flag (f.setEventFlag t) type = true ↔
        EventHandler.flag f type = true ∨ type = t := by
    intro f t
    cases t <;> cases type <;> simp [EventHandler.flag, EventHandler.setEventFlag]
  induction types generalizing f with
  | nil => simp
  | cons t types ih =>
    rw [List.foldl_cons, List.mem_cons, ← or_assoc, ← hone]
    exact ih (f.setEventFlag t)

/-- `wait` flags what it reports and clears nothing. -/
theorem flag_mark (srevents : List (ℕ × List EventType)) (flags : ℕ → EventHandler) (h : ℕ)
    (type : EventType) : EventHandler.flag (mark flags srevents h) type = true ↔
      EventHandler.flag (flags h) type = true ∨ ∃ m ∈ srevents, m.1 = h ∧ type ∈ m.2 := by
  induction srevents generalizing flags with
  | nil => simp [mark]
  | cons m srevents ih =>
    have hcons : mark flags (m :: srevents) =
        mark (Function.update flags m.1 (m.2.foldl EventHandler.setEventFlag (flags m.1))) srevents :=
      rfl
    rw [hcons, ih]
    by_cases hm : h = m.1
    · subst hm
      rw [Function.update_self, flag_foldl]
      simp only [List.mem_cons, exists_eq_or_imp, true_and, or_assoc]
    · rw [Function.update_of_ne hm]
      simp only [List.mem_cons, exists_eq_or_imp, Ne.symm hm, false_and, false_or]

/-- `handleEvents` invokes the callbacks whose flags are set. -/
theorem mem_handleEvents {f : EventHandler} {set : EventType → Bool} {type : EventType} :
    type ∈ handleEvents f set ↔ EventHandler.flag f type = true ∧ set type = true := by
  unfold handleEvents
  rw [List.mem_filter, Bool.and_eq_true]
  exact and_iff_right (by cases type <;> decide)

/-- The loop of `handleEvents` calls clears the handlers it visits. -/
theorem dispatch_flags (handlers : List ℕ) (flags : ℕ → EventHandler) (h : ℕ) :
    (dispatch callbacks flags handlers).1 h = if h ∈ handlers then .clear else flags h := by
  induction handlers generalizing flags with
  | nil => rfl
  | cons x handlers ih =>
    unfold dispatch
    rw [ih]
    by_cases hh : h ∈ handlers
    · rw [if_pos hh, if_pos (List.mem_cons_of_mem x hh)]
    · rw [if_neg hh]
      by_cases hx : h = x
      · rw [hx, Function.update_self, if_pos List.mem_cons_self]
      · rw [Function.update_of_ne hx, if_neg]
        rw [List.mem_cons, not_or]
        exact ⟨hx, hh⟩

/-- It invokes, for each handler it visits, the callbacks whose flags are set. -/
theorem mem_dispatch (handlers : List ℕ) (flags : ℕ → EventHandler) (h : ℕ) (type : EventType) :
    (h, type) ∈ (dispatch callbacks flags handlers).2 ↔
      h ∈ handlers ∧ EventHandler.flag (flags h) type = true ∧ callbacks h type = true := by
  induction handlers generalizing flags with
  | nil => simp [dispatch]
  | cons x handlers ih =>
    unfold dispatch
    rw [List.mem_append, List.mem_map, ih]
    by_cases hx : h = x
    · subst hx
      -- a second visit of the handler finds its flags cleared
      have hclear : EventHandler.flag EventHandler.clear type = false := by cases type <;> rfl
      rw [Function.update_self, hclear]
      constructor
      · rintro (⟨t, ht, heq⟩ | ⟨_, hflag, _⟩)
        · cases heq
          exact ⟨List.mem_cons_self, mem_handleEvents.mp ht⟩
        · cases hflag
      · rintro ⟨_, hset⟩
        exact Or.inl ⟨type, mem_handleEvents.mpr hset, rfl⟩
    · rw [Function.update_of_ne hx]
      constructor
      · rintro (⟨t, _, heq⟩ | ⟨hh, hset⟩)
        · cases heq
          exact absurd rfl hx
        · exact ⟨List.mem_cons_of_mem x hh, hset⟩
      · rintro ⟨hh, hset⟩
        exact Or.inr ⟨(List.mem_cons.mp hh).resolve_left hx, hset⟩

/-- A handler is clear if none of its flags is set. -/
theorem eq_clear {f : EventHandler} (h : ∀ type, ¬EventHandler.flag f type = true) : f = .clear := by
  obtain ⟨r, w, e, c⟩ := f
  have hr : r = false := Bool.eq_false_of_not_eq_true (h .kRead)
  have hw : w = false := Bool.eq_false_of_not_eq_true (h .kWrite)
  have he : e = false := Bool.eq_false_of_not_eq_true (h .kError)
  have hc : c = false := Bool.eq_false_of_not_eq_true (h .kClose)
  rw [hr, hw, he, hc]
  rfl

/-- A clear handler has no flag set. -/
theorem flag_clear (type : EventType) : EventHandler.flag EventHandler.clear type = false := by
  cases type <;> rfl

/-- From clear handlers, `wait` flags exactly what is reported. -/
theorem flag_iff_reported {flags : ℕ → EventHandler} (hclear : ∀ h, flags h = .clear)
    {srevents : List (ℕ × List EventType)} (hwait : p.wait sel = some srevents) (h : ℕ)
    (type : EventType) :
    EventHandler.flag (mark flags srevents h) type = true ↔ Reported p sel h type := by
  rw [flag_mark, hclear, flag_clear]
  constructor
  · rintro (hflag | ⟨m, hm, hh, htype⟩)
    · cases hflag
    · obtain ⟨fd, e, hx, heq, _⟩ := (mem_wait hwait).mp hm
      subst heq
      exact ⟨fd, e, hx, hh, mem_marks.mp htype⟩
  · rintro ⟨fd, e, hx, hh, hrep⟩
    have htype : type ∈ sel.marks e := mem_marks.mpr hrep
    exact Or.inr ⟨_, (mem_wait hwait).mpr ⟨fd, e, hx, rfl, List.ne_nil_of_mem htype⟩, hh, htype⟩

/-- A handler with a reported event is among those `wait` yields. -/
theorem mem_of_reported {srevents : List (ℕ × List EventType)} (hwait : p.wait sel = some srevents)
    {h : ℕ} {type : EventType} (hrep : Reported p sel h type) : h ∈ srevents.map Prod.fst := by
  obtain ⟨fd, e, hx, hh, hrep⟩ := hrep
  have htype : type ∈ sel.marks e := mem_marks.mpr hrep
  rw [List.mem_map]
  exact ⟨_, (mem_wait hwait).mpr ⟨fd, e, hx, rfl, List.ne_nil_of_mem htype⟩, hh⟩

/-- After a failure every interest is reported. -/
theorem reported_failed {h : ℕ} {type : EventType} :
    Reported p (Answer.failed.selected p) h type ↔
      ∃ fd e, (fd, some e) ∈ p.events_ ∧ e.handler = h ∧ FdEvent.interest e type = true := by
  constructor
  · rintro ⟨fd, e, hx, hh, _, hint⟩
    exact ⟨fd, e, hx, hh, hint⟩
  · rintro ⟨fd, e, hx, hh, hint⟩
    have hpassed : passed p type e.fd = true := by
      unfold passed
      rw [List.any_eq_true]
      exact ⟨(fd, some e), hx, by simp [hint]⟩
    refine ⟨fd, e, hx, hh, ?_, hint⟩
    cases type with
    | kRead => exact hpassed
    | kWrite => exact hpassed
    | kError => exact hpassed
    | kClose => cases hint

/-- From clear handlers a round invokes what is reported and leaves no flag exactly
if `select` does not fail with an interest set. -/
theorem onlyReported_iff {d d' : Dispatcher} {r : Round} (hclear : ∀ h, d.flags h = .clear)
    (he : step callbacks d r = some d') : OnlyReported callbacks d r d' ↔ Steady d r := by
  obtain ⟨srevents, hwait, he⟩ := Option.bind_eq_some_iff.mp he
  have hflag := flag_iff_reported hclear hwait
  dsimp only at he
  by_cases hn : (r.answer.selected d.poll_).n > 0
  · rw [if_pos hn] at he
    cases he
    constructor
    · intro _ hfailed
      rw [hfailed] at hn
      exact absurd (show (-1 : ℤ) > 0 from hn) (by decide)
    · intro _
      refine ⟨fun h type => ?_, fun h => ?_⟩
      · rw [mem_dispatch, hflag]
        constructor
        · exact fun ⟨_, hrep, hset⟩ => ⟨hset, hn, hrep⟩
        · exact fun ⟨hset, _, hrep⟩ => ⟨mem_of_reported hwait hrep, hrep, hset⟩
      · dsimp only
        rw [dispatch_flags]
        by_cases hh : h ∈ srevents.map Prod.fst
        · rw [if_pos hh]
        · rw [if_neg hh]
          exact eq_clear fun type hset => hh (mem_of_reported hwait ((hflag h type).mp hset))
  · rw [if_neg hn] at he
    cases he
    -- nothing is dispatched, so all depends on whether a flag was set
    have hquiet : (∀ h, mark d.flags srevents h = .clear) ↔
        ∀ h type, ¬Reported d.poll_ (r.answer.selected d.poll_) h type := by
      constructor
      · intro hall h type hrep
        have hset := (hflag h type).mpr hrep
        rw [hall h, flag_clear] at hset
        cases hset
      · exact fun hnone h => eq_clear fun type hset => hnone h type ((hflag h type).mp hset)
    constructor
    · intro honly hfailed fd e type hx
      have hnone := hquiet.mp honly.cleared e.handler type
      rw [hfailed, reported_failed] at hnone
      exact Bool.eq_false_of_not_eq_true fun hint => hnone ⟨fd, e, hx, rfl, hint⟩
    · intro hsteady
      refine ⟨fun h type => ⟨fun hinv => absurd hinv List.not_mem_nil, fun h => absurd h.2.1 hn⟩,
        hquiet.mpr fun h type hrep => ?_⟩
      cases hans : r.answer with
      | ready others rset wset eset =>
        rw [hans] at hn
        exact hn (Int.succ_ofNat_pos others)
      | timeout =>
        rw [hans] at hrep
        obtain ⟨_, e, _, _, hset, _⟩ := hrep
        cases type <;> cases hset
      | failed =>
        rw [hans, reported_failed] at hrep
        obtain ⟨fd, e, hx, _, hint⟩ := hrep
        rw [hsteady hans fd e type hx] at hint
        cases hint

/-- Throughout a run of the loop the callbacks invoked are those of the events
reported in the same round, and no flag is left, exactly if no `select` fails
while an interest is set. -/
theorem only_reported_iff (callbacks : ℕ → EventType → Bool) (p : PollSelect) (rounds : List Round) :
    Along (step callbacks) (OnlyReported callbacks) (Dispatcher.start p) rounds ↔
      Along (step callbacks) (fun d r _ => Steady d r) (Dispatcher.start p) rounds := by
  refine along_iff_along (fun d => ∀ h, d.flags h = .clear) ?_ ?_ (fun _ => rfl) rounds
  · exact fun _ _ _ hclear he => onlyReported_iff hclear he
  · exact fun _ _ _ hclear hsteady he => ((onlyReported_iff hclear he).mpr hsteady).cleared

/-- A connection with interest in read and write events. -/
def served : PollSelect :=
  ⟨OrderedSet.empty.insert (5, some ⟨5, true, true, false, 0⟩), 5⟩

/-- `select` fails, then reports the connection writable. -/
def interrupted : List Round :=
  [⟨.failed, []⟩, ⟨.ready 0 (fun _ => false) (fun fd => fd = 5) (fun _ => false), []⟩]

/-- The flags of the failed round survive: the second round invokes the read
callback, though nothing is readable. -/
theorem stale_read :
    ¬Along (step fun _ _ => true) (OnlyReported fun _ _ => true) (Dispatcher.start served)
        interrupted ∧
      ∃ d, run (step fun _ _ => true) (Dispatcher.start served) interrupted = some d ∧
        d.invoked = [(0, .kRead), (0, .kWrite)] := by
  constructor
  · intro h
    have hsecond := ((h _ rfl).2 _ rfl).1
    obtain ⟨_, _, fd, e, _, _, hrep, _⟩ := (hsecond.invoked 0 .kRead).mp (by decide)
    cases hrep
  · exact ⟨_, rfl, rfl⟩

end KKNet.EventDispatch
