import KKNet.ConnectorAttempts

/-!
# The retries of a connector

The delay doubles with each retry up to its maximum, and only `restart` sets it
back: a connector that is stopped and started again goes on with the delay it had
reached. Once it is stopped it connects no more: it creates no socket, hands none
over and schedules no retry, and the attempt in progress ends with `stopInLoop`.
-/

namespace KKNet.ClientConnector

open Runs

variable {w w' : World} {e : Event} {a : Answer} {h : ℕ}

/-- The delay of the retry after `i` others. -/
def retryDelay (i : ℕ) : ℕ := min (kInitRetryDelayMs * 2 ^ i) kMaxRetryDelayMs

/-- The call is `restart`. -/
def Event.restarts : Event → Bool
  | .restart _ _ => true
  | _ => false

/-- The call asks for a connection. -/
def Event.asks : Event → Bool
  | .start _ _ _ => true
  | .restart _ _ => true
  | _ => false

/-- The retry timers that do not expire. -/
def lasting (w : World) : Event → List ℕ
  | .timer i _ _ => w.timers.eraseIdx i
  | _ => w.timers

/-- A connector with the delays of its retries since the last `restart`. -/
structure Logged where
  /-- The connector. -/
  world : World
  /-- The delays of the timers it started, in order. -/
  delays : List ℕ

/-- One step, with the timer it starts. -/
def logStep (s : Logged) (e : Event) : Option Logged :=
  (step s.world e).map fun w' => ⟨w', (if e.restarts then [] else s.delays) ++
    w'.timers.drop (lasting s.world e).length⟩

/-! ### The delays -/

/-- The delay doubles until it has reached the maximum. -/
theorem retryDelay_succ (i : ℕ) : min (retryDelay i * 2) kMaxRetryDelayMs = retryDelay (i + 1) := by
  unfold retryDelay
  rw [pow_succ, ← mul_assoc]
  generalize kInitRetryDelayMs * 2 ^ i = d
  omega

/-- At most one timer is started, with the delay the connector has, which then doubles. -/
def Paced (w w' : World) : Prop :=
  w'.timers = w.timers ∧ w'.retryDelayMs_ = w.retryDelayMs_ ∨
    w'.timers = w.timers ++ [w.retryDelayMs_] ∧
      w'.retryDelayMs_ = min (w.retryDelayMs_ * 2) kMaxRetryDelayMs

/-- Nothing happens to timers and delay. -/
theorem Paced.same (htimers : w'.timers = w.timers) (hdelay : w'.retryDelayMs_ = w.retryDelayMs_) :
    Paced w w' := Or.inl ⟨htimers, hdelay⟩

/-- `retry` starts a timer while connecting is wanted. -/
theorem paced_retry (w : World) : Paced w w.retry := by
  unfold World.retry
  dsimp only
  split
  · exact Or.inr ⟨rfl, rfl⟩
  · exact .same rfl rfl

/-- `connect` retries at most. -/
theorem paced_connect (w : World) (a : Answer) (h : ℕ) : Paced w (w.connect a h) := by
  cases a with
  | noSocket => exact .same rfl rfl
  | socket fd errno =>
    cases errno with
    | zero | EINPROGRESS | EINTR | EISCONN | other => exact .same rfl rfl
    | EAGAIN | EADDRINUSE | EADDRNOTAVAIL | ECONNREFUSED | ENETUNREACH =>
      exact paced_retry { w with sockfd_ := fd, sockets := ⟨fd, 0, 0, false⟩ :: w.sockets }

/-- So does `startInLoop`. -/
theorem paced_startInLoop (w : World) (a : Answer) (h : ℕ) : Paced w (w.startInLoop a h) := by
  unfold World.startInLoop
  split
  · exact paced_connect w a h
  · exact .same rfl rfl

/-- So do the events of the socket. -/
theorem paced_handleWrite (w : World) (err : Bool) : Paced w (w.handleWrite err) := by
  unfold World.handleWrite
  split
  · dsimp only
    split
    · exact paced_retry w.removeAndResetChannel
    · split <;> exact .same rfl rfl
  · exact .same rfl rfl

/-- And errors. -/
theorem paced_handleError (w : World) : Paced w w.handleError := by
  unfold World.handleError
  split
  · exact paced_retry w.removeAndResetChannel
  · exact .same rfl rfl

/-- And tasks. -/
theorem paced_execute (w : World) (t : Task) (a : Answer) (h : ℕ) : Paced w (w.execute t a h) := by
  cases t with
  | startInLoop => exact paced_startInLoop w a h
  | stopInLoop =>
    unfold World.execute World.stopInLoop
    dsimp only
    split <;> exact .same rfl rfl
  | resetChannel => exact .same rfl rfl

/-- A step starts at most one timer, after those that last. -/
theorem paced_of_step (he : step w e = some w') :
    Paced { w with
      timers := lasting w e
      retryDelayMs_ := if e.restarts then kInitRetryDelayMs else w.retryDelayMs_ } w' := by
  unfold step at he
  cases e with
  | start inLoop a h =>
    dsimp only at he
    split at he <;> cases he
    cases inLoop with
    | true => exact paced_startInLoop { w with connect_ := true } a h
    | false => exact .same rfl rfl
  | restart a h =>
    dsimp only at he
    split at he <;> cases he
    exact paced_startInLoop _ a h
  | stop =>
    cases he
    exact .same rfl rfl
  | handleWrite err =>
    dsimp only at he
    split at he <;> cases he
    exact paced_handleWrite w err
  | handleError =>
    dsimp only at he
    split at he <;> cases he
    exact paced_handleError w
  | timer i a h =>
    dsimp only at he
    split at he <;> cases he
    exact paced_startInLoop { w with timers := w.timers.eraseIdx i } a h
  | swap | release fd | poll call =>
    dsimp only at he
    split at he <;> cases he
    exact .same rfl rfl
  | runTask a h =>
    dsimp only at he
    split at he
    case h_1 => cases he
    case h_2 t batch hbatch =>
      split at he <;> cases he
      exact paced_execute { w with batch := batch } t a h

/-- The log of a run. -/
structure OnSchedule (s : Logged) : Prop where
  /-- The delays so far are those of the schedule. -/
  delays : s.delays = (List.range s.delays.length).map retryDelay
  /-- The next one is due. -/
  next : s.world.retryDelayMs_ = retryDelay s.delays.length
  /-- Every timer that is pending was started with a delay of the schedule. -/
  pending : ∀ d ∈ s.world.timers, ∃ i, d = retryDelay i

/-- A timer that lasts was pending. -/
theorem lasting_subset (w : World) (e : Event) : lasting w e ⊆ w.timers := by
  cases e with
  | timer i a h => exact (List.eraseIdx_sublist w.timers i).subset
  | _ => exact List.Subset.refl _

/-- A step keeps to the schedule. -/
theorem onSchedule_step {s s' : Logged} (h : OnSchedule s) (he : logStep s e = some s') :
    OnSchedule s' := by
  obtain ⟨w', hstep, rfl⟩ := Option.map_eq_some_iff.mp he
  have hlog : (if e.restarts then [] else s.delays) =
        (List.range (if e.restarts then [] else s.delays).length).map retryDelay ∧
      (if e.restarts then kInitRetryDelayMs else s.world.retryDelayMs_) =
        retryDelay (if e.restarts then [] else s.delays).length := by
    split
    · exact ⟨rfl, rfl⟩
    · exact ⟨h.delays, h.next⟩
  have hlasting : ∀ d ∈ lasting s.world e, ∃ i, d = retryDelay i :=
    fun d hd => h.pending d (lasting_subset s.world e hd)
  generalize (if e.restarts then [] else s.delays) = log at hlog ⊢
  rcases paced_of_step hstep with ⟨htimers, hdelay⟩ | ⟨htimers, hdelay⟩
  · dsimp only at htimers hdelay
    rw [htimers, List.drop_length, List.append_nil]
    exact ⟨hlog.1, hdelay.trans hlog.2, fun d hd => hlasting d (htimers ▸ hd)⟩
  · dsimp only at htimers hdelay
    rw [hlog.2] at htimers hdelay
    rw [htimers, List.drop_left]
    refine ⟨?_, ?_, fun d hd => ?_⟩
    · dsimp only
      rw [List.length_append, List.length_singleton, List.range_succ, List.map_append]
      exact congrArg (· ++ [retryDelay log.length]) hlog.1
    · dsimp only
      rw [hdelay, List.length_append, List.length_singleton, retryDelay_succ]
    · dsimp only at hd
      rw [htimers] at hd
      rcases List.mem_append.mp hd with hd | hd
      · exact hlasting d hd
      · exact ⟨log.length, List.mem_singleton.mp hd⟩

/-- In every run the delays of the retries since the last `restart` are 500 ms, doubled
each time, up to 30 s; so is every delay that is pending. -/
theorem retries_on_schedule (sockfd : ℤ) (events : List Event) (s : Logged)
    (hrun : run logStep ⟨World.fresh sockfd, []⟩ events = some s) :
    s.delays = (List.range s.delays.length).map retryDelay ∧
      ∀ d ∈ s.world.timers, ∃ i, d = retryDelay i := by
  have hstart : OnSchedule ⟨World.fresh sockfd, []⟩ :=
    ⟨rfl, rfl, fun d hd => absurd hd List.not_mem_nil⟩
  have h := invariant OnSchedule (fun _ _ _ hs he => onSchedule_step hs he) hstart hrun
  exact ⟨h.delays, h.pending⟩

/-- The third attempt is made by a `start` after a `stop`. -/
def refusedThrice : List Event :=
  [.start true (.socket 5 .ECONNREFUSED) 0, .timer 0 (.socket 5 .EINPROGRESS) 0, .handleError,
    .stop, .start true (.socket 5 .ENETUNREACH) 1]

/-- The `start` goes on with the delay that was reached. -/
theorem retries_on_schedule_refusedThrice :
    ∃ s, run logStep ⟨World.fresh 0, []⟩ refusedThrice = some s ∧ s.world.timers = [1000, 2000] ∧
      s.delays = [500, 1000, 2000] ∧ s.delays = (List.range s.delays.length).map retryDelay :=
  ⟨_, rfl, rfl, rfl, (retries_on_schedule 0 refusedThrice _ rfl).1⟩

/-! ### After `stop` -/

/-- The sockets, and which of them were handed over. -/
def handed (w : World) : List (ℤ × ℕ) := w.sockets.map fun s => (s.fd, s.hands)

/-- The loop is going to run `stopInLoop`. -/
def Stopping (w : World) : Prop := .stopInLoop ∈ w.batch ++ w.tasks_

/-- What no step adds to while no connection is wanted. -/
structure Stays (w w' : World) : Prop where
  /-- No connection is wanted. -/
  connect_ : w'.connect_ = false
  /-- No socket is new, and none is handed over. -/
  sockets : handed w' = handed w
  /-- No timer is new. -/
  timers : w'.timers.Sublist w.timers
  /-- An attempt in progress was in progress, and ends with `stopInLoop`. -/
  connecting : w'.state_ = .kConnecting → w.state_ = .kConnecting ∧ (Stopping w → Stopping w')

/-- A change to the newest socket of a descriptor that is no handover. -/
theorem handed_newest (fd : ℤ) (change : Socket → Socket)
    (hchange : ∀ s, (change s).fd = s.fd ∧ (change s).hands = s.hands) (sockets : List Socket) :
    (newest fd change sockets).map (fun s => (s.fd, s.hands)) =
      sockets.map fun s => (s.fd, s.hands) := by
  induction sockets with
  | nil => rfl
  | cons s sockets ih =>
    unfold newest
    split
    · rw [List.map_cons, List.map_cons, (hchange s).1, (hchange s).2]
    · rw [List.map_cons, List.map_cons, ih]

/-- Closing hands nothing over. -/
theorem handed_close (w : World) (fd : ℤ) : handed (w.close fd) = handed w :=
  handed_newest fd (fun s => { s with closes := s.closes + 1 }) (fun _ => ⟨rfl, rfl⟩) w.sockets

/-- A step that leaves the state and the tasks alone. -/
theorem Stays.same (hconnect : w'.connect_ = false) (hsockets : handed w' = handed w)
    (htimers : w'.timers.Sublist w.timers) (hstate : w'.state_ = w.state_)
    (hbatch : w'.batch = w.batch) (htasks : w'.tasks_ = w.tasks_) : Stays w w' := by
  refine ⟨hconnect, hsockets, htimers, fun hc => ⟨hstate ▸ hc, fun hstop => ?_⟩⟩
  unfold Stopping
  rw [hbatch, htasks]
  exact hstop

/-- A step that ends the attempt. -/
theorem Stays.ended (hconnect : w'.connect_ = false) (hsockets : handed w' = handed w)
    (htimers : w'.timers.Sublist w.timers) (hstate : w'.state_ ≠ .kConnecting) : Stays w w' :=
  ⟨hconnect, hsockets, htimers, fun hc => absurd hc hstate⟩

/-- `retry` gives up. -/
theorem retry_unwanted (hno : w.connect_ = false) :
    w.retry = { w.close w.sockfd_ with state_ := .kDisconnected } := by
  unfold World.retry
  exact if_neg (Bool.eq_false_iff.mp hno)

/-- The socket that fails or connects too late is closed. -/
theorem stays_handleWrite (hno : w.connect_ = false) (err : Bool) : Stays w (w.handleWrite err) := by
  unfold World.handleWrite
  split
  · dsimp only
    cases err with
    | true =>
      rw [if_pos rfl, retry_unwanted (w := w.removeAndResetChannel) hno]
      exact .ended hno (handed_close w w.sockfd_) (List.Sublist.refl _) nofun
    | false =>
      have hno' : ¬w.removeAndResetChannel.connect_ = true := Bool.eq_false_iff.mp hno
      rw [if_neg Bool.false_ne_true, if_neg hno']
      exact .ended hno (handed_close w w.sockfd_) (List.Sublist.refl _) nofun
  · exact .same hno rfl (List.Sublist.refl _) rfl rfl rfl

/-- So is one with an error. -/
theorem stays_handleError (hno : w.connect_ = false) : Stays w w.handleError := by
  unfold World.handleError
  split
  · rw [retry_unwanted (w := w.removeAndResetChannel) hno]
    exact .ended hno (handed_close w w.sockfd_) (List.Sublist.refl _) nofun
  · exact .same hno rfl (List.Sublist.refl _) rfl rfl rfl

/-- The loop goes on with its batch. -/
theorem stays_runTask (hno : w.connect_ = false) {t : Task} {batch : List Task}
    (hbatch : w.batch = t :: batch) (a : Answer) (h : ℕ) :
    Stays w (World.execute { w with batch := batch } t a h) := by
  have hwaits : t ≠ .stopInLoop → ∀ w' : World, w'.batch = batch → w.tasks_ <+: w'.tasks_ →
      Stopping w → Stopping w' := by
    intro ht w' hw htasks hstop
    unfold Stopping at hstop ⊢
    rw [hbatch, List.cons_append] at hstop
    rw [hw]
    have hrest := (List.mem_cons.mp hstop).resolve_left ht.symm
    exact (List.mem_append.mp hrest).elim (List.mem_append_left _)
      fun hmem => List.mem_append_right _ (htasks.subset hmem)
  cases t with
  | startInLoop =>
    have hidle : World.startInLoop { w with batch := batch } a h = { w with batch := batch } :=
      if_neg (Bool.eq_false_iff.mp hno)
    unfold World.execute
    dsimp only
    rw [hidle]
    exact ⟨hno, rfl, List.Sublist.refl _, fun hc => ⟨hc, hwaits nofun _ rfl (List.prefix_refl _)⟩⟩
  | stopInLoop =>
    unfold World.execute World.stopInLoop
    dsimp only
    split
    · exact .ended hno (handed_close w w.sockfd_) (List.Sublist.refl _) nofun
    case isFalse hidle => exact .ended hno rfl (List.Sublist.refl _) hidle
  | resetChannel =>
    exact ⟨hno, rfl, List.Sublist.refl _, fun hc => ⟨hc, hwaits nofun _ rfl (List.prefix_refl _)⟩⟩

/-- While no connection is wanted, no call but `start` and `restart` makes one. -/
theorem stays_of_step (hno : w.connect_ = false) (hask : e.asks = false)
    (he : step w e = some w') : Stays w w' := by
  unfold step at he
  cases e with
  | start | restart => cases hask
  | stop =>
    cases he
    refine ⟨rfl, rfl, List.Sublist.refl _, fun hc => ⟨hc, fun _ => ?_⟩⟩
    exact List.mem_append_right _ (List.mem_append_right _ (List.mem_singleton_self _))
  | handleWrite err =>
    dsimp only at he
    split at he <;> cases he
    exact stays_handleWrite hno err
  | handleError =>
    dsimp only at he
    split at he <;> cases he
    exact stays_handleError hno
  | timer i a h =>
    dsimp only at he
    split at he <;> cases he
    have hidle : World.startInLoop { w with timers := w.timers.eraseIdx i } a h =
        { w with timers := w.timers.eraseIdx i } := if_neg (Bool.eq_false_iff.mp hno)
    rw [hidle]
    exact .same hno rfl (List.eraseIdx_sublist w.timers i) rfl rfl rfl
  | swap =>
    dsimp only at he
    split at he
    case isTrue hbatch =>
      cases he
      refine ⟨hno, rfl, List.Sublist.refl _, fun hc => ⟨hc, fun hstop => ?_⟩⟩
      unfold Stopping at hstop ⊢
      rw [hbatch] at hstop
      exact List.mem_append_left _ hstop
    case isFalse => cases he
  | runTask a h =>
    dsimp only at he
    split at he
    case h_1 => cases he
    case h_2 t batch hbatch =>
      split at he <;> cases he
      exact stays_runTask hno hbatch a h
  | release fd =>
    dsimp only at he
    split at he <;> cases he
    refine .same hno ?_ (List.Sublist.refl _) rfl rfl rfl
    unfold handed
    rw [List.map_map]
    refine List.map_congr_left fun s _ => ?_
    dsimp only [Function.comp]
    split <;> rfl
  | poll call =>
    dsimp only at he
    split at he <;> cases he
    exact .same hno rfl (List.Sublist.refl _) rfl rfl rfl

/-- Nothing is launched while no connection is wanted. -/
theorem launch_unwanted (hno : w.connect_ = false) (hask : e.asks = false) : launch w e = none := by
  have hno' : ¬w.connect_ = true := Bool.eq_false_iff.mp hno
  unfold launch
  cases e with
  | start | restart => cases hask
  | timer i a h => exact if_neg hno'
  | runTask a h => exact if_neg fun hc => hno' hc.1
  | _ => rfl

/-- A connector that was stopped in the state `w`. -/
structure Stopped (w w' : World) : Prop where
  /-- No connection is wanted. -/
  connect_ : w'.connect_ = false
  /-- No socket is new, and none was handed over since. -/
  sockets : handed w' = handed w
  /-- No timer is new. -/
  timers : w'.timers.Sublist w.timers
  /-- An attempt in progress ends with `stopInLoop`. -/
  stopping : w'.state_ = .kConnecting → Stopping w'
  /-- The attempts are in order if they were. -/
  attempts : AttemptInv w → AttemptInv w'

/-- A stopped connector stays so until it is asked for a connection. -/
theorem stopped_step {w₁ : World} (hs : Stopped w w₁) (hask : e.asks = false)
    (he : step w₁ e = some w') : Stopped w w' := by
  have hstays := stays_of_step hs.connect_ hask he
  refine ⟨hstays.connect_, hstays.sockets.trans hs.sockets, hstays.timers.trans hs.timers,
    fun hc => ?_, fun hinv => ?_⟩
  · obtain ⟨hc₁, hwaits⟩ := hstays.connecting hc
    exact hwaits (hs.stopping hc₁)
  · exact step_without_launch (hs.attempts hinv) (unlaunched_step he (launch_unwanted hs.connect_ hask))

/-- After `stop`, until `start` or `restart` is called again, no socket is created and none
handed over, and no retry is scheduled. Once `stopInLoop` has run no attempt is in
progress, and every socket was closed or handed over if attempts were launched one
after another before. -/
theorem stop_is_final (sockfd : ℤ) (before : List Event) (w w₁ : World)
    (hrun : run step (World.fresh sockfd) before = some w) (hstop : step w .stop = some w₁)
    (more : List Event) (hmore : ∀ e ∈ more, e.asks = false) (w' : World)
    (hrun' : run step w₁ more = some w') :
    handed w' = handed w ∧ w'.timers.Sublist w.timers ∧ (¬Stopping w' → w'.state_ ≠ .kConnecting ∧
      (Along step (fun w e _ => Single w e) (World.fresh sockfd) before → Settled w'.sockets)) := by
  cases hstop
  have hstopped : Stopped w w.stop := by
    refine ⟨rfl, rfl, List.Sublist.refl _, fun _ => ?_, fun hinv => ⟨hinv.connecting, hinv.idle⟩⟩
    exact List.mem_append_right _ (List.mem_append_right _ (List.mem_singleton_self _))
  have h : Stopped w w' := invariant_of_meets (Stopped w)
    (fun _ _ _ hs hask he => stopped_step hs hask he) hstopped
    (meets_of_forall (fun e : Event => e.asks = false) hmore w.stop) hrun'
  refine ⟨h.sockets, h.timers, fun hidle => ?_⟩
  have hstate : w'.state_ ≠ .kConnecting := fun hc => hidle (h.stopping hc)
  refine ⟨hstate, fun halong => ((h.attempts ?_).idle hstate).2⟩
  refine invariant_of_along AttemptInv (fun w e w' hinv (hsingle : Single w e)
    (he : step w e = some w') => step_attempts hinv hsingle he) ?_ halong hrun
  exact ⟨nofun, fun _ => ⟨Nat.zero_le 1, fun s hs => absurd hs List.not_mem_nil⟩⟩

/-- The attempt is stopped while it is in progress. -/
def stoppedInProgress : List Event := [.swap, .runTask .noSocket 1, .swap, .runTask .noSocket 1]

/-- Its socket is closed and not handed over. -/
theorem stop_is_final_inProgress :
    ∃ w w₁ w', run step (World.fresh 0) [.start true (.socket 5 .EINPROGRESS) 0] = some w ∧
      step w .stop = some w₁ ∧ run step w₁ stoppedInProgress = some w' ∧
      w'.sockets = [⟨5, 1, 0, false⟩] ∧ handed w' = handed w ∧ Settled w'.sockets := by
  have hsingle : Along step (fun w e _ => Single w e) (World.fresh 0)
      [.start true (.socket 5 .EINPROGRESS) 0] := by
    refine fun w' _ => ⟨fun timers a ha => ?_, trivial⟩
    cases ha
    exact ⟨nofun, Or.inl rfl⟩
  obtain ⟨hhanded, _, hsettled⟩ := stop_is_final 0 [.start true (.socket 5 .EINPROGRESS) 0] _ _ rfl
    rfl stoppedInProgress (by decide) _ rfl
  exact ⟨_, _, _, rfl, rfl, rfl, rfl, hhanded, (hsettled List.not_mem_nil).2 hsingle⟩

end KKNet.ClientConnector
