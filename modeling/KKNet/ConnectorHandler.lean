import KKNet.ClientConnector

/-!
# The handler of a connector

While an attempt is in progress its socket is on the poller with the handler the
connector owns, and otherwise no handler of the connector is. The destruction of
a handler is put off to a `resetChannel` task, which destroys whatever handler
the connector owns by then: it must not run while a later attempt is in progress.
-/

namespace KKNet.ClientConnector

open PollSelects PollRegistry Runs

/-- The handlers of the connector on the poller. -/
structure HandlerLive (w : World) : Prop where
  /-- An attempt in progress is registered for write events, with the handler it owns. -/
  registered : w.state_ = .kConnecting →
    ∃ e, w.poll_.entry w.sockfd_ = some e ∧ e.write = true ∧ w.handler_ = some e.handler
  /-- A handler `connecting` created is on the poller only while the connector owns it. -/
  live : ∀ fd h, w.poll_.Registered fd h → h ∈ w.created → w.handler_ = some h

/-- The step runs a `resetChannel` task. -/
def ResetsChannel (w : World) : Event → Prop
  | .runTask _ _ => w.batch.head? = some .resetChannel
  | _ => False

/-- A `startInLoop` that connects, and a `resetChannel`, find no attempt in progress. -/
def Undisturbed (w : World) (e : Event) : Prop :=
  launch w e ≠ none ∨ ResetsChannel w e → w.state_ ≠ .kConnecting

instance (w : World) (e : Event) : Decidable (ResetsChannel w e) :=
  match e with
  | .runTask _ _ => inferInstanceAs (Decidable (w.batch.head? = some .resetChannel))
  | .start _ _ _ | .restart _ _ | .stop | .handleWrite _ | .handleError | .timer _ _ _ | .swap
  | .release _ | .poll _ => inferInstanceAs (Decidable False)

instance (w : World) (e : Event) : Decidable (Undisturbed w e) :=
  inferInstanceAs (Decidable (launch w e ≠ none ∨ ResetsChannel w e → w.state_ ≠ .kConnecting))

/-- What holds while no attempt is disturbed. -/
structure HandlerInv (w : World) : Prop where
  /-- An attempt in progress is registered, and has its socket. -/
  connecting : w.state_ = .kConnecting →
    (∃ e, w.poll_.entry w.sockfd_ = some e ∧ e.write = true ∧ w.handler_ = some e.handler) ∧
      ∃ s ∈ w.sockets, s.pending = true ∧ s.fd = w.sockfd_
  /-- No other handler of the connector is on the poller. -/
  owned : ∀ fd h, w.poll_.Registered fd h → h ∈ w.created →
    w.state_ = .kConnecting ∧ fd = w.sockfd_ ∧ w.handler_ = some h
  /-- Every handler on the poller belongs to someone. -/
  known : ∀ fd h, w.poll_.Registered fd h → h ∈ w.created ∨ h ∈ w.foreign

variable {w w' : World} {a : Answer} {h : ℕ}

/-- The invariant gives what is asked of the handlers. -/
theorem handlerLive_of_inv (hinv : HandlerInv w) : HandlerLive w :=
  ⟨fun hstate => (hinv.connecting hstate).1, fun fd h hreg hh => (hinv.owned fd h hreg hh).2.2⟩

/-- The invariant is about the attempt, the sockets and the handlers. -/
theorem handlerInv_of_kept (hinv : HandlerInv w) (hkept : Kept w w') : HandlerInv w' := by
  refine ⟨fun hc => ?_, ?_, ?_⟩
  · rw [hkept.poll_, hkept.sockfd_, hkept.handler_, hkept.sockets]
    exact hinv.connecting (hkept.state_ ▸ hc)
  · rw [hkept.poll_, hkept.created, hkept.state_, hkept.sockfd_, hkept.handler_]
    exact hinv.owned
  · rw [hkept.poll_, hkept.created, hkept.foreign]
    exact hinv.known

/-- Without an attempt in progress, no handler of the connector is on the poller. -/
theorem handlerInv_of_idle (hidle : w.state_ ≠ .kConnecting)
    (hnone : ∀ fd h, w.poll_.Registered fd h → h ∉ w.created)
    (hknown : ∀ fd h, w.poll_.Registered fd h → h ∈ w.created ∨ h ∈ w.foreign) : HandlerInv w :=
  ⟨fun hc => absurd hc hidle, fun fd h hreg hh => absurd hh (hnone fd h hreg), hknown⟩

/-- A handler of the connector is on the poller for an attempt in progress. -/
theorem HandlerInv.unregistered (hinv : HandlerInv w) (hidle : w.state_ ≠ .kConnecting) {fd : ℤ}
    (hreg : w.poll_.Registered fd h) : h ∉ w.created :=
  fun hh => hidle (hinv.owned fd h hreg hh).1

/-- `connecting` registers the new handler for the new socket. -/
theorem connecting_inv (hidle : ∀ fd x, w.poll_.Registered fd x → x ∉ w.created)
    (hknown : ∀ fd x, w.poll_.Registered fd x → x ∈ w.created ∨ x ∈ w.foreign)
    (hnew : h ∉ w.foreign)
    (hsocket : ∃ s ∈ w.sockets, s.pending = true ∧ s.fd = w.sockfd_) : HandlerInv (w.connecting h) := by
  have hentry : ((w.poll_.addFd w.sockfd_ h).setEvent w.sockfd_ .kWrite).1.entry w.sockfd_ =
      some ⟨w.sockfd_, false, true, false, h⟩ := by
    unfold PollSelect.setEvent
    rw [entry_flag, entry_addFd]
    rfl
  refine ⟨fun _ => ⟨⟨_, hentry, rfl, rfl⟩, hsocket⟩, fun fd x hreg hx => ?_, fun fd x hreg => ?_⟩
  · rcases registered_addFd (registered_flag hreg) with ⟨hfd, hx'⟩ | ⟨hold, _⟩
    · exact ⟨rfl, hfd, congrArg some hx'.symm⟩
    · rcases List.mem_cons.mp hx with hx' | hx'
      · rcases hknown fd x hold with hcreated | hforeign
        · exact absurd hcreated (hidle fd x hold)
        · exact absurd (hx' ▸ hforeign) hnew
      · exact absurd hx' (hidle fd x hold)
  · rcases registered_addFd (registered_flag hreg) with ⟨_, hx'⟩ | ⟨hold, _⟩
    · exact Or.inl (List.mem_cons.mpr (Or.inl hx'))
    · exact (hknown fd x hold).imp_left fun hx' => List.mem_cons_of_mem h hx'

/-- `retry` leaves the poller and the handlers alone. -/
theorem retry_frame (w : World) : w.retry.state_ = .kDisconnected ∧ w.retry.poll_ = w.poll_ ∧
    w.retry.created = w.created ∧ w.retry.foreign = w.foreign := by
  unfold World.retry
  dsimp only
  split <;> exact ⟨rfl, rfl, rfl, rfl⟩

/-- An attempt launched while there is none. -/
theorem connect_inv (hidle : w.state_ ≠ .kConnecting)
    (hnone : ∀ fd x, w.poll_.Registered fd x → x ∉ w.created)
    (hknown : ∀ fd x, w.poll_.Registered fd x → x ∈ w.created ∨ x ∈ w.foreign)
    (hnew : h ∉ w.foreign) : HandlerInv (w.connect a h) := by
  cases a with
  | noSocket => exact handlerInv_of_idle hidle hnone hknown
  | socket fd errno =>
    have hretry : HandlerInv (World.retry { w with
        sockfd_ := fd, sockets := ⟨fd, 0, 0, false⟩ :: w.sockets }) := by
      obtain ⟨hstate, hpoll, hcreated, hforeign⟩ := retry_frame { w with
        sockfd_ := fd, sockets := ⟨fd, 0, 0, false⟩ :: w.sockets }
      refine handlerInv_of_idle (fun hc => by cases hstate.symm.trans hc) ?_ ?_
      · rw [hpoll, hcreated]
        exact hnone
      · rw [hpoll, hcreated, hforeign]
        exact hknown
    have hconnecting : HandlerInv (World.connecting { w with
        sockfd_ := fd, sockets := ⟨fd, 0, 0, false⟩ :: w.sockets } h) :=
      connecting_inv hnone hknown hnew ⟨_, List.mem_cons_self, rfl, rfl⟩
    cases errno with
    | zero => exact hconnecting
    | EINPROGRESS => exact hconnecting
    | EINTR => exact hconnecting
    | EISCONN => exact hconnecting
    | EAGAIN => exact hretry
    | EADDRINUSE => exact hretry
    | EADDRNOTAVAIL => exact hretry
    | ECONNREFUSED => exact hretry
    | ENETUNREACH => exact hretry
    | other => exact handlerInv_of_idle hidle hnone hknown

/-- The end of an attempt takes its handler off the poller. -/
theorem removed_inv (hinv : HandlerInv w) (hidle : w'.state_ ≠ .kConnecting)
    (hpoll : w'.poll_ = (w.poll_.deleteFd w.sockfd_).1) (hcreated : w'.created = w.created)
    (hforeign : w'.foreign = w.foreign) : HandlerInv w' := by
  refine handlerInv_of_idle hidle (fun fd x hreg hx => ?_) fun fd x hreg => ?_
  · rw [hpoll] at hreg
    rw [hcreated] at hx
    obtain ⟨hold, hne⟩ := registered_deleteFd hreg
    exact hne (hinv.owned fd x hold hx).2.1
  · rw [hpoll] at hreg
    rw [hcreated, hforeign]
    exact hinv.known fd x (registered_deleteFd hreg).1

/-- A write event ends an attempt in progress. -/
theorem handleWrite_handler (hinv : HandlerInv w) (err : Bool) : HandlerInv (w.handleWrite err) := by
  unfold World.handleWrite
  by_cases hstate : w.state_ = .kConnecting
  · rw [if_pos hstate]
    dsimp only
    cases err with
    | true =>
      obtain ⟨hidle, hpoll, hcreated, hforeign⟩ := retry_frame w.removeAndResetChannel
      exact removed_inv hinv (fun hc => by cases hidle.symm.trans hc) hpoll hcreated hforeign
    | false =>
      rw [if_neg Bool.false_ne_true]
      split
      · exact removed_inv hinv (fun hc => by cases hc) rfl rfl rfl
      · exact removed_inv hinv (fun hc => by cases hc) rfl rfl rfl
  · rw [if_neg hstate]
    exact hinv

/-- So does an error event. -/
theorem handleError_handler (hinv : HandlerInv w) : HandlerInv w.handleError := by
  unfold World.handleError
  by_cases hstate : w.state_ = .kConnecting
  · rw [if_pos hstate]
    obtain ⟨hidle, hpoll, hcreated, hforeign⟩ := retry_frame w.removeAndResetChannel
    exact removed_inv hinv (fun hc => by cases hidle.symm.trans hc) hpoll hcreated hforeign
  · rw [if_neg hstate]
    exact hinv

/-- And so does `stopInLoop`. -/
theorem stopInLoop_handler (hinv : HandlerInv w) : HandlerInv w.stopInLoop := by
  unfold World.stopInLoop
  by_cases hstate : w.state_ = .kConnecting
  · rw [if_pos hstate]
    exact removed_inv hinv (fun hc => by cases hc) rfl rfl rfl
  · rw [if_neg hstate]
    exact hinv

/-- `resetChannel` destroys the handler of an attempt that has ended. -/
theorem resetChannel_handler (hinv : HandlerInv w) (hidle : w.state_ ≠ .kConnecting) :
    HandlerInv w.resetChannel :=
  handlerInv_of_idle hidle (fun _ _ hreg => hinv.unregistered hidle hreg) hinv.known

/-- What the new owner of a socket does is no concern of the handlers. -/
theorem release_handler (hinv : HandlerInv w) (fd : ℤ) :
    HandlerInv { w with sockets := w.sockets.map fun s =>
      if s.fd = fd ∧ s.hands = 1 then { s with released := true } else s } := by
  refine ⟨fun hc => ?_, hinv.owned, hinv.known⟩
  obtain ⟨hentry, s, hs, hpending, hfd⟩ := hinv.connecting hc
  refine ⟨hentry, _, List.mem_map.mpr ⟨s, hs, rfl⟩, ?_, ?_⟩
  · split <;> exact hpending
  · split <;> exact hfd

/-- Calls of others leave the attempt in progress alone. -/
theorem poll_handler (hinv : HandlerInv w) {call : Call}
    (hother : ∀ s ∈ w.sockets, s.pending = true → s.fd ≠ call.fd)
    (hfree : ∀ x ∈ call.handlers, x ∉ w.created) :
    HandlerInv { w with
      poll_ := (perform w.poll_ call).1, foreign := call.handlers ++ w.foreign } := by
  refine ⟨fun hc => ?_, fun fd x hreg hx => ?_, fun fd x hreg => ?_⟩
  · obtain ⟨hentry, s, hs, hpending, hfd⟩ := hinv.connecting hc
    refine ⟨?_, s, hs, hpending, hfd⟩
    dsimp only
    rw [entry_perform_of_ne (hfd ▸ hother s hs hpending)]
    exact hentry
  · rcases registered_perform hreg with hold | ⟨hnew, _⟩
    · exact hinv.owned fd x hold hx
    · exact absurd hx (hfree x hnew)
  · rcases registered_perform hreg with hold | ⟨hnew, _⟩
    · exact (hinv.known fd x hold).imp_right fun hf => List.mem_append_right _ hf
    · exact Or.inr (List.mem_append_left _ hnew)

/-- A step that disturbs no attempt keeps the invariant. -/
theorem step_handler (hinv : HandlerInv w) {e : Event} (hundisturbed : Undisturbed w e)
    (he : step w e = some w') : HandlerInv w' := by
  cases hlaunch : launch w e with
  | some found =>
    obtain ⟨timers, a⟩ := found
    have hidle : w.state_ ≠ .kConnecting := hundisturbed (Or.inl (by rw [hlaunch]; simp))
    obtain ⟨w₁, h, hadmits, rfl, hprep⟩ := launch_step he hlaunch
    refine connect_inv (hprep.idle hidle) ?_ ?_ ?_
    · rw [hprep.poll_, hprep.created]
      exact fun fd x hreg => hinv.unregistered hidle hreg
    · rw [hprep.poll_, hprep.created, hprep.foreign]
      exact hinv.known
    · rw [hprep.foreign]
      exact hadmits.2.2
  | none =>
    cases unlaunched_step he hlaunch with
    | kept _ _ hkept => exact handlerInv_of_kept hinv hkept
    | handleWrite err => exact handleWrite_handler hinv err
    | handleError => exact handleError_handler hinv
    | stopInLoop _ _ batch => exact stopInLoop_handler (handlerInv_of_kept hinv (kept_batch w batch))
    | resetChannel _ _ batch hhead =>
      exact resetChannel_handler (handlerInv_of_kept hinv (kept_batch w batch))
        (hundisturbed (Or.inr hhead))
    | release fd => exact release_handler hinv fd
    | poll call hother hfree => exact poll_handler hinv hother hfree

/-- In every run in which no `startInLoop` that connects and no `resetChannel` runs
while an attempt is in progress, the attempt in progress is registered with the handler
the connector owns, and no other handler of the connector is on the poller. -/
theorem handler_live (sockfd : ℤ) (events : List Event)
    (hundisturbed : Along step (fun w e _ => Undisturbed w e) (World.fresh sockfd) events) :
    Along step (fun _ _ w' => HandlerLive w') (World.fresh sockfd) events := by
  have hfresh : HandlerInv (World.fresh sockfd) := by
    have hempty : ∀ fd x, ¬(World.fresh sockfd).poll_.Registered fd x := by
      rintro fd x ⟨e, he, _⟩
      exact OrderedSets.OrderedSet.not_mem_empty he
    exact handlerInv_of_idle (fun hc => by cases hc) (fun fd x hreg => absurd hreg (hempty fd x))
      fun fd x hreg => absurd hreg (hempty fd x)
  refine along_of_along HandlerInv (fun w e w' hinv hkind he => ?_) hfresh hundisturbed
  have hinv' := step_handler hinv hkind he
  exact ⟨hinv', handlerLive_of_inv hinv'⟩

/-- An attempt that is established, and a later one that is stopped. -/
def oneByOne : List Event :=
  [.start true (.socket 5 .EINPROGRESS) 0, .handleWrite false, .swap, .runTask .noSocket 1,
    .start true (.socket 6 .EINPROGRESS) 1, .stop, .swap, .runTask .noSocket 2]

/-- In this run no attempt is disturbed. -/
theorem handler_live_oneByOne :
    Along step (fun w e _ => Undisturbed w e) (World.fresh 0) oneByOne ∧
      Along step (fun _ _ w' => HandlerLive w') (World.fresh 0) oneByOne := by
  have hundisturbed : Along step (fun w e _ => Undisturbed w e) (World.fresh 0) oneByOne := by
    refine along_cons_of_step rfl (by decide) ?_
    refine along_cons_of_step rfl (by decide) ?_
    refine along_cons_of_step rfl (by decide) ?_
    refine along_cons_of_step rfl (by decide) ?_
    refine along_cons_of_step rfl (by decide) ?_
    refine along_cons_of_step rfl (by decide) ?_
    refine along_cons_of_step rfl (by decide) ?_
    exact along_cons_of_step rfl (by decide) trivial
  exact ⟨hundisturbed, handler_live 0 oneByOne hundisturbed⟩

/-- Another thread stops the attempt in progress and starts the next one, in one batch. -/
def stopAndStart : List Event :=
  [.start true (.socket 5 .EINPROGRESS) 0, .stop, .start false .noSocket 1, .swap,
    .runTask .noSocket 1, .runTask (.socket 5 .EINPROGRESS) 1, .swap, .runTask .noSocket 2]

/-- The `resetChannel` of the stopped attempt destroys the handler of the next one. -/
theorem reset_while_connecting :
    ∃ w, run step (World.fresh 0) stopAndStart = some w ∧ w.state_ = .kConnecting ∧
      w.handler_ = none ∧ w.poll_.Registered 5 1 ∧ 1 ∈ w.created ∧ ¬HandlerLive w := by
  refine ⟨_, rfl, rfl, rfl, ⟨⟨5, false, true, false, 1⟩, ?_, rfl⟩, ?_, fun hlive => ?_⟩
  · exact List.mem_cons_self
  · exact List.mem_cons_self
  · obtain ⟨_, _, _, hhandler⟩ := hlive.registered rfl
    cases hhandler

end KKNet.ClientConnector
