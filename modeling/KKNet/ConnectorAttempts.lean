import KKNet.ClientConnector

/-!
# The attempts of a connector

The connector closes or hands over the socket of an attempt in `retry`, in
`handleWrite` and in `stopInLoop`, each of which acts on an attempt in progress
alone. `connect` takes no notice of one: launched beside an attempt in progress
it loses that attempt's socket, and launched beside a pending retry timer it
leaves two attempts.
-/

namespace KKNet.ClientConnector

open Runs

/-- At most one attempt is in progress or scheduled, and the sockets are accounted for. -/
structure OneAttempt (w : World) : Prop where
  /-- No socket is closed twice, handed over twice, or both. -/
  once : ∀ s ∈ w.sockets, s.closes + s.hands ≤ 1
  /-- The only socket neither closed nor handed over is `sockfd_`, while connecting. -/
  pending : ∀ s ∈ w.sockets, s.pending = true → s.fd = w.sockfd_ ∧ w.state_ = .kConnecting
  /-- There is one attempt at most. -/
  single : (w.sockets.filter Socket.pending).length + w.timers.length ≤ 1

/-- `connect` gives up at once. -/
def Answer.fatal : Answer → Bool
  | .noSocket => true
  | .socket _ .other => true
  | .socket _ _ => false

/-- A `startInLoop` finds no attempt in progress, and no retry timer pending unless
its `connect` gives up at once. -/
def Single (w : World) (e : Event) : Prop :=
  ∀ timers a, launch w e = some (timers, a) →
    w.state_ ≠ .kConnecting ∧ (timers = [] ∨ a.fatal = true)

/-- Every socket was closed or handed over. -/
def Settled (sockets : List Socket) : Prop := ∀ s ∈ sockets, s.closes + s.hands = 1

/-- The attempt in progress has the newest socket. -/
def Attempt (w : World) : Prop :=
  0 ≤ w.sockfd_ ∧ ∃ rest, w.sockets = ⟨w.sockfd_, 0, 0, false⟩ :: rest ∧ Settled rest

/-- What holds while attempts are launched one after another. -/
structure AttemptInv (w : World) : Prop where
  /-- An attempt in progress is the only one. -/
  connecting : w.state_ = .kConnecting → w.timers = [] ∧ Attempt w
  /-- Otherwise one may be scheduled. -/
  idle : w.state_ ≠ .kConnecting → w.timers.length ≤ 1 ∧ Settled w.sockets

variable {w w' : World} {a : Answer} {h : ℕ} {sockets : List Socket}

/-- A settled socket is not pending. -/
theorem pending_of_settled (hset : Settled sockets) {s : Socket} (hs : s ∈ sockets) :
    s.pending = false := by
  have hone := hset s hs
  unfold Socket.pending
  rw [hone]
  rfl

/-- No socket is pending where all are settled. -/
theorem filter_of_settled (hset : Settled sockets) : sockets.filter Socket.pending = [] := by
  rw [List.filter_eq_nil_iff]
  intro s hs hpending
  cases hpending.symm.trans (pending_of_settled hset hs)

/-- One more settled socket. -/
theorem settled_cons (hset : Settled sockets) {s : Socket} (hs : s.closes + s.hands = 1) :
    Settled (s :: sockets) := by
  intro s' hs'
  rcases List.mem_cons.mp hs' with rfl | hs'
  · exact hs
  · exact hset s' hs'

/-- The invariant gives what is asked of the connector. -/
theorem oneAttempt_of_inv (hinv : AttemptInv w) : OneAttempt w := by
  by_cases hstate : w.state_ = .kConnecting
  · obtain ⟨htimers, _, rest, hsockets, hset⟩ := hinv.connecting hstate
    refine ⟨fun s hs => ?_, fun s hs hpending => ?_, ?_⟩
    · rw [hsockets] at hs
      rcases List.mem_cons.mp hs with rfl | hs
      · exact Nat.zero_le 1
      · exact (hset s hs).le
    · rw [hsockets] at hs
      rcases List.mem_cons.mp hs with rfl | hs
      · exact ⟨rfl, hstate⟩
      · cases hpending.symm.trans (pending_of_settled hset hs)
    · rw [hsockets, htimers, List.filter_cons_of_pos rfl, filter_of_settled hset]
      rfl
  · obtain ⟨htimers, hset⟩ := hinv.idle hstate
    refine ⟨fun s hs => (hset s hs).le, fun s hs hpending => ?_, ?_⟩
    · cases hpending.symm.trans (pending_of_settled hset hs)
    · rw [filter_of_settled hset]
      exact (Nat.zero_add _).le.trans htimers

/-- The invariant is about the attempt, the sockets and the timers. -/
theorem attemptInv_of_kept (hinv : AttemptInv w) (hkept : Kept w w') : AttemptInv w' := by
  refine ⟨fun hc => ?_, fun hc => ?_⟩
  · obtain ⟨htimers, hattempt⟩ := hinv.connecting (hkept.state_ ▸ hc)
    refine ⟨List.sublist_nil.mp (htimers ▸ hkept.timers), ?_⟩
    unfold Attempt
    rw [hkept.sockfd_, hkept.sockets]
    exact hattempt
  · obtain ⟨htimers, hset⟩ := hinv.idle (hkept.state_ ▸ hc)
    rw [hkept.sockets]
    exact ⟨hkept.timers.length_le.trans htimers, hset⟩

/-- Closing the newest socket. -/
theorem sockets_close {s : Socket} {rest : List Socket} (hsockets : w.sockets = s :: rest)
    {fd : ℤ} (hfd : s.fd = fd) :
    (w.close fd).sockets = { s with closes := s.closes + 1 } :: rest := by
  unfold World.close
  dsimp only
  rw [hsockets]
  exact if_pos hfd

/-- `retry` closes the newest socket and schedules the next attempt while connecting is
wanted. -/
theorem retry_spec {rest : List Socket} (hsockets : w.sockets = ⟨w.sockfd_, 0, 0, false⟩ :: rest) :
    w.retry.state_ = .kDisconnected ∧
      w.retry.sockets = ⟨w.sockfd_, 1, 0, false⟩ :: rest ∧
      w.retry.timers = if w.connect_ then w.timers ++ [w.retryDelayMs_] else w.timers := by
  have hclose := sockets_close hsockets rfl
  unfold World.retry
  dsimp only
  by_cases hc : w.connect_ = true
  · have hc' : (w.close w.sockfd_).connect_ = true := hc
    rw [if_pos hc', if_pos hc]
    exact ⟨rfl, hclose, rfl⟩
  · have hc' : ¬(w.close w.sockfd_).connect_ = true := hc
    rw [if_neg hc', if_neg hc]
    exact ⟨rfl, hclose, rfl⟩

/-- An attempt that fails leaves at most the retry. -/
theorem retry_inv (htimers : w.timers = []) {rest : List Socket}
    (hsockets : w.sockets = ⟨w.sockfd_, 0, 0, false⟩ :: rest) (hset : Settled rest) :
    AttemptInv w.retry := by
  obtain ⟨hstate, hafter, hpending⟩ := retry_spec hsockets
  refine ⟨fun hc => (by cases hstate.symm.trans hc), fun _ => ⟨?_, ?_⟩⟩
  · rw [hpending, htimers]
    split
    · exact le_rfl
    · exact Nat.zero_le 1
  · rw [hafter]
    exact settled_cons hset rfl

/-- What `connect` does. -/
inductive Launched (w : World) : Answer → World → Prop
  /-- There is no socket. -/
  | refused (w' : World) (hstate : w'.state_ = w.state_) (htimers : w'.timers = w.timers)
      (hfd : w'.sockfd_ = -1) (hsockets : w'.sockets = w.sockets) : Launched w .noSocket w'
  /-- It gives up and closes the socket. -/
  | failed (fd : ℤ) (w' : World) (hstate : w'.state_ = w.state_) (htimers : w'.timers = w.timers)
      (hfd : w'.sockfd_ = fd) (hsockets : w'.sockets = ⟨fd, 1, 0, false⟩ :: w.sockets) :
      Launched w (.socket fd .other) w'
  /-- The attempt is in progress. -/
  | started (fd : ℤ) (errno : Errno) (w' : World) (herrno : errno ≠ .other)
      (hstate : w'.state_ = .kConnecting) (htimers : w'.timers = w.timers) (hfd : w'.sockfd_ = fd)
      (hsockets : w'.sockets = ⟨fd, 0, 0, false⟩ :: w.sockets) : Launched w (.socket fd errno) w'
  /-- It closes the socket and schedules the next attempt while connecting is wanted. -/
  | retried (fd : ℤ) (errno : Errno) (w' : World) (herrno : errno ≠ .other)
      (hstate : w'.state_ = .kDisconnected)
      (htimers : w'.timers = if w.connect_ then w.timers ++ [w.retryDelayMs_] else w.timers)
      (hfd : w'.sockfd_ = fd) (hsockets : w'.sockets = ⟨fd, 1, 0, false⟩ :: w.sockets) :
      Launched w (.socket fd errno) w'

/-- Every `connect` is one of these. -/
theorem connect_launched (w : World) (a : Answer) (h : ℕ) : Launched w a (w.connect a h) := by
  cases a with
  | noSocket => exact .refused _ rfl rfl rfl rfl
  | socket fd errno =>
    have hretried : ∀ errno : Errno, errno ≠ .other → Launched w (.socket fd errno) (World.retry { w with
        sockfd_ := fd, sockets := ⟨fd, 0, 0, false⟩ :: w.sockets }) := by
      intro errno herrno
      obtain ⟨hstate, hsockets, htimers⟩ := retry_spec (w := { w with
        sockfd_ := fd, sockets := ⟨fd, 0, 0, false⟩ :: w.sockets }) rfl
      refine .retried fd errno _ herrno hstate htimers ?_ hsockets
      unfold World.retry
      dsimp only
      split <;> rfl
    have hclose : (World.close { w with
        sockfd_ := fd, sockets := ⟨fd, 0, 0, false⟩ :: w.sockets } fd).sockets =
          ⟨fd, 1, 0, false⟩ :: w.sockets :=
      sockets_close (s := ⟨fd, 0, 0, false⟩) rfl rfl
    cases errno with
    | zero => exact .started fd _ _ (by decide) rfl rfl rfl rfl
    | EINPROGRESS => exact .started fd _ _ (by decide) rfl rfl rfl rfl
    | EINTR => exact .started fd _ _ (by decide) rfl rfl rfl rfl
    | EISCONN => exact .started fd _ _ (by decide) rfl rfl rfl rfl
    | EAGAIN => exact hretried _ (by decide)
    | EADDRINUSE => exact hretried _ (by decide)
    | EADDRNOTAVAIL => exact hretried _ (by decide)
    | ECONNREFUSED => exact hretried _ (by decide)
    | ENETUNREACH => exact hretried _ (by decide)
    | other => exact .failed fd _ rfl rfl rfl hclose

/-- Any errno but `other` starts or schedules an attempt. -/
theorem fatal_socket {fd : ℤ} {errno : Errno} (herrno : errno ≠ .other) :
    (Answer.socket fd errno).fatal = false := by
  cases errno with
  | other => exact absurd rfl herrno
  | _ => rfl

/-- Launched alone, an attempt is the only one. -/
theorem launched_inv (hl : Launched w a w') (hidle : w.state_ ≠ .kConnecting)
    (hset : Settled w.sockets) (htimers : w.timers.length ≤ 1)
    (hone : w.timers = [] ∨ a.fatal = true)
    (hnonneg : ∀ fd errno, a = .socket fd errno → 0 ≤ fd) : AttemptInv w' := by
  cases hl with
  | refused _ hstate' htimers' _ hsockets' =>
    refine ⟨fun hc => absurd (hstate'.symm.trans hc) hidle, fun _ => ⟨?_, ?_⟩⟩
    · rw [htimers']
      exact htimers
    · rw [hsockets']
      exact hset
  | failed fd _ hstate' htimers' _ hsockets' =>
    refine ⟨fun hc => absurd (hstate'.symm.trans hc) hidle, fun _ => ⟨?_, ?_⟩⟩
    · rw [htimers']
      exact htimers
    · rw [hsockets']
      exact settled_cons hset rfl
  | started fd errno _ herrno hstate' htimers' hfd' hsockets' =>
    have hnone : w.timers = [] := hone.resolve_right fun hf => by
      cases hf.symm.trans (fatal_socket herrno)
    refine ⟨fun _ => ⟨htimers'.trans hnone, ?_, w.sockets, ?_, hset⟩,
      fun hc => absurd hstate' hc⟩
    · rw [hfd']
      exact hnonneg fd errno rfl
    · rw [hfd']
      exact hsockets'
  | retried fd errno _ herrno hstate' htimers' _ hsockets' =>
    have hnone : w.timers = [] := hone.resolve_right fun hf => by
      cases hf.symm.trans (fatal_socket herrno)
    refine ⟨fun hc => (by cases hstate'.symm.trans hc), fun _ => ⟨?_, ?_⟩⟩
    · rw [htimers', hnone]
      split
      · exact le_rfl
      · exact Nat.zero_le 1
    · rw [hsockets']
      exact settled_cons hset rfl

/-- Launched beside an attempt in progress, an attempt loses the socket of the other. -/
theorem launched_leaves (hl : Launched w a w')
    (hadmits : ∀ fd errno, a = .socket fd errno → ∀ s ∈ w.sockets, s.isOpen = true → s.fd ≠ fd)
    {s : Socket} (hs : s ∈ w.sockets) (hpending : s.pending = true) (hopen : s.isOpen = true)
    (hnonneg : 0 ≤ s.fd) : ¬OneAttempt w' := by
  intro hone
  cases hl with
  | refused _ _ _ hfd' hsockets' =>
    have hfd := (hone.pending s (hsockets' ▸ hs) hpending).1
    rw [hfd, hfd'] at hnonneg
    exact absurd hnonneg (by decide)
  | failed fd _ _ _ hfd' hsockets' =>
    have hfd := (hone.pending s (hsockets' ▸ List.mem_cons_of_mem _ hs) hpending).1
    exact hadmits fd _ rfl s hs hopen (hfd.trans hfd')
  | started fd errno _ _ _ _ hfd' hsockets' =>
    have hfd := (hone.pending s (hsockets' ▸ List.mem_cons_of_mem _ hs) hpending).1
    exact hadmits fd _ rfl s hs hopen (hfd.trans hfd')
  | retried fd errno _ _ _ _ hfd' hsockets' =>
    have hfd := (hone.pending s (hsockets' ▸ List.mem_cons_of_mem _ hs) hpending).1
    exact hadmits fd _ rfl s hs hopen (hfd.trans hfd')

/-- Launched beside a pending timer, an attempt that does not give up is a second one. -/
theorem launched_beside (hl : Launched w a w') (htimers : w.timers ≠ [])
    (hfatal : a.fatal = false) (hconnect : w.connect_ = true) : ¬OneAttempt w' := by
  intro hone
  have hsingle := hone.single
  have hpos : 0 < w.timers.length := List.length_pos_iff.mpr htimers
  cases hl with
  | refused => cases hfatal
  | failed => cases hfatal
  | started fd errno _ _ _ htimers' _ hsockets' =>
    rw [hsockets', htimers', List.filter_cons_of_pos rfl, List.length_cons] at hsingle
    omega
  | retried fd errno _ _ _ htimers' _ hsockets' =>
    rw [htimers', if_pos hconnect, List.length_append, List.length_singleton] at hsingle
    omega

/-- Taking the attempt in progress off the poller leaves the sockets alone. -/
theorem settle_retry (hinv : AttemptInv w) (hstate : w.state_ = .kConnecting) :
    AttemptInv w.removeAndResetChannel.retry := by
  obtain ⟨htimers, _, rest, hsockets, hset⟩ := hinv.connecting hstate
  exact retry_inv (w := w.removeAndResetChannel) htimers hsockets hset

/-- Closing or handing over the socket of an attempt ends it. -/
theorem settle_newest (hinv : AttemptInv w) (hstate : w.state_ = .kConnecting) (w' : World)
    (hidle : w'.state_ ≠ .kConnecting) (htimers : w'.timers = w.timers) (change : Socket → Socket)
    (hone : ∀ fd, (change ⟨fd, 0, 0, false⟩).closes + (change ⟨fd, 0, 0, false⟩).hands = 1)
    (hsockets : w'.sockets = newest w.sockfd_ change w.sockets) : AttemptInv w' := by
  obtain ⟨hnone, _, rest, hnewest, hset⟩ := hinv.connecting hstate
  have hafter : w'.sockets = change ⟨w.sockfd_, 0, 0, false⟩ :: rest := by
    rw [hsockets, hnewest]
    exact if_pos rfl
  refine ⟨fun hc => absurd hc hidle, fun _ => ⟨?_, ?_⟩⟩
  · rw [htimers, hnone]
    exact Nat.zero_le 1
  · rw [hafter]
    exact settled_cons hset (hone w.sockfd_)

/-- The end of an attempt settles its socket. -/
theorem handleWrite_inv (hinv : AttemptInv w) (err : Bool) : AttemptInv (w.handleWrite err) := by
  unfold World.handleWrite
  by_cases hstate : w.state_ = .kConnecting
  · rw [if_pos hstate]
    dsimp only
    cases err with
    | true => exact settle_retry hinv hstate
    | false =>
      rw [if_neg Bool.false_ne_true]
      split
      · exact settle_newest hinv hstate _ (fun hs => by cases hs) rfl _ (fun _ => rfl) rfl
      · exact settle_newest hinv hstate _ (fun hs => by cases hs) rfl _ (fun _ => rfl) rfl
  · rw [if_neg hstate]
    exact hinv

/-- So does an error. -/
theorem handleError_inv (hinv : AttemptInv w) : AttemptInv w.handleError := by
  unfold World.handleError
  by_cases hstate : w.state_ = .kConnecting
  · rw [if_pos hstate]
    exact settle_retry hinv hstate
  · rw [if_neg hstate]
    exact hinv

/-- And so does `stopInLoop`. -/
theorem stopInLoop_inv (hinv : AttemptInv w) : AttemptInv w.stopInLoop := by
  unfold World.stopInLoop
  by_cases hstate : w.state_ = .kConnecting
  · rw [if_pos hstate]
    exact settle_newest hinv hstate _ (fun hs => by cases hs) rfl _ (fun _ => rfl) rfl
  · rw [if_neg hstate]
    exact hinv

/-- What the new owner of a socket does is no concern of the connector. -/
theorem release_inv (hinv : AttemptInv w) (fd : ℤ) :
    AttemptInv { w with sockets := w.sockets.map fun s =>
      if s.fd = fd ∧ s.hands = 1 then { s with released := true } else s } := by
  have hsettled : ∀ {sockets : List Socket}, Settled sockets → Settled (sockets.map fun s =>
      if s.fd = fd ∧ s.hands = 1 then { s with released := true } else s) := by
    intro sockets hset s hs
    obtain ⟨s₀, hs₀, rfl⟩ := List.mem_map.mp hs
    have hone := hset s₀ hs₀
    split <;> exact hone
  refine ⟨fun hc => ?_, fun hc => ?_⟩
  · obtain ⟨htimers, hnonneg, rest, hsockets, hset⟩ := hinv.connecting hc
    refine ⟨htimers, hnonneg, _, ?_, hsettled hset⟩
    dsimp only
    rw [hsockets, List.map_cons, if_neg fun hhand => by cases hhand.2]
  · obtain ⟨htimers, hset⟩ := hinv.idle hc
    exact ⟨htimers, hsettled hset⟩

/-- A step that does not run `connect` keeps the invariant. -/
theorem step_without_launch (hinv : AttemptInv w) {e : Event} (he : Unlaunched w e w') :
    AttemptInv w' := by
  cases he with
  | kept _ _ hkept => exact attemptInv_of_kept hinv hkept
  | handleWrite err => exact handleWrite_inv hinv err
  | handleError => exact handleError_inv hinv
  | stopInLoop _ _ batch => exact stopInLoop_inv (attemptInv_of_kept hinv (kept_batch w batch))
  | resetChannel _ _ batch => exact ⟨hinv.connecting, hinv.idle⟩
  | release fd => exact release_inv hinv fd
  | poll call => exact ⟨hinv.connecting, hinv.idle⟩

/-- A step that launches no attempt beside another keeps the invariant. -/
theorem step_attempts (hinv : AttemptInv w) {e : Event} (hsingle : Single w e)
    (he : step w e = some w') : AttemptInv w' := by
  cases hlaunch : launch w e with
  | none => exact step_without_launch hinv (unlaunched_step he hlaunch)
  | some found =>
    obtain ⟨timers, a⟩ := found
    obtain ⟨w₁, h, hadmits, rfl, hprep⟩ := launch_step he hlaunch
    obtain ⟨hidle, hone⟩ := hsingle timers a hlaunch
    obtain ⟨htimers, hset⟩ := hinv.idle hidle
    refine launched_inv (connect_launched w₁ a h) (hprep.idle hidle) ?_ ?_ ?_
      fun fd errno ha => (hadmits.1 fd errno ha).1
    · rw [hprep.sockets]
      exact hset
    · rw [hprep.timers]
      exact hprep.fewer.trans htimers
    · rw [hprep.timers]
      exact hone

/-- A step that launches an attempt beside another leaves two, or loses a socket. -/
theorem step_beside (hinv : AttemptInv w) {e : Event} (hbeside : ¬Single w e)
    (he : step w e = some w') : ¬OneAttempt w' := by
  unfold Single at hbeside
  push Not at hbeside
  obtain ⟨timers, a, hlaunch, hbeside⟩ := hbeside
  obtain ⟨w₁, h, hadmits, rfl, hprep⟩ := launch_step he hlaunch
  have hl := connect_launched w₁ a h
  by_cases hc : w.state_ = .kConnecting
  · obtain ⟨_, hnonneg, rest, hnewest, _⟩ := hinv.connecting hc
    have hmem : (⟨w.sockfd_, 0, 0, false⟩ : Socket) ∈ w₁.sockets := by
      rw [hprep.sockets, hnewest]
      exact List.mem_cons_self
    refine launched_leaves hl (fun fd errno ha s hs => ?_) hmem rfl rfl hnonneg
    exact (hadmits.1 fd errno ha).2 s (hprep.sockets ▸ hs)
  · obtain ⟨htimers, hfatal⟩ := hbeside hc
    refine launched_beside hl ?_ (Bool.eq_false_of_not_eq_true hfatal) hprep.connect_
    rw [hprep.timers]
    exact htimers

/-- Throughout a run at most one attempt is in progress or scheduled and every socket
is accounted for exactly if every `startInLoop` that connects finds no attempt in
progress, and no retry timer pending unless it gives up at once. -/
theorem one_attempt_iff (sockfd : ℤ) (events : List Event) :
    Along step (fun _ _ w' => OneAttempt w') (World.fresh sockfd) events ↔
      Along step (fun w e _ => Single w e) (World.fresh sockfd) events := by
  refine along_iff_along AttemptInv ?_ ?_ ?_ events
  · intro w e w' hinv he
    constructor
    · intro hone
      by_contra hbeside
      exact step_beside hinv hbeside he hone
    · exact fun hsingle => oneAttempt_of_inv (step_attempts hinv hsingle he)
  · exact fun w e w' hinv hsingle he => step_attempts hinv hsingle he
  · exact ⟨fun hc => (by cases hc), fun _ => ⟨Nat.zero_le 1, fun s hs => absurd hs List.not_mem_nil⟩⟩

/-- `start` is called again while the first attempt is in progress. -/
def startedTwice : List Event :=
  [.start true (.socket 5 .EINPROGRESS) 0, .start true (.socket 6 .EINPROGRESS) 1]

/-- `stop` and `start` are called while a retry timer is pending. -/
def stoppedAndStarted : List Event :=
  [.start true (.socket 5 .ECONNREFUSED) 0, .stop, .start true (.socket 5 .ECONNREFUSED) 0]

/-- Each start leaves a second attempt: the first socket is lost, or there are two timers. -/
theorem two_attempts :
    (∃ w, run step (World.fresh 0) startedTwice = some w ∧
      w.sockets = [⟨6, 0, 0, false⟩, ⟨5, 0, 0, false⟩] ∧ ¬OneAttempt w) ∧
    ∃ w, run step (World.fresh 0) stoppedAndStarted = some w ∧ w.timers = [500, 1000] ∧
      ¬OneAttempt w := by
  refine ⟨⟨_, rfl, rfl, fun h => ?_⟩, ⟨_, rfl, rfl, fun h => ?_⟩⟩
  · exact absurd h.single (by decide)
  · exact absurd h.single (by decide)

end KKNet.ClientConnector
