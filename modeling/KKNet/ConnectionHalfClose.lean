import KKNet.Connection
import KKNet.Runs

/-!
# Closing the write side of a connection

`shutdown` closes the write side of the socket at once when nothing is pending,
and otherwise leaves it to the `handleWrite` that takes the last byte. Either
way nothing is left unsent. But sends are refused only by `kDisconnected`, so a
`sendInLoop` that runs after the write side was closed, also one that another
thread issued before `shutdown`, writes to the socket again.
-/

namespace KKNet.ConnectionHalfClose

open BlockBuffer Connections Runs Results

/-- A call on the socket of the connection. -/
inductive SocketCall
  /-- `socket::write`. -/
  | write
  /-- `socket::shutdownWrite`, with the number of bytes still in `outputBuffer_`. -/
  | shutdownWrite (unsent : ℕ)
  deriving DecidableEq

/-- The call closes the write side. -/
def SocketCall.shuts : SocketCall → Bool
  | .write => false
  | .shutdownWrite _ => true

/-- A connection with the tasks bound to it and its calls on the socket. -/
structure Link where
  /-- The connection. -/
  conn : Connection
  /-- The tasks queued on its loop. -/
  tasks_ : List Task
  /-- The calls on its socket. -/
  trace : List SocketCall

/-- A connection that was just constructed, after `completeConnect`. -/
def Link.completed (writing : Bool) (set : Callbacks) : Link :=
  ⟨(Connection.construct writing set).completeConnect.1, [], []⟩

/-- `sendInLoop` reaches `socket::write`. -/
def sendWrites (c : Connection) : Bool :=
  c.state_ ≠ .kDisconnected ∧ c.writing_ = false ∧ c.outputBuffer_.getReadableSize = 0

/-- The tasks a member function queues. -/
def queued (effects : List Effect) : List Task :=
  effects.filterMap fun
    | .queueInLoop task => some task
    | .runInLoop task => some task
    | _ => none

/-- The calls of `shutdownWrite` among the effects. -/
def shutdowns (c : Connection) (effects : List Effect) : List SocketCall :=
  effects.filterMap fun
    | .shutdownWrite => some (.shutdownWrite c.outputBuffer_.getReadableSize)
    | _ => none

namespace Link

/-- A member function that returned, after calling `socket::write` or not. -/
def returned (l : Link) (writes : Bool) (out : Connection × List Effect) : Link where
  conn := out.1
  tasks_ := l.tasks_ ++ queued out.2
  trace := l.trace ++ ((if writes then [.write] else []) ++ shutdowns out.1 out.2)

/-- A task runs; `res` is what the socket answers to a `sendInLoop`. -/
def execute (l : Link) (res : WriteResult) : Task → Option Link
  | .sendInLoop data => (l.conn.sendInLoop data res).toOption.map (l.returned (sendWrites l.conn))
  | .shutdownInLoop => some (l.returned false l.conn.shutdownInLoop)
  | .handleClose => some (l.returned false l.conn.handleClose)
  | .connectDestroyed => some (l.returned false l.conn.connectDestroyed)
  | .writeComplete => some l

/-- A call of `send` or `shutdown`: on the loop's own thread the bound function
runs at once. -/
def call (l : Link) (inLoop : Bool) (res : WriteResult) (out : Connection × List Effect) :
    Option Link :=
  match inLoop, out.2 with
  | true, [.runInLoop task] => { l with conn := out.1 }.execute res task
  | _, _ => some (l.returned false out)

end Link

/-- A step of the connection. -/
inductive Event
  /-- `send(data)`. -/
  | send (inLoop : Bool) (data : List UInt8) (res : WriteResult)
  /-- `shutdown()`. -/
  | shutdown (inLoop : Bool) (res : WriteResult)
  /-- `forceClose()`. -/
  | forceClose
  /-- The next queued task runs. -/
  | runTask (res : WriteResult)
  /-- A write event; `beyond` is the memory behind the scratch array. -/
  | writable (beyond : List UInt8) (res : WriteResult)
  /-- A read event. -/
  | readable (res : ReadResult)

/-- One step; there is none where no task is queued or the code faults. -/
def step (l : Link) : Event → Option Link
  | .send inLoop data res => l.call inLoop res (l.conn.send data)
  | .shutdown inLoop res => l.call inLoop res l.conn.shutdown
  | .forceClose => some (l.returned false l.conn.forceClose)
  | .runTask res =>
    match l.tasks_ with
    | [] => none
    | task :: tasks => { l with tasks_ := tasks }.execute res task
  | .writable beyond res =>
    (l.conn.handleWrite beyond res).toOption.map (l.returned l.conn.writing_)
  | .readable res => (l.conn.handleRead res).toOption.map (l.returned false)

/-- The write side is closed with nothing unsent, and not written to afterwards. -/
structure Graceful (trace : List SocketCall) : Prop where
  /-- `shutdownWrite` finds the send buffer empty. -/
  drained : ∀ k, .shutdownWrite k ∈ trace → k = 0
  /-- No write comes after a `shutdownWrite`. -/
  final : trace.Pairwise fun first later => first.shuts = true → later ≠ .write

/-- The step runs a `sendInLoop`. -/
def RunsSend (l : Link) : Event → Prop
  | .send inLoop _ _ => inLoop = true
  | .runTask _ => ∃ data, l.tasks_.head? = some (.sendInLoop data)
  | _ => False

/-- The write side was closed. -/
def Shut (l : Link) : Prop := ∃ call ∈ l.trace, call.shuts = true

/-- A `sendInLoop` runs before the write side is closed, or finds the connection
disconnected. -/
def Timely (l : Link) (e : Event) : Prop :=
  RunsSend l e → Shut l → l.conn.state_ = .kDisconnected

/-- Pending bytes wait for a write event. -/
def Settled (c : Connection) : Prop := 0 < c.outputBuffer_.getReadableSize → c.writing_ = true

/-- Nothing is pending, and no write event is wanted. -/
def Idle (c : Connection) : Prop := c.writing_ = false ∧ c.outputBuffer_.getReadableSize = 0

/-- What holds while every send is timely. -/
structure Inv (l : Link) : Prop where
  /-- The calls so far are in order. -/
  graceful : Graceful l.trace
  /-- Pending bytes wait for a write event. -/
  settled : Settled l.conn
  /-- Once the write side is closed the connection is idle. -/
  idle : Shut l → Idle l.conn

variable {l l' : Link} {c : Connection} {out : Connection × List Effect}

/-- The connection is idle when its write side is closed. -/
theorem idle_of_settled (h : Settled c) (hw : c.writing_ = false) : Idle c := by
  refine ⟨hw, ?_⟩
  by_contra hne
  have hset := h (Nat.pos_of_ne_zero hne)
  rw [hw] at hset
  cases hset

/-- A member function keeps the invariant if it does not write after the write side
was closed, and closes it only when idle. -/
theorem inv_returned (h : Inv l) {writes : Bool} (hwrites : writes = true → ¬Shut l)
    (hsettled : Settled out.1) (hidle : Shut l → Idle out.1)
    (hshut : .shutdownWrite ∈ out.2 → Idle out.1) : Inv (l.returned writes out) := by
  have hcalls : ∀ call ∈ shutdowns out.1 out.2, call = .shutdownWrite 0 ∧ Idle out.1 := by
    intro call hcall
    obtain ⟨e, he, heq⟩ := List.mem_filterMap.mp hcall
    cases e with
    | shutdownWrite =>
      cases heq
      exact ⟨congrArg SocketCall.shutdownWrite (hshut he).2, hshut he⟩
    | _ => cases heq
  have hnew : ∀ call ∈ (if writes then [SocketCall.write] else []) ++ shutdowns out.1 out.2,
      call = .write ∧ ¬Shut l ∨ call = .shutdownWrite 0 ∧ Idle out.1 := by
    intro call hcall
    rcases List.mem_append.mp hcall with hcall | hcall
    · by_cases hw : writes = true
      · rw [if_pos hw] at hcall
        exact Or.inl ⟨List.mem_singleton.mp hcall, hwrites hw⟩
      · rw [if_neg hw] at hcall
        exact absurd hcall List.not_mem_nil
    · exact Or.inr (hcalls call hcall)
  refine ⟨⟨fun k hk => ?_, ?_⟩, hsettled, ?_⟩
  · rcases List.mem_append.mp hk with hk | hk
    · exact h.graceful.drained k hk
    · rcases hnew _ hk with ⟨hwrite, _⟩ | ⟨hzero, _⟩
      · cases hwrite
      · cases hzero
        rfl
  · refine List.pairwise_append.mpr ⟨h.graceful.final, ?_, ?_⟩
    · refine List.pairwise_append.mpr ⟨?_, ?_, ?_⟩
      · split
        · exact List.pairwise_singleton _ _
        · exact List.Pairwise.nil
      · exact List.pairwise_of_forall_mem_list fun a _ b hb _ => by
          rw [(hcalls b hb).1]
          exact fun hno => by cases hno
      · intro a ha b hb hshuts
        rw [(hcalls b hb).1]
        exact fun hno => by cases hno
    · intro a ha b hb hshuts
      rcases hnew b hb with ⟨_, hno⟩ | ⟨hzero, _⟩
      · exact absurd ⟨a, ha, hshuts⟩ hno
      · rw [hzero]
        exact fun hno => by cases hno
  · rintro ⟨call, hcall, hshuts⟩
    rcases List.mem_append.mp hcall with hcall | hcall
    · exact hidle ⟨call, hcall, hshuts⟩
    · rcases hnew call hcall with ⟨hwrite, _⟩ | ⟨_, hout⟩
      · rw [hwrite] at hshuts
        cases hshuts
      · exact hout

/-- The output side of the connection is left alone. -/
structure SameOutput (c c' : Connection) : Prop where
  writing : c'.writing_ = c.writing_
  buffer : c'.outputBuffer_ = c.outputBuffer_

/-- A member function that leaves the output side and the socket alone. -/
theorem inv_frame (h : Inv l) (hsame : SameOutput l.conn out.1) (hno : .shutdownWrite ∉ out.2) :
    Inv (l.returned false out) := by
  refine inv_returned h (fun hw => by cases hw) ?_ ?_ fun hmem => absurd hmem hno
  · unfold Settled
    rw [hsame.writing, hsame.buffer]
    exact h.settled
  · unfold Idle
    rw [hsame.writing, hsame.buffer]
    exact h.idle

/-- `sendInLoop` keeps pending bytes watched and does not close the write side; if
it does not reach `socket::write` it does nothing. -/
theorem sendInLoop_spec {data : List UInt8} {res : WriteResult} (hset : Settled c)
    (h : c.sendInLoop data res = .ok out) :
    Settled out.1 ∧ .shutdownWrite ∉ out.2 ∧ (sendWrites c = false → out = (c, [])) := by
  obtain rfl | ⟨hs, hidle, rest, done, hrest, hdone⟩ := Connection.sendInLoop_cases h
  · exact ⟨hset, List.not_mem_nil, fun _ => rfl⟩
  have hwrites : sendWrites c = true := decide_eq_true ⟨hs, hidle⟩
  have hnever : sendWrites c = false → out = (c, []) := by
    rw [hwrites]
    exact fun hf => by cases hf
  have hno : .shutdownWrite ∉ done := by
    intro hmem
    obtain ⟨bytes, heq⟩ | heq := hdone _ hmem <;> cases heq
  obtain rfl | ⟨s, rfl⟩ := Connection.bufferRest_cases hrest
  · exact ⟨hset, hno, hnever⟩
  · refine ⟨fun _ => rfl, ?_, hnever⟩
    rw [List.mem_append, not_or]
    exact ⟨hno, fun hmem => by cases List.mem_singleton.mp hmem⟩

/-- `handleWrite` keeps pending bytes watched, and closes the write side when it has
taken them all; without the flag it does nothing. -/
theorem handleWrite_spec {beyond : List UInt8} {res : WriteResult} (hset : Settled c)
    (h : c.handleWrite beyond res = .ok out) :
    Settled out.1 ∧ (.shutdownWrite ∈ out.2 → Idle out.1) ∧ (c.writing_ = false → out = (c, [])) := by
  obtain rfl | ⟨hw, hout⟩ := Connection.handleWrite_cases h
  · exact ⟨hset, fun hmem => absurd hmem List.not_mem_nil, fun _ => rfl⟩
  have hnever : c.writing_ = false → out = (c, []) := by
    rw [hw]
    exact fun hf => by cases hf
  obtain ⟨s, bytes, ⟨hempty, rfl⟩ | ⟨hpending, rfl⟩⟩ := hout
  · have hidle : Idle (Connection.finishWrite { c with outputBuffer_ := s }).1 := ⟨rfl, hempty⟩
    refine ⟨fun hpos => ?_, fun _ => hidle, hnever⟩
    exact absurd (show 0 < s.getReadableSize from hpos) (by omega)
  · refine ⟨fun _ => hw, fun hmem => ?_, hnever⟩
    cases List.mem_singleton.mp hmem

/-- `handleClose` leaves the output side and the socket alone. -/
theorem handleClose_frame (c : Connection) :
    SameOutput c c.handleClose.1 ∧ .shutdownWrite ∉ c.handleClose.2 := by
  unfold Connection.handleClose
  constructor
  · split <;> exact ⟨rfl, rfl⟩
  · rw [List.mem_cons, not_or]
    refine ⟨fun heq => (by cases heq), ?_⟩
    split
    · exact fun hmem => by cases List.mem_singleton.mp hmem
    · exact List.not_mem_nil

/-- A read leaves the output side and the socket alone. -/
theorem afterRead_frame (c : Connection) (n : ℤ) (errno : Errno) :
    SameOutput c (c.afterRead n errno).1 ∧ .shutdownWrite ∉ (c.afterRead n errno).2 := by
  obtain hread | ⟨_, hread⟩ | hread := c.afterRead_cases n errno
  · rw [hread]
    exact ⟨⟨rfl, rfl⟩, fun hmem => by cases List.mem_singleton.mp (List.mem_ite_nil_right.mp hmem).2⟩
  · rw [hread]
    exact handleClose_frame c
  · rw [hread]
    exact ⟨⟨rfl, rfl⟩, List.not_mem_nil⟩

/-- The invariant is about the calls and the output side. -/
theorem inv_of_same (h : Inv l) (htrace : l'.trace = l.trace) (hsame : SameOutput l.conn l'.conn) :
    Inv l' := by
  have hshut : Shut l' → Shut l := by
    unfold Shut
    rw [htrace]
    exact id
  refine ⟨htrace.symm ▸ h.graceful, ?_, fun hs => ?_⟩
  · unfold Settled
    rw [hsame.writing, hsame.buffer]
    exact h.settled
  · unfold Idle
    rw [hsame.writing, hsame.buffer]
    exact h.idle (hshut hs)

/-- A task keeps the invariant, if a send does not come late. -/
theorem execute_inv (h : Inv l) {res : WriteResult} {task : Task}
    (htimely : ∀ data, task = .sendInLoop data → Shut l → l.conn.state_ = .kDisconnected)
    (he : l.execute res task = some l') : Inv l' := by
  cases task with
  | sendInLoop data =>
    obtain ⟨out, hout, hl⟩ := ok_of_toOption_map he
    obtain ⟨hset, hno, _⟩ := sendInLoop_spec h.settled hout
    have hnot : sendWrites l.conn = true → ¬Shut l := by
      intro hwrites hshut
      exact (of_decide_eq_true hwrites).1 (htimely data rfl hshut)
    subst hl
    refine inv_returned h hnot hset (fun hshut => ?_) fun hmem => absurd hmem hno
    have hquiet : sendWrites l.conn = false := by
      cases hw : sendWrites l.conn with
      | false => rfl
      | true => exact absurd hshut (hnot hw)
    rw [(sendInLoop_spec h.settled hout).2.2 hquiet]
    exact h.idle hshut
  | shutdownInLoop =>
    cases he
    refine inv_returned h (fun hf => by cases hf) h.settled h.idle fun hmem => ?_
    unfold Connection.shutdownInLoop at hmem
    by_cases hw : l.conn.isWriting = true
    · rw [if_pos hw] at hmem
      exact absurd hmem List.not_mem_nil
    · exact idle_of_settled h.settled (Bool.eq_false_iff.mpr hw)
  | handleClose =>
    cases he
    obtain ⟨hsame, hno⟩ := handleClose_frame l.conn
    exact inv_frame h hsame hno
  | connectDestroyed =>
    cases he
    exact inv_frame h ⟨rfl, rfl⟩ fun hmem => by cases List.mem_singleton.mp hmem
  | writeComplete =>
    cases he
    exact h

/-- A `sendInLoop` that runs on a connection not disconnected after the write side
was closed writes to the socket. -/
theorem execute_late (h : Inv l) (hshut : Shut l) (hs : l.conn.state_ ≠ .kDisconnected)
    {res : WriteResult} {data : List UInt8} (he : l.execute res (.sendInLoop data) = some l') :
    ¬Graceful l'.trace := by
  obtain ⟨out, _, hl⟩ := ok_of_toOption_map he
  obtain ⟨call, hcall, hshuts⟩ := hshut
  have hwrites : sendWrites l.conn = true := decide_eq_true ⟨hs, h.idle ⟨call, hcall, hshuts⟩⟩
  intro hgraceful
  have hlater := (List.pairwise_append.mp (hl ▸ hgraceful.final)).2.2 call hcall .write
  rw [hwrites] at hlater
  exact hlater (List.mem_append_left _ (List.mem_singleton.mpr rfl)) hshuts rfl

/-- A function that a call queues leaves the output side and the socket alone. -/
theorem queue_inv (h : Inv l) (hsame : SameOutput l.conn c) (task : Task) :
    Inv (l.returned false (c, [.runInLoop task])) :=
  inv_frame h hsame fun hmem => by cases List.mem_singleton.mp hmem

/-- A step in which no send comes late keeps the invariant. -/
theorem step_inv (h : Inv l) {e : Event} (ht : Timely l e) (he : step l e = some l') : Inv l' := by
  cases e with
  | send inLoop data res =>
    cases inLoop with
    | true =>
      have hrun : ({ l with conn := l.conn } : Link).execute res (.sendInLoop data) = some l' := he
      exact execute_inv h (fun _ _ hshut => ht rfl hshut) hrun
    | false =>
      cases he
      exact queue_inv h ⟨rfl, rfl⟩ (.sendInLoop data)
  | shutdown inLoop res =>
    unfold step at he
    dsimp only at he
    unfold Connection.shutdown at he
    by_cases hs : l.conn.state_ = .kConnected
    · rw [if_pos hs] at he
      cases inLoop with
      | true =>
        have hinv : Inv { l with conn := { l.conn with state_ := .kDisconnecting } } :=
          inv_of_same h rfl ⟨rfl, rfl⟩
        have hrun : ({ l with conn := { l.conn with state_ := .kDisconnecting } } : Link).execute
            res .shutdownInLoop = some l' := he
        exact execute_inv hinv (fun data hdata => by cases hdata) hrun
      | false =>
        cases he
        exact queue_inv (c := { l.conn with state_ := .kDisconnecting }) h ⟨rfl, rfl⟩
          .shutdownInLoop
    · rw [if_neg hs] at he
      cases inLoop with
      | true =>
        cases he
        exact inv_frame h ⟨rfl, rfl⟩ List.not_mem_nil
      | false =>
        cases he
        exact inv_frame h ⟨rfl, rfl⟩ List.not_mem_nil
  | forceClose =>
    cases he
    unfold Connection.forceClose
    split
    · exact inv_frame h ⟨rfl, rfl⟩ fun hmem => by cases List.mem_singleton.mp hmem
    · exact inv_frame h ⟨rfl, rfl⟩ List.not_mem_nil
  | runTask res =>
    unfold step at he
    unfold Timely RunsSend at ht
    cases htasks : l.tasks_ with
    | nil =>
      rw [htasks] at he
      cases he
    | cons task tasks =>
      rw [htasks] at he ht
      have hrest : Inv { l with tasks_ := tasks } := inv_of_same h rfl ⟨rfl, rfl⟩
      refine execute_inv hrest (fun data hdata hshut => ?_) he
      exact ht ⟨data, congrArg some hdata⟩ hshut
  | writable beyond res =>
    obtain ⟨out, hout, hl⟩ := ok_of_toOption_map he
    obtain ⟨hset, hidle, hquiet⟩ := handleWrite_spec h.settled hout
    subst hl
    refine inv_returned h (fun hw hshut => ?_) hset (fun hshut => ?_) hidle
    · rw [(h.idle hshut).1] at hw
      cases hw
    · rw [hquiet (h.idle hshut).1]
      exact h.idle hshut
  | readable res =>
    obtain ⟨out, hout, hl⟩ := ok_of_toOption_map he
    obtain ⟨s, n, errno, hread⟩ := Connection.handleRead_eq hout
    obtain ⟨hsame, hno⟩ := afterRead_frame { l.conn with inputBuffer_ := s } n errno
    subst hl hread
    exact inv_frame h ⟨hsame.writing, hsame.buffer⟩ hno

/-- A step in which a send comes late writes after the write side was closed. -/
theorem step_late (h : Inv l) {e : Event} (hlate : ¬Timely l e) (he : step l e = some l') :
    ¬Graceful l'.trace := by
  unfold Timely at hlate
  rw [Classical.not_imp, Classical.not_imp] at hlate
  obtain ⟨hruns, hshut, hs⟩ := hlate
  cases e with
  | send inLoop data res =>
    cases hruns
    exact execute_late (l := { l with conn := (l.conn.send data).1 }) h hshut hs he
  | runTask res =>
    obtain ⟨data, hdata⟩ := hruns
    unfold step at he
    cases htasks : l.tasks_ with
    | nil =>
      rw [htasks] at hdata
      cases hdata
    | cons task tasks =>
      rw [htasks] at he hdata
      cases hdata
      exact execute_late (l := { l with tasks_ := tasks })
        (inv_of_same h rfl ⟨rfl, rfl⟩) hshut hs he
  | shutdown inLoop res => exact absurd hruns id
  | forceClose => exact absurd hruns id
  | writable beyond res => exact absurd hruns id
  | readable res => exact absurd hruns id

/-- Nothing was sent when `completeConnect` returns. -/
theorem inv_completed (writing : Bool) (set : Callbacks) : Inv (Link.completed writing set) := by
  refine ⟨⟨fun k hk => absurd hk List.not_mem_nil, List.Pairwise.nil⟩, fun hpos => ?_, ?_⟩
  · exact absurd hpos (lt_irrefl 0)
  · rintro ⟨call, hcall, _⟩
    exact absurd hcall List.not_mem_nil

/-- From `completeConnect` on the write side is closed with nothing unsent and not
written to afterwards exactly if every `sendInLoop` that runs on a connection not
disconnected runs before it is closed. -/
theorem half_close_graceful_iff (writing : Bool) (set : Callbacks) (events : List Event) :
    Along step (fun _ _ l' => Graceful l'.trace) (Link.completed writing set) events ↔
      Along step (fun l e _ => Timely l e) (Link.completed writing set) events := by
  refine along_iff_along Inv ?_ ?_ (inv_completed writing set) events
  · intro l e l' hinv he
    constructor
    · intro hgraceful
      by_contra hlate
      exact step_late hinv hlate he hgraceful
    · exact fun ht => (step_inv hinv ht he).graceful
  · exact fun l e l' hinv ht he => step_inv hinv ht he

/-- The calls on the socket in a run of a connection without user callbacks. -/
def calls (events : List Event) : Option (List SocketCall) :=
  (run step (Link.completed false ⟨false, false, false, true⟩) events).map Link.trace

/-- A send after `shutdown` writes, and so does a send that another thread issued
before `shutdown`. -/
theorem write_after_shutdown :
    calls [.shutdown true (.accepted 0), .send true [1] (.accepted 1)] =
        some [.shutdownWrite 0, .write] ∧
      calls [.send false [1] (.accepted 1), .shutdown true (.accepted 0), .runTask (.accepted 1)] =
        some [.shutdownWrite 0, .write] ∧
      ¬Graceful [.shutdownWrite 0, .write] := by
  refine ⟨by decide, by decide, fun h => ?_⟩
  exact absurd h.final (by decide)

end KKNet.ConnectionHalfClose
