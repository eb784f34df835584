import KKNet.Client
import KKNet.ConnectorAttempts

/-!
# Clients and their connections

The connector is connected from the moment it hands a socket over until it is
restarted, and `removeConnection` is what restarts it when the connection closes.
But the client sets no close callback on its connections, so nothing leads from
`handleClose` to `removeConnection`: the client goes on taking a closed
connection for its own.
-/

namespace KKNet.Client

open BlockBuffer PollSelects Connections Runs Results
open ClientConnector (Answer)
open ConnectionClose (Ends Mild)

/-- The connection of the client is open. -/
def World.Open (w : World) : Prop :=
  ∃ c k, w.connection_ = some c ∧ w.conns c = some k ∧ k.closed = false

/-- The step runs `handleClose` of the connection `c`. -/
def Closes (w : World) (c : ℕ) : Event → Prop
  | .conn c' (.handleRead res) _ _ => c' = c ∧ ∃ k, w.conns c = some k ∧ Ends k.conn res
  | .task i _ _ _ => w.tasks_[i]? = some (c, .handleClose)
  | _ => False

/-- The answer the kernel has for a `connect` in the step. -/
def Event.answer : Event → Answer
  | .connect _ a _ => a
  | .conn _ _ a _ => a
  | .task _ _ a _ => a
  | _ => .noSocket

/-- The client, the connector and the connection agree in a step. -/
structure Agrees (w : World) (e : Event) (w' : World) : Prop where
  /-- The client is connected only while its connection is open. -/
  connected : w'.isConnected = true → w'.Open
  /-- When its connection closes, the client drops it and has it destroyed. -/
  dropped : ∀ c, w.connection_ = some c → Closes w c e →
    w'.connection_ = none ∧ (c, .connectDestroyed) ∈ w'.tasks_
  /-- If it is to retry, it then connects the socket the kernel has for it. -/
  retried : ∀ c, w.connection_ = some c → Closes w c e → w.retry_ = true → w.connect_ = true →
    ∀ fd errno, e.answer = .socket fd errno → w'.connector_.sockfd_ = fd

/-- A write event ends the attempt in progress without an error. -/
def Establishes (w : World) : Event → Prop
  | .handleWrite err _ _ => err = false ∧ w.connector_.state_ = .kConnecting
  | _ => False

/-- The connection of the client is not closed; and an attempt is established while
connecting is wanted, or while the connection is open. -/
def Calm (w : World) (e : Event) : Prop :=
  (∀ c, w.connection_ = some c → ¬Closes w c e) ∧
    (Establishes w e → w.connector_.connect_ = true ∨ w.Open)

/-- What holds in every state of a calm run. -/
structure Inv (w : World) : Prop where
  /-- No connection has a close callback. -/
  unwired : ∀ c k, w.conns c = some k → k.conn.closeCallback_ = false
  /-- The connection of the client is open. -/
  connection : ∀ c, w.connection_ = some c → ∃ k, w.conns c = some k ∧ k.closed = false
  /-- A connected client has a connection. -/
  connected : w.connector_.state_ = .kConnected → w.connection_ ≠ none

/-- The effect neither closes the connection nor calls the client back. -/
def Tame (e : Effect) : Prop := e ≠ .deleteAllEvent ∧ e ≠ .closeCallback

/-- The step leaves the client, and the state of its connector, alone. -/
structure SameClient (w w' : World) : Prop where
  connection : w'.connection_ = w.connection_
  state : w'.connector_.state_ = w.connector_.state_
  conns : w'.conns = w.conns

variable {w w' : World} {c : ℕ} {k : Link} {a : Answer} {h : ℕ} {out : Connection × List Effect}

/-- Effects that do not call the client back leave it alone. -/
theorem same_effects {effects : List Effect} (hno : .closeCallback ∉ effects) :
    SameClient w (effects.foldl (World.apply c k a h) w) := by
  induction effects generalizing w with
  | nil => exact ⟨rfl, rfl, rfl⟩
  | cons e effects ih =>
    rw [List.mem_cons, not_or] at hno
    have hfirst : SameClient w (World.apply c k a h w e) := by
      cases e with
      | closeCallback => exact absurd rfl hno.1
      | _ => exact ⟨rfl, rfl, rfl⟩
    have hrest := ih (w := World.apply c k a h w e) hno.2
    exact ⟨hrest.connection.trans hfirst.connection, hrest.state.trans hfirst.state,
      hrest.conns.trans hfirst.conns⟩

/-- A member function that does not call the client back changes its own connection. -/
theorem returned_frame (hno : .closeCallback ∉ out.2) :
    (w.returned c k a h out).connection_ = w.connection_ ∧
      (w.returned c k a h out).connector_.state_ = w.connector_.state_ ∧
      (w.returned c k a h out).conns = Function.update w.conns c (some { k with
        conn := out.1, closed := k.closed || out.2.contains .deleteAllEvent }) := by
  have hsame := same_effects (w := w.setLink c { k with
    conn := out.1, closed := k.closed || out.2.contains .deleteAllEvent }) (c := c) (k := k)
    (a := a) (h := h) hno
  exact ⟨hsame.connection, hsame.state, hsame.conns⟩

/-- A member function of an open connection that neither closes it nor calls back, or of
another connection, keeps the invariant. -/
theorem inv_returned (hinv : Inv w) (hk : w.conns c = some k) (hno : .closeCallback ∉ out.2)
    (hwired : out.1.closeCallback_ = k.conn.closeCallback_)
    (hopen : w.connection_ = some c → .deleteAllEvent ∉ out.2) : Inv (w.returned c k a h out) := by
  obtain ⟨hconnection, hstate, hconns⟩ := returned_frame (w := w) (k := k) (c := c) (a := a) (h := h) hno
  refine ⟨fun c' k' hk' => ?_, fun c' hc' => ?_, fun hconnected => ?_⟩
  · rw [hconns] at hk'
    by_cases hc : c' = c
    · subst hc
      rw [Function.update_self] at hk'
      cases hk'
      exact hwired.trans (hinv.unwired c' k hk)
    · rw [Function.update_of_ne hc] at hk'
      exact hinv.unwired c' k' hk'
  · rw [hconnection] at hc'
    obtain ⟨k₀, hk₀, hclosed⟩ := hinv.connection c' hc'
    rw [hconns]
    by_cases hc : c' = c
    · subst hc
      cases hk.symm.trans hk₀
      refine ⟨_, Function.update_self _ _ _, ?_⟩
      have hfalse : out.2.contains .deleteAllEvent = false := by
        rw [Bool.eq_false_iff]
        exact fun hmem => hopen hc' (List.contains_iff_mem.mp hmem)
      dsimp only
      rw [hclosed, hfalse]
      rfl
    · rw [Function.update_of_ne hc]
      exact ⟨k₀, hk₀, hclosed⟩
  · rw [hconnection]
    exact hinv.connected (hstate ▸ hconnected)

/-- A step of the connector keeps the invariant unless it connects. -/
theorem inv_of_same (hinv : Inv w) (hconns : w'.conns = w.conns)
    (hconnection : w'.connection_ = w.connection_)
    (hstate : w'.connector_.state_ = .kConnected → w.connector_.state_ = .kConnected) : Inv w' := by
  refine ⟨?_, ?_, fun hconnected => ?_⟩
  · rw [hconns]
    exact hinv.unwired
  · rw [hconns, hconnection]
    exact hinv.connection
  · rw [hconnection]
    exact hinv.connected (hstate hconnected)

/-- Mild effects are tame. -/
theorem tame_of_mild {e : Effect} (he : Mild e) : Tame e := by
  cases e with
  | deleteAllEvent => exact absurd he id
  | closeCallback => exact absurd he id
  | _ => exact ⟨nofun, nofun⟩

/-- What a member function of a connection without a close callback gives. -/
structure Uncalled (conn : Connection) (out : Connection × List Effect) : Prop where
  /-- There still is no close callback. -/
  unwired : out.1.closeCallback_ = conn.closeCallback_
  /-- The client is not called back. -/
  silent : .closeCallback ∉ out.2

/-- Tame effects neither close nor call back. -/
theorem not_mem_of_tame {effects : List Effect} (htame : ∀ e ∈ effects, Tame e) :
    .closeCallback ∉ effects ∧ .deleteAllEvent ∉ effects :=
  ⟨fun hmem => (htame _ hmem).2 rfl, fun hmem => (htame _ hmem).1 rfl⟩

variable {conn : Connection}

/-- Tame effects do not close the connection, whatever a close would tell. -/
theorem uncalled_of_tame {conn' : Connection} {effects : List Effect}
    (hconn : conn'.closeCallback_ = conn.closeCallback_) (htame : ∀ e ∈ effects, Tame e)
    {P : Prop} : Uncalled conn (conn', effects) ∧ (.deleteAllEvent ∈ effects → P) := by
  obtain ⟨hsilent, hopen⟩ := not_mem_of_tame htame
  exact ⟨⟨hconn, hsilent⟩, fun hmem => absurd hmem hopen⟩

/-- The only effect is tame. -/
theorem tame_singleton {e : Effect} (he : Tame e) : ∀ e' ∈ [e], Tame e' :=
  fun _ he' => List.mem_singleton.mp he' ▸ he

/-- No effect is tame. -/
theorem tame_nil : ∀ e ∈ ([] : List Effect), Tame e := fun _ he => absurd he List.not_mem_nil

/-- `sendInLoop` leaves the callbacks alone. -/
theorem callback_sendInLoop {data : List UInt8} {res : WriteResult}
    (hout : conn.sendInLoop data res = .ok out) :
    out.1.closeCallback_ = conn.closeCallback_ := by
  obtain rfl | ⟨_, _, rest, done, hrest, _⟩ := Connection.sendInLoop_cases hout
  · rfl
  · obtain rfl | ⟨s, rfl⟩ := Connection.bufferRest_cases hrest <;> rfl

/-- So does `handleWrite`. -/
theorem callback_handleWrite {beyond : List UInt8} {res : WriteResult}
    (hout : conn.handleWrite beyond res = .ok out) :
    out.1.closeCallback_ = conn.closeCallback_ := by
  obtain rfl | ⟨_, s, bytes, ⟨_, rfl⟩ | ⟨_, rfl⟩⟩ := Connection.handleWrite_cases hout <;> rfl

/-- A close without a close callback takes the events off, and that is all. -/
theorem handleClose_unwired (hconn : conn.closeCallback_ = false) :
    Uncalled conn conn.handleClose := by
  unfold Connection.handleClose
  rw [hconn]
  constructor
  · dsimp only
    split <;> exact hconn.symm ▸ rfl
  · exact fun hmem => by cases List.mem_singleton.mp hmem

/-- What follows `readFd` closes at the end of the stream, and after an error. -/
theorem afterRead_spec (hconn : conn.closeCallback_ = false) (n : ℤ) (errno : Errno) :
    Uncalled conn (conn.afterRead n errno) ∧
      (.deleteAllEvent ∈ (conn.afterRead n errno).2 → n = 0 ∨ n < 0 ∧ errno ≠ .EAGAIN) := by
  obtain hread | ⟨hends, hread⟩ | hread := conn.afterRead_cases n errno
  · rw [hread]
    refine uncalled_of_tame rfl fun e he => tame_singleton ?_ e (List.mem_ite_nil_right.mp he).2
    exact ⟨nofun, nofun⟩
  · rw [hread]
    exact ⟨handleClose_unwired hconn, fun _ => hends⟩
  · rw [hread]
    exact uncalled_of_tame rfl tame_nil

/-- A call closes the connection only where a read ends, and never calls back. -/
theorem call_spec (hconn : conn.closeCallback_ = false) {op : Op}
    (hout : op.call conn = some out) : Uncalled conn out ∧
      (.deleteAllEvent ∈ out.2 → ∃ res, op = .handleRead res ∧ Ends conn res) := by
  cases op with
  | handleRead res =>
    have hread := ok_of_toOption hout
    cases res with
    | received avail =>
      obtain ⟨read, hfd, hread⟩ := ok_of_bind hread
      cases hread
      have hconn' : ({ conn with inputBuffer_ := read.1 } : Connection).closeCallback_ = false := hconn
      obtain ⟨huncalled, hends⟩ := afterRead_spec hconn' read.2 .other
      refine ⟨⟨huncalled.unwired, huncalled.silent⟩, fun hmem => ⟨_, rfl, read.1, ?_⟩⟩
      have hzero : read.2 = 0 := by
        rcases hends hmem with hzero | ⟨hneg, _⟩
        · exact Int.natCast_eq_zero.mp hzero
        · omega
      rw [hfd, ← hzero]
    | failed errno ret =>
      cases hread
      obtain ⟨huncalled, hends⟩ := afterRead_spec hconn ret errno
      exact ⟨huncalled, fun hmem => ⟨_, rfl, hends hmem⟩⟩
  | handleWrite beyond res =>
    have hwrite := ok_of_toOption hout
    exact uncalled_of_tame (callback_handleWrite hwrite) fun e he =>
      tame_of_mild ((ConnectionClose.handleWrite_effects hwrite).2 e he)
  | send data =>
    cases hout
    refine uncalled_of_tame rfl (tame_singleton ?_)
    exact ⟨nofun, nofun⟩
  | shutdown =>
    cases hout
    unfold Connection.shutdown
    split
    · refine uncalled_of_tame ?_ (tame_singleton ?_)
      · rfl
      · exact ⟨nofun, nofun⟩
    · exact uncalled_of_tame rfl tame_nil
  | forceClose =>
    cases hout
    unfold Connection.forceClose
    split
    · refine uncalled_of_tame ?_ (tame_singleton ?_)
      · rfl
      · exact ⟨nofun, nofun⟩
    · exact uncalled_of_tame rfl tame_nil

/-- A task closes the connection only if it is `handleClose`, and never calls back. -/
theorem execute_spec (hconn : conn.closeCallback_ = false) {res : WriteResult} {task : Task}
    (hout : execute conn res task = some out) : Uncalled conn out ∧
      (.deleteAllEvent ∈ out.2 → task = .handleClose) := by
  cases task with
  | sendInLoop data =>
    have hsend := ok_of_toOption hout
    refine uncalled_of_tame (callback_sendInLoop hsend) fun e he => ?_
    rcases (ConnectionClose.sendInLoop_effects hsend).2 e he with hmild | ⟨_, type, rfl⟩
    · exact tame_of_mild hmild
    · exact ⟨nofun, nofun⟩
  | shutdownInLoop =>
    cases hout
    unfold Connection.shutdownInLoop
    split
    · exact uncalled_of_tame rfl tame_nil
    · refine uncalled_of_tame rfl (tame_singleton ?_)
      exact ⟨nofun, nofun⟩
  | handleClose =>
    cases hout
    exact ⟨handleClose_unwired hconn, fun _ => rfl⟩
  | connectDestroyed =>
    cases hout
    refine uncalled_of_tame rfl (tame_singleton ?_)
    exact ⟨nofun, nofun⟩
  | writeComplete =>
    cases hout
    exact uncalled_of_tame rfl tame_nil

/-- The connector is connected after a step only if it was before, or if a write event
ends its attempt without an error. -/
theorem connected_step {k k' : ClientConnector.World} {e : ClientConnector.Event}
    (he : ClientConnector.step k e = some k') (hconnected : k'.state_ = .kConnected) :
    k.state_ = .kConnected ∨ e = .handleWrite false ∧ k.state_ = .kConnecting := by
  cases hlaunch : ClientConnector.launch k e with
  | some found =>
    obtain ⟨timers, a⟩ := found
    obtain ⟨k₁, h, _, rfl, hprep⟩ := ClientConnector.launch_step he hlaunch
    have hkept : ∀ {state}, (k₁.connect a h).state_ = state → state = k₁.state_ →
        k.state_ = .kConnected := by
      intro state hafter hsame
      rcases hprep.state_ with hstate | hstate
      · rw [← hstate, ← hsame, ← hafter]
        exact hconnected
      · cases hconnected.symm.trans (hafter.trans (hsame.trans hstate))
    cases ClientConnector.connect_launched k₁ a h with
    | refused _ hstate => exact Or.inl (hkept hstate rfl)
    | failed fd _ hstate => exact Or.inl (hkept hstate rfl)
    | started fd errno _ _ hstate => cases hconnected.symm.trans hstate
    | retried fd errno _ _ hstate => cases hconnected.symm.trans hstate
  | none =>
    have hretry : ∀ {k₁ : ClientConnector.World}, k₁.retry.state_ = .kConnected → False := by
      intro k₁ hc
      unfold ClientConnector.World.retry at hc
      dsimp only at hc
      split at hc <;> cases hc
    cases ClientConnector.unlaunched_step he hlaunch with
    | kept _ _ hkept => exact Or.inl (hkept.state_ ▸ hconnected)
    | handleWrite err =>
      unfold ClientConnector.World.handleWrite at hconnected
      by_cases hstate : k.state_ = .kConnecting
      · rw [if_pos hstate] at hconnected
        cases err with
        | true => exact absurd hconnected hretry
        | false => exact Or.inr ⟨rfl, hstate⟩
      · rw [if_neg hstate] at hconnected
        exact Or.inl hconnected
    | handleError =>
      unfold ClientConnector.World.handleError at hconnected
      split at hconnected
      · exact absurd hconnected hretry
      · exact Or.inl hconnected
    | stopInLoop =>
      unfold ClientConnector.World.stopInLoop at hconnected
      split at hconnected
      · cases hconnected
      · exact Or.inl hconnected
    | resetChannel => exact Or.inl hconnected
    | release => exact Or.inl hconnected
    | poll => exact Or.inl hconnected

/-- A write event that ends the attempt without an error connects the connector. -/
theorem established_step {k k' : ClientConnector.World}
    (he : ClientConnector.step k (.handleWrite false) = some k') (hstate : k.state_ = .kConnecting) :
    k'.state_ = .kConnected := by
  unfold ClientConnector.step at he
  dsimp only at he
  split at he <;> cases he
  unfold ClientConnector.World.handleWrite
  rw [if_pos hstate]
  dsimp only
  rw [if_neg Bool.false_ne_true]
  split <;> rfl

/-- A new connection is that of the client, open and without a close callback. -/
theorem inv_newConnection (hinv : ∀ c k, w.conns c = some k → k.conn.closeCallback_ = false)
    (sockfd : ℤ) (c : ℕ) (writing : Bool) : Inv (w.newConnection sockfd c writing) := by
  have htame : ∀ e ∈ (Connection.construct writing ⟨w.connectionCallback_, w.messageCallback_,
      w.writeCompleteCallback_, false⟩).completeConnect.2, Tame e := by
    unfold Connection.completeConnect Connection.enableReading
    intro e he
    rcases List.mem_cons.mp he with rfl | he
    · exact ⟨nofun, nofun⟩
    rcases List.mem_cons.mp he with rfl | he
    · exact ⟨nofun, nofun⟩
    · refine tame_singleton ?_ e (List.mem_ite_nil_right.mp he).2
      exact ⟨nofun, nofun⟩
  obtain ⟨hsilent, hopen⟩ := not_mem_of_tame htame
  obtain ⟨hconnection, _, hconns⟩ := returned_frame (w := { w with connection_ := some c }) (c := c)
    (k := ⟨.construct writing ⟨w.connectionCallback_, w.messageCallback_, w.writeCompleteCallback_,
      false⟩, sockfd, false⟩) (a := .noSocket) (h := 0) hsilent
  have hself := congrFun hconns c
  rw [Function.update_self] at hself
  refine ⟨fun c' k' hk' => ?_, fun c' hc' => ?_, fun _ hnone => ?_⟩
  · by_cases hc : c' = c
    · subst hc
      cases hself.symm.trans hk'
      rfl
    · have hold := congrFun hconns c'
      rw [Function.update_of_ne hc] at hold
      exact hinv c' k' (hold.symm.trans hk')
  · cases hconnection.symm.trans hc'
    refine ⟨_, hself, ?_⟩
    rw [Bool.or_eq_false_iff]
    exact ⟨rfl, Bool.eq_false_iff.mpr fun hmem => hopen (List.contains_iff_mem.mp hmem)⟩
  · cases hconnection.symm.trans hnone

/-- What the step of a call or of a task is. -/
theorem member_step {e : Event} (he : step w e = some w')
    (hmember : (∃ c op a h, e = .conn c op a h) ∨ ∃ i res a h, e = .task i res a h) :
    ∃ (w₁ : World) (c : ℕ) (k : Link) (a : Answer) (h : ℕ) (out : Connection × List Effect),
      w' = w₁.returned c k a h out ∧ w₁.conns = w.conns ∧
      w₁.connection_ = w.connection_ ∧ w₁.connector_ = w.connector_ ∧ w.conns c = some k ∧
      (k.conn.closeCallback_ = false → Uncalled k.conn out ∧
        (.deleteAllEvent ∈ out.2 → Closes w c e)) := by
  unfold step at he
  rcases hmember with ⟨c, op, a, h, rfl⟩ | ⟨i, res, a, h, rfl⟩
  · dsimp only at he
    split at he
    case isTrue =>
      obtain ⟨k, hk, he⟩ := Option.bind_eq_some_iff.mp he
      obtain ⟨out, hout, he⟩ := Option.bind_eq_some_iff.mp he
      cases he
      refine ⟨w, c, k, a, h, out, rfl, rfl, rfl, rfl, hk, fun hconn => ?_⟩
      obtain ⟨huncalled, hcloses⟩ := call_spec hconn hout
      refine ⟨huncalled, fun hmem => ?_⟩
      obtain ⟨res, rfl, hends⟩ := hcloses hmem
      exact ⟨rfl, k, hk, hends⟩
    case isFalse => cases he
  · dsimp only at he
    split at he
    case isTrue =>
      obtain ⟨⟨c, task⟩, htask, he⟩ := Option.bind_eq_some_iff.mp he
      obtain ⟨k, hk, he⟩ := Option.bind_eq_some_iff.mp he
      obtain ⟨out, hout, he⟩ := Option.bind_eq_some_iff.mp he
      cases he
      refine ⟨{ w with tasks_ := w.tasks_.eraseIdx i }, c, k, a, h, out, rfl, rfl, rfl, rfl, hk,
        fun hconn => ?_⟩
      obtain ⟨huncalled, hcloses⟩ := execute_spec hconn hout
      refine ⟨huncalled, fun hmem => ?_⟩
      cases show task = .handleClose from hcloses hmem
      exact htask
    case isFalse => cases he

/-- A calm call or task keeps the invariant. -/
theorem inv_member (hinv : Inv w) {e : Event} (hcalm : Calm w e) (he : step w e = some w')
    (hmember : (∃ c op a h, e = .conn c op a h) ∨ ∃ i res a h, e = .task i res a h) : Inv w' := by
  obtain ⟨w₁, c, k, a, h, out, rfl, hconns, hconnection, hconnector, hk, hspec⟩ :=
    member_step he hmember
  obtain ⟨huncalled, hcloses⟩ := hspec (hinv.unwired c k hk)
  have hinv₁ : Inv w₁ := inv_of_same hinv hconns hconnection fun hs => hconnector ▸ hs
  refine inv_returned hinv₁ (hconns.symm ▸ hk) huncalled.silent huncalled.unwired
    fun hc hmem => ?_
  exact hcalm.1 c (hconnection.symm.trans hc) (hcloses hmem)

/-- A calm step keeps the invariant. -/
theorem step_inv (hinv : Inv w) {e : Event} (hcalm : Calm w e) (he : step w e = some w') :
    Inv w' := by
  cases e with
  | connect inLoop a h =>
    obtain ⟨k, hk, rfl⟩ := Option.map_eq_some_iff.mp he
    refine inv_of_same hinv rfl rfl fun hs => ?_
    exact (connected_step hk hs).resolve_right fun hno => by cases hno.1
  | disconnect =>
    unfold step at he
    dsimp only at he
    have hinv₁ : Inv { w with connect_ := false } := inv_of_same hinv rfl rfl id
    split at he
    case h_1 =>
      cases he
      exact hinv₁
    case h_2 c hc =>
      obtain ⟨k, hk, rfl⟩ := Option.map_eq_some_iff.mp he
      have hcall : Op.call k.conn .shutdown = some k.conn.shutdown := rfl
      obtain ⟨huncalled, hcloses⟩ := call_spec (hinv.unwired c k hk) hcall
      refine inv_returned hinv₁ hk huncalled.silent huncalled.unwired fun _ hmem => ?_
      obtain ⟨_, hno, _⟩ := hcloses hmem
      cases hno
  | stop =>
    unfold step at he
    dsimp only at he
    obtain ⟨k, hk, rfl⟩ := Option.map_eq_some_iff.mp he
    refine inv_of_same hinv rfl rfl fun hs => ?_
    exact (connected_step hk hs).resolve_right fun hno => by cases hno.1
  | enableRetry =>
    cases he
    exact inv_of_same hinv rfl rfl id
  | handleWrite err c writing =>
    unfold step at he
    dsimp only at he
    split at he
    case isTrue =>
      obtain ⟨k, hk, rfl⟩ := Option.map_eq_some_iff.mp he
      split
      case isTrue =>
        exact inv_newConnection (w := { w with connector_ := k }) hinv.unwired k.sockfd_ c writing
      case isFalse hno =>
        refine ⟨hinv.unwired, hinv.connection, fun hs => ?_⟩
        rcases connected_step hk hs with hold | ⟨heq, hstate⟩
        · exact hinv.connected hold
        · cases heq
          rcases hcalm.2 ⟨rfl, hstate⟩ with hconnect | ⟨c', _, hc', _⟩
          · exact absurd ⟨hstate, rfl, hconnect⟩ hno
          · exact fun hnone => by cases hc'.symm.trans hnone
    case isFalse => cases he
  | connector e =>
    unfold step at he
    dsimp only at he
    split at he
    case isTrue hloop =>
      obtain ⟨k, hk, rfl⟩ := Option.map_eq_some_iff.mp he
      refine inv_of_same hinv rfl rfl fun hs => ?_
      refine (connected_step hk hs).resolve_right fun hno => ?_
      rw [hno.1] at hloop
      cases hloop
    case isFalse => cases he
  | conn c op a h => exact inv_member hinv hcalm he (Or.inl ⟨c, op, a, h, rfl⟩)
  | task i res a h => exact inv_member hinv hcalm he (Or.inr ⟨i, res, a, h, rfl⟩)

/-- In a calm step the client, the connector and the connection agree. -/
theorem agrees_of_calm (hinv : Inv w) {e : Event} (hcalm : Calm w e) (he : step w e = some w') :
    Agrees w e w' := by
  have hinv' := step_inv hinv hcalm he
  refine ⟨fun hconnected => ?_, fun c hc hcloses => absurd hcloses (hcalm.1 c hc),
    fun c hc hcloses => absurd hcloses (hcalm.1 c hc)⟩
  obtain ⟨c, hc⟩ := Option.ne_none_iff_exists'.mp (hinv'.connected (of_decide_eq_true hconnected))
  obtain ⟨k, hk, hclosed⟩ := hinv'.connection c hc
  exact ⟨c, k, hc, hk, hclosed⟩

/-- A close of the connection of the client leaves it in place. -/
theorem connection_of_closes (hinv : Inv w) {e : Event} {c₀ : ℕ} (hcloses : Closes w c₀ e)
    (he : step w e = some w') : w'.connection_ = w.connection_ := by
  have hmember : (∃ c op a h, e = .conn c op a h) ∨ ∃ i res a h, e = .task i res a h := by
    cases e with
    | conn c op a h => exact Or.inl ⟨c, op, a, h, rfl⟩
    | task i res a h => exact Or.inr ⟨i, res, a, h, rfl⟩
    | _ => exact absurd hcloses id
  obtain ⟨w₁, c, k, a, h, out, rfl, _, hconnection, _, hk, hspec⟩ := member_step he hmember
  obtain ⟨huncalled, _⟩ := hspec (hinv.unwired c k hk)
  exact (returned_frame huncalled.silent).1.trans hconnection

/-- Where they agree in a step, the step is calm. -/
theorem calm_of_agrees (hinv : Inv w) {e : Event} (he : step w e = some w')
    (hagrees : Agrees w e w') : Calm w e := by
  refine ⟨fun c hc hcloses => ?_, fun hestablishes => ?_⟩
  · have hnone := (hagrees.dropped c hc hcloses).1
    rw [connection_of_closes hinv hcloses he, hc] at hnone
    cases hnone
  · cases e with
    | handleWrite err c writing =>
      obtain ⟨rfl, hstate⟩ := hestablishes
      by_contra hno
      rw [not_or] at hno
      unfold step at he
      dsimp only at he
      split at he
      case isTrue =>
        obtain ⟨k, hk, rfl⟩ := Option.map_eq_some_iff.mp he
        rw [if_neg fun hyes => hno.1 hyes.2.2] at hagrees
        obtain ⟨c', k', hc', hk', hclosed⟩ :=
          hagrees.connected (decide_eq_true (established_step hk hstate))
        exact hno.2 ⟨c', k', hc', hk', hclosed⟩
      case isFalse => cases he
    | connect inLoop a h => exact absurd hestablishes id
    | disconnect => exact absurd hestablishes id
    | stop => exact absurd hestablishes id
    | enableRetry => exact absurd hestablishes id
    | connector e => exact absurd hestablishes id
    | conn c op a h => exact absurd hestablishes id
    | task i res a h => exact absurd hestablishes id

/-- Throughout a run the client, the connector and the connection agree exactly if the
connection of the client is never closed, and no attempt that was stopped is established
while there is no open connection. -/
theorem client_agrees_iff (sockfd : ℤ)
    (connectionCallback messageCallback writeCompleteCallback : Bool) (events : List Event) :
    Along step Agrees
        (World.fresh sockfd connectionCallback messageCallback writeCompleteCallback) events ↔
      Along step (fun w e _ => Calm w e)
        (World.fresh sockfd connectionCallback messageCallback writeCompleteCallback) events := by
  refine along_iff_along Inv ?_ ?_ ?_ events
  · exact fun w e w' hinv he => ⟨calm_of_agrees hinv he, fun hcalm => agrees_of_calm hinv hcalm he⟩
  · exact fun w e w' hinv hcalm he => step_inv hinv hcalm he
  · exact ⟨fun c k hk => (by cases hk), fun c hc => (by cases hc), fun hs => by cases hs⟩

/-- The client connects, and retries. -/
def established : List Event :=
  [.enableRetry, .connect true (.socket 5 .EINPROGRESS) 0, .handleWrite false 1 false]

/-- The peer closes. -/
def peerCloses : Event := .conn 1 (.handleRead (.received [])) (.socket 6 .EINPROGRESS) 2

/-- After the peer closed, the client is connected all the same, to a connection that is
closed, and nothing is queued or attempted. -/
theorem connected_to_closed :
    ∃ w w', run step (World.fresh 0 true true true) established = some w ∧
      step w peerCloses = some w' ∧ w'.isConnected = true ∧ w'.connection_ = some 1 ∧
      w'.tasks_ = [] ∧ w'.connector_.sockfd_ = 5 ∧ ¬Agrees w peerCloses w' := by
  refine ⟨_, _, rfl, rfl, rfl, rfl, rfl, rfl, fun hagrees => ?_⟩
  obtain ⟨c, k, hc, hk, hclosed⟩ := hagrees.connected rfl
  cases hc
  cases hk
  cases hclosed

end KKNet.Client
