import KKNet.BlockCapacity
import KKNet.BlockString

/-!
# The pending output

While bytes are pending, `handleWrite` offers the socket the string made of them,
which ends before the first zero. So write events take the pending bytes to the
socket in order, at least one with each event that takes any, up to the first zero.
Without a zero they drain the buffer, which is announced once. With one they stop
there for ever, and nothing that is sent later reaches the socket.
-/

namespace KKNet.ConnectionPending

open BlockBuffer BlockQueue Connections Results Runs
open ConnectionStream (handed handed_nil handed_written EndsInside)

/-- A call of a member function on the thread of the loop. -/
inductive Call
  | sendInLoop (data : List UInt8) (res : WriteResult)
  /-- `handleWrite`, with the memory behind the scratch array. -/
  | handleWrite (beyond : List UInt8) (res : WriteResult)
  | handleRead (res : ReadResult)
  | shutdown
  | shutdownInLoop
  | forceClose
  | handleClose
  | connectDestroyed

/-- The call. -/
def perform (c : Connection) : Call → Except Fault (Connection × List Effect)
  | .sendInLoop data res => c.sendInLoop data res
  | .handleWrite beyond res => c.handleWrite beyond res
  | .handleRead res => c.handleRead res
  | .shutdown => pure c.shutdown
  | .shutdownInLoop => pure c.shutdownInLoop
  | .forceClose => pure c.forceClose
  | .handleClose => pure c.handleClose
  | .connectDestroyed => pure c.connectDestroyed

/-- A connection with all that it did outside itself, in order. -/
structure Record where
  /-- The connection. -/
  conn : Connection
  /-- What it did. -/
  effects : List Effect

/-- One call; there is none where the code faults. -/
def step (r : Record) (call : Call) : Option Record :=
  (perform r.conn call).toOption.map fun out => ⟨out.1, r.effects ++ out.2⟩

/-- The pending bytes before the first zero. -/
def front (q : List UInt8) : List UInt8 := KBuffer.cString q

/-- How many bytes the socket takes at most. -/
def count : WriteResult → ℕ
  | .accepted n => n
  | .failed _ => 0

/-- A write event in which the socket takes something. -/
def Call.takes : Call → ℕ
  | .handleWrite _ res => if 0 < count res then 1 else 0
  | _ => 0

/-- How many of them there are. -/
def takes (calls : List Call) : ℕ := (calls.map Call.takes).sum

variable {c : Connection} {q : List UInt8} {s : KBuffer}

/-! ### One write event -/

@[simp] theorem handed_append (first rest : List Effect) :
    handed (first ++ rest) = handed first ++ handed rest := by
  unfold handed
  exact List.flatMap_append

/-- The front is a prefix. -/
theorem front_isInit (q : List UInt8) : front q <+: q := List.takeWhile_prefix _

/-- Without a zero all is front. -/
theorem front_eq_self (hz : 0 ∉ q) : front q = q := by
  refine List.takeWhile_eq_self_iff.mpr fun b hb => ?_
  exact decide_eq_true fun hb0 => hz (hb0 ▸ hb)

/-- With a zero it is not. -/
theorem front_lt (hz : 0 ∈ q) : (front q).length < q.length := by
  refine (front_isInit q).length_le.lt_of_ne fun hlen => ?_
  have hself := (front_isInit q).eq_of_length hlen
  have hnot := BlockString.zero_not_mem_cString q
  exact hnot ((show KBuffer.cString q = q from hself).symm ▸ hz)

/-- What is left of the front when some of it was taken. -/
theorem front_drop {k : ℕ} (hk : k ≤ (front q).length) : front (q.drop k) = (front q).drop k := by
  induction q generalizing k with
  | nil => simp [front, KBuffer.cString]
  | cons b q ih =>
    cases k with
    | zero => rfl
    | succ k =>
      unfold front KBuffer.cString at hk ih ⊢
      by_cases hb : b ≠ 0
      · rw [List.takeWhile_cons_of_pos (by simpa using hb), List.length_cons] at hk
        rw [List.takeWhile_cons_of_pos (by simpa using hb), List.drop_succ_cons,
          List.drop_succ_cons]
        exact ih (Nat.le_of_succ_le_succ hk)
      · rw [List.takeWhile_cons_of_neg (by simpa using hb)] at hk
        exact absurd hk (Nat.not_succ_le_zero k)

/-- A string that ends inside the pending bytes is their front. -/
theorem peekAllAsString_front (h : Holds s q) {beyond : List UInt8}
    (hends : EndsInside s beyond) : s.peekAllAsString beyond = .ok (front q) := by
  rw [h.peekAllAsString, Except.ok.injEq]
  by_cases hz : (0 : UInt8) ∈ q
  · have hcut : (q.takeWhile (· ≠ 0)).length ≠ q.length := (front_lt hz).ne
    unfold front KBuffer.cString
    rw [List.takeWhile_append, if_neg hcut]
  · have hself : q.takeWhile (· ≠ 0) = q := front_eq_self hz
    rw [front_eq_self hz]
    rcases hends with hlt | ⟨pending, hpeek, h0⟩ | hnil
    · exact BlockString.cString_scratch hz (h.length ▸ hlt) beyond
    · cases hpeek.symm.trans h.peek_all
      exact absurd h0 hz
    · unfold KBuffer.cString at hnil ⊢
      rw [List.takeWhile_append, hself, if_pos rfl]
      cases s.buflen_ - q.length with
      | zero => rw [List.replicate_zero, List.nil_append, hnil, List.append_nil]
      | succ k => exact List.append_nil q

/-- What a write event takes: some of the front. -/
def taken (q : List UInt8) (res : WriteResult) : ℕ := min (count res) (front q).length

/-- What a write event does that finds bytes pending: it hands over some of their front,
and leaves the rest pending or finishes the write. -/
structure Offered (c : Connection) (q : List UInt8) (res : WriteResult)
    (out : Connection × List Effect) : Prop where
  /-- What is left. -/
  left : Holds out.1.outputBuffer_ (q.drop (taken q res))
  /-- A buffer that represents the pending bytes represents what is left. -/
  kept : Represents c.outputBuffer_ q → Represents out.1.outputBuffer_ (q.drop (taken q res))
  /-- The blocks. -/
  buflen : out.1.outputBuffer_.buflen_ = c.outputBuffer_.buflen_
  /-- What the socket gets. -/
  handed : handed out.2 = q.take (taken q res)
  /-- The write goes on while bytes are left, or is finished. -/
  goes : ∃ s done, (∀ e ∈ done, ∃ bytes, e = .written bytes) ∧
    out = if 0 < taken q res ∧ q.length = taken q res then
        ((Connection.finishWrite { c with outputBuffer_ := s }).1,
          done ++ (Connection.finishWrite { c with outputBuffer_ := s }).2)
      else ({ c with outputBuffer_ := s }, done)

/-- A write event in which the socket takes nothing. -/
theorem offered_nothing (h : Holds c.outputBuffer_ q) {res : WriteResult}
    (hzero : taken q res = 0) : Offered c q res (c, []) := by
  refine ⟨?_, fun hrep => ?_, rfl, ?_, c.outputBuffer_, [], nofun, ?_⟩
  · rwa [hzero, List.drop_zero]
  · rwa [hzero, List.drop_zero]
  · rw [hzero, List.take_zero]
    rfl
  · rw [hzero, if_neg fun hpos => lt_irrefl 0 hpos.1]

/-- A write event finds the front of the pending bytes in its string. -/
theorem handleWrite_pending (hw : c.writing_ = true) (h : Holds c.outputBuffer_ q)
    {beyond : List UInt8} (hends : EndsInside c.outputBuffer_ beyond) (res : WriteResult) :
    ∃ out, c.handleWrite beyond res = .ok out ∧ Offered c q res out := by
  have hle := (front_isInit q).length_le
  unfold Connection.handleWrite
  rw [if_pos hw, peekAllAsString_front h hends, ok_bind]
  cases res with
  | failed errno => exact ⟨_, rfl, offered_nothing h (Nat.zero_min _)⟩
  | accepted n =>
    have hlen : ((front q).take n).length = taken q (.accepted n) := List.length_take
    have htaken : (front q).take n = q.take (taken q (.accepted n)) := by
      rw [← hlen]
      exact List.prefix_iff_eq_take.mp ((List.take_prefix n _).trans (front_isInit q))
    have hmax : taken q (.accepted n) ≤ (front q).length := Nat.min_le_right _ _
    dsimp only
    rw [hlen]
    by_cases hpos : 0 < taken q (.accepted n)
    · obtain ⟨s', hretrieve, hleft⟩ := h.retrieve (taken q (.accepted n))
      have hkept : Represents c.outputBuffer_ q →
          Represents s' (q.drop (taken q (.accepted n))) := by
        intro hrep
        obtain ⟨s₁, hretrieve₁, hrep₁⟩ := hrep.retrieve (taken q (.accepted n))
        cases hretrieve.symm.trans hretrieve₁
        exact hrep₁
      obtain ⟨chain, ri, wi, hl, _⟩ := h
      have hbuflen := BlockCapacity.retrieve_buflen ⟨chain, ri, wi, 0, hl⟩ hretrieve
      have hsize := hleft.length
      rw [List.length_drop] at hsize
      rw [if_pos hpos, hretrieve, ok_bind]
      by_cases hempty : s'.getReadableSize = 0
      · obtain ⟨hhand, _, hbuf⟩ := ConnectionStream.finishWrite_spec { c with outputBuffer_ := s' }
        rw [if_pos hempty]
        refine ⟨_, rfl, ?_, ?_, ?_, ?_, s', [.written ((front q).take n)], fun e he => ?_, ?_⟩
        · rw [hbuf]
          exact hleft
        · rw [hbuf]
          exact hkept
        · rw [hbuf]
          exact hbuflen
        · rw [handed_written, hhand, List.append_nil, htaken]
        · exact ⟨_, List.mem_singleton.mp he⟩
        · rw [if_pos ⟨hpos, by omega⟩]
          rfl
      · rw [if_neg hempty]
        refine ⟨_, rfl, hleft, hkept, hbuflen, ?_, s', [.written ((front q).take n)], fun e he => ?_, ?_⟩
        · rw [handed_written, handed_nil, List.append_nil, htaken]
        · exact ⟨_, List.mem_singleton.mp he⟩
        · rw [if_neg fun hall => hempty (by omega)]
    · rw [if_neg hpos]
      exact ⟨_, rfl, offered_nothing h (Nat.eq_zero_of_not_pos hpos)⟩

/-! ### The other calls -/

/-- An effect that neither hands bytes to the socket nor tells of the end of a write. -/
def Silent : Effect → Prop
  | .written _ => False
  | .queueInLoop .writeComplete => False
  | _ => True

/-- Silent effects hand nothing over. -/
theorem handed_silent {effects : List Effect} (h : ∀ e ∈ effects, Silent e) :
    handed effects = [] := by
  unfold ConnectionStream.handed
  refine List.flatMap_eq_nil_iff.mpr fun e he => ?_
  have hsilent := h e he
  cases e with
  | written bytes => exact absurd hsilent id
  | _ => rfl

/-- A call that leaves the pending output alone. -/
structure Aside (c : Connection) (out : Connection × List Effect) : Prop where
  /-- The send buffer. -/
  buffer : out.1.outputBuffer_ = c.outputBuffer_
  /-- The flag. -/
  writing : out.1.writing_ = c.writing_
  /-- The callback. -/
  callback : out.1.writeCompleteCallback_ = c.writeCompleteCallback_
  /-- What it does. -/
  silent : ∀ e ∈ out.2, Silent e
  /-- It does not shut down before the write is finished. -/
  open_ : c.writing_ = true → .shutdownWrite ∉ out.2

/-- Nothing is done. -/
theorem Aside.nothing (c : Connection) : Aside c (c, []) := ⟨rfl, rfl, rfl, nofun, nofun⟩

/-- A single effect. -/
theorem Aside.one (e : Effect) (he : Silent e) (hopen : e ≠ .shutdownWrite) {c' : Connection}
    (hbuffer : c'.outputBuffer_ = c.outputBuffer_) (hwriting : c'.writing_ = c.writing_)
    (hcallback : c'.writeCompleteCallback_ = c.writeCompleteCallback_) : Aside c (c', [e]) :=
  ⟨hbuffer, hwriting, hcallback, fun _ he' => (List.mem_singleton.mp he') ▸ he,
    fun _ he' => hopen (List.mem_singleton.mp he').symm⟩

/-- `handleClose` leaves the output alone. -/
theorem aside_handleClose (c : Connection) : Aside c c.handleClose := by
  have hone : ∀ e ∈ c.handleClose.2, e = .deleteAllEvent ∨ e = .closeCallback := by
    intro e he
    exact (List.mem_cons.mp he).imp_right fun he =>
      List.mem_singleton.mp (List.mem_ite_nil_right.mp he).2
  have hsilent : ∀ e ∈ c.handleClose.2, Silent e := fun e he => by
    rcases hone e he with rfl | rfl <;> trivial
  have hopen : .shutdownWrite ∉ c.handleClose.2 := fun he => by
    rcases hone _ he with heq | heq <;> cases heq
  unfold Connection.handleClose at hsilent hopen ⊢
  split
  · exact ⟨rfl, rfl, rfl, hsilent, fun _ => hopen⟩
  · exact ⟨rfl, rfl, rfl, hsilent, fun _ => hopen⟩

/-- So does `handleRead`. -/
theorem aside_handleRead {res : ReadResult} {out : Connection × List Effect}
    (h : c.handleRead res = .ok out) : Aside c out := by
  obtain ⟨s, n, errno, rfl⟩ := Connection.handleRead_eq h
  rcases Connection.afterRead_cases { c with inputBuffer_ := s } n errno with heq | ⟨_, heq⟩ | heq
  · rw [heq]
    split
    · exact .one .messageCallback trivial nofun rfl rfl rfl
    · exact ⟨rfl, rfl, rfl, nofun, nofun⟩
  · rw [heq]
    have h := aside_handleClose { c with inputBuffer_ := s }
    exact ⟨h.buffer, h.writing, h.callback, h.silent, h.open_⟩
  · rw [heq]
    exact ⟨rfl, rfl, rfl, nofun, nofun⟩

/-- The call is `sendInLoop`. -/
def Call.sends : Call → Bool
  | .sendInLoop _ _ => true
  | _ => false

/-- The call is `handleWrite`. -/
def Call.writes : Call → Bool
  | .handleWrite _ _ => true
  | _ => false

/-- Only write events, and sends while writing is off, touch the output. -/
theorem aside_of_perform {call : Call} {out : Connection × List Effect}
    (hno : call.writes = false) (hsends : c.writing_ = true ∨ call.sends = false)
    (h : perform c call = .ok out) : Aside c out := by
  cases call with
  | sendInLoop data res =>
    have hbusy : ¬(c.writing_ = false ∧ c.outputBuffer_.getReadableSize = 0) :=
      fun hidle => by cases hidle.1.symm.trans (hsends.resolve_right nofun)
    unfold perform Connection.sendInLoop at h
    dsimp only at h
    rw [if_neg hbusy, ite_self] at h
    cases h
    exact .nothing c
  | handleWrite beyond res => cases hno
  | handleRead res => exact aside_handleRead h
  | shutdown =>
    cases h
    unfold Connection.shutdown
    split
    · exact .one (.runInLoop .shutdownInLoop) trivial nofun rfl rfl rfl
    · exact .nothing c
  | shutdownInLoop =>
    cases h
    unfold Connection.shutdownInLoop Connection.isWriting
    split
    · exact .nothing c
    case isFalse hoff =>
      exact ⟨rfl, rfl, rfl, fun e he => (List.mem_singleton.mp he) ▸ trivial,
        fun hw => absurd hw hoff⟩
  | forceClose =>
    cases h
    unfold Connection.forceClose
    split
    · exact .one (.queueInLoop .handleClose) trivial nofun rfl rfl rfl
    · exact .nothing c
  | handleClose =>
    cases h
    exact aside_handleClose c
  | connectDestroyed =>
    cases h
    exact .one .deleteFd trivial nofun rfl rfl rfl

/-- A call adds at most one to the events that take something. -/
theorem takes_append (past : List Call) (call : Call) :
    takes (past ++ [call]) = takes past + call.takes := by
  unfold takes
  rw [List.map_append, List.sum_append, List.map_singleton, List.sum_singleton]

/-- Only write events take anything. -/
theorem takes_of_not_writes {call : Call} (h : call.writes = false) : call.takes = 0 := by
  cases call with
  | handleWrite beyond res => cases h
  | _ => rfl

/-- A write event in which the socket takes something takes a byte, if there is one before
a zero. -/
theorem takes_le (beyond : List UInt8) (res : WriteResult) :
    min (Call.takes (.handleWrite beyond res)) (front q).length ≤ taken q res := by
  have hone : Call.takes (.handleWrite beyond res) = if 0 < count res then 1 else 0 := rfl
  rw [hone, taken]
  split <;> omega

/-! ### A zero among the pending bytes -/

/-- A zero among bytes of which at most the front was taken. -/
theorem zero_mem_drop (hz : 0 ∈ q) {k : ℕ} (hk : k ≤ (front q).length) : 0 ∈ q.drop k := by
  by_contra hno
  have hlen := congrArg List.length ((front_drop hk).symm.trans (front_eq_self hno))
  rw [List.length_drop, List.length_drop] at hlen
  have hlt := front_lt hz
  omega

/-- The record of calls on the connection `c` that met a zero among the pending bytes `q`. -/
structure Stalling (c : Connection) (q : List UInt8) (past : List Call) (r : Record) : Prop where
  /-- Writing is on. -/
  writing : r.conn.writing_ = true
  /-- The connection was not shut down. -/
  open_ : .shutdownWrite ∉ r.effects
  /-- No write was finished. -/
  unfinished : .queueInLoop .writeComplete ∉ r.effects
  /-- The socket got bytes before the zero, one at least for each event that takes something. -/
  handed : ∃ k ≤ (front q).length, min (takes past) (front q).length ≤ k ∧
    handed r.effects = q.take k ∧ Holds r.conn.outputBuffer_ (q.drop k) ∧
    (Represents c.outputBuffer_ q → Represents r.conn.outputBuffer_ (q.drop k))

/-- No call gets past the zero. -/
theorem stalling_step (hz : 0 ∈ q) {past : List Call} {r r' : Record} {call : Call}
    (h : Stalling c q past r) (he : step r call = some r') : Stalling c q (past ++ [call]) r' := by
  obtain ⟨hw, hopen, hunfinished, k, hk, htakes, hhanded, hleft, hkept⟩ := h
  obtain ⟨out, hout, rfl⟩ := ok_of_toOption_map he
  have hmem := zero_mem_drop hz hk
  have hadded : ∀ {e : Effect}, e ∉ r.effects → e ∉ out.2 → e ∉ r.effects ++ out.2 :=
    fun hold hnew he => (List.mem_append.mp he).elim hold hnew
  cases hcall : call.writes with
  | true =>
    obtain ⟨beyond, res, rfl⟩ : ∃ beyond res, call = .handleWrite beyond res := by
      cases call with
      | handleWrite beyond res => exact ⟨beyond, res, rfl⟩
      | _ => cases hcall
    have hends : EndsInside r.conn.outputBuffer_ beyond :=
      Or.inr (Or.inl ⟨_, hleft.peek_all, hmem⟩)
    obtain ⟨out', hout', hoffered⟩ := handleWrite_pending hw hleft hends res
    cases hout.symm.trans hout'
    have hmore := takes_le (q := q.drop k) beyond res
    have hmax : taken (q.drop k) res ≤ (front (q.drop k)).length := Nat.min_le_right _ _
    have hfront := front_lt hmem
    have hmost : (front (q.drop k)).length = (front q).length - k := by
      rw [front_drop hk, List.length_drop]
    obtain ⟨s, done, hdone, hgoes⟩ := hoffered.goes
    rw [if_neg fun hall => by omega] at hgoes
    rw [hgoes] at hadded
    refine ⟨?_, ?_, ?_, k + taken (q.drop k) res, by omega, ?_, ?_, ?_, fun hrep => ?_⟩
    · rw [hgoes]
      exact hw
    · rw [hgoes]
      exact hadded hopen fun hnew => by cases (hdone _ hnew).choose_spec
    · rw [hgoes]
      exact hadded hunfinished fun hnew => by cases (hdone _ hnew).choose_spec
    · rw [takes_append]
      omega
    · dsimp only
      rw [handed_append, hhanded, hoffered.handed, ← List.take_add]
    · rw [← List.drop_drop]
      exact hoffered.left
    · rw [← List.drop_drop]
      exact hoffered.kept (hkept hrep)
  | false =>
    have haside := aside_of_perform hcall (Or.inl hw) hout
    refine ⟨haside.writing.trans hw, hadded hopen (haside.open_ hw),
      hadded hunfinished fun hnew => haside.silent _ hnew, k, hk, ?_, ?_, ?_⟩
    · rwa [takes_append, takes_of_not_writes hcall, Nat.add_zero]
    · dsimp only
      rw [handed_append, handed_silent haside.silent, List.append_nil, hhanded]
    · dsimp only
      rw [haside.buffer]
      exact ⟨hleft, hkept⟩

/-- With a zero among the pending bytes, whatever calls follow, the socket gets pending
bytes before the zero and nothing else: one at least with each write event that takes
something, until only the zero and what follows it is left. Writing stays on, nothing is
announced, and the connection is never shut down. -/
theorem zero_stalls (c : Connection) (q : List UInt8) (hw : c.writing_ = true)
    (h : Holds c.outputBuffer_ q) (hz : 0 ∈ q) (calls : List Call) (r : Record)
    (hrun : run step ⟨c, []⟩ calls = some r) : Stalling c q calls r := by
  refine invariant_of_past (Stalling c q) (fun _ _ _ _ _ hs he => stalling_step hz hs he) ?_ hrun
  exact ⟨hw, nofun, nofun, 0, Nat.zero_le _, Nat.min_le_left _ _, rfl, h, fun hrep => hrep⟩

/-- A buffer to which the bytes were written. -/
def holding (data : List UInt8) : KBuffer :=
  ((KBuffer.fresh.write data).toOption.map Prod.fst).getD .fresh

/-- It holds them. -/
theorem represents_holding {data : List UInt8} (hmax : data.length ≤ MAX_BLOCK_SIZE) :
    Represents (holding data) data := by
  have hacc : Accepts KBuffer.fresh data.length := Or.inr ⟨by decide, hmax⟩
  rcases represents_fresh.write data with ⟨_, s, hw, hrep⟩ | ⟨hno, _⟩
  · unfold holding
    rw [hw]
    exact hrep
  · exact absurd hacc hno

/-- A connection that waits for its socket to take the bytes. -/
def busy (data : List UInt8) : Connection :=
  ⟨.kConnected, true, true, .fresh, holding data, false, false, true, true⟩

/-- The socket gets the byte before the zero; neither the rest nor what is sent later. -/
theorem zero_stalls_three :
    ∃ r, run step ⟨busy [7, 0, 9], []⟩ [.handleWrite [] (.accepted 5), .sendInLoop [1] (.accepted 1),
        .handleWrite [] (.accepted 5)] = some r ∧ handed r.effects = [7] ∧
      r.conn.writing_ = true := by
  obtain ⟨r, hr⟩ := Option.isSome_iff_exists.mp (show (run step ⟨busy [7, 0, 9], []⟩
    [.handleWrite [] (.accepted 5), .sendInLoop [1] (.accepted 1),
      .handleWrite [] (.accepted 5)]).isSome = true by decide +kernel)
  have h := zero_stalls (busy [7, 0, 9]) [7, 0, 9] rfl (represents_holding (by decide)).holds
    (by decide) _ r hr
  obtain ⟨k, hmax, hleast, hhanded, _⟩ := h.handed
  obtain rfl : k = 1 := le_antisymm hmax hleast
  exact ⟨r, hr, hhanded, h.writing⟩

/-! ### No zero among the pending bytes -/

/-- What finishes a write: it is announced once. -/
theorem finishWrite_announces (c : Connection) :
    c.finishWrite.1.writing_ = false ∧
      c.finishWrite.1.writeCompleteCallback_ = c.writeCompleteCallback_ ∧
      c.finishWrite.2.count (.queueInLoop .writeComplete) =
        if c.writeCompleteCallback_ then 1 else 0 := by
  unfold Connection.finishWrite Connection.disableWriting Connection.shutdownInLoop
    Connection.isWriting
  refine ⟨rfl, rfl, ?_⟩
  by_cases hcb : c.writeCompleteCallback_ = true
  · by_cases hst : c.state_ = .kDisconnecting <;> simp [hcb, hst]
  · by_cases hst : c.state_ = .kDisconnecting <;> simp [hcb, hst]

/-- The record of calls while the pending bytes `q` go to the socket. -/
structure Draining (c : Connection) (q : List UInt8) (past : List Call) (r : Record) : Prop where
  /-- The blocks stay. -/
  buflen : r.conn.outputBuffer_.buflen_ = c.outputBuffer_.buflen_
  /-- The callback stays. -/
  callback : r.conn.writeCompleteCallback_ = c.writeCompleteCallback_
  /-- The socket got pending bytes, one at least for each event that takes something. -/
  handed : ∃ k ≤ q.length, min (takes past) q.length ≤ k ∧ handed r.effects = q.take k ∧
    Holds r.conn.outputBuffer_ (q.drop k) ∧
    (Represents c.outputBuffer_ q → Represents r.conn.outputBuffer_ (q.drop k)) ∧
    (r.conn.writing_ = true ↔ k < q.length) ∧
    r.effects.count (.queueInLoop .writeComplete) =
      if k = q.length ∧ c.writeCompleteCallback_ = true then 1 else 0

/-- What comes behind the scratch array does not matter for these bytes. -/
def Ends (c : Connection) (q : List UInt8) : Call → Prop
  | .handleWrite beyond _ => q.length < c.outputBuffer_.buflen_ ∨ KBuffer.cString beyond = []
  | .sendInLoop _ _ => False
  | _ => True

/-- A call that leaves the pending bytes alone. -/
theorem Draining.aside {past : List Call} {r : Record} (h : Draining c q past r) {call : Call}
    {out : Connection × List Effect} (haside : Aside r.conn out)
    (htakes : call.takes = 0 ∨ r.conn.writing_ = false) :
    Draining c q (past ++ [call]) ⟨out.1, r.effects ++ out.2⟩ := by
  obtain ⟨hbuflen, hcallback, k, hk, hleast, hhanded, hleft, hkept, hwriting, hcount⟩ := h
  have hnone : .queueInLoop .writeComplete ∉ out.2 := fun hnew => haside.silent _ hnew
  refine ⟨?_, haside.callback.trans hcallback, k, hk, ?_, ?_, ?_, ?_, ?_, ?_⟩
  · rw [← hbuflen, ← haside.buffer]
  · rw [takes_append]
    rcases htakes with hzero | hoff
    · rwa [hzero, Nat.add_zero]
    · have hall : ¬k < q.length := fun hlt => by cases hoff.symm.trans (hwriting.mpr hlt)
      omega
  · rw [handed_append, handed_silent haside.silent, List.append_nil, hhanded]
  · dsimp only
    rw [haside.buffer]
    exact hleft
  · dsimp only
    rw [haside.buffer]
    exact hkept
  · dsimp only
    rw [haside.writing]
    exact hwriting
  · rw [List.count_append, List.count_eq_zero.mpr hnone, hcount, Nat.add_zero]

/-- A write event while bytes are pending. -/
theorem Draining.offered (hz : 0 ∉ q) {past : List Call} {r : Record} (h : Draining c q past r)
    (hw : r.conn.writing_ = true) {beyond : List UInt8} {res : WriteResult}
    (hends : Ends c q (.handleWrite beyond res)) {out : Connection × List Effect}
    (hout : r.conn.handleWrite beyond res = .ok out) :
    Draining c q (past ++ [.handleWrite beyond res]) ⟨out.1, r.effects ++ out.2⟩ := by
  obtain ⟨hbuflen, hcallback, k, hk, hleast, hhanded, hleft, hkept, hwriting, hcount⟩ := h
  have hlt : k < q.length := hwriting.mp hw
  have hsize : r.conn.outputBuffer_.readableSize_ = q.length - k := by
    rw [← List.length_drop]
    exact hleft.length
  have hinside : EndsInside r.conn.outputBuffer_ beyond := by
    refine hends.imp (fun hfree => ?_) fun hnil => Or.inr hnil
    rw [hsize, hbuflen]
    omega
  obtain ⟨out', hout', hoffered⟩ := handleWrite_pending hw hleft hinside res
  cases hout.symm.trans hout'
  have hfront : front (q.drop k) = q.drop k := front_eq_self fun hmem => hz (List.mem_of_mem_drop hmem)
  have hmore := takes_le (q := q.drop k) beyond res
  have hmax : taken (q.drop k) res ≤ (front (q.drop k)).length := Nat.min_le_right _ _
  rw [hfront, List.length_drop] at hmore hmax
  have hzero : r.effects.count (.queueInLoop .writeComplete) = 0 := by
    rw [hcount, if_neg fun hall => hlt.ne hall.1]
  obtain ⟨s, done, hdone, hgoes⟩ := hoffered.goes
  have hplain : done.count (.queueInLoop .writeComplete) = 0 :=
    List.count_eq_zero.mpr fun hnew => by cases (hdone _ hnew).choose_spec
  refine ⟨hoffered.buflen.trans hbuflen, ?_, k + taken (q.drop k) res, by omega, ?_, ?_, ?_,
    fun hrep => ?_, ?_, ?_⟩
  · rw [hgoes]
    split
    · exact (finishWrite_announces _).2.1.trans hcallback
    · exact hcallback
  · rw [takes_append]
    omega
  · dsimp only
    rw [handed_append, hhanded, hoffered.handed, ← List.take_add]
  · rw [← List.drop_drop]
    exact hoffered.left
  · rw [← List.drop_drop]
    exact hoffered.kept (hkept hrep)
  · rw [hgoes, List.length_drop]
    split
    case isTrue hall =>
      dsimp only
      rw [(finishWrite_announces _).1]
      exact ⟨nofun, fun hmore => by omega⟩
    case isFalse hsome =>
      exact ⟨fun _ => by omega, fun _ => hw⟩
  · rw [hgoes, List.length_drop]
    split
    case isTrue hall =>
      dsimp only
      rw [List.count_append, List.count_append, hzero, hplain, (finishWrite_announces _).2.2]
      dsimp only
      rw [hcallback, Nat.zero_add, Nat.zero_add]
      refine if_congr (iff_and_self.mpr fun _ => by omega) rfl rfl
    case isFalse hsome =>
      rw [List.count_append, hzero, hplain, if_neg fun hall => by omega]

/-- Every call takes the pending bytes further, or leaves them alone. -/
theorem draining_step (hz : 0 ∉ q) {past : List Call} {r r' : Record} {call : Call}
    (h : Draining c q past r) (hends : Ends c q call) (he : step r call = some r') :
    Draining c q (past ++ [call]) r' := by
  obtain ⟨out, hout, rfl⟩ := ok_of_toOption_map he
  cases call with
  | sendInLoop data res => exact absurd hends id
  | handleWrite beyond res =>
    cases hw : r.conn.writing_ with
    | true => exact h.offered hz hw hends hout
    | false =>
      have hnothing : r.conn.handleWrite beyond res = .ok (r.conn, []) :=
        if_neg (Bool.eq_false_iff.mp hw)
      cases hnothing.symm.trans hout
      exact h.aside (.nothing _) (Or.inr hw)
  | _ => exact h.aside (aside_of_perform rfl (Or.inr rfl) hout) (Or.inl rfl)

/-- Without a zero among them, the pending bytes go to the socket in order, one at least
with each write event in which it takes something. When there were as many of these as
pending bytes, all are there and nothing else: writing is off, and the end of the write
was announced once, if there is a callback. -/
theorem output_drains (c : Connection) (q : List UInt8) (hw : c.writing_ = true)
    (h : Holds c.outputBuffer_ q) (hpos : 0 < q.length) (hz : 0 ∉ q) (calls : List Call)
    (hends : ∀ call ∈ calls, Ends c q call) (r : Record) (hrun : run step ⟨c, []⟩ calls = some r)
    (henough : q.length ≤ takes calls) :
    handed r.effects = q ∧ Holds r.conn.outputBuffer_ [] ∧
      (Represents c.outputBuffer_ q → Represents r.conn.outputBuffer_ []) ∧
      r.conn.writing_ = false ∧
      r.effects.count (.queueInLoop .writeComplete) = if c.writeCompleteCallback_ then 1 else 0 := by
  have hdraining : (∀ call ∈ calls, Ends c q call) → Draining c q calls r := by
    refine invariant_of_past (fun past r => (∀ call ∈ past, Ends c q call) → Draining c q past r)
      (fun past r call r' _ hs he hall => ?_) (fun _ => ?_) hrun
    · exact draining_step hz (hs fun call hmem => hall call (List.mem_append_left _ hmem))
        (hall call (List.mem_append_right _ (List.mem_singleton_self call))) he
    · refine ⟨rfl, rfl, 0, Nat.zero_le _, Nat.min_le_left _ _, rfl, h, fun hrep => hrep, ?_, ?_⟩
      · exact ⟨fun _ => hpos, fun _ => hw⟩
      · exact (if_neg fun hall => hpos.ne hall.1).symm
  obtain ⟨_, _, k, hk, hleast, hhanded, hleft, hkept, hwriting, hcount⟩ := hdraining hends
  obtain rfl : k = q.length := by omega
  rw [List.take_length] at hhanded
  rw [List.drop_length] at hleft hkept
  refine ⟨hhanded, hleft, hkept, ?_, ?_⟩
  · exact Bool.eq_false_iff.mpr fun hon => lt_irrefl _ (hwriting.mp hon)
  · rw [hcount]
    exact if_congr (and_iff_right rfl) rfl rfl

/-- Three bytes in three write events. -/
theorem output_drains_three :
    ∃ r, run step ⟨busy [7, 8, 9], []⟩ [.handleWrite [] (.accepted 1), .shutdown,
        .handleWrite [] (.failed .EAGAIN), .handleWrite [] (.accepted 1),
        .handleWrite [] (.accepted 5)] = some r ∧
      handed r.effects = [7, 8, 9] ∧ r.conn.writing_ = false ∧
      r.effects.count (.queueInLoop .writeComplete) = 1 := by
  obtain ⟨r, hr⟩ := Option.isSome_iff_exists.mp (show (run step ⟨busy [7, 8, 9], []⟩
    [.handleWrite [] (.accepted 1), .shutdown, .handleWrite [] (.failed .EAGAIN),
      .handleWrite [] (.accepted 1), .handleWrite [] (.accepted 5)]).isSome = true by decide +kernel)
  obtain ⟨hhanded, _, _, hoff, hcount⟩ := output_drains (busy [7, 8, 9]) [7, 8, 9] rfl
    (represents_holding (by decide)).holds (by decide) (by decide) _ (by simp [Ends, KBuffer.cString]) r hr
    (by decide)
  exact ⟨r, hr, hhanded, hoff, hcount⟩

end KKNet.ConnectionPending
