import KKNet.ConnectionInput

/-!
# An application that keeps up, and one that does not

How much may be left unread: while what is unread and what arrives stay a block below the
limit, nothing of what was delivered is lost. Each arrival is announced once and the
connection stays open exactly as long as `readv` takes the vectors and a read that finds
nothing returns a negative value. `readv` refuses too many vectors, and large buffers get
there: when most of it was taken out at once, the blocks that were read go behind the
write cursor. An application that stops reading has its connection closed after a bounded
number of arrivals, each of which made the buffer grow.
-/

namespace KKNet.ConnectionFlood

open Runs Results BlockBuffer BlockLayout BlockQueue Connections ConnectionInput
open BlockCapacity (VEC_SIZE IOV_MAX vectors)
open ConnectionDelivery (Spills)
open ConnectionPending (Call)

variable {s : KBuffer} {q avail : List UInt8} {r r' : Receiver} {e : Event}

/-! ### An application that keeps up -/

/-- What `readv` answers as long as the peer neither closes nor resets: bytes that arrived,
or that there are none yet. It takes so many vectors, and refuses more of them with
`EINVAL`. Where it fails, `readFd` returns nothing, and the caller sees an arbitrary value. -/
def Answers (s : KBuffer) : ReadResult → Prop
  | .received avail => vectors s ≤ IOV_MAX ∧ avail ≠ []
  | .failed errno _ => errno = if vectors s ≤ IOV_MAX then .EAGAIN else .other

instance : ∀ s res, Decidable (Answers s res)
  | _, .received _ => inferInstanceAs (Decidable (_ ∧ _))
  | _, .failed _ _ => inferInstanceAs (Decidable (_ = _))

/-- The unread bytes and those that arrive stay a block below the limit. -/
def Roomy (s : KBuffer) : ReadResult → Prop
  | .received avail =>
    s.getReadableSize + min avail.length (s.writableSize_ + KBuffer.EXTRA_SIZE) + BLOCK_SIZE ≤
      MAX_BLOCK_SIZE
  | .failed _ _ => True

instance : ∀ s res, Decidable (Roomy s res)
  | _, .received _ => inferInstanceAs (Decidable (_ ≤ _))
  | _, .failed _ _ => .isTrue trivial

/-- The array of `readFd` holds the vectors, and there is room for what arrives. Nobody
closes. -/
def KeepsUp (r : Receiver) : Event → Prop
  | .call (.handleRead res) =>
    vectors r.conn.inputBuffer_ ≤ VEC_SIZE ∧ Answers r.conn.inputBuffer_ res ∧
      Roomy r.conn.inputBuffer_ res
  | .call .handleClose => False
  | _ => True

instance : ∀ r e, Decidable (KeepsUp r e)
  | _, .call call =>
    match call with
    | .handleRead _ => inferInstanceAs (Decidable (_ ∧ _))
    | .handleClose => .isFalse id
    | .sendInLoop _ _ | .handleWrite _ _ | .shutdown | .shutdownInLoop | .forceClose
    | .connectDestroyed => .isTrue trivial
  | _, .peek _ | _, .read _ | _, .retrieve _ => .isTrue trivial

/-- `readv` takes the vectors, and if there is nothing yet `readFd` happens to return a
negative value. -/
def Answered (r : Receiver) : Event → Prop
  | .call (.handleRead (.received _)) => vectors r.conn.inputBuffer_ ≤ IOV_MAX
  | .call (.handleRead (.failed _ ret)) => vectors r.conn.inputBuffer_ ≤ IOV_MAX ∧ ret < 0
  | _ => True

instance : ∀ r e, Decidable (Answered r e)
  | _, .call call =>
    match call with
    | .handleRead (.received _) => inferInstanceAs (Decidable (_ ≤ _))
    | .handleRead (.failed _ _) => inferInstanceAs (Decidable (_ ∧ _))
    | .handleClose | .sendInLoop _ _ | .handleWrite _ _ | .shutdown | .shutdownInLoop
    | .forceClose | .connectDestroyed => .isTrue trivial
  | _, .peek _ | _, .read _ | _, .retrieve _ => .isTrue trivial

/-- A read to which bytes are delivered. -/
def arrives : Event → ℕ
  | .call (.handleRead (.received _)) => 1
  | _ => 0

/-- How many of them there are. -/
def arrivals (events : List Event) : ℕ := (events.map arrives).sum

/-- With room, nothing of what is delivered spills beyond the limit. -/
theorem spills_of_roomy (h : Holds s q) (hroomy : Roomy s (.received avail)) :
    Spills s (avail.take (s.writableSize_ + KBuffer.EXTRA_SIZE)).length := by
  obtain ⟨chain, ri, wi, hl, _⟩ := h
  have htotal := hl.total
  have hpos := hl.reader.pos_le
  unfold Roomy KBuffer.getReadableSize at hroomy
  rw [List.length_take]
  intro hover
  omega

/-- Nothing was lost, and every arrival was announced. -/
structure Kept (past : List Event) (r : Receiver) : Prop where
  /-- What was delivered was consumed or is unread. -/
  stream : ∃ q, Holds r.conn.inputBuffer_ q ∧ r.consumed ++ q = r.delivered
  /-- The callback is set. -/
  callback : r.conn.messageCallback_ = true
  /-- Each arrival was announced. -/
  announced : arrivals past ≤ r.effects.count .messageCallback

/-- The connection was not closed, and nothing but arrivals was announced. -/
def Undisturbed (past : List Event) (r : Receiver) : Prop :=
  Open r ∧ r.effects.count .messageCallback = arrivals past

theorem arrivals_append (past events : List Event) :
    arrivals (past ++ events) = arrivals past + arrivals events := by
  unfold arrivals
  rw [List.map_append, List.sum_append]

@[simp] theorem arrivals_singleton (e : Event) : arrivals [e] = arrives e := by
  simp [arrivals]

/-- What an event does outside: it announces what arrives, and unless `readv` answered it
closes the connection or announces more. -/
structure Announces (r : Receiver) (e : Event) (new : List Effect) : Prop where
  /-- What arrives is announced. -/
  announced : arrives e ≤ new.count .messageCallback
  /-- That is all exactly if `readv` answered. -/
  answered : .deleteAllEvent ∉ new ∧ new.count .messageCallback = arrives e ↔ Answered r e

/-- An event that does so leaves all in order, and the connection undisturbed exactly if it
was and `readv` answered. -/
theorem Kept.next {past : List Event} (h : Kept past r) (new : List Effect)
    (hstream : ∃ q, Holds r'.conn.inputBuffer_ q ∧ r'.consumed ++ q = r'.delivered)
    (hcallback : r'.conn.messageCallback_ = r.conn.messageCallback_)
    (heffects : r'.effects = r.effects ++ new) (hnew : Announces r e new) :
    Kept (past ++ [e]) r' ∧ (Undisturbed (past ++ [e]) r' ↔ Undisturbed past r ∧ Answered r e) := by
  have hbefore := h.announced
  have hadded := hnew.announced
  have hcount : r'.effects.count .messageCallback =
      r.effects.count .messageCallback + new.count .messageCallback := by
    rw [heffects, List.count_append]
  have harrivals : arrivals (past ++ [e]) = arrivals past + arrives e := by
    rw [arrivals_append, arrivals_singleton]
  refine ⟨⟨hstream, hcallback.trans h.callback, ?_⟩, ?_⟩
  · rw [hcount, harrivals]
    omega
  · rw [← hnew.answered]
    unfold Undisturbed Open
    rw [hcount, harrivals, heffects, List.mem_append, not_or]
    constructor
    · rintro ⟨⟨hopen, hnone⟩, hsum⟩
      exact ⟨⟨hopen, by omega⟩, hnone, by omega⟩
    · rintro ⟨⟨hopen, hpast⟩, hnone, hthis⟩
      exact ⟨⟨hopen, hnone⟩, by omega⟩

/-- Bytes arrive while there is room. -/
theorem Kept.received {past : List Event} (h : Kept past r)
    (hanswers : Answers r.conn.inputBuffer_ (.received avail))
    (hroomy : Roomy r.conn.inputBuffer_ (.received avail))
    (he : step r (.call (.handleRead (.received avail))) = some r') :
    Kept (past ++ [.call (.handleRead (.received avail))]) r' ∧
      (Undisturbed (past ++ [.call (.handleRead (.received avail))]) r' ↔
        Undisturbed past r ∧ Answered r (.call (.handleRead (.received avail)))) := by
  obtain ⟨q, hq, hstream⟩ := h.stream
  obtain ⟨data, s', k, ed, er, hdata, hs', hspills, _⟩ := readFd_count hq avail
  have hk : k = data.length := hspills (hdata ▸ spills_of_roomy hq hroomy)
  have hpos : 0 < k := by
    have hlen := List.length_pos_iff.mpr hanswers.2
    have hextra : 0 < KBuffer.EXTRA_SIZE := by decide
    rw [hk, hdata, List.length_take]
    omega
  have hread : r.conn.handleRead (.received avail) =
      .ok ({ r.conn with inputBuffer_ := s' }, [.messageCallback]) := by
    rw [handleRead_received er]
    unfold Connection.afterRead
    rw [if_pos (by omega), if_pos h.callback]
  have hperform : perform r (.call (.handleRead (.received avail))) = .ok { r with
      conn := { r.conn with inputBuffer_ := s' }
      delivered := r.delivered ++ data
      effects := r.effects ++ [.messageCallback] } := by
    unfold perform gained ConnectionPending.perform
    dsimp only
    rw [ed, ok_bind, hread]
    rfl
  cases hperform.symm.trans (ok_of_toOption he)
  refine h.next [.messageCallback] ⟨q ++ data, ?_, ?_⟩ rfl rfl
    ⟨le_rfl, iff_of_true ⟨by simp, rfl⟩ hanswers.1⟩
  · rw [hk, List.take_length] at hs'
    exact hs'
  · rw [← List.append_assoc, hstream]

/-- After a read that failed `handleRead` neither closes nor announces anything exactly if
there was nothing yet and the value is negative. -/
theorem afterRead_failed {c : Connection} (hm : c.messageCallback_ = true) (errno : Errno)
    (ret : ℤ) :
    (c.afterRead ret errno).1.messageCallback_ = c.messageCallback_ ∧
      (.deleteAllEvent ∉ (c.afterRead ret errno).2 ∧
        (c.afterRead ret errno).2.count .messageCallback = 0 ↔ errno = .EAGAIN ∧ ret < 0) := by
  have hclose : c.handleClose.1.messageCallback_ = c.messageCallback_ := by
    unfold Connection.handleClose
    by_cases hs : c.state_ = .kDisconnecting <;> simp [hs]
  have hmem := (handleClose_input c).2
  unfold Connection.afterRead
  by_cases hpos : ret > 0
  · rw [if_pos hpos, if_pos hm]
    exact ⟨rfl, iff_of_false (fun hnone => absurd hnone.2 Nat.one_ne_zero) (by omega)⟩
  rw [if_neg hpos]
  by_cases hzero : ret = 0
  · rw [if_pos hzero]
    exact ⟨hclose, iff_of_false (fun hnone => hnone.1 hmem) (by omega)⟩
  rw [if_neg hzero]
  by_cases herr : errno ≠ .EAGAIN
  · rw [if_pos herr]
    exact ⟨hclose, iff_of_false (fun hnone => hnone.1 hmem) (fun hagain => herr hagain.1)⟩
  · rw [if_neg herr]
    exact ⟨rfl, iff_of_true ⟨nofun, rfl⟩ ⟨not_not.mp herr, by omega⟩⟩

/-- A read that finds nothing yet, or whose vectors `readv` refuses. -/
theorem Kept.failed {past : List Event} (h : Kept past r) {errno : Errno} {ret : ℤ}
    (hanswers : Answers r.conn.inputBuffer_ (.failed errno ret))
    (he : step r (.call (.handleRead (.failed errno ret))) = some r') :
    Kept (past ++ [.call (.handleRead (.failed errno ret))]) r' ∧
      (Undisturbed (past ++ [.call (.handleRead (.failed errno ret))]) r' ↔
        Undisturbed past r ∧ Answered r (.call (.handleRead (.failed errno ret)))) := by
  obtain ⟨q, hq, hstream⟩ := h.stream
  have hbuf := (afterRead_input r.conn ret errno).1
  obtain ⟨hcallback, hquiet⟩ := afterRead_failed h.callback errno ret
  cases show Except.ok _ = Except.ok r' from ok_of_toOption he
  refine h.next _ ⟨q, hbuf.symm ▸ hq, (List.append_nil _).symm ▸ hstream⟩ hcallback rfl
    ⟨Nat.zero_le _, hquiet.trans (and_congr_left fun _ => ?_)⟩
  unfold Answers at hanswers
  rw [hanswers]
  by_cases htakes : vectors r.conn.inputBuffer_ ≤ IOV_MAX
  · rw [if_pos htakes]
    exact iff_of_true rfl htakes
  · rw [if_neg htakes]
    exact iff_of_false nofun htakes

/-- A call that leaves the input alone. -/
theorem Kept.outward {past : List Event} (h : Kept past r) {call : Call}
    (hread : ∀ res, call ≠ .handleRead res) (hclose : call ≠ .handleClose)
    (he : step r (.call call) = some r') :
    Kept (past ++ [.call call]) r' ∧
      (Undisturbed (past ++ [.call call]) r' ↔ Undisturbed past r ∧ Answered r (.call call)) := by
  obtain ⟨q, hq, hstream⟩ := h.stream
  have he : perform r (.call call) = .ok r' := ok_of_toOption he
  obtain ⟨data, hdata, he⟩ := ok_of_bind he
  obtain ⟨out, hout, he⟩ := ok_of_bind he
  cases he
  have hnone : data = [] ∧ arrives (.call call) = 0 ∧ Answered r (.call call) := by
    cases call with
    | handleRead res => exact absurd rfl (hread res)
    | _ =>
      cases hdata
      exact ⟨rfl, rfl, trivial⟩
  obtain ⟨hdata, harrives, hanswered⟩ := hnone
  have hout := outward_of_perform hout hread hclose
  have hcount : out.2.count .messageCallback = arrives (.call call) :=
    (List.count_eq_zero.mpr (hout.not_mem rfl)).trans harrives.symm
  refine h.next _ ⟨q, hout.buffer.symm ▸ hq, ?_⟩ hout.callback rfl
    ⟨hcount.ge, iff_of_true ⟨hout.not_mem rfl, hcount⟩ hanswered⟩
  rw [hdata, List.append_nil, hstream]

/-- Every event of an application that keeps up leaves all in order, and the connection
undisturbed exactly if it was and `readv` answered. -/
theorem kept_step {past : List Event} (h : Kept past r) (hkeeps : KeepsUp r e)
    (he : step r e = some r') :
    Kept (past ++ [e]) r' ∧
      (Undisturbed (past ++ [e]) r' ↔ Undisturbed past r ∧ Answered r e) := by
  by_cases hcall : ∃ call, e = .call call
  · obtain ⟨call, rfl⟩ := hcall
    cases call with
    | handleRead res =>
      obtain ⟨_, hanswers, hroomy⟩ := hkeeps
      cases res with
      | received avail => exact h.received hanswers hroomy he
      | failed errno ret => exact h.failed hanswers he
    | handleClose => exact absurd hkeeps id
    | _ => exact h.outward nofun nofun he
  · obtain ⟨q, hq, hstream⟩ := h.stream
    obtain ⟨q', ⟨s, hconn⟩, hholds, hconsumed, hdelivered, heffects⟩ :=
      taken_of_step hq (fun call heq => hcall ⟨call, heq⟩) he
    have hnone : arrives e = 0 ∧ Answered r e := by
      cases e with
      | call call => exact absurd ⟨call, rfl⟩ hcall
      | _ => exact ⟨rfl, trivial⟩
    obtain ⟨harrives, hanswered⟩ := hnone
    refine h.next [] ⟨q', hholds, ?_⟩ ?_ (heffects.trans (List.append_nil _).symm)
      ⟨harrives.le, iff_of_true ⟨nofun, harrives.symm⟩ hanswered⟩
    · rw [hconsumed, hdelivered, hstream]
    · rw [hconn]

/-- A new connection has nothing to keep. -/
theorem kept_start {c : Connection} (hb : c.inputBuffer_ = KBuffer.fresh)
    (hm : c.messageCallback_ = true) : Kept [] (start c) :=
  ⟨⟨[], holds_start hb, rfl⟩, hm, Nat.zero_le _⟩

/-- An application that leaves a block less than the limit for what is unread and what
arrives loses nothing of what was delivered. It is told of each arrival once, of nothing
else, and keeps its connection, exactly if there are never more blocks behind the write
cursor than `readv` takes and no read that finds nothing yet returns another value than a
negative one. -/
theorem kept_up_iff (c : Connection) (hb : c.inputBuffer_ = KBuffer.fresh)
    (hm : c.messageCallback_ = true) (events : List Event) (r : Receiver)
    (hrun : run step (start c) events = some r) (hkeeps : Meets step KeepsUp (start c) events) :
    (∃ unread, r.conn.inputBuffer_.peek r.conn.inputBuffer_.getReadableSize = .ok unread ∧
        r.consumed ++ unread = r.delivered) ∧
      arrivals events ≤ r.effects.count .messageCallback ∧
      (.deleteAllEvent ∉ r.effects ∧ r.effects.count .messageCallback = arrivals events ↔
        Meets step Answered (start c) events) := by
  have hstart := kept_start hb hm
  have hkept := invariant_of_past_of_meets Kept (fun _ _ _ _ hs hk he => (kept_step hs hk he).1)
    hstart hkeeps hrun
  have hundisturbed := run_iff_meets Kept Undisturbed (fun _ _ _ _ hs hk he => kept_step hs hk he)
    [] hstart hkeeps hrun
  rw [List.nil_append] at hkept hundisturbed
  obtain ⟨q, hq, hstream⟩ := hkept.stream
  exact ⟨⟨q, hq.peek_all, hstream⟩, hkept.announced,
    hundisturbed.trans (and_iff_right ⟨nofun, rfl⟩)⟩

/-- Two bytes arrive, one is taken out, a read finds nothing, and more bytes arrive than a
block has room for. -/
def quiet : List Event :=
  [.call (.handleRead (.received [7, 8])), .read 1, .call (.handleRead (.failed .EAGAIN (-1))),
    .call (.handleRead (.received (List.replicate 1100 9)))]

/-- Both arrivals are announced. A read that finds nothing and returns a number is
announced, too. -/
theorem kept_up_iff_quiet :
    (∃ r, run step (start new) quiet = some r ∧
      .deleteAllEvent ∉ r.effects ∧ r.effects.count .messageCallback = 2) ∧
    ∃ r, run step (start new) (quiet ++ [.call (.handleRead (.failed .EAGAIN 5))]) = some r ∧
      ¬(.deleteAllEvent ∉ r.effects ∧ r.effects.count .messageCallback = 2) := by
  constructor
  · obtain ⟨r, hrun⟩ := Option.isSome_iff_exists.mp
      (show (run step (start new) quiet).isSome = true by decide +kernel)
    obtain ⟨_, _, hiff⟩ := kept_up_iff new rfl rfl quiet r hrun (by decide +kernel)
    exact ⟨r, hrun, hiff.mpr (by decide +kernel)⟩
  · obtain ⟨r, hrun⟩ := Option.isSome_iff_exists.mp (show (run step (start new)
      (quiet ++ [.call (.handleRead (.failed .EAGAIN 5))])).isSome = true by decide +kernel)
    obtain ⟨_, _, hiff⟩ := kept_up_iff new rfl rfl _ r hrun (by decide +kernel)
    exact ⟨r, hrun, fun hno => absurd (hiff.mp hno) (by decide +kernel)⟩

/-! ### An application that stopped reading -/

/-- The application takes bytes out. -/
def consumes : Event → Bool
  | .read _ => true
  | .retrieve _ => true
  | _ => false

/-- A spill adds blocks for at most the size of the array it comes from, and none over the
limit. -/
theorem spillGrowth_le (h : Holds s q) (avail : List UInt8) :
    s.buflen_ + BlockCapacity.spillGrowth s avail ≤
      max s.buflen_ (MAX_BLOCK_SIZE + KBuffer.EXTRA_SIZE) := by
  obtain ⟨data, _, _, ed, _, hdata, _⟩ := readFd_count h avail
  have hlen : data.length ≤ s.writableSize_ + KBuffer.EXTRA_SIZE := by
    rw [hdata, List.length_take]
    exact Nat.min_le_left _ _
  have hblocks : BlockCapacity.blocksFor (data.length - s.writableSize_) ≤ KBuffer.EXTRA_SIZE := by
    have hsize : data.length - s.writableSize_ ≤ 65536 := by
      have : KBuffer.EXTRA_SIZE = 65536 := rfl
      omega
    unfold BlockCapacity.blocksFor BLOCK_SIZE KBuffer.EXTRA_SIZE
    omega
  unfold BlockCapacity.spillGrowth BlockCapacity.growth
  rw [ed]
  dsimp only
  split_ifs <;> omega

/-- Each arrival left a byte more unread, in a buffer that is not far over the limit. -/
def Flooded (past : List Event) (r : Receiver) : Prop :=
  ∃ q, Holds r.conn.inputBuffer_ q ∧ arrivals past ≤ q.length ∧
    r.conn.inputBuffer_.buflen_ ≤ MAX_BLOCK_SIZE + KBuffer.EXTRA_SIZE

/-- Unless the application takes bytes out, an arrival that leaves the connection open
leaves a byte in the buffer. -/
theorem flooded_step {past : List Event} (h : Flooded past r) (hno : consumes e = false)
    (hstays : Stays r e) (he : step r e = some r') : Flooded (past ++ [e]) r' := by
  obtain ⟨q, hq, hcount, hmax⟩ := h
  unfold Flooded
  rw [arrivals_append, arrivals_singleton]
  have he : perform r e = .ok r' := ok_of_toOption he
  cases e with
  | read size => cases hno
  | retrieve len => cases hno
  | peek size =>
    obtain ⟨_, _, he⟩ := ok_of_bind he
    cases he
    exact ⟨q, hq, hcount, hmax⟩
  | call call =>
    obtain ⟨_, _, he⟩ := ok_of_bind he
    obtain ⟨out, hout, he⟩ := ok_of_bind he
    cases he
    cases call with
    | handleRead res =>
      cases res with
      | received avail =>
        obtain ⟨data, s', k, ed, er, hzero⟩ := readFd_zero_iff hq avail
        obtain ⟨data₁, s₁, k₁, ed₁, er₁, _, hs', hyes, hover⟩ := readFd_count hq avail
        cases ed.symm.trans ed₁
        cases er.symm.trans er₁
        cases hout.symm.trans (handleRead_received er)
        have hbuf := (afterRead_input { r.conn with inputBuffer_ := s' } k .other).1
        have hpos : k ≠ 0 := fun heq => hzero.mp heq hstays
        have hle : k ≤ data.length := by
          by_cases hspills : Spills r.conn.inputBuffer_ data.length
          · exact (hyes hspills).le
          · obtain ⟨hk, hlt⟩ := hover hspills
            omega
        have hgrown := spillGrowth_le hq avail
        obtain ⟨chain, ri, wi, hl, _⟩ := id hq
        rw [← BlockCapacity.readFd_buflen ⟨chain, ri, wi, 0, hl⟩ er] at hgrown
        refine ⟨q ++ data.take k, ?_, ?_, ?_⟩
        · dsimp only
          rw [hbuf]
          exact hs'
        · have hone : arrives (.call (.handleRead (.received avail))) = 1 := rfl
          rw [hone, List.length_append, List.length_take]
          omega
        · dsimp only
          rw [hbuf]
          exact hgrown.trans (max_le hmax le_rfl)
      | failed errno ret =>
        cases hout
        have hbuf := (afterRead_input r.conn ret errno).1
        refine ⟨q, ?_, hcount, ?_⟩
        · dsimp only
          rw [hbuf]
          exact hq
        · dsimp only
          rw [hbuf]
          exact hmax
    | handleClose => exact absurd hstays id
    | _ =>
      have hbuf := (outward_of_perform hout nofun nofun).buffer
      exact ⟨q, hbuf.symm ▸ hq, hcount, hbuf.symm ▸ hmax⟩

/-- A peer that goes on sending to an application that takes nothing out of the input
buffer has the connection closed, at the latest with as many arrivals as the largest
buffer has bytes, and one. -/
theorem flood_closes (c : Connection) (hb : c.inputBuffer_ = KBuffer.fresh) (events : List Event)
    (hno : ∀ e ∈ events, consumes e = false) (r : Receiver)
    (hrun : run step (start c) events = some r)
    (hmany : MAX_BLOCK_SIZE + KBuffer.EXTRA_SIZE < arrivals events) :
    .deleteAllEvent ∈ r.effects := by
  by_contra hopen
  have hstays := (open_iff c hb events r hrun).mp hopen
  have hstart : Flooded [] (start c) := by
    refine ⟨[], holds_start hb, Nat.zero_le _, ?_⟩
    dsimp only [start]
    rw [hb]
    exact Nat.zero_le _
  obtain ⟨q, hq, hcount, hmax⟩ := invariant_of_past_of_meets Flooded
    (fun _ _ _ _ hs hk he => flooded_step hs hk.1 hk.2 he) hstart
    ((meets_of_forall (fun e => consumes e = false) hno _).and hstays) hrun
  rw [List.nil_append] at hcount
  have hle := hq.length_le
  omega

/-- Reads do not fault. -/
theorem exists_run_reads (h : Holds r.conn.inputBuffer_ q) (reads : List ReadResult) :
    ∃ r', run step r (reads.map fun res => .call (.handleRead res)) = some r' := by
  induction reads generalizing r q with
  | nil => exact ⟨r, rfl⟩
  | cons res reads ih =>
    obtain ⟨data, out, q', hdata, hout, hq', _⟩ := handleRead_spec h res
    obtain ⟨r₁, hstep, hq₁⟩ : ∃ r₁, step r (.call (.handleRead res)) = some r₁ ∧
        Holds r₁.conn.inputBuffer_ q' := by
      refine ⟨⟨out.1, r.delivered ++ data, r.consumed, r.effects ++ out.2⟩, ?_, hq'⟩
      unfold ConnectionInput.step perform ConnectionPending.perform
      dsimp only
      rw [hdata, ok_bind, hout]
      rfl
    obtain ⟨r', hrun⟩ := ih hq₁
    exact ⟨r', (run_cons_of_step hstep _).trans hrun⟩

/-- One byte at a time. -/
theorem flood_closes_slowly : ∃ r, run step (start new)
    ((List.replicate (MAX_BLOCK_SIZE + KBuffer.EXTRA_SIZE + 1) (.received [7])).map
      fun res => .call (.handleRead res)) = some r ∧ .deleteAllEvent ∈ r.effects := by
  obtain ⟨r, hrun⟩ := exists_run_reads (r := start new) represents_fresh.holds
    (List.replicate (MAX_BLOCK_SIZE + KBuffer.EXTRA_SIZE + 1) (.received [7]))
  refine ⟨r, hrun, flood_closes new rfl _ ?_ r hrun ?_⟩
  · intro e he
    obtain ⟨res, _, rfl⟩ := List.mem_map.mp he
    rfl
  · have hone : arrives (.call (.handleRead (.received [7]))) = 1 := rfl
    unfold arrivals
    rw [List.map_map, List.map_replicate, Function.comp_apply, hone, List.sum_replicate]
    simp

end KKNet.ConnectionFlood
