import Mathlib.Data.List.TakeWhile
import KKNet.BlockQueue
import KKNet.Connection

/-!
# The output stream of a connection

What `sendInLoop` and `handleWrite` hand to the socket, followed by what is
pending in the send buffer, should be what was sent. One step keeps this
exactly under a condition on the step, and a run keeps it throughout exactly
when every step meets that condition.
-/

namespace KKNet.ConnectionStream

open BlockBuffer BlockLayout BlockQueue Connections Results

/-- What the socket answers where no connection fault occurs. -/
inductive Answer
  /-- It takes this many bytes, if it is offered so many. -/
  | accepted (n : ℕ)
  /-- `EAGAIN`. -/
  | again

/-- The answer as `socket::write` gives it. -/
def Answer.result : Answer → WriteResult
  | .accepted n => .accepted n
  | .again => .failed .EAGAIN

/-- How many bytes are taken at most. -/
def Answer.count : Answer → ℕ
  | .accepted n => n
  | .again => 0

/-- A step of the output side of a connection. -/
inductive Event
  /-- `sendInLoop(data)`. -/
  | send (data : List UInt8) (ans : Answer)
  /-- `handleWrite`, with the memory behind the scratch array. -/
  | writable (beyond : List UInt8) (ans : Answer)

/-- A connection with the history of its output. -/
structure Output where
  /-- The connection. -/
  conn : Connection
  /-- The bytes the socket has taken. -/
  wire : List UInt8
  /-- The data of all `sendInLoop` calls. -/
  sent : List UInt8

/-- The bytes handed to the socket among the effects of a call. -/
def handed (effects : List Effect) : List UInt8 :=
  effects.flatMap fun
    | .written bytes => bytes
    | _ => []

/-- One step, with its entry in the history. -/
def step (o : Output) : Event → Except Fault Output
  | .send data ans => do
    let out ← o.conn.sendInLoop data ans.result
    pure ⟨out.1, o.wire ++ handed out.2, o.sent ++ data⟩
  | .writable beyond ans => do
    let out ← o.conn.handleWrite beyond ans.result
    pure ⟨out.1, o.wire ++ handed out.2, o.sent⟩

/-- A sequence of steps. -/
def run (o : Output) (events : List Event) : Except Fault Output := events.foldlM step o

/-- The wire followed by the pending bytes is what was sent. -/
def Intact (o : Output) : Prop :=
  ∃ pending, o.conn.outputBuffer_.peek o.conn.outputBuffer_.getReadableSize = .ok pending ∧
    o.wire ++ pending = o.sent

/-- The string `peekAllAsString` makes of the pending bytes ends inside them: they
do not fill the blocks, or contain a zero, or a zero follows by chance. -/
def EndsInside (s : KBuffer) (beyond : List UInt8) : Prop :=
  s.readableSize_ < s.buflen_ ∨ (∃ pending, s.peek s.readableSize_ = .ok pending ∧ 0 ∈ pending) ∨
    KBuffer.cString beyond = []

/-- A send carries no data, or meets no earlier pending data and what the socket
leaves passes the size test of the send buffer. -/
def SendDelivers (c : Connection) (data : List UInt8) (ans : Answer) : Prop :=
  data = [] ∨ c.writing_ = false ∧ c.outputBuffer_.getReadableSize = 0 ∧
    Accepts c.outputBuffer_ (data.drop ans.count).length

/-- A write event finds `writing_` unset, or the socket takes no more than is
pending, or the string ends inside the pending bytes. -/
def WriteDelivers (c : Connection) (beyond : List UInt8) (ans : Answer) : Prop :=
  c.writing_ = false ∨ ans.count ≤ c.outputBuffer_.getReadableSize ∨
    EndsInside c.outputBuffer_ beyond

/-- The steps that keep the stream intact. -/
def Delivers (c : Connection) : Event → Prop
  | .send data ans => SendDelivers c data ans
  | .writable beyond ans => WriteDelivers c beyond ans

/-- Every step of the run delivers. -/
def AllDeliver (o : Output) : List Event → Prop
  | [] => True
  | e :: events => Delivers o.conn e ∧ ∀ o', step o e = .ok o' → AllDeliver o' events

variable {c : Connection} {q : List UInt8}

@[simp] theorem handed_nil : handed [] = [] := rfl

@[simp] theorem handed_written (bytes : List UInt8) (effects : List Effect) :
    handed (.written bytes :: effects) = bytes ++ handed effects := rfl

/-- Buffering the rest either makes it pending or, when the buffer rejects it,
loses it. -/
theorem bufferRest_spec (h : Represents c.outputBuffer_ []) (rest : List UInt8)
    (done : List Effect) :
    ∃ out q', c.bufferRest rest done = .ok out ∧ out.1.state_ = c.state_ ∧
      handed out.2 = handed done ∧ Holds out.1.outputBuffer_ q' ∧
      (Accepts c.outputBuffer_ rest.length → Represents out.1.outputBuffer_ q' ∧ q' = rest) ∧
      (¬Accepts c.outputBuffer_ rest.length → q' ≠ rest) := by
  unfold Connection.bufferRest
  by_cases hpos : rest.length > 0
  · have hset : ∀ d, handed (d ++ [Effect.setEvent .kWrite]) = handed d := by
      intro d
      unfold handed
      rw [List.flatMap_append]
      simp
    rw [if_pos hpos]
    rcases h.write rest with ⟨ha, s', hw, hr⟩ | ⟨hna, s', hw, hq⟩
    · exact ⟨_, rest, by rw [hw]; rfl, rfl, hset done, hr.holds, fun _ => ⟨hr, rfl⟩,
        fun hna => absurd ha hna⟩
    · refine ⟨_, [], by rw [hw]; rfl, rfl, hset done, hq, fun ha => absurd ha hna, fun _ hnil => ?_⟩
      rw [← hnil] at hpos
      exact absurd hpos (lt_irrefl 0)
  · have hnil : rest = [] := List.eq_nil_of_length_eq_zero (by omega)
    rw [if_neg hpos]
    refine ⟨_, [], rfl, rfl, rfl, h.holds, fun _ => ⟨h, hnil.symm⟩, fun hna => ?_⟩
    rw [hnil] at hna
    exact absurd (Or.inl (Nat.zero_le _)) hna

/-- With nothing pending, `sendInLoop` buffers what the socket leaves. -/
theorem sendInLoop_idle (hs : c.state_ ≠ .kDisconnected) (hw : c.writing_ = false)
    (hr : c.outputBuffer_.getReadableSize = 0) (data : List UInt8) (ans : Answer) :
    ∃ done, c.sendInLoop data ans.result = c.bufferRest (data.drop ans.count) done ∧
      handed done = data.take ans.count := by
  unfold Connection.sendInLoop
  rw [if_neg hs, if_pos ⟨hw, hr⟩]
  cases ans with
  | accepted n =>
    refine ⟨_, rfl, ?_⟩
    by_cases hall : (data.drop n).length = 0 ∧ c.writeCompleteCallback_ = true
    · rw [if_pos hall]
      exact List.append_nil _
    · rw [if_neg hall]
      exact List.append_nil _
  | again => exact ⟨[], rfl, rfl⟩

/-- `sendInLoop` extends the stream by its data exactly if the step delivers. -/
theorem sendInLoop_spec (hs : c.state_ ≠ .kDisconnected) (h : Represents c.outputBuffer_ q)
    (data : List UInt8) (ans : Answer) :
    ∃ out q', c.sendInLoop data ans.result = .ok out ∧ out.1.state_ = c.state_ ∧
      Holds out.1.outputBuffer_ q' ∧
      (SendDelivers c data ans → Represents out.1.outputBuffer_ q' ∧ handed out.2 ++ q' = q ++ data) ∧
      (¬SendDelivers c data ans → handed out.2 ++ q' ≠ q ++ data) := by
  by_cases hidle : c.writing_ = false ∧ c.outputBuffer_.getReadableSize = 0
  · have hq : q = [] := List.eq_nil_of_length_eq_zero (h.holds.length ▸ hidle.2)
    subst hq
    obtain ⟨done, hsend, hdone⟩ := sendInLoop_idle hs hidle.1 hidle.2 data ans
    obtain ⟨out, q', he, hst, hh, hq', hyes, hno⟩ := bufferRest_spec h (data.drop ans.count) done
    refine ⟨out, q', hsend.trans he, hst, hq', fun hd => ?_, fun hd heq => ?_⟩
    · have ha : Accepts c.outputBuffer_ (data.drop ans.count).length := by
        rcases hd with hnil | ⟨_, _, ha⟩
        · rw [hnil, List.drop_nil]
          exact Or.inl (Nat.zero_le _)
        · exact ha
      obtain ⟨hr, hrest⟩ := hyes ha
      exact ⟨hr, by rw [hh, hdone, hrest, List.take_append_drop, List.nil_append]⟩
    · have hna : ¬Accepts c.outputBuffer_ (data.drop ans.count).length :=
        fun ha => hd (Or.inr ⟨hidle.1, hidle.2, ha⟩)
      rw [hh, hdone, List.nil_append] at heq
      exact hno hna (List.append_cancel_left
        (heq.trans (List.take_append_drop ans.count data).symm))
  · unfold Connection.sendInLoop
    rw [if_neg hs, if_neg hidle]
    refine ⟨_, q, rfl, rfl, h.holds, ?_, ?_⟩
    · rintro (hnil | ⟨hw, hr, _⟩)
      · exact ⟨h, by rw [hnil, List.append_nil]; rfl⟩
      · exact absurd ⟨hw, hr⟩ hidle
    · intro hno heq
      refine hno (Or.inl ?_)
      exact List.append_cancel_left (heq.symm.trans (List.append_nil q).symm)

/-- The string made of the pending bytes is a prefix of them if it ends inside,
else it goes on into the memory behind. -/
theorem cString_pending {s : KBuffer} (h : Represents s q) (beyond : List UInt8) :
    ∃ data, s.peekAllAsString beyond = .ok data ∧
      (EndsInside s beyond → data <+: q) ∧
      (¬EndsInside s beyond → data = q ++ KBuffer.cString beyond ∧ KBuffer.cString beyond ≠ []) := by
  have hlen := h.holds.length
  have hpeek : s.peek s.readableSize_ = .ok q := h.holds.peek_all
  have hsize := h.holds.length_le
  have hread : s.readableSize_ = q.length := hlen
  refine ⟨_, h.holds.peekAllAsString beyond, ?_⟩
  unfold EndsInside KBuffer.cString
  rw [List.takeWhile_append]
  by_cases hz : (0 : UInt8) ∈ q
  · have hcut : (q.takeWhile (· ≠ 0)).length ≠ q.length := by
      intro hfull
      have hself := List.takeWhile_eq_self_iff.mp ((List.takeWhile_prefix _).eq_of_length hfull) 0 hz
      simp at hself
    rw [if_neg hcut]
    constructor
    · exact fun _ => List.takeWhile_prefix _
    · exact fun hno => absurd (Or.inr (Or.inl ⟨q, hpeek, hz⟩)) hno
  · have hself : q.takeWhile (· ≠ 0) = q := by
      rw [List.takeWhile_eq_self_iff]
      intro b hb
      exact decide_eq_true fun h0 => hz (h0 ▸ hb)
    rw [hself, if_pos rfl]
    by_cases hfull : s.buflen_ - q.length = 0
    · rw [hfull, List.replicate_zero, List.nil_append]
      constructor
      · rintro (hlt | ⟨pending, hp, h0⟩ | hnil)
        · omega
        · rw [hpeek, Except.ok.injEq] at hp
          exact absurd (hp ▸ h0) hz
        · rw [hnil, List.append_nil]
      · exact fun hno => ⟨rfl, fun hnil => hno (Or.inr (Or.inr hnil))⟩
    · obtain ⟨k, hk⟩ := Nat.exists_eq_succ_of_ne_zero hfull
      rw [hk, List.replicate_succ]
      constructor
      · intro _
        simp
      · exact fun hno => absurd (Or.inl (by omega)) hno

/-- Taking the front of the string and retrieving as many bytes keeps the stream
exactly if no more is taken than is pending or the string ends inside. -/
theorem take_drop_iff {data : List UInt8} (ext : List UInt8) {n : ℕ}
    (h : data <+: q ∨ data = q ++ ext ∧ ext ≠ []) :
    data.take n ++ q.drop (data.take n).length = q ↔ n ≤ q.length ∨ data <+: q := by
  have hfront : data.take n <+: q → data.take n ++ q.drop (data.take n).length = q := by
    intro hp
    rw [← List.prefix_iff_eq_append]
    exact hp
  constructor
  · intro heq
    rcases h with hp | ⟨hd, hext⟩
    · exact Or.inr hp
    · by_contra hno
      have hpos := List.length_pos_iff.mpr hext
      have hlen := congrArg List.length heq
      rw [hd, List.length_append, List.length_drop, List.length_take, List.length_append] at hlen
      omega
  · rintro (hn | hp)
    · rcases h with hp | ⟨hd, _⟩
      · exact hfront ((List.take_prefix n data).trans hp)
      · rw [hd, List.take_append_of_le_length hn] at hfront ⊢
        exact hfront (List.take_prefix n q)
    · exact hfront ((List.take_prefix n data).trans hp)

/-- Nothing is handed to the socket while a write is finished. -/
theorem finishWrite_spec (c : Connection) :
    handed c.finishWrite.2 = [] ∧ c.finishWrite.1.state_ = c.state_ ∧
      c.finishWrite.1.outputBuffer_ = c.outputBuffer_ := by
  unfold Connection.finishWrite Connection.disableWriting Connection.shutdownInLoop
    Connection.isWriting
  refine ⟨?_, rfl, rfl⟩
  by_cases hcb : c.writeCompleteCallback_ = true
  · by_cases hst : c.state_ = .kDisconnecting
    · simp [hcb, hst, handed]
    · simp [hcb, hst, handed]
  · by_cases hst : c.state_ = .kDisconnecting
    · simp [hcb, hst, handed]
    · simp [hcb, hst, handed]

/-- `handleWrite` keeps the stream exactly if the step delivers. -/
theorem handleWrite_spec (h : Represents c.outputBuffer_ q) (beyond : List UInt8) (ans : Answer) :
    ∃ out q', c.handleWrite beyond ans.result = .ok out ∧ out.1.state_ = c.state_ ∧
      Represents out.1.outputBuffer_ q' ∧
      (handed out.2 ++ q' = q ↔ WriteDelivers c beyond ans) := by
  have hlen := h.holds.length
  unfold Connection.handleWrite WriteDelivers
  by_cases hw : c.writing_ = true
  · rw [if_pos hw]
    obtain ⟨data, hdata, hin, hout⟩ := cString_pending h beyond
    have hkeep : data.take ans.count ++ q.drop (data.take ans.count).length = q ↔
        ans.count ≤ c.outputBuffer_.getReadableSize ∨ EndsInside c.outputBuffer_ beyond := by
      rw [hlen]
      by_cases hends : EndsInside c.outputBuffer_ beyond
      · rw [take_drop_iff [] (Or.inl (hin hends))]
        exact ⟨fun _ => Or.inr hends, fun _ => Or.inr (hin hends)⟩
      · obtain ⟨hd, hext⟩ := hout hends
        rw [take_drop_iff _ (Or.inr ⟨hd, hext⟩)]
        constructor
        · rintro (hn | hp)
          · exact Or.inl hn
          · have hpos := List.length_pos_iff.mpr hext
            have hle := hp.length_le
            rw [hd, List.length_append] at hle
            omega
        · rintro (hn | hp)
          · exact Or.inl hn
          · exact absurd hp hends
    rw [hdata, ok_bind]
    cases ans with
    | again => exact ⟨_, q, rfl, rfl, h, by simp [Answer.count]⟩
    | accepted n =>
      simp only [Answer.result, Answer.count] at hkeep ⊢
      by_cases hpos : (data.take n).length > 0
      · obtain ⟨s', hr, hrep⟩ := h.retrieve (data.take n).length
        rw [if_pos hpos, hr, ok_bind]
        by_cases hempty : s'.getReadableSize = 0
        · obtain ⟨hhand, hst, hbuf⟩ := finishWrite_spec { c with outputBuffer_ := s' }
          refine ⟨_, q.drop (data.take n).length, rfl, ?_, ?_, ?_⟩
          · rw [if_pos hempty]
            exact hst
          · rw [if_pos hempty, hbuf]
            exact hrep
          · rw [handed_written, if_pos hempty, hhand, List.append_nil, hkeep]
            simp [hw]
        · refine ⟨_, q.drop (data.take n).length, rfl, ?_, ?_, ?_⟩
          · rw [if_neg hempty]
          · rw [if_neg hempty]
            exact hrep
          · rw [handed_written, if_neg hempty, handed_nil, List.append_nil, hkeep]
            simp [hw]
      · have hnil : data.take n = [] := List.eq_nil_of_length_eq_zero (by omega)
        rw [if_neg hpos]
        refine ⟨_, q, rfl, rfl, h, ?_⟩
        rw [hnil, List.nil_append, List.length_nil, List.drop_zero] at hkeep
        rw [handed_nil, List.nil_append, hkeep]
        simp [hw]
  · rw [if_neg hw]
    exact ⟨_, q, rfl, rfl, h, by simp [Bool.eq_false_of_not_eq_true hw]⟩

/-- The stream is sound: a connected end whose buffer represents what is pending. -/
def Sound (o : Output) : Prop :=
  o.conn.state_ ≠ .kDisconnected ∧ ∃ q, Represents o.conn.outputBuffer_ q ∧ o.wire ++ q = o.sent

/-- A sound stream is intact. -/
theorem Sound.intact {o : Output} (h : Sound o) : Intact o := by
  obtain ⟨_, q, hq, hsum⟩ := h
  exact ⟨q, hq.holds.peek_all, hsum⟩

/-- From a sound stream every step returns; if it delivers the stream is sound
again, else it is not intact. -/
theorem sound_step {o : Output} (h : Sound o) (e : Event) :
    ∃ o', step o e = .ok o' ∧ (Delivers o.conn e → Sound o') ∧ (¬Delivers o.conn e → ¬Intact o') := by
  obtain ⟨hs, q, hq, hsum⟩ := h
  cases e with
  | send data ans =>
    obtain ⟨out, q', he, hst, hold, hyes, hno⟩ := sendInLoop_spec hs hq data ans
    refine ⟨⟨out.1, o.wire ++ handed out.2, o.sent ++ data⟩, ?_, fun hd => ?_, fun hd hint => ?_⟩
    · simp only [step, he, ok_bind, pure_eq_ok]
    · obtain ⟨hr, hjoin⟩ := hyes hd
      exact ⟨hst ▸ hs, q', hr, by rw [List.append_assoc, hjoin, ← hsum, List.append_assoc]⟩
    · obtain ⟨pending, hp, hjoin⟩ := hint
      dsimp only at hp hjoin
      rw [hold.peek, hold.length, List.take_length, Except.ok.injEq] at hp
      rw [← hp, List.append_assoc, ← hsum, List.append_assoc] at hjoin
      exact hno hd (List.append_cancel_left hjoin)
  | writable beyond ans =>
    obtain ⟨out, q', he, hst, hr, hiff⟩ := handleWrite_spec hq beyond ans
    refine ⟨⟨out.1, o.wire ++ handed out.2, o.sent⟩, ?_, fun hd => ?_, fun hd hint => ?_⟩
    · simp only [step, he, ok_bind, pure_eq_ok]
    · exact ⟨hst ▸ hs, q', hr, by rw [List.append_assoc, hiff.mpr hd, hsum]⟩
    · obtain ⟨pending, hp, hjoin⟩ := hint
      dsimp only at hp hjoin
      rw [hr.holds.peek, hr.holds.length, List.take_length, Except.ok.injEq] at hp
      rw [← hp, List.append_assoc, ← hsum] at hjoin
      exact hd (hiff.mp (List.append_cancel_left hjoin))

/-- From a sound stream, every prefix of a run is intact exactly if every step
delivers. -/
theorem sound_run {o : Output} (h : Sound o) (events : List Event) :
    (∀ k, ∃ o', run o (events.take k) = .ok o' ∧ Intact o') ↔ AllDeliver o events := by
  induction events generalizing o with
  | nil =>
    constructor
    · exact fun _ => trivial
    · intro _ k
      rw [List.take_nil]
      exact ⟨o, rfl, h.intact⟩
  | cons e events ih =>
    obtain ⟨o₁, he, hyes, hno⟩ := sound_step h e
    have hcons : ∀ l, run o (e :: l) = run o₁ l := by
      intro l
      unfold run
      rw [List.foldlM_cons, he, ok_bind]
    constructor
    · intro hall
      have hd : Delivers o.conn e := by
        by_contra hd
        obtain ⟨o', hrun, hint⟩ := hall 1
        rw [List.take_succ_cons, List.take_zero, hcons] at hrun
        cases hrun
        exact hno hd hint
      refine ⟨hd, fun o' he' => ?_⟩
      rw [he, Except.ok.injEq] at he'
      rw [← he', ← ih (hyes hd)]
      intro k
      obtain ⟨o', hrun, hint⟩ := hall (k + 1)
      rw [List.take_succ_cons, hcons] at hrun
      exact ⟨o', hrun, hint⟩
    · rintro ⟨hd, hrest⟩ k
      cases k with
      | zero => exact ⟨o, rfl, h.intact⟩
      | succ k =>
        obtain ⟨o', hrun, hint⟩ := (ih (hyes hd)).mpr (hrest o₁ he) k
        exact ⟨o', by rw [List.take_succ_cons, hcons, hrun], hint⟩

/-- On a connection that is not disconnected and starts with an empty send
buffer, the stream is intact after every step exactly if every send meets no
earlier pending data and finds room for what the socket leaves, and no write
event hands the socket more than is pending. -/
theorem output_stream_intact_iff (c : Connection) (hs : c.state_ ≠ .kDisconnected)
    (hb : c.outputBuffer_ = KBuffer.fresh) (events : List Event) :
    (∀ k, ∃ o, run ⟨c, [], []⟩ (events.take k) = .ok o ∧ Intact o) ↔
      AllDeliver ⟨c, [], []⟩ events := by
  refine sound_run ⟨hs, [], ?_, rfl⟩ events
  dsimp only
  rw [hb]
  exact represents_fresh

/-- A connected connection without callbacks. -/
def plain : Connection :=
  ⟨.kConnected, true, false, KBuffer.fresh, KBuffer.fresh, false, false, false, false⟩

/-- The socket takes one of three bytes, and later the other two. -/
theorem output_stream_partial :
    (∀ k, ∃ o, run ⟨plain, [], []⟩
        ([.send [7, 0, 9] (.accepted 1), .writable [] (.accepted 2)].take k) = .ok o ∧ Intact o) ↔
      AllDeliver ⟨plain, [], []⟩ [.send [7, 0, 9] (.accepted 1), .writable [] (.accepted 2)] :=
  output_stream_intact_iff plain (by decide) rfl _

/-- Two sends while the socket takes nothing: the second one is lost. -/
theorem second_send_lost :
    ∃ o, run ⟨plain, [], []⟩ [.send [1] .again, .send [2] .again] = .ok o ∧ ¬Intact o := by
  rcases represents_fresh.write [1] with ⟨_, s', hw, hr⟩ | ⟨hacc, _⟩
  · have hidle : KBuffer.fresh.readableSize_ = 0 := rfl
    have hfirst : step ⟨plain, [], []⟩ (.send [1] .again) =
        .ok ⟨{ plain with outputBuffer_ := s', writing_ := true }, [], [1]⟩ := by
      simp [step, Connection.sendInLoop, Connection.bufferRest, Connection.enableWriting, plain,
        Answer.result, KBuffer.getReadableSize, hw, handed, hidle]
    have hsecond : step ⟨{ plain with outputBuffer_ := s', writing_ := true }, [], [1]⟩
        (.send [2] .again) =
        .ok ⟨{ plain with outputBuffer_ := s', writing_ := true }, [], [1, 2]⟩ := by
      simp [step, Connection.sendInLoop, plain]
    refine ⟨_, by simp only [run, List.foldlM_cons, hfirst, hsecond, ok_bind, List.foldlM_nil]; rfl, ?_⟩
    rintro ⟨pending, hp, hjoin⟩
    dsimp only at hp hjoin
    rw [hr.holds.peek, hr.holds.length, List.take_length, Except.ok.injEq] at hp
    rw [← hp] at hjoin
    exact absurd hjoin (by decide)
  · exact absurd (by decide) hacc

end KKNet.ConnectionStream
