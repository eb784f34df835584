import KKNet.Arenas
import KKNet.Runs

/-!
# Sends from other threads

`send` binds the pointer it is given and not the bytes, so a send from another thread
lends the loop memory of its caller until the task has run. What the loop sends is what
was passed, in the order of each thread, exactly as long as nobody overwrites or destroys
lent memory. `send(KBuffer*)` lends a string of its own, which it destroys on return.
-/

namespace KKNet.ConnectionSends

open Runs Arenas

/-- `sendInLoop` bound to a pointer and a length. -/
structure Posted (τ : Type) where
  /-- The thread that called `send`. -/
  thread : τ
  /-- The object the pointer points to. -/
  data : ℕ
  /-- How many of its bytes to send. -/
  len : ℕ

/-- The threads that send on a connection, with the history of what they sent. -/
structure Senders (τ : Type) where
  /-- Arrays and strings. -/
  heap : Arena (List UInt8)
  /-- `tasks_` of the loop. -/
  tasks_ : List (Posted τ)
  /-- What the memory held when it was passed to `send`. -/
  passed : List (τ × List UInt8)
  /-- What it held when `sendInLoop` ran. -/
  got : List (τ × List UInt8)

/-- What can happen next. -/
inductive Event (τ : Type)
  /-- Somebody constructs an array or a string. -/
  | make (bytes : List UInt8)
  /-- Somebody overwrites one in place. -/
  | store (a : ℕ) (bytes : List UInt8)
  /-- Somebody destroys one; for the string of a `send(KBuffer*)`, on its return. -/
  | drop (a : ℕ)
  /-- `send(data, len)`, or `send(data)` with a string. -/
  | send (thread : τ) (data len : ℕ)
  /-- `send(KBuffer*)` before its return, with what `readAllAsString` made. -/
  | sendBuffer (thread : τ) (bytes : List UInt8)
  /-- The loop runs the next task. -/
  | runTask

/-- Read some bytes of an object. -/
def load (h : Arena (List UInt8)) (a len : ℕ) : Option (List UInt8) :=
  if len = 0 then some []
  else (read h a).bind fun bytes => if len ≤ bytes.length then some (bytes.take len) else none

namespace Senders

variable {τ : Type} [DecidableEq τ]

/-- Nobody has sent anything. -/
def start : Senders τ := ⟨[], [], [], []⟩

/-- `sendInLoop`, which reads the memory. -/
def sendInLoop (s : Senders τ) (p : Posted τ) : Option (Senders τ) :=
  (load s.heap p.data p.len).map fun bytes => { s with got := s.got ++ [(p.thread, bytes)] }

/-- `Eventloop::runInLoop`. -/
def runInLoop (loop : τ) (s : Senders τ) (p : Posted τ) : Option (Senders τ) :=
  if p.thread = loop then s.sendInLoop p else some { s with tasks_ := s.tasks_ ++ [p] }

/-- `Connection::send`. The caller passes memory that is there. -/
def send (loop : τ) (s : Senders τ) (p : Posted τ) : Option (Senders τ) :=
  (load s.heap p.data p.len).bind fun bytes =>
    runInLoop loop { s with passed := s.passed ++ [(p.thread, bytes)] } p

/-- One event; there is none where memory is touched that is not there. -/
def step (loop : τ) (s : Senders τ) : Event τ → Option (Senders τ)
  | .make bytes => some { s with heap := alloc s.heap bytes }
  | .store a bytes => (read s.heap a).bind fun old =>
    if bytes.length = old.length then some { s with heap := write s.heap a bytes } else none
  | .drop a => (read s.heap a).map fun _ => { s with heap := delete s.heap a }
  | .send thread data len => s.send loop ⟨thread, data, len⟩
  | .sendBuffer thread bytes =>
    send loop { s with heap := alloc s.heap bytes } ⟨thread, s.heap.length, bytes.length⟩
  | .runTask =>
    match s.tasks_ with
    | [] => none
    | p :: tasks => sendInLoop { s with tasks_ := tasks } p

end Senders

variable {τ : Type}

/-- What the loop would send if it ran all its tasks now. -/
def drain (h : Arena (List UInt8)) : List (Posted τ) → Option (List (τ × List UInt8))
  | [] => some []
  | p :: tasks => do
    let bytes ← load h p.data p.len
    let rest ← drain h tasks
    pure ((p.thread, bytes) :: rest)

/-- The sends of one thread. -/
def ofThread [DecidableEq τ] (t : τ) (sends : List (τ × List UInt8)) : List (List UInt8) :=
  (sends.filter fun x => x.1 = t).map Prod.snd

/-- What was sent and what the loop would send now is, for each thread, what it passed. -/
def Intact [DecidableEq τ] (s : Senders τ) : Prop :=
  ∃ rest, drain s.heap s.tasks_ = some rest ∧
    ∀ t, ofThread t (s.got ++ rest) = ofThread t s.passed

/-- Nobody overwrites or destroys what is lent. -/
def LeavesAlone (s : Senders τ) : Event τ → Prop
  | .store a bytes => ∀ p ∈ s.tasks_, p.data = a → ∀ old, read s.heap a = some old →
    bytes.take p.len = old.take p.len
  | .drop a => ∀ p ∈ s.tasks_, p.data = a → p.len = 0
  | _ => True

variable {loop t : τ} {s s' : Senders τ} {h : Arena (List UInt8)} {a len : ℕ}
  {bytes old : List UInt8} {tasks : List (Posted τ)} {p : Posted τ}
  {rest rest' : List (τ × List UInt8)}

/-! ### Memory -/

/-- A new object leaves the others alone. -/
theorem load_alloc (hload : load h a len = some bytes) (x : List UInt8) :
    load (alloc h x) a len = some bytes := by
  unfold load at hload ⊢
  by_cases hlen : len = 0
  · rw [if_pos hlen] at hload ⊢
    exact hload
  · rw [if_neg hlen] at hload ⊢
    obtain ⟨y, hy, hload⟩ := Option.bind_eq_some_iff.mp hload
    rw [read_alloc hy]
    exact hload

/-- The whole of a new object. -/
theorem load_alloc_length (h : Arena (List UInt8)) (bytes : List UInt8) :
    load (alloc h bytes) h.length bytes.length = some bytes := by
  unfold load
  by_cases hlen : bytes.length = 0
  · rw [if_pos hlen, List.eq_nil_of_length_eq_zero hlen]
  · rw [if_neg hlen, read_alloc_length, Option.bind_some, if_pos le_rfl, List.take_length]

/-- Other objects than the one that is overwritten. -/
theorem load_write_of_ne {b : ℕ} (hne : b ≠ a) (len : ℕ) (bytes : List UInt8) :
    load (write h a bytes) b len = load h b len := by
  unfold load
  rw [read_write_of_ne hne.symm]

/-- The object that is overwritten. -/
theorem load_write (hold : read h a = some old) (hsame : bytes.length = old.length) {x : List UInt8}
    (hload : load h a len = some x) :
    x = old.take len ∧ load (write h a bytes) a len = some (bytes.take len) := by
  unfold load at hload ⊢
  by_cases hlen : len = 0
  · rw [if_pos hlen] at hload ⊢
    cases hload
    rw [hlen, List.take_zero, List.take_zero]
    exact ⟨rfl, rfl⟩
  · rw [if_neg hlen, hold, Option.bind_some] at hload
    by_cases hle : len ≤ old.length
    · rw [if_pos hle] at hload
      cases hload
      rw [if_neg hlen, read_write hold, Option.bind_some, if_pos (hsame ▸ hle)]
      exact ⟨rfl, rfl⟩
    · rw [if_neg hle] at hload
      cases hload

/-- An object that was destroyed has no bytes. -/
theorem load_dead (hdead : read h a = none) (hlen : len ≠ 0) : load h a len = none := by
  unfold load
  rw [if_neg hlen, hdead]
  rfl

/-! ### What the loop would send -/

/-- The first task goes first. -/
theorem drain_cons (hload : load h p.data p.len = some bytes) :
    drain h (p :: tasks) = (drain h tasks).map ((p.thread, bytes) :: ·) := by
  rw [drain, hload]
  cases drain h tasks <;> rfl

/-- Its bytes are there if all can be sent. -/
theorem drain_cons_eq_some (hdrain : drain h (p :: tasks) = some rest) :
    ∃ bytes rest', load h p.data p.len = some bytes ∧ drain h tasks = some rest' ∧
      rest = (p.thread, bytes) :: rest' := by
  obtain ⟨bytes, hload, hdrain⟩ := Option.bind_eq_some_iff.mp hdrain
  obtain ⟨rest', hrest, heq⟩ := Option.bind_eq_some_iff.mp hdrain
  cases heq
  exact ⟨bytes, rest', hload, hrest, rfl⟩

/-- A task that joins the queue goes last. -/
theorem drain_append (hdrain : drain h tasks = some rest) (hload : load h p.data p.len = some bytes) :
    drain h (tasks ++ [p]) = some (rest ++ [(p.thread, bytes)]) := by
  induction tasks generalizing rest with
  | nil =>
    cases hdrain
    exact drain_cons hload
  | cons q tasks ih =>
    obtain ⟨bytes', rest', hload', hrest, rfl⟩ := drain_cons_eq_some hdrain
    rw [List.cons_append, drain_cons hload', ih hrest]
    rfl

/-- A new object changes nothing. -/
theorem drain_alloc (hdrain : drain h tasks = some rest) (x : List UInt8) :
    drain (alloc h x) tasks = some rest := by
  induction tasks generalizing rest with
  | nil => exact hdrain
  | cons q tasks ih =>
    obtain ⟨bytes, rest', hload, hrest, rfl⟩ := drain_cons_eq_some hdrain
    rw [drain_cons (load_alloc hload x), ih hrest]
    rfl

/-- After an object was overwritten all can still be sent, by the same threads; it is the
same exactly if the bytes that are lent are. -/
theorem drain_write (hold : read h a = some old) (hsame : bytes.length = old.length)
    (hdrain : drain h tasks = some rest) :
    ∃ rest', drain (write h a bytes) tasks = some rest' ∧ rest'.map Prod.fst = rest.map Prod.fst ∧
      (rest' = rest ↔ ∀ p ∈ tasks, p.data = a → bytes.take p.len = old.take p.len) := by
  induction tasks generalizing rest with
  | nil =>
    cases hdrain
    exact ⟨[], rfl, rfl, fun _ => nofun, fun _ => rfl⟩
  | cons q tasks ih =>
    obtain ⟨x, rest, hload, hrest, rfl⟩ := drain_cons_eq_some hdrain
    obtain ⟨rest', hrest', hthreads, hiff⟩ := ih hrest
    obtain ⟨x', hload', hx⟩ : ∃ x', load (write h a bytes) q.data q.len = some x' ∧
        (x' = x ↔ (q.data = a → bytes.take q.len = old.take q.len)) := by
      by_cases hq : q.data = a
      · rw [hq] at hload ⊢
        obtain ⟨hx, hload'⟩ := load_write hold hsame hload
        exact ⟨_, hload', hx ▸ ⟨fun heq _ => heq, fun heq => heq rfl⟩⟩
      · exact ⟨x, (load_write_of_ne hq q.len bytes).trans hload, fun _ hno => absurd hno hq,
          fun _ => rfl⟩
    refine ⟨(q.thread, x') :: rest', ?_, ?_, ?_⟩
    · rw [drain_cons hload', hrest']
      rfl
    · rw [List.map_cons, List.map_cons, hthreads]
    · rw [List.forall_mem_cons, ← hx, ← hiff]
      simp

/-- After an object was destroyed all can be sent exactly if no byte of it is lent, and
then it is the same. -/
theorem drain_delete (hdrain : drain h tasks = some rest) :
    (∀ p ∈ tasks, p.data = a → p.len = 0) ∧ drain (delete h a) tasks = some rest ∨
      (¬∀ p ∈ tasks, p.data = a → p.len = 0) ∧ drain (delete h a) tasks = none := by
  induction tasks generalizing rest with
  | nil => exact Or.inl ⟨nofun, hdrain⟩
  | cons q tasks ih =>
    obtain ⟨x, rest, hload, hrest, rfl⟩ := drain_cons_eq_some hdrain
    rw [List.forall_mem_cons]
    by_cases hq : q.data = a ∧ q.len ≠ 0
    · obtain ⟨hq, hlen⟩ := hq
      refine Or.inr ⟨fun hall => hlen (hall.1 hq), ?_⟩
      rw [drain, hq, load_dead read_delete hlen]
      rfl
    · have hkeep : load (delete h a) q.data q.len = some x := by
        unfold load at hload ⊢
        by_cases hlen : q.len = 0
        · rw [if_pos hlen] at hload ⊢
          exact hload
        · rw [if_neg hlen] at hload ⊢
          rw [read_delete_of_ne fun heq => hq ⟨heq.symm, hlen⟩]
          exact hload
      have hfree : q.data = a → q.len = 0 := fun heq => not_not.mp fun hlen => hq ⟨heq, hlen⟩
      rw [drain_cons hkeep]
      rcases ih hrest with ⟨hall, hsome⟩ | ⟨hno, hnone⟩
      · exact Or.inl ⟨⟨hfree, hall⟩, by rw [hsome]; rfl⟩
      · exact Or.inr ⟨fun hall => hno hall.2, by rw [hnone]; rfl⟩

/-! ### One thread -/

variable [DecidableEq τ]

@[simp] theorem ofThread_nil : ofThread t [] = [] := rfl

@[simp] theorem ofThread_append (first rest : List (τ × List UInt8)) :
    ofThread t (first ++ rest) = ofThread t first ++ ofThread t rest := by
  unfold ofThread
  rw [List.filter_append, List.map_append]

@[simp] theorem ofThread_cons (x : τ × List UInt8) (rest : List (τ × List UInt8)) :
    ofThread t (x :: rest) = if x.1 = t then x.2 :: ofThread t rest else ofThread t rest := by
  unfold ofThread
  by_cases hx : x.1 = t
  · simp [hx]
  · simp [hx]

/-- Sends of the same threads that agree for each thread are the same. -/
theorem eq_of_ofThread (hthreads : rest'.map Prod.fst = rest.map Prod.fst)
    (hall : ∀ t, ofThread t rest' = ofThread t rest) : rest' = rest := by
  induction rest generalizing rest' with
  | nil => exact List.map_eq_nil_iff.mp hthreads
  | cons x rest ih =>
    cases rest' with
    | nil => cases hthreads
    | cons y rest' =>
      rw [List.map_cons, List.map_cons, List.cons.injEq] at hthreads
      obtain ⟨hthread, hthreads⟩ := hthreads
      have hhead := hall x.1
      rw [ofThread_cons, ofThread_cons, if_pos hthread, if_pos rfl, List.cons.injEq] at hhead
      have htail : ∀ t, ofThread t rest' = ofThread t rest := by
        intro t
        have ht := hall t
        rw [ofThread_cons, ofThread_cons, hthread] at ht
        by_cases hx : x.1 = t
        · rw [if_pos hx, if_pos hx, List.cons.injEq] at ht
          exact ht.2
        · rwa [if_neg hx, if_neg hx] at ht
      rw [ih hthreads htail, Prod.ext hthread hhead.1]

/-! ### Steps -/

/-- What a send does, on the loop's thread and on another. -/
theorem send_cases (he : s.send loop p = some s') :
    ∃ bytes, load s.heap p.data p.len = some bytes ∧
      (p.thread = loop ∧ s' = { s with
          passed := s.passed ++ [(p.thread, bytes)]
          got := s.got ++ [(p.thread, bytes)] } ∨
        p.thread ≠ loop ∧ s' = { s with
          tasks_ := s.tasks_ ++ [p]
          passed := s.passed ++ [(p.thread, bytes)] }) := by
  obtain ⟨bytes, hload, he⟩ := Option.bind_eq_some_iff.mp he
  refine ⟨bytes, hload, ?_⟩
  unfold Senders.runInLoop at he
  by_cases hloop : p.thread = loop
  · rw [if_pos hloop] at he
    obtain ⟨bytes', hload', he⟩ := Option.map_eq_some_iff.mp he
    cases hload.symm.trans hload'
    exact Or.inl ⟨hloop, he.symm⟩
  · rw [if_neg hloop] at he
    cases he
    exact Or.inr ⟨hloop, rfl⟩

/-- What overwriting an object does. -/
theorem store_cases (he : s.step loop (.store a bytes) = some s') :
    ∃ old, read s.heap a = some old ∧ bytes.length = old.length ∧
      s' = { s with heap := write s.heap a bytes } := by
  obtain ⟨old, hold, he⟩ := Option.bind_eq_some_iff.mp he
  by_cases hsame : bytes.length = old.length
  · rw [if_pos hsame] at he
    cases he
    exact ⟨old, hold, hsame, rfl⟩
  · rw [if_neg hsame] at he
    cases he

/-- What the loop does when it runs a task. -/
theorem runTask_cases (he : s.step loop .runTask = some s') :
    ∃ p tasks bytes, s.tasks_ = p :: tasks ∧ load s.heap p.data p.len = some bytes ∧
      s' = { s with tasks_ := tasks, got := s.got ++ [(p.thread, bytes)] } := by
  unfold Senders.step at he
  cases htasks : s.tasks_ with
  | nil =>
    rw [htasks] at he
    cases he
  | cons p tasks =>
    rw [htasks] at he
    obtain ⟨bytes, hload, he⟩ := Option.map_eq_some_iff.mp he
    exact ⟨p, tasks, bytes, rfl, hload, he.symm⟩

/-! ### Runs -/

/-- All is intact, and the queue holds no task of the loop's thread. -/
def Sound (loop : τ) (s : Senders τ) : Prop :=
  Intact s ∧ ∀ p ∈ s.tasks_, p.thread ≠ loop

/-- The loop's thread has nothing in the queue. -/
theorem ofThread_drain (hqueue : ∀ p ∈ tasks, p.thread ≠ t) (hdrain : drain h tasks = some rest) :
    ofThread t rest = [] := by
  induction tasks generalizing rest with
  | nil =>
    cases hdrain
    rfl
  | cons q tasks ih =>
    obtain ⟨hq, hqueue⟩ := List.forall_mem_cons.mp hqueue
    obtain ⟨bytes, rest', _, hrest, rfl⟩ := drain_cons_eq_some hdrain
    rw [ofThread_cons, if_neg hq, ih hqueue hrest]

/-- A send keeps all intact, on the loop's thread and on another. -/
theorem Sound.send (hs : Sound loop s) (he : s.send loop p = some s') : Sound loop s' := by
  obtain ⟨⟨rest, hdrain, hall⟩, hqueue⟩ := hs
  obtain ⟨bytes, hload, ⟨hloop, rfl⟩ | ⟨hloop, rfl⟩⟩ := send_cases he
  · refine ⟨⟨rest, hdrain, fun t => ?_⟩, hqueue⟩
    have ht := hall t
    simp only [ofThread_append] at ht ⊢
    by_cases hp : p.thread = t
    · have hnone : ofThread t rest = [] := by
        rw [← hp, hloop]
        exact ofThread_drain hqueue hdrain
      rw [hnone, List.append_nil] at ht ⊢
      rw [ht]
    · simpa [hp] using ht
  · refine ⟨⟨rest ++ [(p.thread, bytes)], drain_append hdrain hload, fun t => ?_⟩, ?_⟩
    · rw [← List.append_assoc, ofThread_append, hall, ofThread_append]
    · exact List.forall_mem_append.mpr ⟨hqueue, List.forall_mem_singleton.mpr hloop⟩

/-- A step leaves all intact exactly if it leaves alone what is lent. -/
theorem intact_iff (hs : Sound loop s) {e : Event τ} (he : s.step loop e = some s') :
    (Intact s' ↔ LeavesAlone s e) ∧ (LeavesAlone s e → Sound loop s') := by
  have hkeep : Sound loop s' → LeavesAlone s e →
      (Intact s' ↔ LeavesAlone s e) ∧ (LeavesAlone s e → Sound loop s') :=
    fun hs' ha => ⟨⟨fun _ => ha, fun _ => hs'.1⟩, fun _ => hs'⟩
  cases e with
  | make bytes =>
    cases he
    obtain ⟨⟨rest, hdrain, hall⟩, hqueue⟩ := hs
    exact hkeep ⟨⟨rest, drain_alloc hdrain bytes, hall⟩, hqueue⟩ trivial
  | send thread data len => exact hkeep (hs.send he) trivial
  | sendBuffer thread bytes =>
    obtain ⟨⟨rest, hdrain, hall⟩, hqueue⟩ := hs
    have hmade : Sound loop { s with heap := alloc s.heap bytes } :=
      ⟨⟨rest, drain_alloc hdrain bytes, hall⟩, hqueue⟩
    exact hkeep (hmade.send he) trivial
  | runTask =>
    obtain ⟨⟨rest, hdrain, hall⟩, hqueue⟩ := hs
    obtain ⟨p, tasks, bytes, htasks, hload, rfl⟩ := runTask_cases he
    rw [htasks] at hdrain hqueue
    obtain ⟨bytes', rest', hload', hrest, rfl⟩ := drain_cons_eq_some hdrain
    cases hload.symm.trans hload'
    refine hkeep ⟨⟨rest', hrest, fun t => ?_⟩, (List.forall_mem_cons.mp hqueue).2⟩ trivial
    rw [← hall t, List.append_assoc]
    rfl
  | store a bytes =>
    obtain ⟨⟨rest, hdrain, hall⟩, hqueue⟩ := hs
    obtain ⟨old, hold, hsame, rfl⟩ := store_cases he
    obtain ⟨rest', hdrain', hthreads, hiff⟩ := drain_write hold hsame hdrain
    have halone : LeavesAlone s (.store a bytes) ↔ rest' = rest := by
      rw [hiff]
      refine forall₂_congr fun p _ => imp_congr_right fun _ => ⟨fun hl => hl old hold, ?_⟩
      intro heq old' hold'
      cases hold.symm.trans hold'
      exact heq
    have hintact : Intact { s with heap := write s.heap a bytes } ↔ rest' = rest := by
      constructor
      · rintro ⟨rest₁, hdrain₁, hall₁⟩
        cases hdrain'.symm.trans hdrain₁
        refine eq_of_ofThread hthreads fun t => ?_
        have heq := (hall₁ t).trans (hall t).symm
        rw [ofThread_append, ofThread_append] at heq
        exact List.append_cancel_left heq
      · rintro rfl
        exact ⟨rest', hdrain', hall⟩
    exact ⟨hintact.trans halone.symm, fun ha => ⟨hintact.mpr (halone.mp ha), hqueue⟩⟩
  | drop a =>
    obtain ⟨⟨rest, hdrain, hall⟩, hqueue⟩ := hs
    obtain ⟨old, _, he⟩ := Option.map_eq_some_iff.mp he
    cases he
    rcases drain_delete hdrain with ⟨hyes, hsome⟩ | ⟨hno, hnone⟩
    · exact hkeep ⟨⟨rest, hsome, hall⟩, hqueue⟩ hyes
    · refine ⟨⟨?_, fun ha => absurd ha hno⟩, fun ha => absurd ha hno⟩
      rintro ⟨rest₁, hdrain₁, _⟩
      cases hnone.symm.trans hdrain₁

/-- However many threads send on a connection, with whatever they construct, overwrite and
destroy in between: at every moment what was sent and what the loop would send next is,
for each thread, what it passed in its order, exactly if no memory is overwritten or
destroyed that a queued send still points to. -/
theorem sends_intact_iff (loop : τ) (events : List (Event τ)) :
    Along (Senders.step loop) (fun _ _ s' => Intact s') .start events ↔
      Along (Senders.step loop) (fun s e _ => LeavesAlone s e) .start events := by
  refine along_iff_along (Sound loop) ?_ ?_ ⟨⟨[], rfl, fun _ => rfl⟩, ?_⟩ events
  · exact fun _ _ _ hs he => (intact_iff hs he).1
  · exact fun _ _ _ hs ha he => (intact_iff hs he).2 ha
  · exact fun _ hp => absurd hp List.not_mem_nil

/-! ### A send that has returned -/

/-- The loop runs a task. -/
def turn : Event τ → ℕ
  | .runTask => 1
  | _ => 0

/-- How many it runs. -/
def turns (events : List (Event τ)) : ℕ := (events.map turn).sum

/-- A send leaves the queue as it was, or its task joins. -/
theorem tasks_of_send (he : s.send loop p = some s') : ∃ new, s'.tasks_ = s.tasks_ ++ new := by
  obtain ⟨bytes, _, ⟨_, rfl⟩ | ⟨_, rfl⟩⟩ := send_cases he
  · exact ⟨[], (List.append_nil _).symm⟩
  · exact ⟨[p], rfl⟩

/-- Only the loop takes a task from the front of the queue, and it reads its memory. -/
theorem tasks_of_step {e : Event τ} (he : s.step loop e = some s') :
    (turn e = 0 ∧ ∃ new, s'.tasks_ = s.tasks_ ++ new) ∨
      (turn e = 1 ∧ ∃ q bytes, s.tasks_ = q :: s'.tasks_ ∧ load s.heap q.data q.len = some bytes) := by
  cases e with
  | make bytes =>
    cases he
    exact Or.inl ⟨rfl, [], (List.append_nil _).symm⟩
  | store a bytes =>
    obtain ⟨_, _, _, rfl⟩ := store_cases he
    exact Or.inl ⟨rfl, [], (List.append_nil _).symm⟩
  | drop a =>
    obtain ⟨_, _, rfl⟩ := Option.map_eq_some_iff.mp he
    exact Or.inl ⟨rfl, [], (List.append_nil _).symm⟩
  | send thread data len => exact Or.inl ⟨rfl, tasks_of_send he⟩
  | sendBuffer thread bytes =>
    exact Or.inl ⟨rfl, tasks_of_send (s := { s with heap := alloc s.heap bytes }) he⟩
  | runTask =>
    obtain ⟨q, tasks, bytes, htasks, hload, rfl⟩ := runTask_cases he
    exact Or.inr ⟨rfl, q, bytes, htasks, hload⟩

/-- What was destroyed stays so. -/
theorem dead_of_step {e : Event τ} (hdead : read s.heap a = none) (halloc : a < s.heap.length)
    (he : s.step loop e = some s') : read s'.heap a = none ∧ a < s'.heap.length := by
  have hsend : ∀ {s : Senders τ} {p : Posted τ}, s.send loop p = some s' → s'.heap = s.heap := by
    intro s p he
    obtain ⟨_, _, ⟨_, rfl⟩ | ⟨_, rfl⟩⟩ := send_cases he <;> rfl
  have hmake : ∀ bytes, read (alloc s.heap bytes) a = none ∧ a < (alloc s.heap bytes).length :=
    fun bytes => ⟨(read_alloc_of_ne halloc.ne).trans hdead, by rw [length_alloc]; omega⟩
  -- an object that is there is another one
  have hother : ∀ {b : ℕ} {old : List UInt8}, read s.heap b = some old → b ≠ a := by
    rintro b old hold rfl
    cases hdead.symm.trans hold
  cases e with
  | make bytes =>
    cases he
    exact hmake bytes
  | store b bytes =>
    obtain ⟨old, hold, _, rfl⟩ := store_cases he
    refine ⟨(read_write_of_ne (hother hold)).trans hdead, ?_⟩
    rw [length_write]
    exact halloc
  | drop b =>
    obtain ⟨old, hold, rfl⟩ := Option.map_eq_some_iff.mp he
    refine ⟨(read_delete_of_ne (hother hold)).trans hdead, ?_⟩
    rw [length_delete]
    exact halloc
  | send thread data len =>
    rw [hsend he]
    exact ⟨hdead, halloc⟩
  | sendBuffer thread bytes =>
    rw [hsend he]
    exact hmake bytes
  | runTask =>
    obtain ⟨_, _, _, _, _, rfl⟩ := runTask_cases he
    exact ⟨hdead, halloc⟩

/-- A task stays queued until the loop has run those before it. -/
theorem queued_run {first more : List (Posted τ)} {events : List (Event τ)}
    (htasks : s.tasks_ = first ++ p :: more) (hfew : turns events ≤ first.length)
    (hrun : run (Senders.step loop) s events = some s') :
    ∃ first' more', s'.tasks_ = first' ++ p :: more' := by
  induction events generalizing s first more with
  | nil =>
    cases hrun
    exact ⟨first, more, htasks⟩
  | cons e events ih =>
    have hturns : turns (e :: events) = turn e + turns events := rfl
    rw [run_cons] at hrun
    obtain ⟨s₁, he, hrun⟩ := Option.bind_eq_some_iff.mp hrun
    rcases tasks_of_step he with ⟨hturn, new, hnew⟩ | ⟨hturn, q, _, hq, _⟩
    · rw [htasks, List.append_assoc] at hnew
      exact ih hnew (by omega) hrun
    · cases first with
      | nil =>
        rw [List.length_nil] at hfew
        omega
      | cons x first =>
        rw [htasks] at hq
        obtain ⟨rfl, hrest⟩ := List.cons_eq_cons.mp hq
        exact ih hrest.symm (by rw [List.length_cons] at hfew; omega) hrun

/-- A task whose memory was destroyed is never run. -/
theorem stuck_step {e : Event τ} (hlen : p.len ≠ 0)
    (htasks : ∃ first more, s.tasks_ = first ++ p :: more) (hdead : read s.heap p.data = none)
    (halloc : p.data < s.heap.length) (he : s.step loop e = some s') :
    (∃ first more, s'.tasks_ = first ++ p :: more) ∧ read s'.heap p.data = none ∧
      p.data < s'.heap.length := by
  refine ⟨?_, dead_of_step hdead halloc he⟩
  obtain ⟨first, more, htasks⟩ := htasks
  rcases tasks_of_step he with ⟨_, new, hnew⟩ | ⟨_, q, bytes, hq, hload⟩
  · exact ⟨first, more ++ new, by rw [hnew, htasks, List.append_assoc, List.cons_append]⟩
  · rw [htasks] at hq
    cases first with
    | nil =>
      obtain ⟨rfl, _⟩ := List.cons_eq_cons.mp hq
      cases hload.symm.trans (load_dead hdead hlen)
    | cons x first => exact ⟨first, more, (List.cons_eq_cons.mp hq).2.symm⟩

/-- A `send(KBuffer*)` on another thread that returns before the loop has run its task:
whatever follows, the task stays in the queue, for its string is gone. -/
theorem returned_never_sent (loop t : τ) (ht : t ≠ loop) (s : Senders τ) (bytes : List UInt8)
    (hbytes : bytes ≠ []) (between after : List (Event τ)) (hfew : turns between ≤ s.tasks_.length)
    (s' : Senders τ) (hrun : run (Senders.step loop) s
      (.sendBuffer t bytes :: between ++ .drop s.heap.length :: after) = some s') :
    ⟨t, s.heap.length, bytes.length⟩ ∈ s'.tasks_ ∧
      load s'.heap s.heap.length bytes.length = none := by
  rw [List.cons_append, run_cons] at hrun
  obtain ⟨s₁, he₁, hrun⟩ := Option.bind_eq_some_iff.mp hrun
  rw [run_append] at hrun
  obtain ⟨s₂, hrun₂, hrun⟩ := Option.bind_eq_some_iff.mp hrun
  rw [run_cons] at hrun
  obtain ⟨s₃, he₃, hrun⟩ := Option.bind_eq_some_iff.mp hrun
  have hposted : s₁.tasks_ = s.tasks_ ++ [⟨t, s.heap.length, bytes.length⟩] := by
    unfold Senders.step Senders.send at he₁
    dsimp only at he₁
    rw [load_alloc_length, Option.bind_some] at he₁
    unfold Senders.runInLoop at he₁
    rw [if_neg ht] at he₁
    cases he₁
    rfl
  obtain ⟨first, more, hqueued⟩ := queued_run hposted hfew hrun₂
  have hlen : bytes.length ≠ 0 := (List.length_pos_iff.mpr hbytes).ne'
  obtain ⟨old, hold, rfl⟩ := Option.map_eq_some_iff.mp he₃
  have hlt : s.heap.length < s₂.heap.length := lt_of_read hold
  obtain ⟨⟨first', more', hlast⟩, hdead, _⟩ := invariant
    (fun s₀ => (∃ first more, s₀.tasks_ = first ++ ⟨t, s.heap.length, bytes.length⟩ :: more) ∧
      read s₀.heap s.heap.length = none ∧ s.heap.length < s₀.heap.length)
    (fun _ _ _ hs he => stuck_step hlen hs.1 hs.2.1 hs.2.2 he)
    ⟨⟨first, more, hqueued⟩, read_delete, by rw [length_delete]; exact hlt⟩ hrun
  exact ⟨hlast ▸ List.mem_append_right _ List.mem_cons_self, load_dead hdead hlen⟩

/-- Two bytes of a buffer, whose string is gone before the loop gets to the task. -/
theorem returned_never_sent_two : ∃ s', run (Senders.step true) .start
      [.sendBuffer false [7, 8], .make [9], .drop 0, .send true 1 1] = some s' ∧
    ⟨false, 0, 2⟩ ∈ s'.tasks_ ∧ load s'.heap 0 2 = none := by
  obtain ⟨s', hrun⟩ := Option.isSome_iff_exists.mp (show (run (Senders.step true) .start
    [.sendBuffer false [7, 8], .make [9], .drop 0, .send true 1 1]).isSome = true by decide)
  exact ⟨s', hrun, returned_never_sent true false nofun .start [7, 8] nofun [.make [9]]
    [.send true 1 1] (by decide) s' hrun⟩

end KKNet.ConnectionSends
