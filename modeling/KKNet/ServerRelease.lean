import KKNet.ServerRegistry

/-!
# The release of closed connections

The registry keeps a connection until its `handleClose` has run. From then on only
tasks keep it, and the user: as soon as no loop has a task of a closed connection, the
last copy of the user is the last one.
-/

namespace KKNet.Server

open OrderedSets PollRegistry Runs

variable {n : ℕ} {w w' : World n} {l : Fin n} {L : Loop} {c : ℕ} {k : Conn n} {t t' : Task}
variable {e : Event n}

/-- The step runs `handleClose` of the connection, for its events or as a task. -/
def Closes (w : World n) (e : Event n) (c : ℕ) : Prop :=
  match e with
  | .handleClose l => ∃ due, (w.loops l).phase = .handling (some c) due
  | .runTask l => ∃ done todo, (w.loops l).phase = .running done (⟨.handleClose, c⟩ :: todo)
  | _ => False

/-- Some step of the run closed the connection. -/
def Closed (base : Fin n) (events : List (Event n)) (c : ℕ) : Prop :=
  ∃ before e after w, events = before ++ e :: after ∧
    run step (World.start base) before = some w ∧ Closes w e c

/-- The task waits on some loop. -/
def Waiting (w : World n) (t : Task) : Prop := ∃ l, t ∈ (w.loops l).pending

/-! ### What waits -/

/-- A loop that keeps its tasks. -/
theorem waiting_setLoop (hL : L.pending = (w.loops l).pending) :
    Waiting (w.setLoop l L) t ↔ Waiting w t := by
  refine exists_congr fun l' => ?_
  by_cases hl : l' = l
  · subst hl
    rw [World.loops_setLoop, hL]
  · rw [World.loops_setLoop_of_ne w l hl]

/-- A poller has no tasks. -/
theorem waiting_setPoll (w : World n) (l : Fin n) (p : PollSelects.PollSelect) :
    Waiting (w.setPoll l p) t ↔ Waiting w t := waiting_setLoop rfl

/-- A queued task waits, with all that waited before. -/
theorem waiting_queueInLoop (w : World n) (l : Fin n) (t' : Task) :
    Waiting (w.queueInLoop l t') t ↔ Waiting w t ∨ t = t' := by
  constructor
  · rintro ⟨l', ht⟩
    unfold World.queueInLoop at ht
    by_cases hl : l' = l
    · subst hl
      rw [World.loops_setLoop, pending_queue, List.mem_append, List.mem_singleton] at ht
      exact ht.imp_left fun ht => ⟨l', ht⟩
    · rw [World.loops_setLoop_of_ne w l hl] at ht
      exact Or.inl ⟨l', ht⟩
  · rintro (⟨l', ht⟩ | rfl)
    · refine ⟨l', ?_⟩
      unfold World.queueInLoop
      by_cases hl : l' = l
      · subst hl
        rw [World.loops_setLoop, pending_queue]
        exact List.mem_append_left _ ht
      · rw [World.loops_setLoop_of_ne w l hl]
        exact ht
    · exact ⟨l, mem_queueInLoop⟩

/-- `handleClose` leaves a task behind: the removal, or what follows it. -/
theorem waiting_handleClose (w : World n) (l : Fin n) (c : ℕ) (k : Conn n) :
    Waiting (w.handleClose l c k) t ↔ Waiting w t ∨
      t = if l = w.base then ⟨.connectDestroyed, c⟩ else ⟨.removeConnectionInLoop, c⟩ := by
  unfold World.handleClose World.removeConnection
  split
  case isTrue hl =>
    rw [if_pos (show l = w.base from hl)]
    refine (waiting_queueInLoop _ _ _).trans (or_congr_left ?_)
    exact waiting_setPoll w _ _
  case isFalse hl =>
    rw [if_neg (show ¬l = w.base from hl)]
    refine (waiting_queueInLoop _ _ _).trans (or_congr_left ?_)
    exact waiting_setPoll w _ _

/-- A task that is started waits no longer, and all others do. -/
theorem waiting_start {done todo : List Task}
    (hphase : (w.loops l).phase = .running done (t :: todo)) (done' : List Task) :
    (Waiting w t' → Waiting (w.setPhase l (.running done' todo)) t' ∨ t' = t) ∧
      (Waiting (w.setPhase l (.running done' todo)) t' → Waiting w t') := by
  have hpending : (w.loops l).pending = t :: (todo ++ (w.loops l).tasks_) := by
    unfold Loop.pending
    rw [hphase]
    rfl
  constructor
  · rintro ⟨l', ht⟩
    by_cases hl : l' = l
    · subst hl
      rw [hpending] at ht
      rcases List.mem_cons.mp ht with heq | ht
      · exact Or.inr heq
      · refine Or.inl ⟨l', ?_⟩
        unfold World.setPhase
        rw [World.loops_setLoop]
        exact ht
    · refine Or.inl ⟨l', ?_⟩
      unfold World.setPhase
      rw [World.loops_setLoop_of_ne w l hl]
      exact ht
  · rintro ⟨l', ht⟩
    unfold World.setPhase at ht
    by_cases hl : l' = l
    · subst hl
      rw [World.loops_setLoop] at ht
      refine ⟨l', ?_⟩
      rw [hpending]
      exact List.mem_cons_of_mem _ ht
    · rw [World.loops_setLoop_of_ne w l hl] at ht
      exact ⟨l', ht⟩

/-- A task that runs drops none, and posts a removal only when it closes a connection. -/
theorem waiting_execute (w : World n) (l : Fin n) (k : Conn n) (t₀ : Task) :
    (Waiting w t → Waiting (w.execute l k t₀) t) ∧
      (t.work = .removeConnectionInLoop → Waiting (w.execute l k t₀) t →
        Waiting w t ∨ t₀ = ⟨.handleClose, t.conn⟩) := by
  obtain ⟨work, conn⟩ := t₀
  cases work with
  | completeConnect =>
    have hiff : Waiting (w.completeConnect conn k) t ↔ Waiting w t := waiting_setPoll w _ _
    exact ⟨hiff.mpr, fun _ ht => Or.inl (hiff.mp ht)⟩
  | removeConnectionInLoop =>
    have hiff : Waiting (w.removeConnectionInLoop conn k) t ↔ Waiting w t ∨ t = ⟨_, conn⟩ :=
      waiting_queueInLoop _ k.loop_ ⟨.connectDestroyed, conn⟩
    refine ⟨fun ht => hiff.mpr (Or.inl ht), fun hwork ht => Or.inl ((hiff.mp ht).resolve_right ?_)⟩
    rintro rfl
    cases hwork
  | connectDestroyed =>
    have hiff : Waiting (w.connectDestroyed conn k) t ↔ Waiting w t := waiting_setPoll w _ _
    exact ⟨hiff.mpr, fun _ ht => Or.inl (hiff.mp ht)⟩
  | handleClose =>
    have hiff := waiting_handleClose (t := t) w l conn k
    refine ⟨fun ht => hiff.mpr (Or.inl ht), fun hwork ht => (hiff.mp ht).imp_right fun heq => ?_⟩
    split at heq
    · subst heq
      cases hwork
    · subst heq
      rfl
  | other => exact ⟨id, fun _ ht => Or.inl ht⟩

/-! ### What a step does -/

/-- A connection that changes was there before. -/
theorem made_setConn (hk : w.conns c = some k) (k' : Conn n) (c' : ℕ) :
    (w.setConn c k').conns c' ≠ none ↔ w.conns c' ≠ none := by
  by_cases hc : c' = c
  · subst hc
    rw [World.conns_setConn, hk]
    exact ⟨fun _ => Option.some_ne_none _, fun _ => Option.some_ne_none _⟩
  · rw [World.conns_setConn_of_ne w c k' hc]

/-- `handleClose` changes its own connection. -/
theorem conns_handleClose (w : World n) (l : Fin n) (c : ℕ) (k : Conn n) :
    (w.handleClose l c k).conns = (w.setConn c k.closed).conns := by
  unfold World.handleClose World.removeConnection
  split <;> rfl

/-- A task that runs makes no connection. -/
theorem made_execute (w : World n) (l : Fin n) {k : Conn n} {t : Task}
    (hk : w.conns t.conn = some k) (c : ℕ) :
    (w.execute l k t).conns c ≠ none ↔ w.conns c ≠ none := by
  obtain ⟨work, conn⟩ := t
  cases work with
  | completeConnect => exact made_setConn (w := w.setPoll _ _) hk _ c
  | removeConnectionInLoop => exact Iff.rfl
  | connectDestroyed => exact made_setConn (w := w.setPoll _ _) hk _ c
  | handleClose =>
    refine Iff.trans (Iff.of_eq ?_) (made_setConn hk k.closed c)
    rw [← conns_handleClose w l conn k]
    rfl
  | other => exact Iff.rfl

/-- A new connection is made, and the others stay. -/
theorem made_newConnection (w : World n) (c : ℕ) (fd : ℤ) (ioLoop : Fin n) (c' : ℕ) :
    (w.newConnection c fd ioLoop).conns c' ≠ none ↔ w.conns c' ≠ none ∨ c' = c := by
  unfold World.newConnection World.completeConnect
  dsimp only
  by_cases hc : c' = c
  · subst hc
    split <;> simp [World.setConn, World.queueInLoop, World.setLoop]
  · split <;> simp [World.setConn, World.setPoll, World.queueInLoop, World.setLoop, hc]

/-- A step that leaves the registry alone. -/
structure Quiet (w w' : World n) : Prop where
  /-- The registry. -/
  connections_ : w'.connections_ = w.connections_
  /-- The descriptors. -/
  descriptors : w'.descriptors = w.descriptors
  /-- The connections made so far. -/
  made : ∀ c, w'.conns c ≠ none ↔ w.conns c ≠ none
  /-- What waits waits on. -/
  kept : ∀ t, Waiting w t → Waiting w' t
  /-- No removal is posted. -/
  posted : ∀ t, t.work = .removeConnectionInLoop → Waiting w' t → Waiting w t

/-- The steps of the server, as far as they matter for its registry. -/
inductive Moves (w : World n) : Event n → World n → Prop
  /-- `newConnection`. -/
  | accept {fd : ℤ} {c : ℕ} {ioLoop : Fin n} (hfd : fd ∉ w.descriptors) (hc : w.conns c = none) :
    Moves w (.newConnection fd c ioLoop) (w.newConnection c fd ioLoop)
  /-- `handleClose`, for the events of the connection. -/
  | close {l : Fin n} {c : ℕ} {due : List ℕ} {k : Conn n}
    (hphase : (w.loops l).phase = .handling (some c) due) (hk : w.conns c = some k) :
    Moves w (.handleClose l) (w.handleClose l c k)
  /-- A task. -/
  | run {l : Fin n} {done todo : List Task} {t : Task} {k : Conn n}
    (hphase : (w.loops l).phase = .running done (t :: todo)) (hk : w.conns t.conn = some k) :
    Moves w (.runTask l) ((w.setPhase l (.running (done ++ [t]) todo)).execute l k t)
  /-- The destructor of a connection. -/
  | destroy {c : ℕ} {k : Conn n} (hk : w.conns c = some k) :
    Moves w (.destroy c) (w.destroy c k)
  /-- Any other step. -/
  | quiet {e : Event n} {w' : World n} (hquiet : Quiet w w')
    (hnew : ∀ fd c ioLoop, e ≠ .newConnection fd c ioLoop) (hstays : ∀ c, ¬Removes w e c)
    (hopen : ∀ c, ¬Closes w e c) : Moves w e w'

/-- A loop goes on, and all that waits waits on. -/
theorem Quiet.setLoop (hL : L.pending = (w.loops l).pending) : Quiet w (w.setLoop l L) :=
  ⟨rfl, rfl, fun _ => Iff.rfl, fun _ => (waiting_setLoop hL).mpr, fun _ _ => (waiting_setLoop hL).mp⟩

/-- A task that removes nothing is queued. -/
theorem Quiet.queueInLoop (hwork : t.work ≠ .removeConnectionInLoop) :
    Quiet w (w.queueInLoop l t) := by
  refine ⟨rfl, rfl, fun _ => Iff.rfl, fun t' ht => (waiting_queueInLoop w l t).mpr (Or.inl ht),
    fun t' ht hwait => ((waiting_queueInLoop w l t).mp hwait).resolve_right ?_⟩
  rintro rfl
  exact hwork ht

/-- A connection changes its state. -/
theorem Quiet.setConn (hk : w.conns c = some k) (k' : Conn n) : Quiet w (w.setConn c k') :=
  ⟨rfl, rfl, made_setConn hk k', fun _ ht => ht, fun _ _ ht => ht⟩

/-- Two quiet steps. -/
theorem Quiet.trans {w₁ : World n} (h : Quiet w w₁) (h' : Quiet w₁ w') : Quiet w w' :=
  ⟨h'.connections_.trans h.connections_, h'.descriptors.trans h.descriptors,
    fun c => (h'.made c).trans (h.made c), fun t ht => h'.kept t (h.kept t ht),
    fun t hwork ht => h.posted t hwork (h'.posted t hwork ht)⟩

/-- Nothing the registry depends on changes. -/
theorem Quiet.same (hconnections : w'.connections_ = w.connections_)
    (hdescriptors : w'.descriptors = w.descriptors) (hconns : w'.conns = w.conns)
    (hloops : w'.loops = w.loops) : Quiet w w' := by
  refine ⟨hconnections, hdescriptors, fun c => by rw [hconns], fun t => ?_, fun t _ => ?_⟩ <;>
  · unfold Waiting
    rw [hloops]
    exact id

/-- Every step is one of these. -/
theorem moves_of_step (he : step w e = some w') : Moves w e w' := by
  unfold step at he
  cases e with
  | newConnection fd c ioLoop =>
    dsimp only at he
    split at he
    case isTrue hguard =>
      cases he
      exact .accept hguard.1 (Option.isNone_iff_eq_none.mp hguard.2.2)
    case isFalse => cases he
  | handleClose l =>
    dsimp only at he
    split at he
    case h_1 c due hphase =>
      obtain ⟨k, hk, rfl⟩ := Option.map_eq_some_iff.mp he
      exact .close hphase hk
    case h_2 => cases he
  | runTask l =>
    dsimp only at he
    split at he
    case h_1 done t todo hphase =>
      obtain ⟨k, hk, rfl⟩ := Option.map_eq_some_iff.mp he
      exact .run hphase hk
    case h_2 => cases he
  | destroy c =>
    dsimp only at he
    split at he
    case isTrue => cases he
    case isFalse =>
      obtain ⟨k, hk, he⟩ := Option.bind_eq_some_iff.mp he
      split at he <;> cases he
      exact .destroy hk
  | wait l sel =>
    dsimp only at he
    split at he
    case h_1 hphase =>
      obtain ⟨_, _, rfl⟩ := Option.map_eq_some_iff.mp he
      refine .quiet (.setLoop ?_) nofun (fun _ => id) fun _ => id
      unfold Loop.pending
      rw [hphase]
    case h_2 => cases he
  | handleEvents l | handled l =>
    dsimp only at he
    split at he
    case h_1 hphase =>
      cases he
      refine .quiet (.setLoop ?_) nofun (fun _ => id) fun _ => id
      unfold Loop.pending
      rw [hphase]
    case h_2 => cases he
  | swap l =>
    dsimp only at he
    split at he
    case h_1 hphase =>
      cases he
      refine .quiet (.setLoop ?_) nofun (fun _ => id) fun _ => id
      unfold Loop.pending
      rw [hphase]
      exact List.append_nil _
    case h_2 => cases he
  | tasksDone l =>
    dsimp only at he
    split at he
    case h_1 hphase =>
      cases he
      refine .quiet (.setLoop ?_) nofun (fun _ => id) fun _ => id
      unfold Loop.pending
      rw [hphase]
      rfl
    case h_2 => cases he
  | poll l call =>
    dsimp only at he
    split at he <;> cases he
    have hpoll : Quiet w (w.setPoll l (perform (w.loops l).poll_ call).1) := .setLoop rfl
    exact .quiet (hpoll.trans (.same rfl rfl rfl rfl)) nofun (fun _ => id) fun _ => id
  | shutdown c =>
    dsimp only at he
    split at he
    case isTrue =>
      obtain ⟨k, hk, rfl⟩ := Option.map_eq_some_iff.mp he
      refine .quiet ?_ nofun (fun _ => id) fun _ => id
      split
      · exact .setConn hk _
      · exact .same rfl rfl rfl rfl
    case isFalse => cases he
  | forceClose c =>
    dsimp only at he
    split at he
    case isTrue =>
      obtain ⟨k, hk, rfl⟩ := Option.map_eq_some_iff.mp he
      refine .quiet ?_ nofun (fun _ => id) fun _ => id
      split
      · exact (Quiet.setConn hk _).trans (.queueInLoop nofun)
      · exact .same rfl rfl rfl rfl
    case isFalse => cases he
  | queueInLoop l c =>
    dsimp only at he
    split at he <;> cases he
    exact .quiet (.queueInLoop nofun) nofun (fun _ => id) fun _ => id
  | keep c | drop c =>
    dsimp only at he
    split at he <;> cases he
    exact .quiet (.same rfl rfl rfl rfl) nofun (fun _ => id) fun _ => id

/-- Connections are made by accepting, and never forgotten. -/
theorem made_of_moves (h : Moves w e w') (c : ℕ) :
    w'.conns c ≠ none ↔ w.conns c ≠ none ∨ ∃ fd ioLoop, e = .newConnection fd c ioLoop := by
  cases h with
  | accept =>
    rename_i fd c' ioLoop _ _
    rw [made_newConnection]
    refine or_congr_right ⟨?_, ?_⟩
    · rintro rfl
      exact ⟨fd, ioLoop, rfl⟩
    · rintro ⟨_, _, heq⟩
      cases heq
      rfl
  | close _ hk =>
    rw [conns_handleClose, made_setConn hk]
    exact (or_iff_left nofun).symm
  | run _ hk =>
    rw [made_execute (World.setPhase _ _ _) _ hk]
    exact (or_iff_left nofun).symm
  | destroy hk =>
    refine (made_setConn hk _ c).trans (or_iff_left nofun).symm
  | quiet hquiet hnew =>
    exact (hquiet.made c).trans (or_iff_left fun ⟨fd, ioLoop, heq⟩ => hnew fd c ioLoop heq).symm

/-- A task that waits is started or waits on. -/
theorem kept_of_moves (h : Moves w e w') (ht : Waiting w t) :
    Waiting w' t ∨ ∃ l done todo, e = .runTask l ∧ (w.loops l).phase = .running done (t :: todo) := by
  cases h with
  | accept hfd hc =>
    refine Or.inl ?_
    unfold World.newConnection
    dsimp only
    split
    · exact (waiting_setPoll _ _ _).mpr ht
    · exact (waiting_queueInLoop _ _ _).mpr (Or.inl ht)
  | close hphase hk => exact Or.inl ((waiting_handleClose _ _ _ _).mpr (Or.inl ht))
  | run hphase hk =>
    rename_i l done todo t₀ k
    rcases (waiting_start hphase (done ++ [t₀])).1 ht with ht | rfl
    · exact Or.inl ((waiting_execute _ l k t₀).1 ht)
    · exact Or.inr ⟨l, done, todo, rfl, hphase⟩
  | destroy hk => exact Or.inl ht
  | quiet hquiet => exact Or.inl (hquiet.kept t ht)

/-- A removal is posted only when its connection is closed. -/
theorem posted_of_moves (h : Moves w e w') (hwork : t.work = .removeConnectionInLoop)
    (ht : Waiting w' t) : Waiting w t ∨ Closes w e t.conn := by
  cases h with
  | accept hfd hc =>
    refine Or.inl ?_
    unfold World.newConnection at ht
    dsimp only at ht
    split at ht
    · exact (waiting_setPoll _ _ _).mp ht
    · refine ((waiting_queueInLoop _ _ _).mp ht).resolve_right ?_
      rintro rfl
      cases hwork
  | close hphase hk =>
    refine ((waiting_handleClose _ _ _ _).mp ht).imp_right fun heq => ?_
    split at heq
    · subst heq
      cases hwork
    · subst heq
      exact ⟨_, hphase⟩
  | run hphase hk =>
    rename_i l done todo t₀ k
    rcases (waiting_execute _ l k t₀).2 hwork ht with ht | rfl
    · exact Or.inl ((waiting_start hphase (done ++ [t₀])).2 ht)
    · exact Or.inr ⟨done, todo, hphase⟩
  | destroy hk => exact Or.inl ht
  | quiet hquiet => exact Or.inl (hquiet.posted t hwork ht)

/-- A task that runs stores no entry. -/
theorem connections_execute (w : World n) (l : Fin n) (k : Conn n) (t : Task) {x : ℤ × ℕ}
    (hx : x ∈ (w.execute l k t).connections_) : x ∈ w.connections_ := by
  obtain ⟨work, conn⟩ := t
  cases work with
  | completeConnect => exact hx
  | removeConnectionInLoop => exact (OrderedSet.mem_erase.mp hx).1
  | connectDestroyed => exact hx
  | handleClose =>
    have hx' : x ∈ (w.handleClose l conn k).connections_ := hx
    rw [connections_handleClose] at hx'
    split at hx'
    · exact (OrderedSet.mem_erase.mp hx').1
    · exact hx'
  | other => exact hx

/-- An entry is stored for a connection that is accepted. -/
theorem entry_of_moves (h : Moves w e w') {x : ℤ × ℕ} (hx : x ∈ w'.connections_) :
    x ∈ w.connections_ ∨ ∃ ioLoop, e = .newConnection x.1 x.2 ioLoop := by
  cases h with
  | accept hfd hc =>
    rw [connections_newConnection, OrderedSet.mem_assign] at hx
    rcases hx with rfl | ⟨hx, _⟩
    · exact Or.inr ⟨_, rfl⟩
    · exact Or.inl hx
  | close hphase hk =>
    rw [connections_handleClose] at hx
    split at hx
    · exact Or.inl (OrderedSet.mem_erase.mp hx).1
    · exact Or.inl hx
  | run hphase hk => exact Or.inl (connections_execute (World.setPhase _ _ _) _ _ _ hx)
  | destroy hk => exact Or.inl hx
  | quiet hquiet => exact Or.inl (hquiet.connections_ ▸ hx)

/-- No entry of the connection is left under another descriptor. -/
theorem gone_erase (hs : Sound w) (hk : w.conns c = some k) :
    ∀ x ∈ w.connections_.erase k.fd_, x.2 ≠ c := by
  rintro x hx rfl
  obtain ⟨hmem, hne⟩ := OrderedSet.mem_erase.mp hx
  obtain ⟨k', hk', hfd, _⟩ := hs.inv.entries x hmem
  cases hk.symm.trans hk'
  exact hne hfd.symm

/-- What is removed has no entry left. -/
theorem gone_of_removes (hs : Sound w) (h : Moves w e w') (hr : Removes w e c) :
    ∀ x ∈ w'.connections_, x.2 ≠ c := by
  cases h with
  | accept | destroy => cases hr
  | close hphase hk =>
    obtain ⟨rfl, due, hphase'⟩ := hr
    cases hphase.symm.trans hphase'
    rw [connections_handleClose, if_pos rfl]
    exact gone_erase hs hk
  | run hphase hk =>
    have hgone := gone_erase hs hk
    obtain ⟨done, todo, hphase' | ⟨hl, hphase'⟩⟩ := hr
    · cases hphase.symm.trans hphase'
      exact hgone
    · cases hphase.symm.trans hphase'
      unfold World.execute
      dsimp only
      rw [connections_handleClose, if_pos (show _ = (World.setPhase _ _ _).base from hl)]
      exact hgone
  | quiet hquiet hnew hstays => exact absurd hr (hstays c)

/-! ### On the way out -/

/-- The connection has no entry any more, or its removal waits. -/
def Leaving (w : World n) (c : ℕ) : Prop :=
  (∀ x ∈ w.connections_, x.2 ≠ c) ∨ Waiting w ⟨.removeConnectionInLoop, c⟩

/-- The connection has an entry, and no removal waits. -/
def Staying (w : World n) (c : ℕ) : Prop :=
  (∃ x ∈ w.connections_, x.2 = c) ∧ ¬Waiting w ⟨.removeConnectionInLoop, c⟩

/-- What is leaving goes on to leave. -/
theorem leaving_step (hs : Sound w) (hc : w.conns c ≠ none) (h : Moves w e w')
    (hleaving : Leaving w c) : Leaving w' c := by
  rcases hleaving with hnone | hwait
  · refine Or.inl fun x hx hxc => ?_
    subst hxc
    rcases entry_of_moves h hx with hx | ⟨ioLoop, rfl⟩
    · exact hnone x hx rfl
    · cases h with
      | accept hfd hfree => exact hc hfree
      | quiet hquiet hnew => exact hnew _ _ _ rfl
  · rcases kept_of_moves h hwait with hwait | ⟨l, done, todo, rfl, hphase⟩
    · exact Or.inr hwait
    · exact Or.inl (gone_of_removes hs h ⟨done, todo, Or.inl hphase⟩)

/-- A connection that is closed leaves. -/
theorem leaving_of_closes (hs : Sound w) (h : Moves w e w') (hcloses : Closes w e c) :
    Leaving w' c := by
  by_cases hr : Removes w e c
  · exact Or.inl (gone_of_removes hs h hr)
  · refine Or.inr ?_
    cases h with
    | accept | destroy => cases hcloses
    | close hphase hk =>
      obtain ⟨due, hphase'⟩ := hcloses
      cases hphase.symm.trans hphase'
      refine (waiting_handleClose _ _ _ _).mpr (Or.inr ?_)
      rw [if_neg fun hl => hr ⟨hl, _, hphase⟩]
    | run hphase hk =>
      obtain ⟨done, todo, hphase'⟩ := hcloses
      cases hphase.symm.trans hphase'
      refine (waiting_handleClose _ _ _ _).mpr (Or.inr ?_)
      exact (if_neg fun hl => hr ⟨_, _, Or.inr ⟨hl, hphase⟩⟩).symm
    | quiet _ _ _ hopen => exact absurd hcloses (hopen c)

/-- A connection that is not closed stays. -/
theorem staying_step (hs : Sound w) (he : step w e = some w') (hopen : ¬Closes w e c)
    (hstaying : Staying w c) : Staying w' c := by
  obtain ⟨⟨x, hx, rfl⟩, hwait⟩ := hstaying
  refine ⟨⟨x, ?_, rfl⟩, fun hwait' => ?_⟩
  · by_contra hgone
    have hr := erased_of_step hs he x hx hgone
    cases e with
    | handleClose l => exact hopen hr.2
    | runTask l =>
      obtain ⟨done, todo, hphase | ⟨_, hphase⟩⟩ := hr
      · exact hwait ⟨l, mem_pending hphase⟩
      · exact hopen ⟨done, todo, hphase⟩
    | _ => cases hr
  · exact (posted_of_moves (moves_of_step he) rfl hwait').elim hwait hopen

/-- A connection that is accepted stays at first. -/
theorem staying_newConnection (hs : Sound w) {fd : ℤ} {ioLoop : Fin n}
    (h : Moves w (.newConnection fd c ioLoop) w') : Staying w' c := by
  have hwait : Waiting w' ⟨.removeConnectionInLoop, c⟩ → Waiting w ⟨.removeConnectionInLoop, c⟩ :=
    fun ht => (posted_of_moves h rfl ht).resolve_right id
  cases h with
  | accept hfd hc =>
    refine ⟨⟨(fd, c), ?_, rfl⟩, fun ht => ?_⟩
    · rw [connections_newConnection, OrderedSet.mem_assign]
      exact Or.inl rfl
    · obtain ⟨l, ht⟩ := hwait ht
      obtain ⟨k, hk, _⟩ := (hs.inv.loops l).held _ (holds_of_pending ht)
      cases hc.symm.trans hk
  | quiet _ hnew => exact absurd rfl (hnew fd c ioLoop)

/-- The descriptors of the server are different ones. -/
theorem nodup_of_moves (h : Moves w e w') (hn : w.descriptors.Nodup) : w'.descriptors.Nodup := by
  cases h with
  | accept hfd hc =>
    unfold World.newConnection
    dsimp only
    split <;> exact List.nodup_cons.mpr ⟨hfd, hn⟩
  | close hphase hk =>
    unfold World.handleClose World.removeConnection
    split <;> exact hn
  | run hphase hk =>
    rename_i t k
    obtain ⟨work, conn⟩ := t
    cases work with
    | handleClose =>
      unfold World.execute World.handleClose World.removeConnection
      dsimp only
      split <;> exact hn
    | _ => exact hn
  | destroy hk => exact hn.erase _
  | quiet hquiet => exact hquiet.descriptors ▸ hn

/-- What a run leads to, given its events. -/
structure Accounted (base : Fin n) (past : List (Event n)) (w : World n) : Prop where
  /-- The server is in order. -/
  sound : Sound w
  /-- Its descriptors are different ones. -/
  nodup : w.descriptors.Nodup
  /-- What was closed was made. -/
  made : ∀ c, Closed base past c → w.conns c ≠ none
  /-- What was closed leaves. -/
  leaving : ∀ c, Closed base past c → Leaving w c
  /-- What was not closed stays. -/
  staying : ∀ c, w.conns c ≠ none → ¬Closed base past c → Staying w c

/-- A connection is closed in the last step or before. -/
theorem closed_append {base : Fin n} {past : List (Event n)}
    (hrun : run step (World.start base) past = some w) :
    Closed base (past ++ [e]) c ↔ Closed base past c ∨ Closes w e c := by
  constructor
  · rintro ⟨before, e', after, w', heq, hrun', hcloses⟩
    rcases List.eq_nil_or_concat' after with rfl | ⟨after', e₁, rfl⟩
    · obtain ⟨rfl, he⟩ := List.append_inj' heq rfl
      cases he
      cases hrun.symm.trans hrun'
      exact Or.inr hcloses
    · rw [← List.cons_append, ← List.append_assoc] at heq
      obtain ⟨rfl, _⟩ := List.append_inj' heq rfl
      exact Or.inl ⟨before, e', after', w', rfl, hrun', hcloses⟩
  · rintro (⟨before, e', after, w', rfl, hrun', hcloses⟩ | hcloses)
    · refine ⟨before, e', after ++ [e], w', ?_, hrun', hcloses⟩
      rw [List.append_assoc, List.cons_append]
    · exact ⟨past, e, [], w, rfl, hrun, hcloses⟩

/-- Only a connection that was made is closed. -/
theorem made_of_closes (he : step w e = some w') (hcloses : Closes w e c) : w.conns c ≠ none := by
  cases moves_of_step he with
  | accept | destroy => cases hcloses
  | close hphase hk =>
    obtain ⟨due, hphase'⟩ := hcloses
    cases hphase.symm.trans hphase'
    exact Option.ne_none_iff_exists'.mpr ⟨_, hk⟩
  | run hphase hk =>
    obtain ⟨done, todo, hphase'⟩ := hcloses
    cases hphase.symm.trans hphase'
    exact Option.ne_none_iff_exists'.mpr ⟨_, hk⟩
  | quiet _ _ _ hopen => exact absurd hcloses (hopen c)

/-- Every step keeps the account. -/
theorem accounted_step {base : Fin n} {past : List (Event n)}
    (hrun : run step (World.start base) past = some w) (h : Accounted base past w)
    (he : step w e = some w') : Accounted base (past ++ [e]) w' := by
  have hmoves := moves_of_step he
  have hmade : ∀ c, Closed base (past ++ [e]) c → w.conns c ≠ none := fun c hc =>
    ((closed_append hrun).mp hc).elim (h.made c) (made_of_closes he)
  refine ⟨step_sound h.sound he, nodup_of_moves hmoves h.nodup, fun c hc => ?_, fun c hc => ?_,
    fun c hc hopen => ?_⟩
  · exact (made_of_moves hmoves c).mpr (Or.inl (hmade c hc))
  · rcases (closed_append hrun).mp hc with hpast | hcloses
    · exact leaving_step h.sound (h.made c hpast) hmoves (h.leaving c hpast)
    · exact leaving_of_closes h.sound hmoves hcloses
  · rw [closed_append hrun, not_or] at hopen
    rcases (made_of_moves hmoves c).mp hc with hold | ⟨fd, ioLoop, rfl⟩
    · exact staying_step h.sound he hopen.2 (h.staying c hold hopen.1)
    · exact staying_newConnection h.sound hmoves

/-- Every run keeps the account. -/
theorem accounted_run (base : Fin n) {events : List (Event n)}
    (hrun : run step (World.start base) events = some w) : Accounted base events w := by
  refine invariant_of_past (Accounted base) (fun _ _ _ _ => accounted_step) ?_ hrun
  have hclosed : ∀ c, ¬Closed base [] c := by
    rintro c ⟨before, e, after, _, heq, _⟩
    cases before <;> cases heq
  exact ⟨sound_start base, List.nodup_nil, fun c hc => absurd hc (hclosed c),
    fun c hc => absurd hc (hclosed c), fun c hc => absurd rfl hc⟩

/-- No task of the connection waits where no loop keeps it. -/
theorem not_waiting (hidle : ∀ l, c ∉ (w.loops l).holds) (hconn : t.conn = c) : ¬Waiting w t :=
  fun ⟨l, ht⟩ => hidle l (hconn ▸ holds_of_pending ht)

/-- A connection that was not closed is in the registry, with its descriptor open. One
that was closed is not, once no loop keeps it: it was taken off its poller, and without
a copy of the user its destructor can run, which gives the descriptor back. -/
theorem released_once_closed (base : Fin n) (events : List (Event n)) (w : World n) (c : ℕ)
    (k : Conn n) (hrun : run step (World.start base) events = some w) (hk : w.conns c = some k) :
    (¬Closed base events c →
      (k.fd_, c) ∈ w.connections_ ∧ k.freed = false ∧ k.fd_ ∈ w.descriptors) ∧
    (Closed base events c → (∀ l, c ∉ (w.loops l).holds) →
      (∀ x ∈ w.connections_, x.2 ≠ c) ∧ k.removed = true ∧
        (c ∉ w.copies → k.freed = false →
          ∃ w', step w (.destroy c) = some w' ∧ k.fd_ ∉ w'.descriptors)) := by
  have h := accounted_run base hrun
  have hmade : w.conns c ≠ none := Option.ne_none_iff_exists'.mpr ⟨k, hk⟩
  refine ⟨fun hopen => ?_, fun hclosed hidle => ?_⟩
  · obtain ⟨⟨x, hx, rfl⟩, _⟩ := h.staying c hmade hopen
    obtain ⟨k', hk', hfd, hlive, hdesc⟩ := entries_of_sound h.sound x hx
    cases hk.symm.trans hk'
    exact ⟨hfd ▸ hx, hlive, hdesc⟩
  · have hgone : ∀ x ∈ w.connections_, x.2 ≠ c :=
      (h.leaving c hclosed).resolve_right (not_waiting hidle rfl)
    refine ⟨hgone, ?_, fun hcopies hlive => ?_⟩
    · by_contra hr
      rcases h.sound.owned c k hk (Bool.eq_false_of_not_eq_true hr) with
        hmem | ⟨t, hremoves, ht | hwait⟩
      · exact hgone _ hmem rfl
      · cases ht
      · exact not_waiting hidle (by rcases hremoves with rfl | rfl <;> rfl) hwait
    · have hfree : ¬w.Referenced c := by
        rintro (hmem | hmem | ⟨l, hmem⟩)
        · obtain ⟨x, hx, hxc⟩ := List.mem_map.mp hmem
          exact hgone x hx hxc
        · exact hcopies hmem
        · exact hidle l hmem
      refine ⟨w.destroy c k, ?_, fun hdesc => ?_⟩
      · unfold step
        dsimp only
        rw [if_neg hfree, hk, Option.bind_some, hlive]
        rfl
      · exact (h.nodup.mem_erase_iff.mp hdesc).1 rfl

/-- The connection that met the end of its stream, after the user dropped the last copy. -/
theorem released_once_closed_served :
    ∃ w w', run step (World.start 0) (served ++ ended.take 10) = some w ∧
      step w (.destroy 0) = some w' ∧ 5 ∉ w'.descriptors := by
  have hclosed : Closed 0 (served ++ ended.take 10) 0 :=
    ⟨served, .handleClose 1, _, _, rfl, rfl, [], rfl⟩
  obtain ⟨w', hdestroy, hfd⟩ := ((released_once_closed 0 (served ++ ended.take 10) _ 0 _ rfl rfl).2
    hclosed (by decide)).2.2 List.not_mem_nil rfl
  exact ⟨_, w', rfl, hdestroy, hfd⟩

end KKNet.Server
