import KKNet.Server

/-!
# The life of a connection

A connection that `connectDestroyed` has not removed from its poller is kept:
by `connections_`, by the queued removal, or by the queued `connectDestroyed`
itself. So the handlers a loop can reach, in its poller and in the round in
progress, are those of live connections, and a destructor runs only after the
removal, whatever the loops and the user do in between.
-/

namespace KKNet.Server

open OrderedSets PollSelects PollRegistry Runs
open Connections (State)

variable {n : ℕ} {w w' : World n} {l : Fin n} {L : Loop} {c : ℕ} {k : Conn n} {t : Task}

/-- The connection was made and not destroyed. -/
def World.Alive (w : World n) (c : ℕ) : Prop := ∃ k, w.conns c = some k ∧ k.freed = false

/-- A connection that is on the poller of the loop, or may get there again. -/
structure Conn.Served (k : Conn n) (l : Fin n) : Prop where
  /-- The loop is that of the connection. -/
  loop_ : k.loop_ = l
  /-- `connectDestroyed` has not run. -/
  removed : k.removed = false
  /-- `completeConnect` has run. -/
  state_ : k.state_ ≠ .kConnecting

/-- What a task tells of its connection. -/
def Task.Fits (t : Task) (l : Fin n) (k : Conn n) : Prop :=
  match t.work with
  | .completeConnect => k.state_ = .kConnecting ∧ k.loop_ = l
  | .connectDestroyed => k.state_ ≠ .kConnecting ∧ k.loop_ = l
  | .removeConnectionInLoop => k.state_ ≠ .kConnecting
  | .handleClose => k.state_ ≠ .kConnecting
  | .other => True

/-- What holds of each loop. -/
structure LoopInv (w : World n) (l : Fin n) (L : Loop) : Prop where
  /-- Tasks keep their connections. -/
  held : ∀ c ∈ L.holds, w.Alive c
  /-- A registered connection is served by the loop, under its descriptor. -/
  registered : ∀ fd c k, L.poll_.Registered fd c → w.conns c = some k → k.fd_ = fd ∧ k.Served l
  /-- So is a connection whose events are due. -/
  due : ∀ c k, c ∈ L.due → w.conns c = some k → k.Served l
  /-- The tasks fit their connections. -/
  tasks : ∀ t k, t ∈ L.pending → w.conns t.conn = some k → t.Fits l k
  /-- `completeConnect` runs once. -/
  once : ∀ c, L.pending.count ⟨.completeConnect, c⟩ ≤ 1
  /-- Every handler the loop can reach belongs to someone. -/
  known : ∀ h, (∃ fd, L.poll_.Registered fd h) ∨ h ∈ L.due → h ∈ w.foreign ∨ w.conns h ≠ none

/-- What holds of the server. -/
structure Inv (w : World n) : Prop where
  /-- Each loop is in order. -/
  loops : ∀ l, LoopInv w l (w.loops l)
  /-- A live connection has its descriptor open. -/
  opened : ∀ c k, w.conns c = some k → k.freed = false → k.fd_ ∈ w.descriptors
  /-- Live connections have descriptors of their own. -/
  distinct : ∀ c k c' k', w.conns c = some k → k.freed = false → w.conns c' = some k' →
    k'.freed = false → k.fd_ = k'.fd_ → c = c'
  /-- The registry has live connections, under their descriptors. -/
  entries : ∀ x ∈ w.connections_, ∃ k, w.conns x.2 = some k ∧ k.fd_ = x.1 ∧ k.freed = false
  /-- The copies of the user are of live connections. -/
  copied : ∀ c ∈ w.copies, w.Alive c
  /-- A connection that is still connecting was not removed. -/
  fresh : ∀ c k, w.conns c = some k → k.state_ = .kConnecting → k.removed = false
  /-- Handlers of others are not those of connections. -/
  foreign : ∀ h ∈ w.foreign, w.conns h = none

/-- The task is on the way to `connectDestroyed`. -/
def Task.Removes (t : Task) (c : ℕ) : Prop :=
  t = ⟨.removeConnectionInLoop, c⟩ ∨ t = ⟨.connectDestroyed, c⟩

/-- A connection that was not removed is in the registry or on its way to
`connectDestroyed`; `taken` are tasks that were taken and did not run yet. -/
def Owned (w : World n) (taken : List Task) : Prop :=
  ∀ c k, w.conns c = some k → k.removed = false → (k.fd_, c) ∈ w.connections_ ∨
    ∃ t : Task, t.Removes c ∧ (t ∈ taken ∨ ∃ l, t ∈ (w.loops l).pending)

/-- What is kept is alive. -/
theorem alive_of_referenced (h : Inv w) (hc : w.Referenced c) : w.Alive c := by
  rcases hc with hc | hc | ⟨l, hc⟩
  · obtain ⟨x, hx, rfl⟩ := List.mem_map.mp hc
    obtain ⟨k, hk, _, hfreed⟩ := h.entries x hx
    exact ⟨k, hk, hfreed⟩
  · exact h.copied c hc
  · exact (h.loops l).held c hc

/-- A task that has not run keeps its connection. -/
theorem holds_of_pending (ht : t ∈ L.pending) : t.conn ∈ L.holds := by
  obtain ⟨p, phase, tasks⟩ := L
  unfold Loop.pending at ht
  unfold Loop.holds
  cases phase with
  | running done todo =>
    refine List.mem_map_of_mem ?_
    rw [List.append_assoc]
    exact List.mem_append_right done ht
  | waiting => exact List.mem_map_of_mem ht
  | handling current due => exact List.mem_map_of_mem ht

/-- A connection that was not removed is kept. -/
theorem referenced_of_owned (ho : Owned w []) (hk : w.conns c = some k)
    (hremoved : k.removed = false) : w.Referenced c := by
  rcases ho c k hk hremoved with hmem | ⟨t, hremoves, ht | ⟨l, ht⟩⟩
  · exact Or.inl (List.mem_map.mpr ⟨_, hmem, rfl⟩)
  · exact absurd ht List.not_mem_nil
  · have hconn : t.conn = c := by
      rcases hremoves with rfl | rfl <;> rfl
    exact Or.inr (Or.inr ⟨l, hconn ▸ holds_of_pending ht⟩)

/-- What holds of a loop depends on the connections and the foreign handlers. -/
theorem loopInv_of_same (h : LoopInv w l L) (hconns : w'.conns = w.conns)
    (hforeign : ∀ h ∈ w.foreign, h ∈ w'.foreign) : LoopInv w' l L := by
  refine ⟨fun c hc => ?_, ?_, ?_, ?_, h.once, fun x hx => ?_⟩
  · unfold World.Alive
    rw [hconns]
    exact h.held c hc
  · rw [hconns]
    exact h.registered
  · rw [hconns]
    exact h.due
  · rw [hconns]
    exact h.tasks
  · rw [hconns]
    exact (h.known x hx).imp_left (hforeign x)

/-- One loop changes, and stays in order. -/
theorem inv_setLoop (h : Inv w) (hL : LoopInv w l L) : Inv (w.setLoop l L) := by
  refine ⟨fun l' => ?_, h.opened, h.distinct, h.entries, h.copied, h.fresh, h.foreign⟩
  have hloop : LoopInv w l' ((w.setLoop l L).loops l') := by
    by_cases hl : l' = l
    · subst hl
      rw [World.loops_setLoop]
      exact hL
    · rw [World.loops_setLoop_of_ne w l hl]
      exact h.loops l'
  exact loopInv_of_same hloop rfl fun _ hx => hx

/-- The handlers a loop can reach. -/
def Loop.Reaches (L : Loop) (c : ℕ) : Prop := (∃ fd, L.poll_.Registered fd c) ∨ c ∈ L.due

/-- A connection a loop can reach is served by it. -/
theorem LoopInv.served (h : LoopInv w l L) (hreach : L.Reaches c) (hk : w.conns c = some k) :
    k.Served l := by
  rcases hreach with ⟨fd, hreg⟩ | hdue
  · exact (h.registered fd c k hreg hk).2
  · exact h.due c k hdue hk

/-- A loop that neither reaches nor keeps a connection does not depend on it. -/
theorem loopInv_of_other (h : LoopInv w l L) (hother : ∀ c', c' ≠ c → w'.conns c' = w.conns c')
    (hforeign : w'.foreign = w.foreign) (hunreached : ¬L.Reaches c) (hunheld : c ∉ L.holds) :
    LoopInv w' l L := by
  refine ⟨fun c' hc' => ?_, fun fd c' k hreg hk => ?_, fun c' k hdue hk => ?_,
    fun t k ht hk => ?_, h.once, fun x hx => ?_⟩
  · obtain ⟨k, hk, hlive⟩ := h.held c' hc'
    exact ⟨k, (hother c' fun hc => hunheld (hc ▸ hc')).trans hk, hlive⟩
  · have hc : c' ≠ c := fun hc => hunreached (Or.inl ⟨fd, hc ▸ hreg⟩)
    exact h.registered fd c' k hreg ((hother c' hc).symm.trans hk)
  · have hc : c' ≠ c := fun hc => hunreached (Or.inr (hc ▸ hdue))
    exact h.due c' k hdue ((hother c' hc).symm.trans hk)
  · have hc : t.conn ≠ c := fun hc => hunheld (hc ▸ holds_of_pending ht)
    exact h.tasks t k ht ((hother t.conn hc).symm.trans hk)
  · have hc : x ≠ c := by
      rintro rfl
      exact hunreached hx
    rw [hforeign, hother x hc]
    exact h.known x hx

/-- The state of a connection changes, or it is removed. -/
theorem inv_setConn (h : Inv w) (hk : w.conns c = some k) {k' : Conn n} (hfd : k'.fd_ = k.fd_)
    (hfreed : k'.freed = k.freed) (hserved : ∀ l, (w.loops l).Reaches c → k'.Served l)
    (htasks : ∀ l, ∀ t ∈ (w.loops l).pending, t.conn = c → t.Fits l k')
    (hfresh : k'.state_ = .kConnecting → k'.removed = false) : Inv (w.setConn c k') := by
  have hself : (w.setConn c k').conns c = some k' := w.conns_setConn c k'
  have hother : ∀ {c'}, c' ≠ c → (w.setConn c k').conns c' = w.conns c' :=
    fun hc => w.conns_setConn_of_ne c k' hc
  -- every connection has a counterpart with the same descriptor
  have hback : ∀ c' k₁, (w.setConn c k').conns c' = some k₁ →
      ∃ k₀, w.conns c' = some k₀ ∧ k₁.fd_ = k₀.fd_ ∧ k₁.freed = k₀.freed := by
    intro c' k₁ hk₁
    by_cases hc : c' = c
    · subst hc
      cases hself.symm.trans hk₁
      exact ⟨k, hk, hfd, hfreed⟩
    · exact ⟨k₁, (hother hc).symm.trans hk₁, rfl, rfl⟩
  have hforth : ∀ c' k₀, w.conns c' = some k₀ →
      ∃ k₁, (w.setConn c k').conns c' = some k₁ ∧ k₁.fd_ = k₀.fd_ ∧ k₁.freed = k₀.freed := by
    intro c' k₀ hk₀
    by_cases hc : c' = c
    · subst hc
      cases hk.symm.trans hk₀
      exact ⟨k', hself, hfd, hfreed⟩
    · exact ⟨k₀, (hother hc).trans hk₀, rfl, rfl⟩
  have halive : ∀ c', w.Alive c' → (w.setConn c k').Alive c' := by
    rintro c' ⟨k₀, hk₀, hlive⟩
    obtain ⟨k₁, hk₁, _, hsame⟩ := hforth c' k₀ hk₀
    exact ⟨k₁, hk₁, hsame.trans hlive⟩
  refine ⟨fun l => ⟨fun c' hc' => halive c' ((h.loops l).held c' hc'), ?_, ?_, ?_, (h.loops l).once,
    fun x hx => ?_⟩, ?_, ?_, fun x hx => ?_, fun c' hc' => halive c' (h.copied c' hc'), ?_,
    fun x hx => ?_⟩
  · intro fd c' k₁ hreg hk₁
    by_cases hc : c' = c
    · subst hc
      cases hself.symm.trans hk₁
      exact ⟨hfd.trans ((h.loops l).registered fd c' k hreg hk).1, hserved l (Or.inl ⟨fd, hreg⟩)⟩
    · exact (h.loops l).registered fd c' k₁ hreg ((hother hc).symm.trans hk₁)
  · intro c' k₁ hdue hk₁
    by_cases hc : c' = c
    · subst hc
      cases hself.symm.trans hk₁
      exact hserved l (Or.inr hdue)
    · exact (h.loops l).due c' k₁ hdue ((hother hc).symm.trans hk₁)
  · intro t k₁ ht hk₁
    by_cases hc : t.conn = c
    · rw [hc] at hk₁
      cases hself.symm.trans hk₁
      exact htasks l t ht hc
    · exact (h.loops l).tasks t k₁ ht ((hother hc).symm.trans hk₁)
  · refine ((h.loops l).known x hx).imp_right fun hne hnone => ?_
    obtain ⟨k₀, hk₀⟩ := Option.ne_none_iff_exists'.mp hne
    obtain ⟨k₁, hk₁, _⟩ := hforth x k₀ hk₀
    exact absurd hk₁ (hnone ▸ fun hno => by cases hno)
  · intro c' k₁ hk₁ hlive
    obtain ⟨k₀, hk₀, hfd₀, hfreed₀⟩ := hback c' k₁ hk₁
    exact hfd₀ ▸ h.opened c' k₀ hk₀ (hfreed₀ ▸ hlive)
  · intro c₁ k₁ c₂ k₂ hk₁ hlive₁ hk₂ hlive₂ hsame
    obtain ⟨k₁', hk₁', hfd₁, hfreed₁⟩ := hback c₁ k₁ hk₁
    obtain ⟨k₂', hk₂', hfd₂, hfreed₂⟩ := hback c₂ k₂ hk₂
    exact h.distinct c₁ k₁' c₂ k₂' hk₁' (hfreed₁ ▸ hlive₁) hk₂' (hfreed₂ ▸ hlive₂)
      (hfd₁.symm.trans (hsame.trans hfd₂))
  · obtain ⟨k₀, hk₀, hfd₀, hlive⟩ := h.entries x hx
    obtain ⟨k₁, hk₁, hfd₁, hfreed₁⟩ := hforth x.2 k₀ hk₀
    exact ⟨k₁, hk₁, hfd₁.trans hfd₀, hfreed₁.trans hlive⟩
  · intro c' k₁ hk₁ hstate
    by_cases hc : c' = c
    · subst hc
      cases hself.symm.trans hk₁
      exact hfresh hstate
    · exact h.fresh c' k₁ ((hother hc).symm.trans hk₁) hstate
  · have hne : x ≠ c := by
      rintro rfl
      cases hk.symm.trans (h.foreign x hx)
    exact (hother hne).trans (h.foreign x hx)

/-- The poller of a loop changes; what it registers anew is served by the loop. -/
theorem loopInv_poll (h : LoopInv w l L) {p : PollSelect}
    (hreg : ∀ fd c, p.Registered fd c → L.poll_.Registered fd c ∨
      (c ∈ w.foreign ∨ w.conns c ≠ none) ∧
        ∀ k, w.conns c = some k → k.fd_ = fd ∧ k.Served l) :
    LoopInv w l { L with poll_ := p } := by
  refine ⟨h.held, fun fd c k hp hk => ?_, h.due, h.tasks, h.once, fun x hx => ?_⟩
  · rcases hreg fd c hp with hold | ⟨_, hnew⟩
    · exact h.registered fd c k hold hk
    · exact hnew k hk
  · rcases hx with ⟨fd, hp⟩ | hdue
    · rcases hreg fd x hp with hold | ⟨hknown, _⟩
      · exact h.known x (Or.inl ⟨fd, hold⟩)
      · exact hknown
    · exact h.known x (Or.inr hdue)

/-- A queued task waits. -/
theorem pending_queue : ({ L with tasks_ := L.tasks_ ++ [t] } : Loop).pending = L.pending ++ [t] := by
  obtain ⟨p, phase, tasks⟩ := L
  unfold Loop.pending
  cases phase with
  | running done todo => exact (List.append_assoc todo tasks [t]).symm
  | waiting => rfl
  | handling current due => rfl

/-- A queued task keeps its connection. -/
theorem holds_queue :
    ({ L with tasks_ := L.tasks_ ++ [t] } : Loop).holds = L.holds ++ [t.conn] := by
  obtain ⟨p, phase, tasks⟩ := L
  unfold Loop.holds
  cases phase with
  | running done todo =>
    dsimp only
    rw [← List.append_assoc, List.map_append]
    rfl
  | waiting => exact List.map_append
  | handling current due => exact List.map_append

/-- A task is queued on the loop. -/
theorem loopInv_queue (h : LoopInv w l L) (halive : w.Alive t.conn)
    (hfits : ∀ k, w.conns t.conn = some k → t.Fits l k)
    (honce : t.work = .completeConnect → t ∉ L.pending) :
    LoopInv w l { L with tasks_ := L.tasks_ ++ [t] } := by
  refine ⟨fun c hc => ?_, h.registered, h.due, fun t' k ht' hk => ?_, fun c => ?_, h.known⟩
  · rw [holds_queue] at hc
    rcases List.mem_append.mp hc with hc | hc
    · exact h.held c hc
    · rw [List.mem_singleton.mp hc]
      exact halive
  · rw [pending_queue] at ht'
    rcases List.mem_append.mp ht' with ht' | ht'
    · exact h.tasks t' k ht' hk
    · rw [List.mem_singleton] at ht'
      subst ht'
      exact hfits k hk
  · rw [pending_queue, List.count_append, List.count_singleton]
    by_cases ht : t = ⟨.completeConnect, c⟩
    · have hzero : L.pending.count ⟨.completeConnect, c⟩ = 0 := by
        rw [List.count_eq_zero, ← ht]
        exact honce (congrArg Task.work ht)
      rw [hzero]
      split <;> omega
    · rw [if_neg fun hb => ht (eq_of_beq hb)]
      exact h.once c

/-- The loop goes on. -/
theorem loopInv_move (h : LoopInv w l L) {L' : Loop} (hpoll : L'.poll_ = L.poll_)
    (hholds : ∀ c ∈ L'.holds, c ∈ L.holds) (hpending : L'.pending.Sublist L.pending)
    (hdue : ∀ c ∈ L'.due, L.Reaches c) : LoopInv w l L' := by
  refine ⟨fun c hc => h.held c (hholds c hc), ?_, fun c k hc hk => ?_,
    fun t k ht hk => h.tasks t k (hpending.subset ht) hk,
    fun c => (hpending.count_le _).trans (h.once c), fun x hx => ?_⟩
  · rw [hpoll]
    exact h.registered
  · rcases hdue c hc with ⟨fd, hreg⟩ | hold
    · exact (h.registered fd c k hreg hk).2
    · exact h.due c k hold hk
  · rw [hpoll] at hx
    rcases hx with hreg | hc
    · exact h.known x (Or.inl hreg)
    · exact h.known x (hdue x hc)

/-- Removals go on while connections change and tasks move. -/
theorem owned_mono {taken taken' : List Task} (ho : Owned w taken)
    (hconns : ∀ c k', w'.conns c = some k' → k'.removed = false →
      ∃ k, w.conns c = some k ∧ k.removed = false ∧ k.fd_ = k'.fd_)
    (hmap : ∀ x ∈ w.connections_, x ∈ w'.connections_)
    (htasks : ∀ t, (t ∈ taken ∨ ∃ l, t ∈ (w.loops l).pending) →
      t ∈ taken' ∨ ∃ l, t ∈ (w'.loops l).pending) : Owned w' taken' := by
  intro c k' hk' hremoved
  obtain ⟨k, hk, hold, hfd⟩ := hconns c k' hk' hremoved
  rw [← hfd]
  exact (ho c k hk hold).imp (hmap _) fun ⟨t, hremoves, ht⟩ => ⟨t, hremoves, htasks t ht⟩

/-- A change of one loop that drops no pending task. -/
theorem owned_setLoop {taken taken' : List Task} (ho : Owned w taken)
    (htaken : ∀ t ∈ taken, t ∈ taken' ∨ t ∈ L.pending)
    (hpending : ∀ t ∈ (w.loops l).pending, t ∈ taken' ∨ t ∈ L.pending) :
    Owned (w.setLoop l L) taken' := by
  refine owned_mono ho (fun c k' hk' hremoved => ⟨k', hk', hremoved, rfl⟩) (fun x hx => hx) ?_
  have hself : ∀ t, t ∈ taken' ∨ t ∈ L.pending →
      t ∈ taken' ∨ ∃ l', t ∈ ((w.setLoop l L).loops l').pending := by
    refine fun t ht => ht.imp_right fun ht => ⟨l, ?_⟩
    rw [World.loops_setLoop]
    exact ht
  rintro t (ht | ⟨l', ht⟩)
  · exact hself t (htaken t ht)
  · by_cases hl : l' = l
    · subst hl
      exact hself t (hpending t ht)
    · refine Or.inr ⟨l', ?_⟩
      rw [World.loops_setLoop_of_ne w l hl]
      exact ht

/-- The task that was taken concerned one connection. -/
theorem owned_drop {taken : List Task} (ho : Owned w taken) (htaken : ∀ t ∈ taken, t.conn = c)
    (hc : ∀ k, w.conns c = some k → k.removed = false → (k.fd_, c) ∈ w.connections_ ∨
      ∃ t : Task, t.Removes c ∧ ∃ l, t ∈ (w.loops l).pending) : Owned w [] := by
  intro c' k' hk' hremoved
  by_cases hsame : c' = c
  · subst hsame
    exact (hc k' hk' hremoved).imp_right fun ⟨t, hremoves, ht⟩ => ⟨t, hremoves, Or.inr ht⟩
  · refine (ho c' k' hk' hremoved).imp_right fun ⟨t, hremoves, ht⟩ => ⟨t, hremoves, Or.inr ?_⟩
    refine ht.resolve_left fun ht => hsame ?_
    rw [← htaken t ht]
    rcases hremoves with rfl | rfl <;> rfl

/-- Two live connections do not share a descriptor, so an entry under the descriptor
of a live connection is its own. -/
theorem entry_unique (h : Inv w) (hk : w.conns c = some k) (hlive : k.freed = false)
    {x : ℤ × ℕ} (hx : x ∈ w.connections_) (hfd : x.1 = k.fd_) : x.2 = c := by
  obtain ⟨k', hk', hfd', hlive'⟩ := h.entries x hx
  exact h.distinct x.2 k' c k hk' hlive' hk hlive (hfd'.trans hfd)

/-- `completeConnect` puts the connection on the poller of its loop. -/
theorem inv_completeConnect (h : Inv w) (hk : w.conns c = some k)
    (hstate : k.state_ = .kConnecting)
    (hnone : ∀ l, ⟨.completeConnect, c⟩ ∉ (w.loops l).pending) :
    Inv (w.completeConnect c k) := by
  have hconn : Inv (w.setConn c { k with state_ := .kConnected }) := by
    refine inv_setConn h hk rfl rfl (fun l hreach => ?_) (fun l t ht hc => ?_)
      (fun hs => by cases hs)
    · exact absurd hstate ((h.loops l).served hreach hk).state_
    · have hfits := (h.loops l).tasks t k ht (hc ▸ hk)
      obtain ⟨work, conn⟩ := t
      cases hc
      cases work with
      | completeConnect => exact absurd ht (hnone l)
      | removeConnectionInLoop => exact absurd hstate hfits
      | connectDestroyed => exact absurd hstate hfits.1
      | handleClose => exact absurd hstate hfits
      | other => exact trivial
  have hself := w.conns_setConn c { k with state_ := .kConnected }
  refine inv_setLoop hconn (loopInv_poll (hconn.loops k.loop_) fun fd c' hreg => ?_)
  rcases registered_addFd (registered_flag hreg) with ⟨hfd, hc'⟩ | ⟨hold, _⟩
  · subst hfd hc'
    refine Or.inr ⟨Or.inr (hself ▸ fun hno => by cases hno), fun k' hk' => ?_⟩
    cases hself.symm.trans hk'
    exact ⟨rfl, rfl, h.fresh c' k hk hstate, fun hs => by cases hs⟩
  · exact Or.inl hold

/-- `connectDestroyed` takes the connection off the poller of its loop, which does not
handle events then. -/
theorem inv_connectDestroyed (h : Inv w) (hk : w.conns c = some k)
    (hstate : k.state_ ≠ .kConnecting) (hdue : (w.loops k.loop_).due = []) :
    Inv (w.connectDestroyed c k) := by
  have hpoll : Inv (w.setPoll k.loop_ ((w.loops k.loop_).poll_.deleteFd k.fd_).1) :=
    inv_setLoop h (loopInv_poll (h.loops k.loop_) fun fd c' hreg =>
      Or.inl (registered_deleteFd hreg).1)
  refine inv_setConn hpoll hk rfl rfl (fun l hreach => ?_) (fun l t ht hc => ?_)
    (fun hs => absurd hs hstate)
  · by_cases hl : l = k.loop_
    · subst hl
      unfold World.setPoll Loop.Reaches at hreach
      rw [World.loops_setLoop] at hreach
      rcases hreach with ⟨fd, hreg⟩ | hmem
      · obtain ⟨hold, hne⟩ := registered_deleteFd hreg
        exact absurd ((h.loops k.loop_).registered fd c k hold hk).1.symm hne
      · have hnil : c ∈ (w.loops k.loop_).due := hmem
        rw [hdue] at hnil
        exact absurd hnil List.not_mem_nil
    · unfold World.setPoll Loop.Reaches at hreach
      rw [World.loops_setLoop_of_ne w k.loop_ hl] at hreach
      exact absurd ((h.loops l).served hreach hk).loop_.symm hl
  · exact (hpoll.loops l).tasks t k ht (hc ▸ hk)

/-- Erasing an entry of the registry. -/
theorem inv_erase (h : Inv w) (fd : ℤ) :
    Inv { w with connections_ := w.connections_.erase fd } := by
  refine ⟨fun l => loopInv_of_same (h.loops l) rfl fun _ hx => hx, h.opened, h.distinct,
    fun x hx => ?_, h.copied, h.fresh, h.foreign⟩
  exact h.entries x (OrderedSet.mem_erase.mp hx).1

/-- Queueing a task keeps the order. -/
theorem inv_queueInLoop (h : Inv w) (halive : w.Alive t.conn)
    (hfits : ∀ k, w.conns t.conn = some k → t.Fits l k)
    (honce : t.work = .completeConnect → t ∉ (w.loops l).pending) : Inv (w.queueInLoop l t) :=
  inv_setLoop h (loopInv_queue (h.loops l) halive hfits honce)

/-- A queued task is pending. -/
theorem mem_queueInLoop : t ∈ ((w.queueInLoop l t).loops l).pending := by
  unfold World.queueInLoop
  rw [World.loops_setLoop, pending_queue]
  exact List.mem_append_right _ (List.mem_singleton.mpr rfl)

/-- Queueing a task drops none. -/
theorem owned_queueInLoop {taken : List Task} (ho : Owned w taken) :
    Owned (w.queueInLoop l t) taken := by
  refine owned_setLoop ho (fun t ht => Or.inl ht) fun t' ht' => Or.inr ?_
  rw [pending_queue]
  exact List.mem_append_left _ ht'

/-- `removeConnectionInLoop` hands the connection over to `connectDestroyed`. -/
theorem removeConnectionInLoop_spec {taken : List Task} (h : Inv w) (ho : Owned w taken)
    (htaken : ∀ t ∈ taken, t.conn = c) (hk : w.conns c = some k) (hlive : k.freed = false)
    (hstate : k.state_ ≠ .kConnecting) :
    Inv (w.removeConnectionInLoop c k) ∧ Owned (w.removeConnectionInLoop c k) [] := by
  have hinv : Inv (w.removeConnectionInLoop c k) := by
    refine inv_queueInLoop (inv_erase h k.fd_) ⟨k, hk, hlive⟩ (fun k' hk' => ?_)
      (fun hwork => by cases hwork)
    cases hk.symm.trans hk'
    exact ⟨hstate, rfl⟩
  refine ⟨hinv, fun c' k' hk' hremoved => ?_⟩
  by_cases hc : c' = c
  · subst hc
    exact Or.inr ⟨_, Or.inr rfl, Or.inr ⟨k.loop_, mem_queueInLoop⟩⟩
  · have hk'₀ : w.conns c' = some k' := hk'
    have hqueued := owned_queueInLoop (l := k.loop_) (t := ⟨.connectDestroyed, c⟩) ho
    rcases hqueued c' k' hk'₀ hremoved with hmem | ⟨t, hremoves, ht⟩
    · have hne : k'.fd_ ≠ k.fd_ := fun hfd => hc (entry_unique h hk hlive hmem hfd)
      exact Or.inl (OrderedSet.mem_erase.mpr ⟨hmem, hne⟩)
    · refine Or.inr ⟨t, hremoves, Or.inr (ht.resolve_left fun ht => hc ?_)⟩
      rw [← htaken t ht]
      rcases hremoves with rfl | rfl <;> rfl

/-- `removeConnection` sends the connection on its way. -/
theorem removeConnection_spec {taken : List Task} (h : Inv w) (ho : Owned w taken)
    (htaken : ∀ t ∈ taken, t.conn = c) (hk : w.conns c = some k) (hlive : k.freed = false)
    (hstate : k.state_ ≠ .kConnecting) :
    Inv (w.removeConnection l c k) ∧ Owned (w.removeConnection l c k) [] := by
  unfold World.removeConnection
  by_cases hl : l = w.base
  · rw [if_pos hl]
    exact removeConnectionInLoop_spec h ho htaken hk hlive hstate
  · rw [if_neg hl]
    constructor
    · refine inv_queueInLoop h ⟨k, hk, hlive⟩ (fun k' hk' => ?_) (fun hwork => by cases hwork)
      cases hk.symm.trans hk'
      exact hstate
    · refine owned_drop (owned_queueInLoop ho) htaken fun _ _ _ => Or.inr ?_
      exact ⟨_, Or.inl rfl, w.base, mem_queueInLoop⟩

/-- The state a closed connection is in. -/
theorem closed_same (k : Conn n) : k.closed.fd_ = k.fd_ ∧ k.closed.loop_ = k.loop_ ∧
    k.closed.removed = k.removed ∧ k.closed.freed = k.freed ∧
    (k.state_ ≠ .kConnecting → k.closed.state_ ≠ .kConnecting) := by
  unfold Conn.closed
  split
  · exact ⟨rfl, rfl, rfl, rfl, fun _ hs => by cases hs⟩
  · exact ⟨rfl, rfl, rfl, rfl, id⟩

/-- A connection that is not connecting changes its state. -/
theorem inv_state (h : Inv w) (hk : w.conns c = some k) (hstate : k.state_ ≠ .kConnecting)
    {k' : Conn n} (hfd : k'.fd_ = k.fd_) (hloop : k'.loop_ = k.loop_)
    (hremoved : k'.removed = k.removed) (hfreed : k'.freed = k.freed)
    (hstate' : k'.state_ ≠ .kConnecting) : Inv (w.setConn c k') := by
  refine inv_setConn h hk hfd hfreed (fun l hreach => ?_) (fun l t ht hc => ?_)
    (fun hs => absurd hs hstate')
  · have hserved := (h.loops l).served hreach hk
    exact ⟨hloop.trans hserved.loop_, hremoved.trans hserved.removed, hstate'⟩
  · have hfits := (h.loops l).tasks t k ht (hc ▸ hk)
    unfold Task.Fits at hfits ⊢
    cases hwork : t.work with
    | completeConnect =>
      rw [hwork] at hfits
      exact absurd hfits.1 hstate
    | removeConnectionInLoop => exact hstate'
    | connectDestroyed =>
      rw [hwork] at hfits
      exact ⟨hstate', hloop.trans hfits.2⟩
    | handleClose => exact hstate'
    | other => exact trivial

/-- Owners stay when a connection changes its state. -/
theorem owned_setConn {taken : List Task} (ho : Owned w taken) (hk : w.conns c = some k)
    {k' : Conn n} (hfd : k'.fd_ = k.fd_) (hremoved : k'.removed = false → k.removed = false) :
    Owned (w.setConn c k') taken := by
  refine owned_mono ho (fun c₁ k₁ hk₁ hr => ?_) (fun x hx => hx) fun t ht => ht
  by_cases hc : c₁ = c
  · subst hc
    cases (w.conns_setConn c₁ k').symm.trans hk₁
    exact ⟨k, hk, hremoved hr, hfd.symm⟩
  · exact ⟨k₁, (w.conns_setConn_of_ne c k' hc).symm.trans hk₁, hr, rfl⟩

/-- Owners stay when a poller changes. -/
theorem owned_setPoll {taken : List Task} (ho : Owned w taken) (l : Fin n) (p : PollSelect) :
    Owned (w.setPoll l p) taken :=
  owned_setLoop ho (fun _ ht => Or.inl ht) fun _ ht => Or.inr ht

/-- `handleClose` sends the connection on its way to `connectDestroyed`. -/
theorem handleClose_spec {taken : List Task} (h : Inv w) (ho : Owned w taken)
    (htaken : ∀ t ∈ taken, t.conn = c) (hk : w.conns c = some k) (hlive : k.freed = false)
    (hstate : k.state_ ≠ .kConnecting) :
    Inv (w.handleClose l c k) ∧ Owned (w.handleClose l c k) [] := by
  obtain ⟨hfd, hloop, hremoved, hfreed, hclosed⟩ := closed_same k
  have hpoll : Inv (w.setPoll k.loop_ ((w.loops k.loop_).poll_.deleteAllEvent k.fd_)) :=
    inv_setLoop h (loopInv_poll (h.loops k.loop_) fun fd c' hreg =>
      Or.inl (registered_deleteAllEvent hreg))
  have hconn := inv_state hpoll hk hstate hfd hloop hremoved hfreed (hclosed hstate)
  have howned : Owned ((w.setPoll k.loop_ ((w.loops k.loop_).poll_.deleteAllEvent k.fd_)).setConn c
      k.closed) taken :=
    owned_setConn (owned_setPoll ho k.loop_ _) hk hfd fun hr => hremoved ▸ hr
  exact removeConnection_spec hconn howned htaken (World.conns_setConn _ c k.closed)
    (hfreed.trans hlive) (hclosed hstate)

/-- A task that is no removal need not run for a connection to be owned. -/
theorem owned_of_idle (ho : Owned w [t]) (hno : ∀ c, ¬t.Removes c) : Owned w [] := by
  intro c k hk hremoved
  refine (ho c k hk hremoved).imp_right fun ⟨t', hremoves, ht'⟩ => ⟨t', hremoves, ?_⟩
  refine Or.inr (ht'.resolve_left fun ht => hno c ?_)
  rw [← List.mem_singleton.mp ht]
  exact hremoves

/-- A task that was taken runs, on a loop that does not handle events then. -/
theorem execute_spec (h : Inv w) (ho : Owned w [t]) (hk : w.conns t.conn = some k)
    (hlive : k.freed = false) (hfits : t.Fits l k)
    (honce : t.work = .completeConnect → ∀ l, t ∉ (w.loops l).pending)
    (hdue : (w.loops l).due = []) :
    Inv (w.execute l k t) ∧ Owned (w.execute l k t) [] := by
  obtain ⟨work, conn⟩ := t
  have htaken : ∀ t ∈ [(⟨work, conn⟩ : Task)], t.conn = conn := by
    intro t ht
    rw [List.mem_singleton.mp ht]
  cases work with
  | completeConnect =>
    refine ⟨inv_completeConnect h hk hfits.1 (honce rfl), ?_⟩
    have hidle : ∀ c, ¬(⟨.completeConnect, conn⟩ : Task).Removes c := by
      rintro c (hc | hc) <;> cases hc
    exact owned_setConn (owned_setPoll (owned_of_idle ho hidle) k.loop_ _) hk rfl id
  | removeConnectionInLoop => exact removeConnectionInLoop_spec h ho htaken hk hlive hfits
  | connectDestroyed =>
    refine ⟨inv_connectDestroyed h hk hfits.1 (by rw [hfits.2]; exact hdue), ?_⟩
    have howned : Owned (w.connectDestroyed conn k) [⟨.connectDestroyed, conn⟩] :=
      owned_setConn (owned_setPoll ho k.loop_ _) hk rfl fun hr => by cases hr
    refine owned_drop howned htaken fun k' hk' hr => ?_
    cases (World.conns_setConn _ conn { k with removed := true }).symm.trans hk'
    cases hr
  | handleClose => exact handleClose_spec h ho htaken hk hlive hfits
  | other =>
    have hidle : ∀ c, ¬(⟨.other, conn⟩ : Task).Removes c := by
      rintro c (hc | hc) <;> cases hc
    exact ⟨h, owned_of_idle ho hidle⟩

/-- The loop goes on, and takes at most these tasks from those that wait. -/
theorem move_spec (h : Inv w) (ho : Owned w []) (L' : Loop) (taken : List Task)
    (hpoll : L'.poll_ = (w.loops l).poll_) (hholds : ∀ c ∈ L'.holds, c ∈ (w.loops l).holds)
    (hpending : (w.loops l).pending = taken ++ L'.pending)
    (hdue : ∀ c ∈ L'.due, (w.loops l).Reaches c) :
    Inv (w.setLoop l L') ∧ Owned (w.setLoop l L') taken := by
  refine ⟨inv_setLoop h (loopInv_move (h.loops l) hpoll hholds ?_ hdue), ?_⟩
  · rw [hpending]
    exact List.sublist_append_right taken L'.pending
  · refine owned_setLoop ho (fun t ht => absurd ht List.not_mem_nil) fun t ht => ?_
    rw [hpending] at ht
    exact List.mem_append.mp ht

/-- A connection that was just accepted. -/
theorem accept_spec (h : Inv w) (ho : Owned w []) {fd : ℤ} (hfd : fd ∉ w.descriptors)
    (hforeign : c ∉ w.foreign) (hnone : w.conns c = none) {ioLoop : Fin n}
    (hk : k = ⟨fd, ioLoop, .kConnecting, false, false⟩)
    (hw : w' = { w.setConn c k with
      descriptors := fd :: w.descriptors, connections_ := w.connections_.assign (fd, c) }) :
    Inv w' ∧ Owned w' [] ∧ ∀ l, ∀ t ∈ (w'.loops l).pending, t.conn ≠ c := by
  subst hk hw
  have hself := w.conns_setConn c ⟨fd, ioLoop, .kConnecting, false, false⟩
  have hother : ∀ {c'}, c' ≠ c →
      (w.setConn c ⟨fd, ioLoop, .kConnecting, false, false⟩).conns c' = w.conns c' :=
    fun hc => w.conns_setConn_of_ne c _ hc
  have hold : ∀ {c' k'}, w.conns c' = some k' → c' ≠ c := by
    rintro c' k' hk' rfl
    cases hnone.symm.trans hk'
  have hunreached : ∀ l, ¬(w.loops l).Reaches c := by
    intro l hreach
    rcases (h.loops l).known c hreach with hc | hc
    · exact hforeign hc
    · exact hc hnone
  have hunheld : ∀ l, c ∉ (w.loops l).holds := by
    intro l hc
    obtain ⟨k', hk', _⟩ := (h.loops l).held c hc
    exact hold hk' rfl
  have halive : ∀ c', w.Alive c' →
      (w.setConn c ⟨fd, ioLoop, .kConnecting, false, false⟩).Alive c' :=
    fun c' ⟨k', hk', hlive⟩ => ⟨k', (hother (hold hk')).trans hk', hlive⟩
  refine ⟨⟨fun l => loopInv_of_other (h.loops l) (fun c' hc => hother hc) rfl (hunreached l)
    (hunheld l), ?_, ?_, ?_, fun c' hc' => halive c' (h.copied c' hc'), ?_, ?_⟩, ?_,
    fun l t ht hc => hunheld l (hc ▸ holds_of_pending ht)⟩
  · intro c' k' hk' hlive
    by_cases hc : c' = c
    · subst hc
      cases hself.symm.trans hk'
      exact List.mem_cons_self
    · exact List.mem_cons_of_mem fd (h.opened c' k' ((hother hc).symm.trans hk') hlive)
  · intro c₁ k₁ c₂ k₂ hk₁ hlive₁ hk₂ hlive₂ hsame
    by_cases hc₁ : c₁ = c
    · by_cases hc₂ : c₂ = c
      · exact hc₁.trans hc₂.symm
      · subst hc₁
        cases hself.symm.trans hk₁
        have hopen := h.opened c₂ k₂ ((hother hc₂).symm.trans hk₂) hlive₂
        rw [← hsame] at hopen
        exact absurd hopen hfd
    · have hk₁' := (hother hc₁).symm.trans hk₁
      by_cases hc₂ : c₂ = c
      · subst hc₂
        cases hself.symm.trans hk₂
        have hopen := h.opened c₁ k₁ hk₁' hlive₁
        rw [hsame] at hopen
        exact absurd hopen hfd
      · exact h.distinct c₁ k₁ c₂ k₂ hk₁' hlive₁ ((hother hc₂).symm.trans hk₂) hlive₂ hsame
  · intro x hx
    rcases OrderedSet.mem_assign.mp hx with rfl | ⟨hx, _⟩
    · exact ⟨_, hself, rfl, rfl⟩
    · obtain ⟨k', hk', hfd', hlive⟩ := h.entries x hx
      exact ⟨k', (hother (hold hk')).trans hk', hfd', hlive⟩
  · intro c' k' hk' hstate
    by_cases hc : c' = c
    · subst hc
      cases hself.symm.trans hk'
      rfl
    · exact h.fresh c' k' ((hother hc).symm.trans hk') hstate
  · intro x hx
    have hne : x ≠ c := fun hc => hforeign (hc ▸ hx)
    exact (hother hne).trans (h.foreign x hx)
  · intro c' k' hk' hr
    by_cases hc : c' = c
    · subst hc
      cases hself.symm.trans hk'
      exact Or.inl (OrderedSet.mem_assign.mpr (Or.inl rfl))
    · rcases ho c' k' ((hother hc).symm.trans hk') hr with hmem | hremoves
      · obtain ⟨k₀, hk₀, hfd₀, hlive⟩ := h.entries _ hmem
        have hopen := h.opened c' k₀ hk₀ hlive
        rw [hfd₀] at hopen
        refine Or.inl (OrderedSet.mem_assign.mpr (Or.inr ⟨hmem, fun hsame => hfd ?_⟩))
        rw [← show k'.fd_ = fd from hsame]
        exact hopen
      · exact Or.inr hremoves

/-- The destructor runs on a connection that is not kept, so after its removal. -/
theorem destroy_spec (h : Inv w) (ho : Owned w []) (hk : w.conns c = some k)
    (hlive : k.freed = false) (hunkept : ¬w.Referenced c) :
    Inv (w.destroy c k) ∧ Owned (w.destroy c k) [] := by
  have hself := w.conns_setConn c { k with freed := true }
  have hother : ∀ {c'}, c' ≠ c → (w.setConn c { k with freed := true }).conns c' = w.conns c' :=
    fun hc => w.conns_setConn_of_ne c _ hc
  have hremoved : k.removed = true := by
    by_contra hr
    exact hunkept (referenced_of_owned ho hk (Bool.eq_false_of_not_eq_true hr))
  have hunheld : ∀ l, c ∉ (w.loops l).holds := fun l hc => hunkept (Or.inr (Or.inr ⟨l, hc⟩))
  have hunreached : ∀ l, ¬(w.loops l).Reaches c := by
    intro l hreach
    cases hremoved.symm.trans ((h.loops l).served hreach hk).removed
  have halive : ∀ c', c' ≠ c → w.Alive c' → (w.setConn c { k with freed := true }).Alive c' :=
    fun c' hc ⟨k', hk', hlive'⟩ => ⟨k', (hother hc).trans hk', hlive'⟩
  -- what is not freed is another connection
  have hback : ∀ c' k', (w.setConn c { k with freed := true }).conns c' = some k' →
      k'.freed = false → c' ≠ c ∧ w.conns c' = some k' := by
    intro c' k' hk' hlive'
    by_cases hc : c' = c
    · subst hc
      cases hself.symm.trans hk'
      cases hlive'
    · exact ⟨hc, (hother hc).symm.trans hk'⟩
  refine ⟨⟨fun l => loopInv_of_other (h.loops l) (fun c' hc => hother hc) rfl (hunreached l)
    (hunheld l), ?_, ?_, ?_, ?_, ?_, ?_⟩, owned_setConn ho hk rfl id⟩
  · intro c' k' hk' hlive'
    obtain ⟨hc, hold⟩ := hback c' k' hk' hlive'
    have hne : k'.fd_ ≠ k.fd_ := fun hfd => hc (h.distinct c' k' c k hold hlive' hk hlive hfd)
    exact (List.mem_erase_of_ne hne).mpr (h.opened c' k' hold hlive')
  · intro c₁ k₁ c₂ k₂ hk₁ hlive₁ hk₂ hlive₂
    exact h.distinct c₁ k₁ c₂ k₂ (hback c₁ k₁ hk₁ hlive₁).2 hlive₁ (hback c₂ k₂ hk₂ hlive₂).2 hlive₂
  · intro x hx
    obtain ⟨k', hk', hfd', hlive'⟩ := h.entries x hx
    have hc : x.2 ≠ c := fun hc => hunkept (Or.inl (List.mem_map.mpr ⟨x, hx, hc⟩))
    exact ⟨k', (hother hc).trans hk', hfd', hlive'⟩
  · intro c' hc'
    exact halive c' (fun hc => hunkept (Or.inr (Or.inl (hc ▸ hc')))) (h.copied c' hc')
  · intro c' k' hk' hstate
    by_cases hc : c' = c
    · subst hc
      cases hself.symm.trans hk'
      exact h.fresh c' k hk hstate
    · exact h.fresh c' k' ((hother hc).symm.trans hk') hstate
  · intro x hx
    have hne : x ≠ c := by
      rintro rfl
      cases hk.symm.trans (h.foreign x hx)
    exact (hother hne).trans (h.foreign x hx)

/-- Others register handlers of their own. -/
theorem poll_spec (h : Inv w) (ho : Owned w []) {call : Call}
    (hfree : ∀ x ∈ call.handlers, w.conns x = none) :
    Inv { w.setPoll l (perform (w.loops l).poll_ call).1 with
      foreign := call.handlers ++ w.foreign } ∧
    Owned { w.setPoll l (perform (w.loops l).poll_ call).1 with
      foreign := call.handlers ++ w.foreign } [] := by
  have hforeign : Inv { w with foreign := call.handlers ++ w.foreign } := by
    refine ⟨fun l => loopInv_of_same (h.loops l) rfl fun x hx => List.mem_append_right _ hx,
      h.opened, h.distinct, h.entries, h.copied, h.fresh, fun x hx => ?_⟩
    rcases List.mem_append.mp hx with hx | hx
    · exact hfree x hx
    · exact h.foreign x hx
  constructor
  · refine inv_setLoop hforeign (loopInv_poll (hforeign.loops l) fun fd c hreg => ?_)
    refine (registered_perform hreg).imp_right fun ⟨hc, _⟩ => ⟨Or.inl ?_, fun k hk => ?_⟩
    · exact List.mem_append_left _ hc
    · cases hk.symm.trans (hfree c hc)
  · exact owned_setPoll ho l (perform (w.loops l).poll_ call).1

/-- A state of the server that a run can reach. -/
structure Sound (w : World n) : Prop where
  /-- The server is in order. -/
  inv : Inv w
  /-- Every connection that was not removed is kept. -/
  owned : Owned w []

/-- The handler in progress is one of the round. -/
theorem mem_due {due : List ℕ} (hphase : L.phase = .handling (some c) due) : c ∈ L.due := by
  unfold Loop.due
  rw [hphase]
  exact List.mem_cons_self

/-- The next task of the batch has not run. -/
theorem mem_pending {done todo : List Task} (hphase : L.phase = .running done (t :: todo)) :
    t ∈ L.pending := by
  unfold Loop.pending
  rw [hphase]
  exact List.mem_cons_self

/-- A connection a loop can reach is alive. -/
theorem served_of_reaches (h : Sound w) (hreach : (w.loops l).Reaches c)
    (hk : w.conns c = some k) : k.freed = false ∧ k.Served l := by
  have hserved := (h.inv.loops l).served hreach hk
  obtain ⟨k', hk', hlive⟩ := alive_of_referenced h.inv
    (referenced_of_owned h.owned hk hserved.removed)
  cases hk.symm.trans hk'
  exact ⟨hlive, hserved⟩

/-- The loop goes on, and all that waits waits on. -/
theorem sound_move (h : Sound w) (L' : Loop) (hpoll : L'.poll_ = (w.loops l).poll_)
    (hholds : ∀ c ∈ L'.holds, c ∈ (w.loops l).holds) (hpending : (w.loops l).pending = L'.pending)
    (hdue : ∀ c ∈ L'.due, (w.loops l).Reaches c) : Sound (w.setLoop l L') := by
  obtain ⟨hinv, howned⟩ := move_spec h.inv h.owned L' [] hpoll hholds hpending hdue
  exact ⟨hinv, howned⟩

/-- A task that was taken from the batch runs. -/
theorem sound_runTask (h : Sound w) {done todo : List Task}
    (hphase : (w.loops l).phase = .running done (t :: todo)) (hk : w.conns t.conn = some k) :
    Sound ((w.setPhase l (.running (done ++ [t]) todo)).execute l k t) := by
  have hpending : (w.loops l).pending = t :: (todo ++ (w.loops l).tasks_) := by
    unfold Loop.pending
    rw [hphase]
    rfl
  have hholds : (w.loops l).holds =
      (done ++ t :: todo ++ (w.loops l).tasks_).map Task.conn := by
    unfold Loop.holds
    rw [hphase]
  have ht : t ∈ (w.loops l).pending := mem_pending hphase
  obtain ⟨k', hk', hlive⟩ := (h.inv.loops l).held _ (holds_of_pending ht)
  cases hk.symm.trans hk'
  have hfits := (h.inv.loops l).tasks t k ht hk
  obtain ⟨hinv, howned⟩ := move_spec (l := l) h.inv h.owned
    { w.loops l with phase := .running (done ++ [t]) todo } [t] rfl
    (fun c hc => by
      rw [hholds, List.append_cons]
      exact hc)
    hpending (fun c hc => absurd hc List.not_mem_nil)
  have honce : t.work = .completeConnect →
      ∀ l', t ∉ ((w.setPhase l (.running (done ++ [t]) todo)).loops l').pending := by
    intro hwork l' ht'
    have htask : t = ⟨.completeConnect, t.conn⟩ := congrArg (Task.mk · t.conn) hwork
    unfold World.setPhase at ht'
    by_cases hl : l' = l
    · -- a second `completeConnect` would be pending on this loop
      subst hl
      rw [World.loops_setLoop] at ht'
      have hcount := (h.inv.loops l').once t.conn
      rw [hpending, ← htask, List.count_cons_self] at hcount
      have hpos : 0 < (todo ++ (w.loops l').tasks_).count t := List.count_pos_iff.mpr ht'
      omega
    · rw [World.loops_setLoop_of_ne w l hl] at ht'
      have hfits' := (h.inv.loops l').tasks t k ht' hk
      rw [htask] at hfits hfits'
      exact hl (hfits'.2.symm.trans hfits.2)
  have hdue : ((w.setPhase l (.running (done ++ [t]) todo)).loops l).due = [] := by
    unfold World.setPhase
    rw [World.loops_setLoop]
    rfl
  obtain ⟨hinv', howned'⟩ := execute_spec hinv howned hk hlive hfits honce hdue
  exact ⟨hinv', howned'⟩

/-- A connection that was accepted goes to its loop. -/
theorem sound_newConnection (h : Sound w) {fd : ℤ} (hfd : fd ∉ w.descriptors)
    (hforeign : c ∉ w.foreign) (hnone : w.conns c = none) (ioLoop : Fin n) :
    Sound (w.newConnection c fd ioLoop) := by
  obtain ⟨hinv, howned, hunheld⟩ := accept_spec h.inv h.owned hfd hforeign hnone
    (k := ⟨fd, ioLoop, .kConnecting, false, false⟩) rfl rfl
  have hfirst : ∀ l, ⟨.completeConnect, c⟩ ∉
      (({ w.setConn c ⟨fd, ioLoop, .kConnecting, false, false⟩ with
        descriptors := fd :: w.descriptors
        connections_ := w.connections_.assign (fd, c) } : World n).loops l).pending :=
    fun l ht => hunheld l _ ht rfl
  have hk := w.conns_setConn c ⟨fd, ioLoop, .kConnecting, false, false⟩
  unfold World.newConnection
  dsimp only
  by_cases hl : ioLoop = w.base
  · rw [if_pos hl]
    exact ⟨inv_completeConnect hinv hk rfl hfirst,
      owned_setConn (owned_setPoll howned ioLoop _) hk rfl id⟩
  · rw [if_neg hl]
    refine ⟨inv_queueInLoop hinv ⟨_, hk, rfl⟩ (fun k' hk' => ?_) (fun _ => hfirst ioLoop),
      owned_queueInLoop howned⟩
    cases hk.symm.trans hk'
    exact ⟨rfl, rfl⟩

/-- The handlers that `wait` returns are on the poller. -/
theorem sound_wait (h : Sound w) (hphase : (w.loops l).phase = .waiting) {sel : Selected}
    {srevents : List (ℕ × List EventType)}
    (hwait : (w.loops l).poll_.wait sel = some srevents) :
    Sound (w.setPhase l (.handling none (if sel.n > 0 then srevents.map Prod.fst else []))) := by
  refine sound_move h _ rfl (fun c hc => ?_) ?_ (fun c hc => ?_)
  · unfold Loop.holds
    rw [hphase]
    exact hc
  · unfold Loop.pending
    rw [hphase]
  · have hmem : c ∈ srevents.map Prod.fst := by
      unfold Loop.due at hc
      dsimp only at hc
      split at hc
      · exact hc
      · exact absurd hc List.not_mem_nil
    obtain ⟨m, hm, rfl⟩ := List.mem_map.mp hmem
    obtain ⟨fd, e, he, hme, _⟩ := wait_mem hwait hm
    exact Or.inl ⟨fd, e, he, hme ▸ rfl⟩

/-- The loop goes on among the handlers of the round. -/
theorem sound_handling (h : Sound w) {current current' : Option ℕ} {due due' : List ℕ}
    (hphase : (w.loops l).phase = .handling current due)
    (hdue : ∀ c ∈ current'.toList ++ due', c ∈ current.toList ++ due) :
    Sound (w.setPhase l (.handling current' due')) := by
  refine sound_move h _ rfl (fun c hc => ?_) ?_ (fun c hc => Or.inr ?_)
  · unfold Loop.holds
    rw [hphase]
    exact hc
  · unfold Loop.pending
    rw [hphase]
  · unfold Loop.due
    rw [hphase]
    exact hdue c hc

/-- A connection closes while its events are handled. -/
theorem sound_handleClose (h : Sound w) {due : List ℕ}
    (hphase : (w.loops l).phase = .handling (some c) due) (hk : w.conns c = some k) :
    Sound (w.handleClose l c k) := by
  obtain ⟨hlive, hserved⟩ := served_of_reaches h (Or.inr (mem_due hphase)) hk
  obtain ⟨hinv, howned⟩ := handleClose_spec (l := l) h.inv h.owned
    (fun t ht => absurd ht List.not_mem_nil) hk hlive hserved.state_
  exact ⟨hinv, howned⟩

/-- A connected connection begins to disconnect. -/
theorem sound_disconnecting (h : Sound w) (hk : w.conns c = some k)
    (hstate : k.state_ = .kConnected) :
    Sound (w.setConn c { k with state_ := .kDisconnecting }) := by
  have hne : k.state_ ≠ .kConnecting := hstate ▸ fun hs => by cases hs
  exact ⟨inv_state h.inv hk hne rfl rfl rfl rfl (fun hs => by cases hs),
    owned_setConn h.owned hk rfl id⟩

/-- The user keeps copies of live connections. -/
theorem sound_copies (h : Sound w) {copies : List ℕ} (halive : ∀ c ∈ copies, w.Alive c) :
    Sound { w with copies } :=
  ⟨⟨fun l => loopInv_of_same (h.inv.loops l) rfl fun _ hx => hx, h.inv.opened, h.inv.distinct,
    h.inv.entries, halive, h.inv.fresh, h.inv.foreign⟩, h.owned⟩

/-- Every step keeps the server sound. -/
theorem step_sound (h : Sound w) {e : Event n} (he : step w e = some w') : Sound w' := by
  unfold step at he
  cases e with
  | newConnection fd c ioLoop =>
    dsimp only at he
    split at he
    case isFalse => cases he
    case isTrue hguard =>
      cases he
      obtain ⟨hfd, hforeign, hnone⟩ := hguard
      exact sound_newConnection h hfd hforeign (Option.isNone_iff_eq_none.mp hnone) ioLoop
  | wait l sel =>
    dsimp only at he
    split at he
    case h_1 hphase =>
      obtain ⟨srevents, hwait, rfl⟩ := Option.map_eq_some_iff.mp he
      exact sound_wait h hphase hwait
    case h_2 => cases he
  | handleEvents l =>
    dsimp only at he
    split at he
    case h_1 x due hphase =>
      cases he
      exact sound_handling h hphase fun c hc => hc
    case h_2 => cases he
  | handleClose l =>
    dsimp only at he
    split at he
    case h_1 c due hphase =>
      obtain ⟨k, hk, rfl⟩ := Option.map_eq_some_iff.mp he
      exact sound_handleClose h hphase hk
    case h_2 => cases he
  | handled l =>
    dsimp only at he
    split at he
    case h_1 x due hphase =>
      cases he
      exact sound_handling h hphase fun c hc => List.mem_cons_of_mem x hc
    case h_2 => cases he
  | swap l =>
    dsimp only at he
    split at he
    case h_1 hphase =>
      cases he
      refine sound_move h _ rfl (fun c hc => ?_) ?_ (fun c hc => absurd hc List.not_mem_nil)
      · unfold Loop.holds at hc ⊢
        rw [hphase]
        dsimp only at hc
        rw [List.nil_append, List.append_nil] at hc
        exact hc
      · unfold Loop.pending
        rw [hphase]
        exact (List.append_nil _).symm
    case h_2 => cases he
  | runTask l =>
    dsimp only at he
    split at he
    case h_1 done t todo hphase =>
      obtain ⟨k, hk, rfl⟩ := Option.map_eq_some_iff.mp he
      exact sound_runTask h hphase hk
    case h_2 => cases he
  | tasksDone l =>
    dsimp only at he
    split at he
    case h_1 done hphase =>
      cases he
      refine sound_move h _ rfl (fun c hc => ?_) ?_ (fun c hc => absurd hc List.not_mem_nil)
      · unfold Loop.holds
        rw [hphase]
        dsimp only
        rw [List.map_append]
        exact List.mem_append_right _ hc
      · unfold Loop.pending
        rw [hphase]
        rfl
    case h_2 => cases he
  | poll l call =>
    dsimp only at he
    split at he
    case isTrue hfree =>
      cases he
      obtain ⟨hinv, howned⟩ := poll_spec (l := l) h.inv h.owned
        fun x hx => Option.isNone_iff_eq_none.mp (hfree x hx)
      exact ⟨hinv, howned⟩
    case isFalse => cases he
  | shutdown c =>
    dsimp only at he
    split at he
    case isTrue href =>
      obtain ⟨k, hk, rfl⟩ := Option.map_eq_some_iff.mp he
      split
      case isTrue hstate => exact sound_disconnecting h hk hstate
      case isFalse => exact h
    case isFalse => cases he
  | forceClose c =>
    dsimp only at he
    split at he
    case isTrue href =>
      obtain ⟨k, hk, rfl⟩ := Option.map_eq_some_iff.mp he
      obtain ⟨k', hk', hlive⟩ := alive_of_referenced h.inv href
      cases hk.symm.trans hk'
      split
      case isTrue hstate =>
        have hsound := sound_disconnecting h hk hstate
        have hself := w.conns_setConn c { k with state_ := .kDisconnecting }
        refine ⟨inv_queueInLoop hsound.inv ⟨_, hself, hlive⟩ (fun k₁ hk₁ => ?_)
          (fun hwork => by cases hwork), owned_queueInLoop hsound.owned⟩
        cases hself.symm.trans hk₁
        exact fun hs => by cases hs
      case isFalse => exact h
    case isFalse => cases he
  | queueInLoop l c =>
    dsimp only at he
    split at he
    case isTrue href =>
      cases he
      exact ⟨inv_queueInLoop h.inv (alive_of_referenced h.inv href) (fun _ _ => trivial)
        (fun hwork => by cases hwork), owned_queueInLoop h.owned⟩
    case isFalse => cases he
  | keep c =>
    dsimp only at he
    split at he
    case isTrue href =>
      cases he
      have halive : w.Alive c := alive_of_referenced h.inv href
      refine sound_copies h fun c' hc' => ?_
      rcases List.mem_cons.mp hc' with rfl | hc'
      · exact halive
      · exact h.inv.copied c' hc'
    case isFalse => cases he
  | drop c =>
    dsimp only at he
    split at he
    case isTrue =>
      cases he
      exact sound_copies h fun c' hc' => h.inv.copied c' (List.mem_of_mem_erase hc')
    case isFalse => cases he
  | destroy c =>
    dsimp only at he
    split at he
    case isTrue => cases he
    case isFalse hunkept =>
      obtain ⟨k, hk, he⟩ := Option.bind_eq_some_iff.mp he
      split at he
      case isTrue => cases he
      case isFalse hlive =>
        cases he
        obtain ⟨hinv, howned⟩ := destroy_spec h.inv h.owned hk (Bool.eq_false_of_not_eq_true hlive)
          hunkept
        exact ⟨hinv, howned⟩

/-- A server that was just started is sound. -/
theorem sound_start (base : Fin n) : Sound (World.start base) := by
  have hempty : ∀ {fd : ℤ} {x : ℕ}, ¬Loop.fresh.poll_.Registered fd x := by
    rintro fd x ⟨e, he, _⟩
    exact OrderedSet.not_mem_empty he
  refine ⟨⟨fun l => ⟨fun c hc => absurd hc List.not_mem_nil, fun fd c k _ hk => (by cases hk),
    fun c k _ hk => (by cases hk), fun t k _ hk => (by cases hk), fun c => Nat.zero_le 1,
    fun x hx => ?_⟩, fun c k hk => (by cases hk), fun c k c' k' hk => (by cases hk),
    fun x hx => absurd hx OrderedSet.not_mem_empty, fun c hc => absurd hc List.not_mem_nil,
    fun c k hk => (by cases hk), fun x _ => rfl⟩, fun c k hk => (by cases hk)⟩
  rcases hx with ⟨fd, hreg⟩ | hdue
  · exact absurd hreg hempty
  · exact absurd hdue List.not_mem_nil

/-- Every state a run reaches is sound. -/
theorem sound_of_run (base : Fin n) {events : List (Event n)}
    (hrun : run step (World.start base) events = some w) : Sound w :=
  invariant Sound (fun _ _ _ h he => step_sound h he) (sound_start base) hrun

/-- How long connections live. -/
structure Lifetime (w : World n) : Prop where
  /-- A connection whose events a loop handles is alive, and on that loop. -/
  handled : ∀ l c due k, (w.loops l).phase = .handling (some c) due → w.conns c = some k →
    k.freed = false ∧ k.loop_ = l
  /-- So is a connection whose handler is on a poller, or still to be called. -/
  reached : ∀ l c k, (w.loops l).Reaches c → w.conns c = some k → k.freed = false ∧ k.loop_ = l
  /-- A live connection has its descriptor open. -/
  opened : ∀ c k, w.conns c = some k → k.freed = false → k.fd_ ∈ w.descriptors
  /-- A connection that was destroyed was removed before, and is on no poller. -/
  removed : ∀ c k, w.conns c = some k → k.freed = true →
    k.removed = true ∧ ∀ l fd, ¬(w.loops l).poll_.Registered fd c

/-- In every run a connection outlives the handling of its events, and is destroyed
only after `connectDestroyed` took it off the poller of its loop. -/
theorem connection_lifetime (base : Fin n) (events : List (Event n)) (w : World n)
    (hrun : run step (World.start base) events = some w) : Lifetime w := by
  have h := sound_of_run base hrun
  have hreached : ∀ l c k, (w.loops l).Reaches c → w.conns c = some k →
      k.freed = false ∧ k.loop_ = l := by
    intro l c k hreach hk
    obtain ⟨hlive, hserved⟩ := served_of_reaches h hreach hk
    exact ⟨hlive, hserved.loop_⟩
  refine ⟨fun l c due k hphase hk => hreached l c k (Or.inr (mem_due hphase)) hk, hreached,
    h.inv.opened, fun c k hk hfreed => ⟨?_, fun l fd hreg => ?_⟩⟩
  · by_contra hr
    obtain ⟨k', hk', hlive⟩ := alive_of_referenced h.inv
      (referenced_of_owned h.owned hk (Bool.eq_false_of_not_eq_true hr))
    cases hk.symm.trans hk'
    cases hlive.symm.trans hfreed
  · cases (hreached l c k (Or.inl ⟨fd, hreg⟩) hk).1.symm.trans hfreed

/-- `select` times out. -/
def idle : Selected := ⟨0, fun _ => false, fun _ => false, fun _ => false⟩

/-- `select` reports descriptor `5` readable. -/
def readable : Selected := ⟨1, fun fd => fd = 5, fun _ => false, fun _ => false⟩

/-- Loop `0` accepts a connection for loop `1`, which then handles its events. -/
def served : List (Event 2) :=
  [.newConnection 5 0 1, .wait 1 idle, .swap 1, .runTask 1, .tasksDone 1, .keep 0,
    .wait 1 readable, .handleEvents 1]

/-- The connection meets the end of the stream; loop `0` removes it while the events
are still handled, and the user drops the last copy. -/
def ended : List (Event 2) :=
  [.handleClose 1, .wait 0 idle, .swap 0, .runTask 0, .tasksDone 0, .handled 1, .swap 1,
    .runTask 1, .tasksDone 1, .drop 0, .destroy 0]

/-- The connection is alive while loop `1` handles its events, and destroyed in the end. -/
theorem connection_lifetime_served :
    (∃ w, run step (World.start 0) served = some w ∧
      (w.loops 1).phase = .handling (some 0) [] ∧ Lifetime w) ∧
    ∃ w, run step (World.start 0) (served ++ ended) = some w ∧
      (w.conns 0).map Conn.freed = some true ∧ Lifetime w :=
  ⟨⟨_, rfl, rfl, connection_lifetime 0 served _ rfl⟩,
    ⟨_, rfl, rfl, connection_lifetime 0 (served ++ ended) _ rfl⟩⟩

end KKNet.Server
