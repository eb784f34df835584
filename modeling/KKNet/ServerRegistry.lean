import KKNet.ServerLifetime

/-!
# The registry of a server

The registry is keyed by descriptors, which the kernel hands out again. Every
task that may still erase an entry keeps its connection, so the descriptor stays
open until the task has run, and an entry under it can only be the connection's
own.
-/

namespace KKNet.Server

open OrderedSets Runs

variable {n : ℕ} {w w' : World n} {c : ℕ} {k : Conn n}

/-- The step runs `removeConnectionInLoop` for the connection: it is a task of the
accepting loop, or a close on that loop. -/
def Removes (w : World n) (e : Event n) (c : ℕ) : Prop :=
  match e with
  | .handleClose l => l = w.base ∧ ∃ due, (w.loops l).phase = .handling (some c) due
  | .runTask l => ∃ done todo, (w.loops l).phase =
      .running done (⟨.removeConnectionInLoop, c⟩ :: todo) ∨
    l = w.base ∧ (w.loops l).phase = .running done (⟨.handleClose, c⟩ :: todo)
  | _ => False

/-- What the registry keeps in a step. -/
structure RegistryKept (w : World n) (e : Event n) (w' : World n) : Prop where
  /-- An entry goes only when its own connection is removed. -/
  erased : ∀ x ∈ w.connections_, x ∉ w'.connections_ → Removes w e x.2
  /-- A new connection finds no entry under its descriptor. -/
  unused : ∀ fd c ioLoop, e = .newConnection fd c ioLoop → ∀ x ∈ w.connections_, x.1 ≠ fd
  /-- Every entry has a connection with its descriptor, which is open. -/
  entries : ∀ x ∈ w'.connections_, ∃ k, w'.conns x.2 = some k ∧ k.fd_ = x.1 ∧
    k.freed = false ∧ k.fd_ ∈ w'.descriptors

/-- Every entry of a sound server has a live connection with its descriptor. -/
theorem entries_of_sound (h : Sound w) : ∀ x ∈ w.connections_, ∃ k, w.conns x.2 = some k ∧
    k.fd_ = x.1 ∧ k.freed = false ∧ k.fd_ ∈ w.descriptors := by
  intro x hx
  obtain ⟨k, hk, hfd, hlive⟩ := h.inv.entries x hx
  exact ⟨k, hk, hfd, hlive, h.inv.opened x.2 k hk hlive⟩

/-- What is erased under the descriptor of a live connection is its own entry. -/
theorem erased_own (h : Inv w) (hk : w.conns c = some k) (hlive : k.freed = false) {x : ℤ × ℕ}
    (hx : x ∈ w.connections_) (hgone : x ∉ w.connections_.erase k.fd_) : x.2 = c := by
  by_contra hc
  refine hgone (OrderedSet.mem_erase.mpr ⟨hx, fun hfd => hc ?_⟩)
  exact entry_unique h hk hlive hx hfd

/-- `handleClose` erases at once only on the accepting loop. -/
theorem connections_handleClose (w : World n) (l : Fin n) (c : ℕ) (k : Conn n) :
    (w.handleClose l c k).connections_ =
      if l = w.base then w.connections_.erase k.fd_ else w.connections_ := by
  have hfd : k.closed.fd_ = k.fd_ := (closed_same k).1
  unfold World.handleClose World.removeConnection
  split
  case isTrue hl =>
    rw [if_pos (show l = w.base from hl), ← hfd]
    rfl
  case isFalse hl =>
    rw [if_neg (show ¬l = w.base from hl)]
    rfl

/-- `newConnection` stores its entry. -/
theorem connections_newConnection (w : World n) (c : ℕ) (fd : ℤ) (ioLoop : Fin n) :
    (w.newConnection c fd ioLoop).connections_ = w.connections_.assign (fd, c) := by
  unfold World.newConnection
  dsimp only
  split <;> rfl

/-- Only descriptors that are open have entries. -/
theorem unused_of_closed (h : Sound w) {fd : ℤ} (hfd : fd ∉ w.descriptors) :
    ∀ x ∈ w.connections_, x.1 ≠ fd := by
  rintro x hx rfl
  obtain ⟨k, _, hkey, _, hopen⟩ := entries_of_sound h x hx
  exact hfd (hkey ▸ hopen)

/-- A task erases the entry of its own connection, if any. -/
theorem erased_runTask (h : Sound w) {l : Fin n} {done todo : List Task} {t : Task}
    (hphase : (w.loops l).phase = .running done (t :: todo)) (hk : w.conns t.conn = some k)
    {x : ℤ × ℕ} (hx : x ∈ w.connections_)
    (hgone : x ∉ ((w.setPhase l (.running (done ++ [t]) todo)).execute l k t).connections_) :
    Removes w (.runTask l) x.2 := by
  have ht : t ∈ (w.loops l).pending := mem_pending hphase
  obtain ⟨k', hk', hlive⟩ := (h.inv.loops l).held _ (holds_of_pending ht)
  cases hk.symm.trans hk'
  obtain ⟨work, conn⟩ := t
  cases work with
  | completeConnect => exact absurd hx hgone
  | removeConnectionInLoop =>
    have hc : x.2 = conn := erased_own h.inv hk hlive hx hgone
    exact ⟨done, todo, Or.inl (hc ▸ hphase)⟩
  | connectDestroyed => exact absurd hx hgone
  | handleClose =>
    have hgone' : x ∉ (World.handleClose _ l conn k).connections_ := hgone
    rw [connections_handleClose] at hgone'
    split at hgone'
    case isTrue hl =>
      have hc : x.2 = conn := erased_own h.inv hk hlive hx hgone'
      exact ⟨done, todo, Or.inr ⟨hl, hc ▸ hphase⟩⟩
    case isFalse => exact absurd hx hgone'
  | other => exact absurd hx hgone

/-- Only accepting, closing and tasks change the registry. -/
theorem connections_of_step {e : Event n} (he : step w e = some w') :
    w'.connections_ = w.connections_ ∨ (∃ fd c ioLoop, e = .newConnection fd c ioLoop) ∨
      (∃ l, e = .handleClose l) ∨ ∃ l, e = .runTask l := by
  unfold step at he
  cases e with
  | newConnection fd c ioLoop => exact Or.inr (Or.inl ⟨fd, c, ioLoop, rfl⟩)
  | handleClose l => exact Or.inr (Or.inr (Or.inl ⟨l, rfl⟩))
  | runTask l => exact Or.inr (Or.inr (Or.inr ⟨l, rfl⟩))
  | wait l sel =>
    dsimp only at he
    split at he
    case h_1 =>
      obtain ⟨_, _, rfl⟩ := Option.map_eq_some_iff.mp he
      exact Or.inl rfl
    case h_2 => cases he
  | handleEvents l =>
    dsimp only at he
    split at he <;> cases he
    exact Or.inl rfl
  | handled l =>
    dsimp only at he
    split at he <;> cases he
    exact Or.inl rfl
  | swap l =>
    dsimp only at he
    split at he <;> cases he
    exact Or.inl rfl
  | tasksDone l =>
    dsimp only at he
    split at he <;> cases he
    exact Or.inl rfl
  | poll l call =>
    dsimp only at he
    split at he <;> cases he
    exact Or.inl rfl
  | shutdown c =>
    dsimp only at he
    split at he
    case isTrue =>
      obtain ⟨k, _, rfl⟩ := Option.map_eq_some_iff.mp he
      split <;> exact Or.inl rfl
    case isFalse => cases he
  | forceClose c =>
    dsimp only at he
    split at he
    case isTrue =>
      obtain ⟨k, _, rfl⟩ := Option.map_eq_some_iff.mp he
      split <;> exact Or.inl rfl
    case isFalse => cases he
  | queueInLoop l c =>
    dsimp only at he
    split at he <;> cases he
    exact Or.inl rfl
  | keep c =>
    dsimp only at he
    split at he <;> cases he
    exact Or.inl rfl
  | drop c =>
    dsimp only at he
    split at he <;> cases he
    exact Or.inl rfl
  | destroy c =>
    dsimp only at he
    split at he
    case isTrue => cases he
    case isFalse =>
      obtain ⟨k, _, he⟩ := Option.bind_eq_some_iff.mp he
      split at he <;> cases he
      exact Or.inl rfl

/-- An entry goes only when its own connection is removed. -/
theorem erased_of_step (h : Sound w) {e : Event n} (he : step w e = some w') :
    ∀ x ∈ w.connections_, x ∉ w'.connections_ → Removes w e x.2 := by
  intro x hx hgone
  obtain hsame | ⟨fd, c, ioLoop, rfl⟩ | ⟨l, rfl⟩ | ⟨l, rfl⟩ := connections_of_step he
  · exact absurd (hsame ▸ hx) hgone
  · unfold step at he
    dsimp only at he
    split at he
    case isTrue hguard =>
      cases he
      rw [connections_newConnection, OrderedSet.mem_assign] at hgone
      exact absurd (Or.inr ⟨hx, unused_of_closed h hguard.1 x hx⟩) hgone
    case isFalse => cases he
  · unfold step at he
    dsimp only at he
    split at he
    case h_1 c due hphase =>
      obtain ⟨k, hk, rfl⟩ := Option.map_eq_some_iff.mp he
      obtain ⟨hlive, _⟩ := served_of_reaches h (Or.inr (mem_due hphase)) hk
      rw [connections_handleClose] at hgone
      by_cases hl : l = w.base
      · rw [if_pos hl] at hgone
        have hc : x.2 = c := erased_own h.inv hk hlive hx hgone
        exact ⟨hl, due, hc ▸ hphase⟩
      · rw [if_neg hl] at hgone
        exact absurd hx hgone
    case h_2 => cases he
  · unfold step at he
    dsimp only at he
    split at he
    case h_1 done t todo hphase =>
      obtain ⟨k, hk, rfl⟩ := Option.map_eq_some_iff.mp he
      exact erased_runTask h hphase hk hx hgone
    case h_2 => cases he

/-- In every run each step keeps the registry: entries belong to live connections with
open descriptors, a new connection overwrites none, and an entry is erased only when
its own connection is removed. -/
theorem registry_under_reuse (base : Fin n) (events : List (Event n)) (w w' : World n)
    (e : Event n) (hrun : run step (World.start base) events = some w)
    (he : step w e = some w') : RegistryKept w e w' := by
  have h := sound_of_run base hrun
  refine ⟨erased_of_step h he, fun fd c ioLoop heq => ?_, entries_of_sound (step_sound h he)⟩
  subst heq
  unfold step at he
  dsimp only at he
  split at he
  case isTrue hguard => exact unused_of_closed h hguard.1
  case isFalse => cases he

/-- A connection on loop `0` is closed by the user and by its own events. When all its
tasks have run it is destroyed, and the next connection gets its descriptor. -/
def acceptedAgain : List (Event 1) :=
  [.newConnection 5 0 0, .wait 0 readable, .handleEvents 0, .forceClose 0, .handleClose 0,
    .handled 0, .swap 0, .runTask 0, .runTask 0, .tasksDone 0, .wait 0 readable, .swap 0,
    .runTask 0, .tasksDone 0, .destroy 0, .newConnection 5 1 0, .wait 0 readable,
    .handleEvents 0]

/-- The entry under the descriptor is the second connection's, which erases it. -/
theorem registry_under_reuse_acceptedAgain :
    ∃ w w', run step (World.start 0) acceptedAgain = some w ∧ w.connections_.items = [(5, 1)] ∧
      step w (.handleClose 0) = some w' ∧ w'.connections_.items = [] ∧
      RegistryKept w (.handleClose 0) w' := by
  have hitems : (run step (World.start 0) acceptedAgain).bind (fun w =>
      (step w (.handleClose 0)).map fun w' => (w.connections_.items, w'.connections_.items)) =
        some ([(5, 1)], []) := by decide +kernel
  obtain ⟨w, hrun, hclose⟩ := Option.bind_eq_some_iff.mp hitems
  obtain ⟨w', he, hpair⟩ := Option.map_eq_some_iff.mp hclose
  obtain ⟨hitems, hitems'⟩ := Prod.mk.inj hpair
  exact ⟨w, w', hrun, hitems, he, hitems', registry_under_reuse 0 acceptedAgain w w' _ hrun he⟩

end KKNet.Server
