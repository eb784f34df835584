import Mathlib.Data.List.Basic
import Mathlib.Data.List.Induction

/-!
# Runs of partial step functions

A system is a step function that has no result where an event cannot happen. A
run lets a list of events happen one after another. What every step keeps,
perhaps under a condition on the state it starts from, every run keeps.
-/

namespace KKNet.Runs

variable {σ ε : Type} {step : σ → ε → Option σ}

/-- The events happen one after another. -/
def run (step : σ → ε → Option σ) (s : σ) (events : List ε) : Option σ := events.foldlM step s

/-- Every step of the run meets a condition on the state it starts from. -/
def Meets (step : σ → ε → Option σ) (cond : σ → ε → Prop) (s : σ) : List ε → Prop
  | [] => True
  | e :: events => cond s e ∧ ∀ s', step s e = some s' → Meets step cond s' events

/-- The first event of a run. -/
theorem run_cons (s : σ) (e : ε) (events : List ε) :
    run step s (e :: events) = (step s e).bind fun s' => run step s' events := List.foldlM_cons

/-- A run that goes on after its first event. -/
theorem run_cons_of_step {s s' : σ} {e : ε} (h : step s e = some s') (events : List ε) :
    run step s (e :: events) = run step s' events := by
  rw [run_cons, h]
  rfl

/-- A run in two parts. -/
theorem run_append (s : σ) (first rest : List ε) :
    run step s (first ++ rest) = (run step s first).bind fun s' => run step s' rest :=
  List.foldlM_append

/-- A run that goes on after its first part. -/
theorem run_append_of_run {s s' : σ} {first : List ε} (h : run step s first = some s')
    (rest : List ε) : run step s (first ++ rest) = run step s' rest := by
  rw [run_append, h]
  rfl

/-- A first step that meets the condition, and a rest that does. -/
theorem meets_cons_of_step {cond : σ → ε → Prop} {s s' : σ} {e : ε} {events : List ε}
    (hstep : step s e = some s') (hcond : cond s e) (hrest : Meets step cond s' events) :
    Meets step cond s (e :: events) := by
  refine ⟨hcond, fun s₁ hs₁ => ?_⟩
  rw [hstep] at hs₁
  cases hs₁
  exact hrest

/-- The run may be tried out. -/
instance decidableMeets {cond : σ → ε → Prop} [∀ s e, Decidable (cond s e)] :
    ∀ s events, Decidable (Meets step cond s events)
  | _, [] => .isTrue trivial
  | s, e :: events =>
    match he : step s e with
    | none => decidable_of_iff (cond s e) ⟨fun h => ⟨h, by simp [he]⟩, And.left⟩
    | some s₁ =>
      have : Decidable (Meets step cond s₁ events) := decidableMeets s₁ events
      decidable_of_iff (cond s e ∧ Meets step cond s₁ events)
        ⟨fun h => meets_cons_of_step he h.1 h.2, fun h => ⟨h.1, h.2 s₁ he⟩⟩

/-- Two conditions at once. -/
theorem Meets.and {cond other : σ → ε → Prop} {s : σ} {events : List ε}
    (h : Meets step cond s events) (h' : Meets step other s events) :
    Meets step (fun s e => cond s e ∧ other s e) s events := by
  induction events generalizing s with
  | nil => exact trivial
  | cons e events ih => exact ⟨⟨h.1, h'.1⟩, fun s' he => ih (h.2 s' he) (h'.2 s' he)⟩

/-- A condition on the events alone. -/
theorem meets_of_forall (cond : ε → Prop) {events : List ε} (h : ∀ e ∈ events, cond e) (s : σ) :
    Meets step (fun _ e => cond e) s events := by
  induction events generalizing s with
  | nil => exact trivial
  | cons e events ih =>
    exact ⟨h e List.mem_cons_self, fun s' _ => ih (fun e' he' => h e' (List.mem_cons_of_mem e he')) s'⟩

/-- What each step keeps under a condition, a run keeps that meets the condition. -/
theorem invariant_of_meets {cond : σ → ε → Prop} (inv : σ → Prop)
    (hstep : ∀ s e s', inv s → cond s e → step s e = some s' → inv s') {s s' : σ}
    {events : List ε} (hs : inv s) (hmeets : Meets step cond s events)
    (hrun : run step s events = some s') : inv s' := by
  induction events generalizing s with
  | nil =>
    cases hrun
    exact hs
  | cons e events ih =>
    obtain ⟨hfirst, hrest⟩ := hmeets
    rw [run_cons] at hrun
    cases he : step s e with
    | none =>
      rw [he] at hrun
      cases hrun
    | some s₁ =>
      rw [he] at hrun
      exact ih (hstep s e s₁ hs hfirst he) (hrest s₁ he) hrun

/-- What each step keeps, a run keeps. -/
theorem invariant (inv : σ → Prop) (hstep : ∀ s e s', inv s → step s e = some s' → inv s')
    {s s' : σ} {events : List ε} (hs : inv s) (hrun : run step s events = some s') : inv s' := by
  have hmeets : Meets step (fun _ _ => True) s events :=
    meets_of_forall (fun _ => True) (fun _ _ => trivial) s
  exact invariant_of_meets inv (fun s e s' h _ he => hstep s e s' h he) hs hmeets hrun

/-- What each step keeps together with the events so far holds of every run and its events. -/
theorem invariant_of_past {s₀ s : σ} {events : List ε} (inv : List ε → σ → Prop)
    (hstep : ∀ past s e s', run step s₀ past = some s → inv past s → step s e = some s' →
      inv (past ++ [e]) s') (hs : inv [] s₀) (hrun : run step s₀ events = some s) :
    inv events s := by
  induction events using List.reverseRecOn generalizing s with
  | nil =>
    cases hrun
    exact hs
  | append_singleton past e ih =>
    rw [run_append] at hrun
    obtain ⟨s₁, hpast, he⟩ := Option.bind_eq_some_iff.mp hrun
    rw [run_cons] at he
    obtain ⟨s₂, he, hnil⟩ := Option.bind_eq_some_iff.mp he
    cases hnil
    exact hstep past s₁ e s hpast (ih hpast) he

/-- The same for the steps that meet a condition, from any state on. -/
theorem invariant_of_past_of_meets {cond : σ → ε → Prop} (inv : List ε → σ → Prop)
    (hstep : ∀ past s e s', inv past s → cond s e → step s e = some s' → inv (past ++ [e]) s')
    {past events : List ε} {s s' : σ} (hs : inv past s) (hmeets : Meets step cond s events)
    (hrun : run step s events = some s') : inv (past ++ events) s' := by
  induction events generalizing past s with
  | nil =>
    cases hrun
    rwa [List.append_nil]
  | cons e events ih =>
    rw [run_cons] at hrun
    obtain ⟨s₁, he, hrun⟩ := Option.bind_eq_some_iff.mp hrun
    have hrest := ih (hstep past s e s₁ hs hmeets.1 he) (hmeets.2 s₁ he) hrun
    rwa [List.append_assoc] at hrest

/-- What each step keeps exactly if it is of a kind, a run keeps exactly if all its steps
are. -/
theorem run_iff_meets {cond kind : σ → ε → Prop} (inv good : List ε → σ → Prop)
    (hstep : ∀ past s e s', inv past s → cond s e → step s e = some s' →
      inv (past ++ [e]) s' ∧ (good (past ++ [e]) s' ↔ good past s ∧ kind s e))
    (past : List ε) {events : List ε} {s s' : σ} (hs : inv past s)
    (hmeets : Meets step cond s events) (hrun : run step s events = some s') :
    good (past ++ events) s' ↔ good past s ∧ Meets step kind s events := by
  induction events generalizing past s with
  | nil =>
    cases hrun
    rw [List.append_nil]
    exact (and_iff_left trivial).symm
  | cons e events ih =>
    rw [run_cons] at hrun
    obtain ⟨s₁, he, hrun⟩ := Option.bind_eq_some_iff.mp hrun
    obtain ⟨hs₁, hgood⟩ := hstep past s e s₁ hs hmeets.1 he
    have hrest := ih (past ++ [e]) hs₁ (hmeets.2 s₁ he) hrun
    have hkind : Meets step kind s (e :: events) ↔ kind s e ∧ Meets step kind s₁ events := by
      refine and_congr_right fun _ => ⟨fun h => h s₁ he, fun h s₂ he₂ => ?_⟩
      cases he.symm.trans he₂
      exact h
    rw [List.append_assoc] at hrest
    rw [hkind, ← and_assoc, ← hgood]
    exact hrest

/-- Every step the run takes is of a kind. -/
def Along (step : σ → ε → Option σ) (kind : σ → ε → σ → Prop) (s : σ) : List ε → Prop
  | [] => True
  | e :: events => ∀ s', step s e = some s' → kind s e s' ∧ Along step kind s' events

/-- A first step of the kind, and a rest that is. -/
theorem along_cons_of_step {kind : σ → ε → σ → Prop} {s s' : σ} {e : ε} {events : List ε}
    (he : step s e = some s') (hkind : kind s e s') (hrest : Along step kind s' events) :
    Along step kind s (e :: events) := by
  intro s₁ he₁
  rw [he] at he₁
  cases he₁
  exact ⟨hkind, hrest⟩

/-- A kind that the event alone decides. -/
theorem along_of_forall (cond : ε → Prop) {events : List ε} (h : ∀ e ∈ events, cond e) (s : σ) :
    Along step (fun _ e _ => cond e) s events := by
  induction events generalizing s with
  | nil => exact trivial
  | cons e events ih =>
    exact fun s' _ => ⟨h e List.mem_cons_self, ih (fun e' he' => h e' (List.mem_cons_of_mem e he')) s'⟩

/-- Steps of two kinds at once. -/
theorem Along.and {kind other : σ → ε → σ → Prop} {s : σ} {events : List ε}
    (h : Along step kind s events) (h' : Along step other s events) :
    Along step (fun s e s' => kind s e s' ∧ other s e s') s events := by
  induction events generalizing s with
  | nil => exact trivial
  | cons e events ih =>
    exact fun s' he => ⟨⟨(h s' he).1, (h' s' he).1⟩, ih (h s' he).2 (h' s' he).2⟩

/-- What each step of a kind keeps, a run of such steps keeps. -/
theorem invariant_of_along {kind : σ → ε → σ → Prop} (inv : σ → Prop)
    (hstep : ∀ s e s', inv s → kind s e s' → step s e = some s' → inv s') {s s' : σ}
    {events : List ε} (hs : inv s) (halong : Along step kind s events)
    (hrun : run step s events = some s') : inv s' := by
  induction events generalizing s with
  | nil =>
    cases hrun
    exact hs
  | cons e events ih =>
    rw [run_cons] at hrun
    obtain ⟨s₁, he, hrest⟩ := Option.bind_eq_some_iff.mp hrun
    obtain ⟨hkind, halong⟩ := halong s₁ he
    exact ih (hstep s e s₁ hs hkind he) halong hrest

/-- Steps are of one kind throughout a run exactly if they are of another, when
this holds of each step from a state the other kind leads to. -/
theorem along_iff_along {kind other : σ → ε → σ → Prop} (inv : σ → Prop)
    (hiff : ∀ s e s', inv s → step s e = some s' → (kind s e s' ↔ other s e s'))
    (hkeep : ∀ s e s', inv s → other s e s' → step s e = some s' → inv s') {s : σ} (hs : inv s)
    (events : List ε) : Along step kind s events ↔ Along step other s events := by
  induction events generalizing s with
  | nil => exact Iff.rfl
  | cons e events ih =>
    constructor
    · intro h s' he
      have hother := (hiff s e s' hs he).mp (h s' he).1
      exact ⟨hother, (ih (hkeep s e s' hs hother he)).mp (h s' he).2⟩
    · intro h s' he
      obtain ⟨hother, hrest⟩ := h s' he
      exact ⟨(hiff s e s' hs he).mpr hother, (ih (hkeep s e s' hs hother he)).mpr hrest⟩

/-- Steps of one kind are of another, when this holds of each step from a state that
steps of the first kind lead to. -/
theorem along_of_along {kind other : σ → ε → σ → Prop} (inv : σ → Prop)
    (hstep : ∀ s e s', inv s → kind s e s' → step s e = some s' → inv s' ∧ other s e s') {s : σ}
    (hs : inv s) {events : List ε} (halong : Along step kind s events) :
    Along step other s events := by
  induction events generalizing s with
  | nil => exact trivial
  | cons e events ih =>
    intro s' he
    obtain ⟨hkind, hrest⟩ := halong s' he
    obtain ⟨hs', hother⟩ := hstep s e s' hs hkind he
    exact ⟨hother, ih hs' hrest⟩

/-- What each step keeps makes the steps of every run of a kind. -/
theorem along_of_invariant {kind : σ → ε → σ → Prop} (inv : σ → Prop)
    (hstep : ∀ s e s', inv s → step s e = some s' → inv s' ∧ kind s e s') {s : σ} (hs : inv s)
    (events : List ε) : Along step kind s events := by
  induction events generalizing s with
  | nil => exact trivial
  | cons e events ih =>
    intro s' he
    obtain ⟨hs', hkind⟩ := hstep s e s' hs he
    exact ⟨hkind, ih hs'⟩

/-- From a sound state every step that meets a condition leads to a sound one, and every
other step to one that is not intact: then all states of a run are intact exactly if all
its steps meet the condition. -/
theorem prefixes_iff_meets {cond : σ → ε → Prop} (sound intact : σ → Prop)
    (hintact : ∀ s, sound s → intact s)
    (hstep : ∀ s e, sound s → ∃ s', step s e = some s' ∧ (cond s e → sound s') ∧
      (¬cond s e → ¬intact s')) {s : σ} (hs : sound s) (events : List ε) :
    (∀ k, ∃ s', run step s (events.take k) = some s' ∧ intact s') ↔ Meets step cond s events := by
  induction events generalizing s with
  | nil =>
    refine ⟨fun _ => trivial, fun _ k => ?_⟩
    rw [List.take_nil]
    exact ⟨s, rfl, hintact s hs⟩
  | cons e events ih =>
    obtain ⟨s₁, he, hyes, hno⟩ := hstep s e hs
    constructor
    · intro hall
      have hcond : cond s e := by
        by_contra hcond
        obtain ⟨s', hrun, hint⟩ := hall 1
        rw [List.take_succ_cons, List.take_zero, run_cons_of_step he] at hrun
        cases hrun
        exact hno hcond hint
      refine meets_cons_of_step he hcond ((ih (hyes hcond)).mp fun k => ?_)
      obtain ⟨s', hrun, hint⟩ := hall (k + 1)
      rw [List.take_succ_cons, run_cons_of_step he] at hrun
      exact ⟨s', hrun, hint⟩
    · rintro ⟨hcond, hrest⟩ k
      cases k with
      | zero => exact ⟨s, rfl, hintact s hs⟩
      | succ k =>
        obtain ⟨s', hrun, hint⟩ := (ih (hyes hcond)).mpr (hrest s₁ he) k
        rw [List.take_succ_cons, run_cons_of_step he]
        exact ⟨s', hrun, hint⟩

end KKNet.Runs
