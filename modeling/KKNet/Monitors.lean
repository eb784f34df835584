import Mathlib.Data.List.Perm.Basic
import Mathlib.Tactic

/-!
# Condition variables

A thread that waits on a condition is blocked until a notification picks it or
until it wakes for no reason; either way it goes on only after it has the mutex
again, and other threads may have it in between. Between the sections that hold
the mutex a condition is therefore three lists of threads.

A condition with `k` resources covers them when nobody who is blocked is needed:
if a thread is blocked, then at least `k` threads were picked and will come for
the resources. One notification for each new resource keeps the cover, and so does
a picked thread that takes one resource or finds none.
-/

namespace KKNet.Monitors

/-- A condition variable between two sections. -/
structure Condition (τ : Type) where
  /-- The threads blocked in `wait`. -/
  waiting : List τ
  /-- The threads a notification picked that have not resumed. -/
  signalled : List τ
  /-- The threads that woke for no reason and have not resumed. -/
  woken : List τ

namespace Condition

/-- A condition nobody waits for. -/
def fresh {τ : Type} : Condition τ := ⟨[], [], []⟩

variable {τ : Type}

/-- The threads inside `wait`. -/
def members (c : Condition τ) : List τ := c.waiting ++ c.signalled ++ c.woken

/-- How many threads may resume. -/
def awake (c : Condition τ) : ℕ := c.signalled.length + c.woken.length

/-- If a thread is blocked, `k` threads at least are on their way. -/
def Covers (c : Condition τ) (k : ℕ) : Prop := c.waiting ≠ [] → k ≤ c.signalled.length

/-- A thread releases the mutex and is blocked. -/
def wait (c : Condition τ) (t : τ) : Condition τ := { c with waiting := t :: c.waiting }

variable [DecidableEq τ]

/-- A notification picks one of the blocked threads, if there is one. -/
def notify (c : Condition τ) (pick : Option τ) : Option (Condition τ) :=
  match pick with
  | none => if c.waiting = [] then some c else none
  | some t =>
    if t ∈ c.waiting then
      some { c with waiting := c.waiting.erase t, signalled := t :: c.signalled }
    else none

/-- A notification of all picks every blocked thread. -/
def notifyAll (c : Condition τ) : Condition τ := ⟨[], c.waiting ++ c.signalled, c.woken⟩

/-- A blocked thread wakes for no reason. -/
def wake (c : Condition τ) (t : τ) : Option (Condition τ) :=
  if t ∈ c.waiting then some { c with waiting := c.waiting.erase t, woken := t :: c.woken }
  else none

/-- A thread that is no longer blocked has the mutex again and leaves `wait`. -/
def resume (c : Condition τ) (t : τ) : Option (Condition τ) :=
  if t ∈ c.signalled then some { c with signalled := c.signalled.erase t }
  else if t ∈ c.woken then some { c with woken := c.woken.erase t }
  else none

variable {c c' : Condition τ} {t : τ} {pick : Option τ} {k k' : ℕ}

/-! ### The threads inside -/

omit [DecidableEq τ] in
@[simp] theorem members_fresh : (fresh : Condition τ).members = [] := rfl

omit [DecidableEq τ] in
@[simp] theorem members_wait (c : Condition τ) (t : τ) : (c.wait t).members = t :: c.members := rfl

/-- A notification leaves the same threads inside. -/
theorem members_notify (h : c.notify pick = some c') : c'.members.Perm c.members := by
  unfold notify at h
  split at h
  · split at h
    · cases h
      exact List.Perm.refl _
    · cases h
  · rename_i t
    split at h
    · rename_i hmem
      cases h
      have hout : (t :: c.waiting.erase t).Perm c.waiting := (List.perm_cons_erase hmem).symm
      have hmove : (c.waiting.erase t ++ t :: c.signalled).Perm (c.waiting ++ c.signalled) :=
        List.perm_middle.trans (hout.append_right _)
      exact hmove.append_right _
    · cases h

/-- So does waking. -/
theorem members_wake (h : c.wake t = some c') : c'.members.Perm c.members := by
  unfold wake at h
  split at h
  · rename_i hmem
    cases h
    have hout : (t :: c.waiting.erase t).Perm c.waiting := (List.perm_cons_erase hmem).symm
    have hmove : ((c.waiting.erase t ++ c.signalled) ++ t :: c.woken).Perm
        ((t :: c.waiting.erase t) ++ c.signalled ++ c.woken) := List.perm_middle
    exact hmove.trans ((hout.append_right _).append_right _)
  · cases h

/-- The thread that resumes was inside, and is the one that leaves. -/
theorem members_resume (h : c.resume t = some c') : c.members.Perm (t :: c'.members) := by
  unfold resume at h
  split at h
  · rename_i hmem
    cases h
    have hout : c.signalled.Perm (t :: c.signalled.erase t) := List.perm_cons_erase hmem
    have hmove : (c.waiting ++ c.signalled).Perm (t :: (c.waiting ++ c.signalled.erase t)) :=
      (hout.append_left _).trans List.perm_middle
    exact hmove.append_right _
  · split at h
    · rename_i hmem
      cases h
      have hout : c.woken.Perm (t :: c.woken.erase t) := List.perm_cons_erase hmem
      exact (hout.append_left _).trans List.perm_middle
    · cases h

/-- A thread that resumes leaves the blocked ones as they are. -/
theorem waiting_resume (h : c.resume t = some c') : c'.waiting = c.waiting := by
  unfold resume at h
  split at h
  · cases h
    rfl
  · split at h
    · cases h
      rfl
    · cases h

/-- A thread that wakes for no reason was blocked, and the others still are. -/
theorem waiting_wake (h : c.wake t = some c') : t ∈ c.waiting ∧ c'.waiting = c.waiting.erase t := by
  unfold wake at h
  split at h
  · rename_i hmem
    cases h
    exact ⟨hmem, rfl⟩
  · cases h

/-- The threads inside are those with a property, each once. -/
structure Holds (c : Condition τ) (inside : τ → Prop) : Prop where
  /-- No thread is inside twice. -/
  nodup : c.members.Nodup
  /-- Who is inside. -/
  mem_iff : ∀ t, t ∈ c.members ↔ inside t

variable {inside other : τ → Prop}

omit [DecidableEq τ] in
theorem holds_fresh : (fresh : Condition τ).Holds fun _ => False :=
  ⟨List.nodup_nil, fun t => by simp⟩

omit [DecidableEq τ] in
/-- The same threads in other words. -/
theorem Holds.congr (h : c.Holds inside) (hiff : ∀ t, inside t ↔ other t) : c.Holds other :=
  ⟨h.nodup, fun t => (h.mem_iff t).trans (hiff t)⟩

omit [DecidableEq τ] in
/-- A thread that is not inside waits. -/
theorem Holds.wait (h : c.Holds inside) (ht : ¬inside t) :
    (c.wait t).Holds fun s => s = t ∨ inside s := by
  refine ⟨?_, fun s => ?_⟩
  · rw [members_wait]
    exact List.nodup_cons.mpr ⟨fun hmem => ht ((h.mem_iff t).mp hmem), h.nodup⟩
  · rw [members_wait, List.mem_cons, h.mem_iff s]

theorem Holds.notify (h : c.Holds inside) (hn : c.notify pick = some c') : c'.Holds inside :=
  have hperm := members_notify hn
  ⟨hperm.nodup_iff.mpr h.nodup, fun s => hperm.mem_iff.trans (h.mem_iff s)⟩

omit [DecidableEq τ] in
/-- A notification of all leaves the same threads inside. -/
theorem Holds.notifyAll (h : c.Holds inside) : c.notifyAll.Holds inside := ⟨h.nodup, h.mem_iff⟩

theorem Holds.wake (h : c.Holds inside) (hn : c.wake t = some c') : c'.Holds inside :=
  have hperm := members_wake hn
  ⟨hperm.nodup_iff.mpr h.nodup, fun s => hperm.mem_iff.trans (h.mem_iff s)⟩

/-- The thread that resumes was inside and is no longer. -/
theorem Holds.resume (h : c.Holds inside) (hn : c.resume t = some c') :
    inside t ∧ c'.Holds fun s => s ≠ t ∧ inside s := by
  have hperm := members_resume hn
  obtain ⟨hnot, hnodup⟩ := List.nodup_cons.mp (hperm.nodup_iff.mp h.nodup)
  refine ⟨(h.mem_iff t).mp (hperm.mem_iff.mpr List.mem_cons_self), hnodup, fun s => ?_⟩
  rw [← h.mem_iff s, hperm.mem_iff, List.mem_cons]
  constructor
  · exact fun hs => ⟨fun heq => hnot (heq ▸ hs), Or.inr hs⟩
  · rintro ⟨hne, hs | hs⟩
    · exact absurd hs hne
    · exact hs

/-- A notification lets one thread more resume, or none. -/
theorem awake_notify (h : c.notify pick = some c') : c'.awake ≤ c.awake + 1 := by
  unfold notify at h
  split at h
  · split at h
    · cases h
      exact Nat.le_succ _
    · cases h
  · split at h
    · cases h
      unfold awake
      dsimp only
      rw [List.length_cons]
      omega
    · cases h

/-- A thread that wakes for no reason may resume. -/
theorem awake_wake (h : c.wake t = some c') : c'.awake = c.awake + 1 := by
  unfold wake at h
  split at h
  · cases h
    unfold awake
    dsimp only
    rw [List.length_cons]
    omega
  · cases h

/-- A thread that resumes was one of those that may. -/
theorem awake_resume (h : c.resume t = some c') : c'.awake + 1 = c.awake := by
  unfold resume at h
  split at h
  · rename_i hmem
    cases h
    unfold awake
    dsimp only
    have hlen := List.length_erase_of_mem hmem
    have hpos := List.length_pos_of_mem hmem
    omega
  · split at h
    · rename_i hmem
      cases h
      unfold awake
      dsimp only
      have hlen := List.length_erase_of_mem hmem
      have hpos := List.length_pos_of_mem hmem
      omega
    · cases h

/-- A condition always has a thread for a notification to pick, or none to wake. -/
theorem exists_notify (c : Condition τ) : ∃ pick c', c.notify pick = some c' := by
  cases hw : c.waiting with
  | nil => exact ⟨none, c, if_pos hw⟩
  | cons t ts =>
    have hmem : t ∈ c.waiting := hw ▸ List.mem_cons_self
    exact ⟨some t, _, if_pos hmem⟩

/-- Every thread inside is blocked, or can resume. -/
theorem waiting_or_resume (ht : t ∈ c.members) :
    t ∈ c.waiting ∨ ∃ c', c.resume t = some c' := by
  rcases List.mem_append.mp ht with ht | ht
  · rcases List.mem_append.mp ht with ht | ht
    · exact Or.inl ht
    · exact Or.inr ⟨_, if_pos ht⟩
  · by_cases hs : t ∈ c.signalled
    · exact Or.inr ⟨_, if_pos hs⟩
    · exact Or.inr ⟨_, (if_neg hs).trans (if_pos ht)⟩

/-! ### Covering the resources -/

omit [DecidableEq τ] in
theorem covers_fresh (k : ℕ) : (fresh : Condition τ).Covers k := fun h => absurd rfl h

omit [DecidableEq τ] in
/-- Fewer resources need fewer threads. -/
theorem Covers.mono (h : c.Covers k) (hle : k' ≤ k) : c.Covers k' := fun hw => hle.trans (h hw)

omit [DecidableEq τ] in
/-- Without a resource a thread may wait. -/
theorem covers_wait (c : Condition τ) (t : τ) : (c.wait t).Covers 0 := fun _ => Nat.zero_le _

/-- One more resource and one notification. -/
theorem Covers.notify (h : c.Covers k) (hn : c.notify pick = some c') : c'.Covers (k + 1) := by
  unfold Condition.notify at hn
  split at hn
  · split at hn
    · rename_i hnone
      cases hn
      exact fun hw => absurd hnone hw
    · cases hn
  · split at hn
    · rename_i t hmem
      cases hn
      intro _
      have hle := h (List.ne_nil_of_mem hmem)
      rw [List.length_cons]
      omega
    · cases hn

/-- A thread that wakes for no reason was not counted on. -/
theorem Covers.wake (h : c.Covers k) (hn : c.wake t = some c') : c'.Covers k := by
  unfold Condition.wake at hn
  split at hn
  · rename_i hmem
    cases hn
    exact fun _ => h (List.ne_nil_of_mem hmem)
  · cases hn

/-- A thread that resumes was counted on for one resource at most. -/
theorem Covers.resume (h : c.Covers k) (hn : c.resume t = some c') : c'.Covers (k - 1) := by
  unfold Condition.resume at hn
  split at hn
  · rename_i hmem
    cases hn
    intro hw
    have hle := h hw
    have hlen := List.length_erase_of_mem hmem
    dsimp only
    omega
  · split at hn
    · cases hn
      exact fun hw => (Nat.sub_le k 1).trans (h hw)
    · cases hn

end Condition

end KKNet.Monitors
