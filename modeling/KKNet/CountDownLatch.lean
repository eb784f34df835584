import KKNet.Monitors

/-!
# The latch

Translation of `util/CountDownLatch.cpp` and `util/CountDownLatch.h`. As for the
blocking queue a section that holds the mutex is one step; `setCount` does not take
the mutex and is a step as well.

A latch is tight when nobody is blocked below it once the count is down. Every call
keeps that: the thread that takes the count to zero picks all who are blocked.
-/

namespace KKNet.CountDownLatches

open Monitors

/-- `CountDownLatch`, between two sections. -/
structure CountDownLatch (τ : Type) where
  /-- Where threads wait. -/
  cond_ : Condition τ
  /-- What is left to count. -/
  count_ : ℤ

namespace CountDownLatch

variable {τ : Type}

/-- `CountDownLatch::CountDownLatch`. -/
def construct (count : ℤ) : CountDownLatch τ := ⟨.fresh, count⟩

/-- The loop of `wait`, and whether the call returns. -/
def wait (l : CountDownLatch τ) (t : τ) : CountDownLatch τ × Bool :=
  if l.count_ > 0 then ({ l with cond_ := l.cond_.wait t }, false) else (l, true)

/-- `countDown`. -/
def countDown (l : CountDownLatch τ) : CountDownLatch τ :=
  let count_ := l.count_ - 1
  { cond_ := if count_ = 0 then l.cond_.notifyAll else l.cond_, count_ }

/-- `getCount`. -/
def getCount (l : CountDownLatch τ) : ℤ := l.count_

/-- `setCount`. It is declared to return an `int` and has no `return`; it is taken to
return, and no caller uses the value. -/
def setCount (l : CountDownLatch τ) (count : ℤ) : CountDownLatch τ := { l with count_ := count }

variable [DecidableEq τ]

/-- A thread that is no longer blocked is back in the loop of `wait`. -/
def resume (l : CountDownLatch τ) (t : τ) : Option (CountDownLatch τ × Bool) :=
  (l.cond_.resume t).map fun c => wait { l with cond_ := c } t

/-- A blocked thread wakes for no reason. -/
def wake (l : CountDownLatch τ) (t : τ) : Option (CountDownLatch τ) :=
  (l.cond_.wake t).map fun c => { l with cond_ := c }

/-- Nobody is blocked once the count is down. -/
def Tight (l : CountDownLatch τ) : Prop := l.cond_.waiting ≠ [] → 0 < l.count_

variable {l l' : CountDownLatch τ} {t : τ} {c : Condition τ} {inside : τ → Prop}

omit [DecidableEq τ]

/-- A thread that finds something left to count is blocked. -/
theorem wait_of_pos (h : 0 < l.count_) (t : τ) :
    l.wait t = ({ l with cond_ := l.cond_.wait t }, false) := if_pos h

/-- Any other thread returns. -/
theorem wait_of_nonpos (h : l.count_ ≤ 0) (t : τ) : l.wait t = (l, true) := if_neg (not_lt.mpr h)

/-- Waiting does not count. -/
@[simp] theorem count_wait (l : CountDownLatch τ) (t : τ) : (l.wait t).1.count_ = l.count_ := by
  unfold wait
  split <;> rfl

@[simp] theorem count_countDown (l : CountDownLatch τ) : l.countDown.count_ = l.count_ - 1 := rfl

theorem tight_construct (count : ℤ) : (construct count : CountDownLatch τ).Tight :=
  fun h => absurd rfl h

theorem Tight.wait (h : l.Tight) (t : τ) : (l.wait t).1.Tight := by
  rcases lt_or_ge 0 l.count_ with hpos | hle
  · rw [wait_of_pos hpos]
    exact fun _ => hpos
  · rw [wait_of_nonpos hle]
    exact h

theorem Tight.countDown (h : l.Tight) : l.countDown.Tight := by
  intro hne
  unfold CountDownLatch.countDown at hne ⊢
  dsimp only at hne ⊢
  split at hne
  · exact absurd rfl hne
  · have hpos := h hne
    omega

theorem tight_setCount {count : ℤ} (hcount : 0 < count) (l : CountDownLatch τ) :
    (l.setCount count).Tight := fun _ => hcount

/-- Who is inside, after a thread that was not went through the loop of `wait`. -/
theorem holds_wait (h : l.cond_.Holds inside) (ht : ¬inside t) :
    (l.wait t).1.cond_.Holds fun s => s = t ∧ (l.wait t).2 = false ∨ inside s := by
  rcases lt_or_ge 0 l.count_ with hpos | hle
  · rw [wait_of_pos hpos]
    exact (h.wait ht).congr fun s => by simp
  · rw [wait_of_nonpos hle]
    exact h.congr fun s => by simp

theorem holds_countDown (h : l.cond_.Holds inside) : l.countDown.cond_.Holds inside := by
  unfold CountDownLatch.countDown
  dsimp only
  split
  · exact h.notifyAll
  · exact h

variable [DecidableEq τ]

theorem Tight.resume (h : l.Tight) (hc : l.cond_.resume t = some c) :
    Tight { l with cond_ := c } := by
  intro hne
  dsimp only at hne
  rw [Condition.waiting_resume hc] at hne
  exact h hne

theorem Tight.wake (h : l.Tight) (hl : l.wake t = some l') : l'.Tight := by
  obtain ⟨c, hc, rfl⟩ := Option.map_eq_some_iff.mp hl
  exact fun _ => h (List.ne_nil_of_mem (Condition.waiting_wake hc).1)

/-- A thread inside a tight latch whose count is down can return. -/
theorem Tight.returns (h : l.Tight) (hcount : l.count_ ≤ 0) (ht : t ∈ l.cond_.members) :
    ∃ c, l.cond_.resume t = some c ∧ l.resume t = some ({ l with cond_ := c }, true) := by
  rcases Condition.waiting_or_resume ht with hw | ⟨c, hc⟩
  · have hpos := h (List.ne_nil_of_mem hw)
    omega
  · have hreturn := wait_of_nonpos (l := { l with cond_ := c }) hcount t
    refine ⟨c, hc, ?_⟩
    unfold CountDownLatch.resume
    rw [hc, Option.map_some, hreturn]

end CountDownLatch

end KKNet.CountDownLatches
