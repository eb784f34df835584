import KKNet.Runs
import Mathlib.Data.List.Chain
import Mathlib.Data.List.Infix
import Mathlib.Tactic
import Mathlib.Algebra.Order.Ring.Int

/-!
# The pool of event loops

Translation of `reactor/EventloopPool.cpp`, after `start`. Loops are named by
numbers. `std::sort` may leave loops of equal load in any order, so the event
brings the order it makes; between the calls the loads change at will.

The comparator puts the most loaded loop first, and the index of the round robin
never moves. So a call that sorts returns a least loaded loop only if all the
loads are equal, and calls that take turns return different loops only if the pool
has one loop or they never come in a full turn.
-/

namespace KKNet.EventloopPools

open Runs

/-- `MAX_ROUND_ROBIN_NUM`. -/
def MAX_ROUND_ROBIN_NUM : ℤ := 10

/-- `EventloopPool`. -/
structure EventloopPool where
  /-- The loops of the pool, in an order that changes. -/
  loops_ : List ℕ
  /-- The number of loops. -/
  num_ : ℤ
  /-- The index of the round robin. -/
  robinNum_ : ℤ

/-- The constructor, `setThreadNum` and `start`: the base loop and those of the threads. -/
def EventloopPool.started (loop : ℕ) (created : List ℕ) : EventloopPool :=
  ⟨loop :: created, created.length + 1, 0⟩

/-- `compare`; the loads are `getFdNums`. -/
def compare (fdnums : ℕ → ℤ) (a b : ℕ) : Prop := fdnums a > fdnums b

instance (fdnums : ℕ → ℤ) (a b : ℕ) : Decidable (compare fdnums a b) :=
  inferInstanceAs (Decidable (_ > _))

/-- What `std::sort` with `compare` can make of a list. -/
def Sorts (fdnums : ℕ → ℤ) (loops order : List ℕ) : Prop :=
  order.Perm loops ∧ order.Pairwise fun a b => ¬compare fdnums b a

instance (fdnums : ℕ → ℤ) (loops order : List ℕ) : Decidable (Sorts fdnums loops order) :=
  inferInstanceAs (Decidable (_ ∧ _))

/-- `getNextEvent`: the loop it returns, and the pool it leaves. -/
def EventloopPool.getNextEvent (p : EventloopPool) (fdnums : ℕ → ℤ) (order : List ℕ) :
    Option (ℕ × EventloopPool) :=
  match p.loops_[0]? with
  | none => none
  | some first =>
    if fdnums first > MAX_ROUND_ROBIN_NUM then
      if Sorts fdnums p.loops_ order then
        order[0]?.map fun l => (l, { p with loops_ := order })
      else none
    else
      let robinNum_ := if p.robinNum_ ≥ p.num_ then 0 else p.robinNum_
      p.loops_[robinNum_.toNat]?.map fun l => (l, { p with robinNum_ })

/-- A call of `getNextEvent` and what it met. -/
structure Call where
  /-- The loops before the call, in their order. -/
  loops : List ℕ
  /-- The loads. -/
  fdnums : ℕ → ℤ
  /-- The loop it returned. -/
  loop : ℕ

/-- The first loop has more descriptors than the round robin allows. -/
def Call.Crowded (r : Call) : Prop := ∃ first ∈ r.loops[0]?, r.fdnums first > MAX_ROUND_ROBIN_NUM

/-- A pool, the loads of all loops and the calls so far. -/
structure System where
  /-- The pool. -/
  pool : EventloopPool
  /-- The number of descriptors of each loop. -/
  fdnums : ℕ → ℤ
  /-- The calls of `getNextEvent`, in order. -/
  calls : List Call

/-- A pool that was just started. -/
def System.started (loop : ℕ) (created : List ℕ) (fdnums : ℕ → ℤ) : System :=
  ⟨.started loop created, fdnums, []⟩

/-- What can happen next. -/
inductive Event
  /-- The loads change. -/
  | load (fdnums : ℕ → ℤ)
  /-- A call of `getNextEvent`; if it sorts, this is the order it makes. -/
  | getNextEvent (order : List ℕ)

/-- One step. -/
def step (w : System) : Event → Option System
  | .load fdnums => some { w with fdnums }
  | .getNextEvent order => (w.pool.getNextEvent w.fdnums order).map fun r =>
      ⟨r.2, w.fdnums, w.calls ++ [⟨w.pool.loops_, w.fdnums, r.1⟩]⟩

/-- Calls that sort return a least loaded loop, and `n` calls in a row that take turns
return different loops. -/
def Balanced (n : ℕ) (calls : List Call) : Prop :=
  (∀ r ∈ calls, r.Crowded → ∀ l ∈ r.loops, r.fdnums r.loop ≤ r.fdnums l) ∧
    ∀ turn, turn <:+: calls → turn.length = n → (∀ r ∈ turn, ¬r.Crowded) →
      (turn.map Call.loop).Nodup

/-- The load was even whenever a call sorted. -/
def Even (calls : List Call) : Prop :=
  ∀ r ∈ calls, r.Crowded → ∀ a ∈ r.loops, ∀ b ∈ r.loops, r.fdnums a = r.fdnums b

/-- Some call in every turn of `n` calls sorts. -/
def NoTurn (n : ℕ) (calls : List Call) : Prop :=
  ∀ turn, turn <:+: calls → turn.length = n → ∃ r ∈ turn, r.Crowded

/-! ### One call -/

variable {p p' : EventloopPool} {fdnums : ℕ → ℤ} {order : List ℕ} {l : ℕ}

/-- A call that sorts returns a most loaded loop and leaves the order; any other call
returns the first loop and leaves the pool as it is. -/
theorem getNextEvent_cases (hrobin : p.robinNum_ = 0)
    (h : p.getNextEvent fdnums order = some (l, p')) :
    (Call.Crowded ⟨p.loops_, fdnums, l⟩ ∧ l ∈ p.loops_ ∧
        (∀ b ∈ p.loops_, fdnums b ≤ fdnums l) ∧ p' = { p with loops_ := order }) ∨
      (¬Call.Crowded ⟨p.loops_, fdnums, l⟩ ∧ p.loops_[0]? = some l ∧ p' = p) := by
  unfold EventloopPool.getNextEvent at h
  split at h
  · cases h
  · rename_i first hfirst
    split at h
    · rename_i hcrowd
      split at h
      · rename_i hsort
        obtain ⟨hperm, hsorted⟩ := hsort
        obtain ⟨l', hl, heq⟩ := Option.map_eq_some_iff.mp h
        cases heq
        left
        refine ⟨⟨first, hfirst, hcrowd⟩, hperm.mem_iff.mp (List.mem_of_getElem? hl),
          fun b hb => ?_, rfl⟩
        cases order with
        | nil => cases hl
        | cons a rest =>
          cases hl
          rcases List.mem_cons.mp (hperm.mem_iff.mpr hb) with hb | hb
          · exact (congrArg fdnums hb).le
          · have hle : ¬fdnums b > fdnums l := (List.pairwise_cons.mp hsorted).1 b hb
            exact not_lt.mp hle
      · cases h
    · rename_i hcalm
      have hindex : (if p.robinNum_ ≥ p.num_ then 0 else p.robinNum_) = 0 := by
        rw [hrobin, ite_self]
      dsimp only at h
      rw [hindex] at h
      obtain ⟨l', hl, heq⟩ := Option.map_eq_some_iff.mp h
      cases heq
      right
      refine ⟨?_, hl, ?_⟩
      · rintro ⟨f, hf, hgt⟩
        rw [hfirst] at hf
        cases hf
        exact hcalm hgt
      · rw [← hrobin]

/-! ### Every run -/

/-- How the calls of a run answered, and what they left behind. -/
structure Answered (w : System) : Prop where
  /-- The index never moved. -/
  robin : w.pool.robinNum_ = 0
  /-- A call that sorted returned a most loaded loop. -/
  most : ∀ r ∈ w.calls, r.Crowded → r.loop ∈ r.loops ∧ ∀ l ∈ r.loops, r.fdnums l ≤ r.fdnums r.loop
  /-- Any other call returned the first loop. -/
  first : ∀ r ∈ w.calls, ¬r.Crowded → r.loops[0]? = some r.loop
  /-- It left the order to the next call. -/
  chain : w.calls.IsChain fun r r' => ¬r.Crowded → r'.loops = r.loops
  /-- So did the last call. -/
  last : ∀ r ∈ w.calls.getLast?, ¬r.Crowded → w.pool.loops_ = r.loops

/-- Every step keeps account of the calls. -/
theorem Answered.step {w w' : System} {e : Event} (hw : Answered w) (h : step w e = some w') :
    Answered w' := by
  unfold EventloopPools.step at h
  cases e with
  | load fdnums =>
    cases h
    exact ⟨hw.robin, hw.most, hw.first, hw.chain, hw.last⟩
  | getNextEvent order =>
    obtain ⟨⟨l, p'⟩, hcall, rfl⟩ := Option.map_eq_some_iff.mp h
    have hchain : (w.calls ++ [Call.mk w.pool.loops_ w.fdnums l]).IsChain
        fun r r' => ¬r.Crowded → r'.loops = r.loops := by
      refine List.IsChain.append hw.chain (List.isChain_singleton _) fun r hr r' hr' hcalm => ?_
      cases hr'
      exact hw.last r hr hcalm
    rcases getNextEvent_cases hw.robin hcall with ⟨hcrowd, hmem, hmost, rfl⟩ | ⟨hcalm, hfirst, rfl⟩
    · refine ⟨hw.robin, fun r hr => ?_, fun r hr => ?_, hchain, fun r hr hcalm => ?_⟩
      · rcases List.mem_append.mp hr with hr | hr
        · exact hw.most r hr
        · cases List.mem_singleton.mp hr
          exact fun _ => ⟨hmem, hmost⟩
      · rcases List.mem_append.mp hr with hr | hr
        · exact hw.first r hr
        · cases List.mem_singleton.mp hr
          exact fun hcalm => absurd hcrowd hcalm
      · rw [List.getLast?_concat] at hr
        cases hr
        exact absurd hcrowd hcalm
    · refine ⟨hw.robin, fun r hr => ?_, fun r hr => ?_, hchain, fun r hr _ => ?_⟩
      · rcases List.mem_append.mp hr with hr | hr
        · exact hw.most r hr
        · cases List.mem_singleton.mp hr
          exact fun hcrowd => absurd hcrowd hcalm
      · rcases List.mem_append.mp hr with hr | hr
        · exact hw.first r hr
        · cases List.mem_singleton.mp hr
          exact fun _ => hfirst
      · rw [List.getLast?_concat] at hr
        cases hr
        rfl

/-- Calls in a row that do not sort all return the same loop. -/
theorem same_loop {turn : List Call} {loops : List ℕ}
    (hchain : turn.IsChain fun r r' => ¬r.Crowded → r'.loops = r.loops)
    (hcalm : ∀ r ∈ turn, ¬r.Crowded) (hhead : ∀ r ∈ turn.head?, r.loops = loops) :
    ∀ r ∈ turn, r.loops = loops := by
  induction turn with
  | nil => exact fun r hr => absurd hr List.not_mem_nil
  | cons r₀ turn ih =>
    have hr₀ : r₀.loops = loops := hhead r₀ rfl
    have hnext := ih hchain.tail (fun r hr => hcalm r (List.mem_cons_of_mem r₀ hr)) fun r hr => by
      cases turn with
      | nil => cases hr
      | cons r₁ turn =>
        cases hr
        exact ((List.isChain_cons_cons.mp hchain).1 (hcalm r₀ List.mem_cons_self)).trans hr₀
    intro r hr
    rcases List.mem_cons.mp hr with hr | hr
    · rw [hr, hr₀]
    · exact hnext r hr

/-- So they are different only if there is one of them at most. -/
theorem Answered.nodup_iff {w : System} (hw : Answered w) {turn : List Call}
    (hturn : turn <:+: w.calls) (hcalm : ∀ r ∈ turn, ¬r.Crowded) :
    (turn.map Call.loop).Nodup ↔ turn.length ≤ 1 := by
  cases turn with
  | nil => simp
  | cons r₀ turn =>
    have hmem : ∀ r ∈ r₀ :: turn, r ∈ w.calls := fun r hr => hturn.subset hr
    have hlinked := hw.chain.infix hturn
    have hloops : ∀ r ∈ r₀ :: turn, r.loops = r₀.loops :=
      same_loop hlinked hcalm fun r hr => by cases hr; rfl
    have hfirst := hw.first r₀ (hmem r₀ List.mem_cons_self) (hcalm r₀ List.mem_cons_self)
    have hall : (r₀ :: turn).map Call.loop = List.replicate (turn.length + 1) r₀.loop := by
      rw [List.eq_replicate_iff]
      refine ⟨by simp, fun l hl => ?_⟩
      obtain ⟨r, hr, rfl⟩ := List.mem_map.mp hl
      have hr₀ := hw.first r (hmem r hr) (hcalm r hr)
      rw [hloops r hr, hfirst] at hr₀
      exact (Option.some.inj hr₀).symm
    rw [hall, List.nodup_replicate, List.length_cons]

/-- A run balances the load exactly if the load is even whenever a call sorts, and if
the pool has one loop or the calls never make a turn. -/
theorem balanced_iff (loop : ℕ) (created : List ℕ) (fdnums : ℕ → ℤ) {events : List Event}
    {w : System} (hrun : run step (System.started loop created fdnums) events = some w) :
    Balanced (created.length + 1) w.calls ↔
      Even w.calls ∧ (created = [] ∨ NoTurn (created.length + 1) w.calls) := by
  have hstart : Answered (System.started loop created fdnums) :=
    ⟨rfl, fun r hr => absurd hr List.not_mem_nil, fun r hr => absurd hr List.not_mem_nil,
      List.IsChain.nil, fun r hr => by cases hr⟩
  have hw : Answered w := invariant Answered (fun _ _ _ hw h => hw.step h) hstart hrun
  constructor
  · rintro ⟨hleast, hturns⟩
    constructor
    · intro r hr hcrowd a ha b hb
      obtain ⟨_, hmost⟩ := hw.most r hr hcrowd
      have hmin := hleast r hr hcrowd
      exact le_antisymm ((hmost a ha).trans (hmin b hb)) ((hmost b hb).trans (hmin a ha))
    · by_contra hneither
      obtain ⟨hmany, hturn⟩ := not_or.mp hneither
      unfold NoTurn at hturn
      push Not at hturn
      obtain ⟨turn, hin, hlen, hcalm⟩ := hturn
      have hshort := (hw.nodup_iff hin hcalm).mp (hturns turn hin hlen hcalm)
      have hpos : 0 < created.length := List.length_pos_iff.mpr hmany
      omega
  · rintro ⟨heven, hturns⟩
    constructor
    · intro r hr hcrowd l hl
      obtain ⟨hmem, _⟩ := hw.most r hr hcrowd
      exact (heven r hr hcrowd r.loop hmem l hl).le
    · intro turn hin hlen hcalm
      rcases hturns with hone | hno
      · rw [hw.nodup_iff hin hcalm, hlen, hone]
        exact Nat.le_refl 1
      · obtain ⟨r, hr, hcrowd⟩ := hno turn hin hlen
        exact absurd hcrowd (hcalm r hr)

/-- Two loops with eleven descriptors each: the call sorts, and any loop is least loaded. -/
theorem balanced_iff_even :
    ∃ w, run step (System.started 0 [1] fun _ => 11) [.getNextEvent [0, 1]] = some w ∧
      (Balanced 2 w.calls ↔ Even w.calls ∧ ([1] = [] ∨ NoTurn 2 w.calls)) :=
  have hrun : run step (System.started 0 [1] fun _ => 11) [.getNextEvent [0, 1]] =
      some ⟨⟨[0, 1], 2, 0⟩, fun _ => 11, [⟨[0, 1], fun _ => 11, 0⟩]⟩ := rfl
  ⟨_, hrun, balanced_iff 0 [1] (fun _ => 11) hrun⟩

/-- Of loops with eleven and twelve descriptors the call returns the second one; and two
calls return the base loop twice while neither loop has more than its own descriptors. -/
theorem unbalanced :
    (∃ w, run step (System.started 0 [1] fun l => if l = 0 then 11 else 12)
        [.getNextEvent [1, 0]] = some w ∧ ¬Balanced 2 w.calls) ∧
      ∃ w, run step (System.started 0 [1] fun _ => 2)
        [.getNextEvent [], .getNextEvent []] = some w ∧ ¬Balanced 2 w.calls := by
  refine ⟨⟨_, rfl, fun ⟨hleast, _⟩ => ?_⟩, ⟨_, rfl, fun ⟨_, hturns⟩ => ?_⟩⟩
  · have hcrowd : Call.Crowded ⟨[0, 1], fun l => if l = 0 then 11 else 12, 1⟩ :=
      ⟨0, rfl, by decide⟩
    have hle := hleast _ List.mem_cons_self hcrowd 0 List.mem_cons_self
    exact absurd hle (by decide)
  · have hcalm : ¬Call.Crowded ⟨[0, 1], fun _ => 2, 0⟩ := by
      rintro ⟨f, _, hgt⟩
      have htwo : ¬(2 : ℤ) > MAX_ROUND_ROBIN_NUM := by decide
      exact htwo hgt
    have hnodup := hturns _ List.infix_rfl rfl fun r hr => by
      rcases List.mem_cons.mp hr with rfl | hr
      · exact hcalm
      · rw [List.mem_singleton.mp hr]
        exact hcalm
    exact absurd hnodup (by decide)

end KKNet.EventloopPools
