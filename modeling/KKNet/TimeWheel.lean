import KKNet.Arenas
import KKNet.OrderedSet
import KKNet.Results
import KKNet.Wheels

/-!
# The time wheel

Translation of `reactor/TimeWheel.h`. Nodes and sets live in arenas of their own,
as the source allocates them with `new`. A member that no code has assigned yet
has no value; to follow it, a null pointer or a pointer to a deleted node or set is
a fault. Entries are named by numbers, and a set has them in the order of their
names.
-/

namespace KKNet.TimeWheels

open Arenas OrderedSets Wheels Results

/-- What the source leaves undefined. -/
inductive Fault
  /-- A pointer that was never assigned is used. -/
  | unassigned
  /-- A null pointer is followed. -/
  | null
  /-- A deleted node or set is used. -/
  | deleted
  /-- A walk goes on past the steps it was given. -/
  | endless
  deriving DecidableEq

/-- `WheelNode*`. -/
inductive Pointer
  /-- Never assigned. -/
  | unassigned
  /-- The null pointer. -/
  | null
  /-- The address of a node. -/
  | ref (a : ℕ)
  deriving DecidableEq

/-- `WheelSet`, the entries by their names. -/
abbrev WheelSet := OrderedSet (id : ℕ → ℕ)

/-- `WheelNode`. -/
structure WheelNode where
  /-- The following node. -/
  next_ : Pointer
  /-- The address of the set. -/
  set_ : ℕ

/-- `TimeWheel`, with the nodes and the sets it allocated. -/
structure TimeWheel where
  /-- The nodes. -/
  nodes : Arena WheelNode
  /-- The sets. -/
  sets : Arena WheelSet
  /-- The number given to `setMaxNum`; nothing reads it. -/
  maxNum_ : Option ℕ
  /-- The node entries are put into. -/
  currentNode_ : Pointer
  /-- The first node. -/
  head_ : Pointer
  /-- The last node. -/
  tail_ : Pointer

namespace TimeWheel

/-- A new `TimeWheel`. No code initialises a member, but the storage may have been zeroed. -/
def fresh (zeroed : Bool) : TimeWheel :=
  let member := if zeroed then Pointer.null else .unassigned
  ⟨[], [], none, member, member, member⟩

/-- Follow a pointer: the address and the node. -/
def node (w : TimeWheel) : Pointer → Except Fault (ℕ × WheelNode)
  | .unassigned => .error .unassigned
  | .null => .error .null
  | .ref a =>
    match read w.nodes a with
    | some nd => .ok (a, nd)
    | none => .error .deleted

/-- `*set_`. -/
def set (w : TimeWheel) (a : ℕ) : Except Fault WheelSet :=
  match read w.sets a with
  | some s => .ok s
  | none => .error .deleted

/-- `new WheelNode()`: the address and what it leaves. -/
def newNode (w : TimeWheel) : ℕ × TimeWheel :=
  (w.nodes.length, { w with
    nodes := alloc w.nodes ⟨.null, w.sets.length⟩
    sets := alloc w.sets .empty })

/-- `p->next_ = q`. -/
def setNext (w : TimeWheel) (p q : Pointer) : Except Fault TimeWheel := do
  let (a, nd) ← w.node p
  pure { w with nodes := write w.nodes a { nd with next_ := q } }

/-- The loop of `setMaxNum`, with the rounds that are left. -/
def setMaxNumLoop (w : TimeWheel) (walk : Pointer) : ℕ → Except Fault (TimeWheel × Pointer)
  | 0 => pure (w, walk)
  | rounds + 1 => do
    let next := w.newNode
    let w ← next.2.setNext walk (.ref next.1)
    setMaxNumLoop w (.ref next.1) rounds

/-- `setMaxNum`. -/
def setMaxNum (w : TimeWheel) (num : ℕ) : Except Fault TimeWheel := do
  let head := ({ w with maxNum_ := num } : TimeWheel).newNode
  let w := { head.2 with head_ := .ref head.1 }
  let (w, walk) ← w.setMaxNumLoop w.head_ (num - 1)
  let w := { w with tail_ := walk }
  w.setNext w.tail_ w.head_

/-- `push`. -/
def push (w : TimeWheel) (ptr : ℕ) : Except Fault TimeWheel := do
  let (_, nd) ← w.node w.currentNode_
  let s ← w.set nd.set_
  pure { w with sets := write w.sets nd.set_ (s.insert ptr) }

/-- `onTime`: the wheel it leaves, and the entries of the set it deletes. -/
def onTime (w : TimeWheel) : Except Fault (TimeWheel × List ℕ) := do
  let (_, nd) ← w.node w.currentNode_
  let w := { w with currentNode_ := nd.next_ }
  let (a, nd) ← w.node w.currentNode_
  let s ← w.set nd.set_
  if s.items.isEmpty then pure (w, [])
  else
    pure ({ w with
      nodes := write w.nodes a { nd with set_ := w.sets.length }
      sets := alloc (delete w.sets nd.set_) .empty }, s.items)

/-- The loop of the destructor, with the steps it may take and the entries of the sets
deleted so far. -/
def destroyLoop (w : TimeWheel) (released : List ℕ) :
    ℕ → Pointer → Except Fault (TimeWheel × List ℕ)
  | 0, _ => .error .endless
  | _ + 1, .unassigned => .error .unassigned
  | _ + 1, .null => pure (w, released)
  | steps + 1, .ref walk => do
    let (temp, nd) ← w.node (.ref walk)
    let s ← w.set nd.set_
    destroyLoop { w with nodes := delete w.nodes temp, sets := delete w.sets nd.set_ }
      (released ++ s.items) steps nd.next_

/-- `TimeWheel::~TimeWheel`. -/
def destroy (w : TimeWheel) (steps : ℕ) : Except Fault (TimeWheel × List ℕ) :=
  w.destroyLoop [] steps w.head_

end TimeWheel

/-! ### Building the ring -/

variable {w : TimeWheel} {n k a : ℕ} {nd : WheelNode} {s : WheelSet}

/-- A live node. -/
theorem node_ref (h : read w.nodes a = some nd) : w.node (.ref a) = .ok (a, nd) := by
  unfold TimeWheel.node
  dsimp only
  rw [h]

/-- A live set. -/
theorem set_of_read (h : read w.sets a = some s) : w.set a = .ok s := by
  unfold TimeWheel.set
  rw [h]

/-- A link from a live node. -/
theorem setNext_ref (h : read w.nodes a = some nd) (q : Pointer) :
    w.setNext (.ref a) q = .ok { w with nodes := write w.nodes a { nd with next_ := q } } := by
  unfold TimeWheel.setNext
  rw [node_ref h]
  rfl

/-- The nodes the loop of `setMaxNum` has linked so far, and the last one. -/
structure Row (k : ℕ) (w : TimeWheel) : Prop where
  /-- The number of nodes. -/
  nodes_length : w.nodes.length = k + 1
  /-- The number of sets. -/
  sets_length : w.sets.length = k + 1
  /-- The linked nodes. -/
  linked : ∀ i < k, read w.nodes i = some ⟨.ref (i + 1), i⟩
  /-- The last node. -/
  last : read w.nodes k = some ⟨.null, k⟩
  /-- The sets. -/
  sets : ∀ i ≤ k, read w.sets i = some .empty
  /-- The first node. -/
  head_ : w.head_ = .ref 0
  /-- No code has assigned the current node. -/
  currentNode_ : ∀ a, w.currentNode_ ≠ .ref a

/-- The ring `setMaxNum` leaves. -/
structure Built (n : ℕ) (w : TimeWheel) : Prop where
  /-- The nodes are linked to a ring. -/
  nodes : ∀ i < n, read w.nodes i = some ⟨.ref (after n i), i⟩
  /-- The sets are empty. -/
  sets : ∀ i < n, read w.sets i = some .empty
  /-- The number of nodes. -/
  nodes_length : w.nodes.length = n
  /-- The number of sets. -/
  sets_length : w.sets.length = n
  /-- The first node. -/
  head_ : w.head_ = .ref 0
  /-- No code has assigned the current node. -/
  currentNode_ : ∀ a, w.currentNode_ ≠ .ref a

/-- A round of the loop links one more node. -/
theorem Row.grow (hw : Row k w) :
    ∃ w', w.newNode.2.setNext (.ref k) (.ref w.newNode.1) = .ok w' ∧ w.newNode.1 = k + 1 ∧
      Row (k + 1) w' := by
  have hlast : read w.newNode.2.nodes k = some ⟨.null, k⟩ := read_alloc hw.last
  refine ⟨_, setNext_ref hlast _, hw.nodes_length, ?_, ?_, fun i hi => ?_, ?_, fun i hi => ?_, hw.head_,
    hw.currentNode_⟩
  · dsimp only [TimeWheel.newNode]
    rw [length_write, length_alloc, hw.nodes_length]
  · dsimp only [TimeWheel.newNode]
    rw [length_alloc, hw.sets_length]
  · by_cases hik : i = k
    · subst hik
      rw [read_write hlast]
      dsimp only [TimeWheel.newNode]
      rw [hw.nodes_length]
    · rw [read_write_of_ne (Ne.symm hik)]
      exact read_alloc (hw.linked i (by omega))
  · rw [read_write_of_ne (by omega)]
    dsimp only [TimeWheel.newNode]
    rw [← hw.nodes_length, read_alloc_length, hw.nodes_length, hw.sets_length]
  · by_cases hik : i = k + 1
    · subst hik
      dsimp only [TimeWheel.newNode]
      rw [← hw.sets_length, read_alloc_length]
    · exact read_alloc (hw.sets i (by omega))

/-- The loop of `setMaxNum`. -/
theorem Row.setMaxNumLoop (hw : Row k w) (rounds : ℕ) :
    ∃ w', w.setMaxNumLoop (.ref k) rounds = .ok (w', .ref (k + rounds)) ∧ Row (k + rounds) w' := by
  induction rounds generalizing k w with
  | zero => exact ⟨w, rfl, hw⟩
  | succ rounds ih =>
    obtain ⟨w₁, hlink, hnext, hrow⟩ := hw.grow
    obtain ⟨w₂, hloop, hlast⟩ := ih hrow
    have hk : k + 1 + rounds = k + (rounds + 1) := by omega
    rw [hk] at hloop hlast
    refine ⟨w₂, ?_, hlast⟩
    unfold TimeWheel.setMaxNumLoop
    dsimp only
    rw [hlink, ok_bind, hnext, hloop]

/-- `setMaxNum` of a new wheel builds a ring of `num` nodes, or of one. -/
theorem built_setMaxNum (zeroed : Bool) (num : ℕ) :
    ∃ w, (TimeWheel.fresh zeroed).setMaxNum num = .ok w ∧ Built (num - 1 + 1) w := by
  have hmember : ∀ a, (TimeWheel.fresh zeroed).currentNode_ ≠ .ref a := by
    cases zeroed <;> exact fun a h => by cases h
  have hstart : Row 0
      { (({ TimeWheel.fresh zeroed with maxNum_ := some num } : TimeWheel).newNode).2 with
        head_ := .ref 0 } :=
    ⟨rfl, rfl, fun i hi => absurd hi (Nat.not_lt_zero i), rfl,
      fun i hi => by rw [Nat.le_zero.mp hi]; rfl, rfl, hmember⟩
  obtain ⟨w, hloop, hrow⟩ := hstart.setMaxNumLoop (num - 1)
  rw [Nat.zero_add] at hloop hrow
  have hlast : read w.nodes (num - 1) = some ⟨.null, num - 1⟩ := hrow.last
  refine ⟨{ w with
    tail_ := .ref (num - 1)
    nodes := write w.nodes (num - 1) ⟨.ref 0, num - 1⟩ }, ?_, fun i hi => ?_, fun i hi => ?_,
    ?_, hrow.sets_length, hrow.head_, hrow.currentNode_⟩
  · unfold TimeWheel.setMaxNum
    dsimp only
    rw [show ({ TimeWheel.fresh zeroed with maxNum_ := some num } : TimeWheel).newNode.1 = 0
      from rfl, hloop, ok_bind]
    dsimp only
    have hset := setNext_ref (w := { w with tail_ := .ref (num - 1) }) hlast w.head_
    rw [hrow.head_] at hset ⊢
    exact hset
  · unfold after
    by_cases hlt : i = num - 1
    · subst hlt
      rw [if_pos rfl]
      exact read_write hlast
    · rw [if_neg (by omega)]
      dsimp only
      rw [read_write_of_ne (Ne.symm hlt)]
      exact hrow.linked i (by omega)
  · exact hrow.sets i (by omega)
  · dsimp only
    rw [length_write, hrow.nodes_length]

/-! ### The ring in use -/

/-- A ring of `n` nodes with their sets and the entries of these. -/
structure Ring (n : ℕ) (w : TimeWheel) (address : ℕ → ℕ) (contents : ℕ → WheelSet) : Prop where
  /-- The nodes are linked to a ring. -/
  nodes : ∀ i < n, read w.nodes i = some ⟨.ref (after n i), address i⟩
  /-- The sets of the nodes. -/
  sets : ∀ i < n, read w.sets (address i) = some (contents i)
  /-- Every node has a set of its own. -/
  apart : ∀ i < n, ∀ j < n, address i = address j → i = j
  /-- Every set belongs to a node. -/
  owned : ∀ a s, read w.sets a = some s → ∃ i < n, address i = a

/-- The ring `setMaxNum` leaves, whichever node is the current one. -/
theorem Built.ring (hw : Built n w) (p : Pointer) :
    Ring n { w with currentNode_ := p } id fun _ => .empty :=
  ⟨hw.nodes, hw.sets, fun _ _ _ _ h => h, fun a _ hs => ⟨a, hw.sets_length ▸ lt_of_read hs, rfl⟩⟩

/-- An entry some set has. -/
def TimeWheel.Refers (w : TimeWheel) (entry : ℕ) : Prop := ∃ s, some s ∈ w.sets ∧ entry ∈ s.items

instance (w : TimeWheel) (entry : ℕ) : Decidable (w.Refers entry) :=
  decidable_of_iff (∃ o ∈ w.sets, ∃ s ∈ o, entry ∈ s.items)
    ⟨fun ⟨_, ho, s, hs, he⟩ => ⟨s, Option.mem_def.mp hs ▸ ho, he⟩,
      fun ⟨s, hs, he⟩ => ⟨some s, hs, s, rfl, he⟩⟩

variable {address : ℕ → ℕ} {contents : ℕ → WheelSet} {i : ℕ}

/-- The entries of the sets are those of the nodes. -/
theorem Ring.refers_iff (hw : Ring n w address contents) (entry : ℕ) :
    w.Refers entry ↔ ∃ i < n, entry ∈ contents i := by
  constructor
  · rintro ⟨s, hs, he⟩
    obtain ⟨a, ha⟩ := some_mem_iff.mp hs
    obtain ⟨i, hi, rfl⟩ := hw.owned a s ha
    rw [hw.sets i hi] at ha
    cases ha
    exact ⟨i, hi, he⟩
  · rintro ⟨i, hi, he⟩
    exact ⟨contents i, some_mem_iff.mpr ⟨_, hw.sets i hi⟩, he⟩

/-- `push` into the current node. -/
theorem Ring.push (hw : Ring n w address contents) (hi : i < n) (hcur : w.currentNode_ = .ref i)
    (ptr : ℕ) :
    ∃ w', w.push ptr = .ok w' ∧ w'.currentNode_ = .ref i ∧
      Ring n w' address (Function.update contents i ((contents i).insert ptr)) := by
  have hset := hw.sets i hi
  refine ⟨{ w with sets := write w.sets (address i) ((contents i).insert ptr) }, ?_, hcur,
    hw.nodes, fun j hj => ?_, hw.apart, fun a s hs => ?_⟩
  · unfold TimeWheel.push
    rw [hcur, node_ref (hw.nodes i hi), ok_bind]
    dsimp only
    rw [set_of_read hset]
    rfl
  · by_cases hji : j = i
    · subst hji
      rw [read_write hset, Function.update_self]
    · rw [read_write_of_ne fun h => hji (hw.apart i hi j hj h).symm, Function.update_of_ne hji]
      exact hw.sets j hj
  · by_cases ha : address i = a
    · exact ⟨i, hi, ha⟩
    · dsimp only at hs
      rw [read_write_of_ne ha] at hs
      exact hw.owned a s hs

/-- A node gets a new set for its old one. -/
theorem Ring.renew {j : ℕ} (hw : Ring n w address contents) (hj : j < n) (p : Pointer) :
    Ring n { w with
        nodes := write w.nodes j ⟨.ref (after n j), w.sets.length⟩
        sets := alloc (delete w.sets (address j)) .empty
        currentNode_ := p }
      (Function.update address j w.sets.length) (Function.update contents j .empty) := by
  have hbound : ∀ k < n, address k < w.sets.length := fun k hk => lt_of_read (hw.sets k hk)
  have hlen : (delete w.sets (address j)).length = w.sets.length := length_delete
  refine ⟨fun k hk => ?_, fun k hk => ?_, fun k hk l hl h => ?_, fun a s hs => ?_⟩
  · by_cases hkj : k = j
    · subst hkj
      rw [read_write (hw.nodes k hk), Function.update_self]
    · rw [read_write_of_ne (Ne.symm hkj), Function.update_of_ne hkj]
      exact hw.nodes k hk
  · dsimp only
    by_cases hkj : k = j
    · subst hkj
      rw [Function.update_self, Function.update_self, ← hlen, read_alloc_length]
    · rw [Function.update_of_ne hkj, Function.update_of_ne hkj]
      refine read_alloc ?_
      rw [read_delete_of_ne fun h => hkj (hw.apart j hj k hk h).symm]
      exact hw.sets k hk
  · -- the new set lies past the old ones
    by_cases hkj : k = j
    · by_cases hlj : l = j
      · rw [hkj, hlj]
      · rw [hkj, Function.update_self, Function.update_of_ne hlj] at h
        exact absurd h (hbound l hl).ne'
    · by_cases hlj : l = j
      · rw [hlj, Function.update_self, Function.update_of_ne hkj] at h
        exact absurd h (hbound k hk).ne
      · rw [Function.update_of_ne hkj, Function.update_of_ne hlj] at h
        exact hw.apart k hk l hl h
  · by_cases ha : a = w.sets.length
    · exact ⟨j, hj, by rw [ha, Function.update_self]⟩
    · dsimp only at hs
      rw [read_alloc_of_ne (by rw [hlen]; exact ha)] at hs
      by_cases hold : address j = a
      · rw [hold, read_delete] at hs
        cases hs
      · rw [read_delete_of_ne hold] at hs
        obtain ⟨k, hk, hka⟩ := hw.owned a s hs
        have hkj : k ≠ j := fun h => hold (h ▸ hka)
        exact ⟨k, hk, by rw [Function.update_of_ne hkj, hka]⟩

/-- A set without entries. -/
theorem eq_empty_of_items (h : s.items = []) : s = .empty := by
  cases s with
  | mk items sorted =>
    dsimp only at h
    subst h
    rfl

/-- `onTime` moves on to the following node and leaves it an empty set. -/
theorem Ring.onTime (hw : Ring n w address contents) (hi : i < n) (hcur : w.currentNode_ = .ref i) :
    ∃ w' address', w.onTime = .ok (w', (contents (after n i)).items) ∧
      w'.currentNode_ = .ref (after n i) ∧
      Ring n w' address' (Function.update contents (after n i) .empty) := by
  have hj := after_lt hi
  have hset := hw.sets _ hj
  unfold TimeWheel.onTime
  rw [hcur, node_ref (hw.nodes i hi), ok_bind]
  dsimp only
  rw [node_ref (w := { w with currentNode_ := .ref (after n i) }) (hw.nodes _ hj), ok_bind]
  dsimp only
  rw [set_of_read (w := { w with currentNode_ := .ref (after n i) }) hset, ok_bind]
  by_cases hempty : (contents (after n i)).items = []
  · rw [hempty]
    refine ⟨_, address, rfl, rfl, hw.nodes, fun k hk => ?_, hw.apart, hw.owned⟩
    by_cases hki : k = after n i
    · rw [hki, Function.update_self]
      exact hset.trans (congrArg some (eq_empty_of_items hempty))
    · rw [Function.update_of_ne hki]
      exact hw.sets k hk
  · rw [if_neg (by simpa using hempty)]
    exact ⟨_, _, rfl, rfl, hw.renew hj _⟩

end KKNet.TimeWheels
