/-
Orizzonte/Node.lean

The graph: `leaf`, `seq`, `all` and `any` (`node/leaf.hpp`, `node/seq.hpp`,
`node/all.hpp`, `node/any.hpp`), their static members, and the member function
`then` of leaf and seq (`node/then.inl`).

A graph is one C++ object whose nodes are its base class subobjects, in
declaration order.  Addresses number the nodes that have a state of their own
(leaf, all, any) in that order: a graph at `a` occupies `[a, a + size)`, a `seq`
takes no number, and `childAddr` is where the `i`-th base of an `all` or `any`
starts.  Two children never share an address (`childAddr_inj` below).
-/
import Orizzonte.Value
import Mathlib.Algebra.BigOperators.Fin
import Mathlib.Order.Interval.Finset.Fin
import Mathlib.Algebra.Order.BigOperators.Group.Finset

namespace Orizzonte

variable {α : Type*}

/-- The two class templates over a pack of nodes. -/
inductive Join
  | all
  | any
  deriving DecidableEq

/-- `leaf` holds the `out_type` of the callable, whether its parameter is a const
reference (otherwise it is taken by value), and the callable; `seq` its two
parts; `fork` the pack `Fs...` of an `all` or an `any`, which is not empty. -/
inductive Node (α : Type*)
  | leaf (out : Ty) (byRef : Bool) (f : Callable α)
  | seq (A B : Node α)
  | fork (k : Join) {n : ℕ} (fs : Fin (n + 1) → Node α)

namespace Node

/-- `all<Fs...>`. -/
@[match_pattern] abbrev all {n : ℕ} (fs : Fin (n + 1) → Node α) : Node α := fork .all fs

/-- `any<Fs...>`. -/
@[match_pattern] abbrev any {n : ℕ} (fs : Fin (n + 1) → Node α) : Node α := fork .any fs

/-- Number of addresses a graph occupies. -/
def size : Node α → ℕ
  | leaf _ _ _ => 1
  | seq A B => A.size + B.size
  | fork _ fs => 1 + ∑ i, (fs i).size

/-- Where the `i`-th child of an all or any node at `a` starts. -/
def childAddr {n : ℕ} (fs : Fin (n + 1) → Node α) (a : ℕ) (i : Fin (n + 1)) : ℕ :=
  a + 1 + ∑ j ∈ Finset.Iio i, (fs j).size

/-- `cleanup_count()`. -/
def cleanupCount : Node α → ℕ
  | leaf _ _ _ => 0
  | seq A B => A.cleanupCount + B.cleanupCount
  | all fs => ∑ i, (fs i).cleanupCount
  | any fs => (∑ i, (fs i).cleanupCount) + 1

/-- `out_type`. -/
def outType : Node α → Ty
  | leaf out _ _ => out
  | seq _ B => B.outType
  | all fs => .tuple (List.ofFn fun i => (fs i).outType)
  | any fs => .variant (List.ofFn fun i => (fs i).outType)

/-- The argument of `then`: a node (`is_executable`), or a callable, which `then`
wraps in a leaf. -/
inductive Link (α : Type*)
  | node (x : Node α)
  | callable (out : Ty) (byRef : Bool) (f : Callable α)

/-- `leaf::then` and `seq::then`; all and any have no such member. -/
def thenLink : Node α → Link α → Option (Node α)
  | fork _ _, _ => none
  | g, .node x => some (seq g x)
  | g, .callable out r f => some (seq g (leaf out r f))

/-- The class of the graph has a member `then`. -/
def hasThen : Node α → Bool
  | fork _ _ => false
  | _ => true

/-- The node that a link adds. -/
def Link.toNode : Link α → Node α
  | node x => x
  | callable out r f => leaf out r f

/-- A call of `then` adds its node after the graph. -/
theorem thenLink_eq (g : Node α) (l : Link α) :
    g.thenLink l = if g.hasThen then some (seq g l.toNode) else none := by
  cases g <;> cases l <;> rfl

/-! ### The layout of the children -/

theorem size_pos (g : Node α) : 0 < g.size := by
  induction g with
  | leaf out r f => exact Nat.one_pos
  | seq A B ihA _ => exact Nat.add_pos_left ihA _
  | fork k fs _ => exact Nat.add_pos_left Nat.one_pos _

variable {n : ℕ} (fs : Fin (n + 1) → Node α) (a : ℕ)

theorem lt_childAddr (i : Fin (n + 1)) : a < childAddr fs a i := by
  unfold childAddr
  omega

/-- A child ends before the node does. -/
theorem childAddr_add_size_le (k : Join) (i : Fin (n + 1)) :
    childAddr fs a i + (fs i).size ≤ a + (fork k fs).size := by
  have h : ∑ j ∈ insert i (Finset.Iio i), (fs j).size ≤ ∑ j, (fs j).size :=
    Finset.sum_le_sum_of_subset (Finset.subset_univ _)
  rw [Finset.sum_insert (by simp)] at h
  simp only [childAddr, size]
  omega

/-- A child ends before any later child starts. -/
theorem childAddr_add_size_le_childAddr {i j : Fin (n + 1)} (hij : i < j) :
    childAddr fs a i + (fs i).size ≤ childAddr fs a j := by
  have h : ∑ l ∈ insert i (Finset.Iio i), (fs l).size ≤ ∑ l ∈ Finset.Iio j, (fs l).size := by
    apply Finset.sum_le_sum_of_subset
    intro l hl
    rcases Finset.mem_insert.mp hl with rfl | hl
    · exact Finset.mem_Iio.mpr hij
    · exact Finset.mem_Iio.mpr ((Finset.mem_Iio.mp hl).trans hij)
  rw [Finset.sum_insert (by simp)] at h
  unfold childAddr
  omega

/-- Children do not overlap: an address belongs to at most one of them. -/
theorem childAddr_inj {i j : Fin (n + 1)} {x : ℕ}
    (hi : childAddr fs a i ≤ x) (hi' : x < childAddr fs a i + (fs i).size)
    (hj : childAddr fs a j ≤ x) (hj' : x < childAddr fs a j + (fs j).size) : i = j := by
  rcases lt_trichotomy i j with h | h | h
  · have := childAddr_add_size_le_childAddr fs a h
    omega
  · exact h
  · have := childAddr_add_size_le_childAddr fs a h
    omega

end Node

end Orizzonte
