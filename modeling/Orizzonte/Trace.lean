/-
Orizzonte/Trace.lean

What can be observed of a run: the calls of leaves, of `then` and of `cleanup`, the
submissions, in order.  A run observes each of them at most once, and a complete
run exactly once (`observed_le`, `observed_perm`): the lists `Node.collect` makes
of a graph say beforehand which ones, without looking at the run.

`State.drive` runs a schedule, so that a run on a concrete graph can be computed.
-/
import Orizzonte.Runs

namespace Orizzonte

open Lts

universe u v

variable {α : Type u} {β γ : Type*}

/-! ### Observations -/

def Event.leafCall? : Event α → Option (ℕ × Value α)
  | leafCall a x => some (a, x)
  | _ => none

def Event.leafRet? : Event α → Option (ℕ × Value α)
  | leafRet a y => some (a, y)
  | _ => none

def Event.thenArg? : Event α → Option (Value α)
  | thenCall x => some x
  | _ => none

def Event.cleanup? : Event α → Option ℕ
  | cleanup a => some a
  | _ => none

def Event.submit? : Event α → Option (ℕ × ℕ)
  | submit a i _ => some (a, i)
  | _ => none

def Event.seqExec? : Event α → Option ℕ
  | seqExec b => some b
  | _ => none

def Event.construct? : Event α → Option ℕ
  | construct a => some a
  | _ => none

def Event.destroy? : Event α → Option ℕ
  | destroy a => some a
  | _ => none

/-- `fetch_sub` on the node at `a`: the child, and the value returned. -/
def Event.fetchSub? (a : ℕ) : Event α → Option (ℕ × ℤ)
  | fetchSub b _ i r => if b = a then some (i, r) else none
  | _ => none

def Event.countDown? : Event α → Option (Option ℕ)
  | countDown o => some o
  | _ => none

/-- What a run shows through `f`, in order. -/
def observed (f : Event α → Option β) (τ : List (ℕ × Event α)) : List β :=
  τ.filterMap fun l => f l.2

/-- Calls of leaf callables, with their arguments. -/
def leafCalls : List (ℕ × Event α) → List (ℕ × Value α) := observed Event.leafCall?

/-- Returns of leaf callables, with their results. -/
def leafReturns : List (ℕ × Event α) → List (ℕ × Value α) := observed Event.leafRet?

/-- Calls of the user's `then`. -/
def thenCalls : List (ℕ × Event α) → List (Value α) := observed Event.thenArg?

/-- Calls of `cleanup`, by the any node that makes them. -/
def cleanups : List (ℕ × Event α) → List ℕ := observed Event.cleanup?

/-- Calls of the scheduler, by node and child. -/
def submissions : List (ℕ × Event α) → List (ℕ × ℕ) := observed Event.submit?

/-- Executions of the `seq` nodes. -/
def seqExecs : List (ℕ × Event α) → List ℕ := observed Event.seqExec?

/-- Executions of the all and any nodes, each of which begins with `construct`. -/
def constructs : List (ℕ × Event α) → List ℕ := observed Event.construct?

def destroys : List (ℕ × Event α) → List ℕ := observed Event.destroy?

/-- The calls of `fetch_sub` on the node at `a`. -/
def fetchSubs (a : ℕ) : List (ℕ × Event α) → List (ℕ × ℤ) := observed (Event.fetchSub? a)

/-- Calls of `count_down`, by the lambda of `sync_execute` that makes them. -/
def countDowns : List (ℕ × Event α) → List (Option ℕ) := observed Event.countDown?

@[simp] theorem observed_nil (f : Event α → Option β) : observed f [] = [] := rfl

@[simp] theorem observed_append (f : Event α → Option β) (τ σ : List (ℕ × Event α)) :
    observed f (τ ++ σ) = observed f τ ++ observed f σ := by
  simp [observed]

theorem map_observed (f : Event α → Option β) (g : β → γ) (τ : List (ℕ × Event α)) :
    (observed f τ).map g = observed (fun e => (f e).map g) τ := by
  simp [observed, List.map_filterMap]

/-! ### What a graph shows -/

/-- What `f` lists at each node of a graph. -/
def Node.collect (f : Node α → ℕ → List β) : Node α → ℕ → List β
  | leaf t r g, a => f (leaf t r g) a
  | seq A B, a => f (seq A B) a ++ (A.collect f a ++ B.collect f (a + A.size))
  | @fork _ k n fs, a =>
      f (fork k fs) a ++ (List.finRange (n + 1)).flatMap fun i =>
        (fs i).collect f (childAddr fs a i)

/-- The leaves of a graph. -/
def Node.leafAddrs : Node α → ℕ → List ℕ :=
  collect fun g a => match g with
    | leaf _ _ _ => [a]
    | _ => []

/-- The `seq` nodes of a graph, by the address of their second part. -/
def Node.seqAddrs : Node α → ℕ → List ℕ :=
  collect fun g a => match g with
    | seq A _ => [a + A.size]
    | _ => []

/-- The all and any nodes of a graph. -/
def Node.forkAddrs : Node α → ℕ → List ℕ :=
  collect fun g a => match g with
    | fork _ _ => [a]
    | _ => []

/-- The all and any nodes of a graph, with their arity. -/
def Node.forks : Node α → ℕ → List (ℕ × ℕ) :=
  collect fun g a => match g with
    | @fork _ _ n _ => [(a, n + 1)]
    | _ => []

/-- The any nodes of a graph. -/
def Node.anyAddrs : Node α → ℕ → List ℕ :=
  collect fun g a => match g with
    | fork .any _ => [a]
    | _ => []

/-- The children that are submitted: all but the last one of each all or any node. -/
def Node.tasks : Node α → ℕ → List (ℕ × ℕ) :=
  collect fun g a => match g with
    | @fork _ _ n _ => (List.finRange n).map fun i : Fin n => (a, (i : ℕ))
    | _ => []

theorem Node.map_collect (f : Node α → ℕ → List β) (h : β → γ) (g : Node α) (a : ℕ) :
    (g.collect f a).map h = g.collect (fun g a => (f g a).map h) a := by
  induction g generalizing a with
  | leaf => rfl
  | seq A B ihA ihB => simp only [collect, List.map_append, ihA, ihB]
  | fork k fs ih => simp only [collect, List.map_append, List.map_flatMap, ih]

/-- A graph lists what its calls list. -/
theorem Node.collect_eq_flatMap {D : Type*} (out : Node α → ℕ → D → D)
    (f : Node α → ℕ → List β) (g : Node α) (a : ℕ) (K : Cont α) (d : D) :
    g.collect f a = (g.sites out a K d).flatMap fun x => f x.node x.addr := by
  induction g generalizing a K d with
  | leaf => simp [collect, sites]
  | seq A B ihA ihB =>
      simp only [collect, sites, List.flatMap_cons, List.flatMap_append, ← ihA, ← ihB]
  | fork k fs ih => simp only [collect, sites, List.flatMap_cons, List.flatMap_assoc, ← ih]

/-- What is listed at a node is listed within the addresses of the graph. -/
theorem Node.mem_range_of_mem_collect (loc : β → ℕ) {f : Node α → ℕ → List β}
    (hf : ∀ g a, ∀ y ∈ f g a, loc y = a) {g : Node α} {a : ℕ} {y : β} (h : y ∈ g.collect f a) :
    a ≤ loc y ∧ loc y < a + g.size := by
  have hown : ∀ (g : Node α) (a : ℕ), y ∈ f g a → a ≤ loc y ∧ loc y < a + g.size := by
    intro g a hy
    rw [hf g a y hy]
    exact ⟨le_rfl, Nat.lt_add_of_pos_right g.size_pos⟩
  induction g generalizing a with
  | leaf => exact hown _ a h
  | seq A B ihA ihB =>
      rcases List.mem_append.mp h with h | h
      · exact hown _ a h
      · rw [size]
        rcases List.mem_append.mp h with h | h
        · have := ihA h
          omega
        · have := ihB h
          omega
  | fork k fs ih =>
      rcases List.mem_append.mp h with h | h
      · exact hown _ a h
      · obtain ⟨i, -, h⟩ := List.mem_flatMap.mp h
        have hi := ih i h
        have hlo := lt_childAddr fs a i
        have hhi := childAddr_add_size_le fs a k i
        omega

theorem Node.mem_range_of_mem_forks {g : Node α} {a p N : ℕ} (h : (p, N) ∈ g.forks a) :
    a ≤ p ∧ p < a + g.size := by
  apply mem_range_of_mem_collect Prod.fst _ h
  intro g a y hy
  cases g with
  | fork k fs => rw [List.mem_singleton.mp hy]
  | _ => exact absurd hy List.not_mem_nil

theorem Node.mem_range_of_mem_anyAddrs {g : Node α} {a b : ℕ} (h : b ∈ g.anyAddrs a) :
    a ≤ b ∧ b < a + g.size := by
  apply mem_range_of_mem_collect id _ h
  intro g a y hy
  cases g with
  | fork k fs =>
      cases k with
      | all => exact absurd hy List.not_mem_nil
      | any => exact List.mem_singleton.mp hy
  | _ => exact absurd hy List.not_mem_nil

/-- A weight that lists what `f` lists at each node. -/
theorem Node.weight_obs {w : Ob → Multiset β} {f : Node α → ℕ → List β}
    (h : ∀ g a, ((g.own a).map w).sum = (f g a : Multiset β)) (g : Node α) (a : ℕ) :
    ((g.obs a).map w).sum = (g.collect f a : Multiset β) := by
  rw [obs_eq_sum_own (fun _ _ _ => ()) g a .root (),
    collect_eq_flatMap (fun _ _ _ => ()) f g a .root (), Tally.coe_flatMap, Tally.sum_map_sum]
  simp only [h]

/-! ### Runs show what the graph lists -/

section Observed

variable {G : Node α} {s : State α} {m : Mem α} {x : Value α} {τ : List (ℕ × Event α)}
  {w : Ob → Multiset β} {f : Event α → Option β} {l : List β}

theorem sum_weight_eq_observed (hf : ∀ e, e.weight w = ((f e).toList : Multiset β))
    (τ : List (ℕ × Event α)) : (τ.map fun l => l.2.weight w).sum = (observed f τ : Multiset β) := by
  induction τ with
  | nil => rfl
  | cons e τ ih =>
      rw [List.map_cons, List.sum_cons, ih, hf]
      unfold observed
      rw [List.filterMap_cons]
      cases f e.2 <;> simp

/-- What a run has shown and what it will show is what the graph lists. -/
theorem observed_add_owed (hw : ∀ q, w (.read q) = 0)
    (hf : ∀ e, e.weight w = ((f e).toList : Multiset β))
    (hl : (G.total.map w).sum = (l : Multiset β)) (hm : m.Unengaged)
    (hr : Run Step (State.start G m x) τ s) :
    (observed f τ : Multiset β) + ((s.owed G).map w).sum = (l : Multiset β) := by
  rw [← hl, conserve w hw hm hr, sum_weight_eq_observed hf]

/-- At every point of a run, nothing was shown that the graph does not list, and nothing
more often. -/
theorem observed_le (hw : ∀ q, w (.read q) = 0)
    (hf : ∀ e, e.weight w = ((f e).toList : Multiset β))
    (hl : (G.total.map w).sum = (l : Multiset β)) (hm : m.Unengaged)
    (hr : Run Step (State.start G m x) τ s) : (observed f τ).Subperm l := by
  rw [← Multiset.coe_le, ← observed_add_owed hw hf hl hm hr]
  exact Multiset.le_add_right _ _

theorem owed_eq_zero_of_stuck (hm : m.Unengaged) (hr : Run Step (State.start G m x) τ s)
    (hs : Stuck Step s) : s.owed G = 0 :=
  (Inv.reached hm hr).obs_eq_zero ((Inv.reached hm hr).stuck_iff.mp hs)

/-- A complete run has shown all that the graph lists. -/
theorem observed_perm (hw : ∀ q, w (.read q) = 0)
    (hf : ∀ e, e.weight w = ((f e).toList : Multiset β))
    (hl : (G.total.map w).sum = (l : Multiset β)) (hm : m.Unengaged)
    (hr : Run Step (State.start G m x) τ s) (hs : Stuck Step s) : (observed f τ).Perm l := by
  have h := observed_add_owed hw hf hl hm hr
  rw [owed_eq_zero_of_stuck hm hr hs, Multiset.map_zero, Multiset.sum_zero, add_zero] at h
  exact Multiset.coe_eq_coe.mp h

end Observed

/-! ### The weights of the observations -/

/-- The weight that shows the obligations `q` selects. -/
def Ob.shown (q : Ob → Option β) (o : Ob) : Multiset β := ((q o).toList : Multiset β)

def Ob.leafCall? : Ob → Option ℕ
  | leafCall a => some a
  | _ => none

def Ob.leafRet? : Ob → Option ℕ
  | leafRet a => some a
  | _ => none

def Ob.seqExec? : Ob → Option ℕ
  | seqExec b => some b
  | _ => none

def Ob.construct? : Ob → Option ℕ
  | construct a => some a
  | _ => none

def Ob.submit? : Ob → Option (ℕ × ℕ)
  | submit a i => some (a, i)
  | _ => none

def Ob.cleanup? : Ob → Option ℕ
  | cleanup a => some a
  | _ => none

def Ob.thenCall? : Ob → Option Unit
  | thenCall => some ()
  | _ => none

def Ob.countDown? : Ob → Option (Option ℕ)
  | countDown o => some o
  | _ => none

/-- A weight that no action of a child's continuation or task has, as seen at a node. -/
theorem Join.sum_own {M : Type*} [AddCommMonoid M] (w : Ob → M) (k : Join) (a n : ℕ) :
    ((k.own a n).map w).sum = w (.construct a) + ((k.firstObs a).map w).sum +
      ((k.lastObs a).map w).sum + ∑ i : Fin (n + 1),
        ((if (i : ℕ) < n then w (.submit a i) + w (.schedRet a i) else 0) +
          (w (.inputRead a i) + ((k.childObs a i).map w).sum)) := by
  simp only [own, Multiset.map_add, Multiset.sum_add, Tally.weight_sum, Multiset.map_singleton,
    Multiset.sum_singleton, add_assoc]
  congr 3
  apply Finset.sum_congr rfl
  intro i _
  split_ifs <;> simp

section Weights

variable (G : Node α) (a : ℕ)

theorem Node.shown_leafCall :
    ((G.obs a).map (Ob.shown Ob.leafCall?)).sum = (G.leafAddrs a : Multiset ℕ) := by
  refine Node.weight_obs (fun g a => ?_) G a
  cases g with
  | leaf | seq => simp [Ob.shown, Ob.leafCall?]
  | fork k fs =>
      cases k <;> simp [Join.sum_own, Ob.shown, Ob.leafCall?, Join.firstObs, Join.lastObs,
        Join.childObs]

theorem Node.shown_leafRet :
    ((G.obs a).map (Ob.shown Ob.leafRet?)).sum = (G.leafAddrs a : Multiset ℕ) := by
  refine Node.weight_obs (fun g a => ?_) G a
  cases g with
  | leaf | seq => simp [Ob.shown, Ob.leafRet?]
  | fork k fs =>
      cases k <;> simp [Join.sum_own, Ob.shown, Ob.leafRet?, Join.firstObs, Join.lastObs,
        Join.childObs]

theorem Node.shown_seqExec :
    ((G.obs a).map (Ob.shown Ob.seqExec?)).sum = (G.seqAddrs a : Multiset ℕ) := by
  refine Node.weight_obs (fun g a => ?_) G a
  cases g with
  | leaf | seq => simp [Ob.shown, Ob.seqExec?]
  | fork k fs =>
      cases k <;> simp [Join.sum_own, Ob.shown, Ob.seqExec?, Join.firstObs, Join.lastObs,
        Join.childObs]

theorem Node.shown_construct :
    ((G.obs a).map (Ob.shown Ob.construct?)).sum = (G.forkAddrs a : Multiset ℕ) := by
  refine Node.weight_obs (fun g a => ?_) G a
  cases g with
  | leaf | seq => simp [Ob.shown, Ob.construct?]
  | fork k fs =>
      cases k <;> simp [Join.sum_own, Ob.shown, Ob.construct?, Join.firstObs, Join.lastObs,
        Join.childObs]

theorem Node.shown_cleanup :
    ((G.obs a).map (Ob.shown Ob.cleanup?)).sum = (G.anyAddrs a : Multiset ℕ) := by
  refine Node.weight_obs (fun g a => ?_) G a
  cases g with
  | leaf | seq => simp [Ob.shown, Ob.cleanup?]
  | fork k fs =>
      cases k <;> simp [Join.sum_own, Ob.shown, Ob.cleanup?, Join.firstObs, Join.lastObs,
        Join.childObs]

theorem Node.shown_countDown :
    ((G.obs a).map (Ob.shown Ob.countDown?)).sum = ((G.anyAddrs a).map some : Multiset _) := by
  rw [anyAddrs, map_collect]
  refine Node.weight_obs (fun g a => ?_) G a
  cases g with
  | leaf | seq => simp [Ob.shown, Ob.countDown?]
  | fork k fs =>
      cases k <;> simp [Join.sum_own, Ob.shown, Ob.countDown?, Join.firstObs, Join.lastObs,
        Join.childObs]

theorem Node.shown_submit :
    ((G.obs a).map (Ob.shown Ob.submit?)).sum = (G.tasks a : Multiset _) := by
  refine Node.weight_obs (fun g a => ?_) G a
  cases g with
  | leaf | seq => simp [Ob.shown, Ob.submit?]
  | @fork k n fs =>
      have hw : ∀ i : Fin (n + 1), ((k.childObs a i).map (Ob.shown Ob.submit?)).sum = 0 := by
        intro i
        cases k <;> simp [Ob.shown, Ob.submit?, Join.childObs]
      have hfst : ((k.firstObs a).map (Ob.shown Ob.submit?)).sum = 0 := by
        cases k <;> simp [Ob.shown, Ob.submit?, Join.firstObs]
      have hlst : ((k.lastObs a).map (Ob.shown Ob.submit?)).sum = 0 := by
        cases k <;> simp [Ob.shown, Ob.submit?, Join.lastObs]
      have hfin : (((List.finRange n).map fun i : Fin n => (a, (i : ℕ)) : List _) :
          Multiset (ℕ × ℕ)) = ∑ i : Fin n, {(a, (i : ℕ))} := by
        rw [List.map_eq_flatMap, Tally.coe_flatMap, Tally.sum_finRange]
        rfl
      refine Eq.trans ?_ hfin.symm
      simp only [own_fork, Join.sum_own, hw, hfst, hlst, Fin.sum_univ_castSucc]
      simp [Ob.shown, Ob.submit?]

end Weights

/-! ### What runs of a graph show -/

section Shown

variable (G : Node α)

theorem Node.total_shown {q : Ob → Option β} {l : List β}
    (h : ((G.obs 0).map (Ob.shown q)).sum = (l : Multiset β)) (h₁ : q .thenCall = none)
    (h₂ : q .thenRet = none) (h₃ : q (.countDown none) = none) :
    (G.total.map (Ob.shown q)).sum = (l : Multiset β) := by
  simp [total, Cont.obs, h, Ob.shown, h₁, h₂, h₃]

theorem Node.total_countDown : (G.total.map (Ob.shown Ob.countDown?)).sum =
    (none :: (G.anyAddrs 0).map some : List (Option ℕ)) := by
  rw [total, Multiset.map_add, Multiset.sum_add, G.shown_countDown 0]
  simp [Cont.obs, Ob.shown, Ob.countDown?, add_comm]

theorem Node.total_thenCall : (G.total.map (Ob.shown Ob.thenCall?)).sum = ([()] : List Unit) := by
  have h : ((G.obs 0).map (Ob.shown Ob.thenCall?)).sum = 0 := by
    apply Multiset.sum_eq_zero
    intro y hy
    obtain ⟨o, ho, rfl⟩ := Multiset.mem_map.mp hy
    have hw := G.within_of_mem_obs ho
    cases o <;> first | rfl | exact hw.elim
  simp [total, h, Cont.obs, Ob.shown, Ob.thenCall?]

variable {G} {s : State α} {m : Mem α} {x : Value α} {τ : List (ℕ × Event α)}
  (hm : m.Unengaged) (hr : Run Step (State.start G m x) τ s)

include hm hr

theorem thenCalls_length_le : (thenCalls τ).length ≤ 1 := by
  have h := observed_le (f := fun e => (Event.thenArg? e).map fun _ => ()) (fun _ => rfl)
    (fun e => by cases e <;> rfl) G.total_thenCall hm hr
  rw [← map_observed] at h
  simpa [thenCalls] using h.length_le

theorem thenCalls_length (hs : Stuck Step s) : (thenCalls τ).length = 1 := by
  have h := observed_perm (f := fun e => (Event.thenArg? e).map fun _ => ()) (fun _ => rfl)
    (fun e => by cases e <;> rfl) G.total_thenCall hm hr hs
  rw [← map_observed] at h
  simpa [thenCalls] using h.length_eq

theorem cleanups_subperm : (cleanups τ).Subperm (G.anyAddrs 0) :=
  observed_le (fun _ => rfl) (fun e => by cases e <;> rfl)
    (G.total_shown (G.shown_cleanup 0) rfl rfl rfl) hm hr

theorem cleanups_perm (hs : Stuck Step s) : (cleanups τ).Perm (G.anyAddrs 0) :=
  observed_perm (fun _ => rfl) (fun e => by cases e <;> rfl)
    (G.total_shown (G.shown_cleanup 0) rfl rfl rfl) hm hr hs

theorem submissions_subperm : (submissions τ).Subperm (G.tasks 0) :=
  observed_le (fun _ => rfl) (fun e => by cases e <;> rfl)
    (G.total_shown (G.shown_submit 0) rfl rfl rfl) hm hr

theorem submissions_perm (hs : Stuck Step s) : (submissions τ).Perm (G.tasks 0) :=
  observed_perm (fun _ => rfl) (fun e => by cases e <;> rfl)
    (G.total_shown (G.shown_submit 0) rfl rfl rfl) hm hr hs

end Shown

/-- `cleanup_count()` is the number of any nodes. -/
theorem Node.length_anyAddrs (G : Node α) (a : ℕ) : (G.anyAddrs a).length = G.cleanupCount := by
  unfold anyAddrs
  induction G generalizing a with
  | leaf => rfl
  | seq A B ihA ihB => simp [collect, cleanupCount, ihA, ihB]
  | fork k fs ih =>
      cases k <;>
        simp [collect, cleanupCount, ih, List.length_flatMap, Tally.sum_finRange, add_comm]

/-! ### Computing a run -/

/-- One entry of a schedule: which thread moves, and how the choices fall. -/
def State.next (s : State α) (tc : ℕ × Choice α) : Option ((ℕ × Event α) × State α) :=
  match s.step tc.1 tc.2 with
  | some (.ok (e, s')) => some ((tc.1, e), s')
  | _ => none

/-- Run a schedule. -/
def State.drive (s : State α) (sched : List (ℕ × Choice α)) :
    Option (List (ℕ × Event α) × State α) :=
  Lts.drive State.next s sched

theorem run_of_drive {s s' : State α} {τ : List (ℕ × Event α)} {sched : List (ℕ × Choice α)}
    (h : s.drive sched = some (τ, s')) : Run Step s τ s' := by
  refine Lts.run_of_drive (fun u tc l u' hnext => ?_) h
  unfold State.next at hnext
  split at hnext
  · rename_i e v hstep
    cases hnext
    exact ⟨tc.2, hstep⟩
  · cases hnext

/-- Two leaves that race, the second one on the calling thread. -/
def race : Node ℕ :=
  .any ![.leaf (.obj 0) false fun _ => some (.obj 1), .leaf (.obj 0) false fun _ => some (.obj 2)]

/-- The race in which the calling thread wins and returns before the other starts. -/
def raceRun : List (ℕ × Event ℕ) × State ℕ :=
  ((State.syncExecute race Mem.fresh).drive
    (List.replicate 12 (0, default) ++ List.replicate 8 (1, default))).getD default

theorem run_raceRun : Run Step (State.start race Mem.fresh .nothing) raceRun.1 raceRun.2 :=
  @run_of_drive _ _ _ _ (List.replicate 12 (0, default) ++ List.replicate 8 (1, default)) rfl

theorem stuck_raceRun : Stuck Step raceRun.2 :=
  stuck_of_replicate (show raceRun.2.threads = List.replicate 2 [] from rfl)

end Orizzonte
