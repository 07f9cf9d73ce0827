/-
Orizzonte/Termination.lean

How long a run is, and what a complete run has done.  Every step takes exactly one
unit off `State.remaining`, a count of the obligations and of the results that are
still to be dropped, so all complete runs of a graph have the same length
(`complete_once`), whichever children win the races.  A complete run calls every
leaf once, executes every other node once and calls the scheduler once for each
child that is not the last one of its node.
-/
import Orizzonte.Latch

namespace Orizzonte

open Lts

universe u

variable {α : Type u}

/-! ### The number of steps -/

/-- Steps an obligation stands for.  The return of a leaf brings the destruction of its
result with it. -/
def Ob.steps : Ob → ℕ
  | read _ => 0
  | leafRet _ => 2
  | _ => 1

/-- Number of steps of an execution of a graph. -/
def Node.work : Node α → ℕ
  | leaf _ _ _ => 3
  | seq A B => 1 + (A.work + B.work)
  | @fork _ .all n fs => 5 * n + 5 + ∑ i, (fs i).work
  | @fork _ .any n fs => 4 * n + 7 + ∑ i, (fs i).work

theorem Join.steps_own (k : Join) (a n : ℕ) : ((k.own a n).map Ob.steps).sum =
    match k with
    | all => 5 * n + 5
    | any => 4 * n + 7 := by
  cases k <;> rw [sum_own, Fin.sum_univ_castSucc] <;>
    simp [Ob.steps, firstObs, lastObs, childObs] <;> omega

theorem Node.steps_obs (g : Node α) (a : ℕ) : ((g.obs a).map Ob.steps).sum = g.work := by
  induction g generalizing a with
  | leaf => simp [obs, work, Ob.steps]
  | seq A B ihA ihB => simp [obs, work, ihA, ihB, Ob.steps]
  | fork k fs ih =>
      cases k <;> simp [obs_fork_own, work, Join.steps_own, Tally.weight_sum, ih]

/-- Results of leaves that a frame holds. -/
def Frame.temps : Frame α → ℕ
  | leafTemp _ _ => 1
  | _ => 0

def stackTemps (st : List (Frame α)) : ℕ := (st.map Frame.temps).sum

/-- Results of leaves that are alive. -/
def State.temps (s : State α) : ℕ := (s.threads.map stackTemps).sum

@[simp] theorem Cont.invoke_temps (K : Cont α) (out : Src α) : (K.invoke out).temps = 0 := by
  cases K with
  | joinK k => cases k <;> rfl
  | _ => rfl

@[simp] theorem scheduleIfLast_temps (k : Join) (a : ℕ) {n : ℕ} (fs : Fin (n + 1) → Node α)
    (i : Fin (n + 1)) (K : Cont α) : (scheduleIfLast k a fs i K).temps = 0 := by
  unfold scheduleIfLast
  split <;> rfl

/-- A step is one step. -/
theorem Fires.steps {m : Mem α} {c : Choice α} {fr : Frame α} {o : Outcome α}
    (hf : Fires m c fr o) :
    o.event.weight Ob.steps + fr.temps = 1 + (stackTemps o.frames + stackTemps o.spawned) := by
  cases hf with
  | allFetchSub a n i K | anyFetchSub a n i t out K =>
      simp only [Event.weight, Event.discharges, stackTemps]
      split_ifs <;> simp [Ob.steps, Frame.temps]
  | _ =>
      simp only [Event.weight, stackTemps, List.map_cons, List.map_nil, List.sum_cons,
        List.sum_nil, Cont.invoke_temps, scheduleIfLast_temps]
      simp [Event.discharges, Ob.steps, Frame.temps]

theorem State.temps_after {s : State α} {t : ℕ} {fr : Frame α} {rest : List (Frame α)}
    {o : Outcome α} (ht : s.threads[t]? = some (fr :: rest)) :
    (s.after t rest o).temps + fr.temps =
      s.temps + (stackTemps o.frames + stackTemps o.spawned) := by
  have hset := Tally.sum_map_set stackTemps ht (o.frames ++ rest)
  have hsp : (o.spawned.map fun fr => stackTemps [fr]).sum = stackTemps o.spawned := by
    simp [stackTemps]
  have happ : stackTemps (o.frames ++ rest) = stackTemps o.frames + stackTemps rest := by
    simp [stackTemps]
  have hcons : stackTemps (fr :: rest) = fr.temps + stackTemps rest := by
    simp [stackTemps]
  rw [happ, hcons] at hset
  simp only [temps, after, List.map_append, List.map_map, List.sum_append, Function.comp_def, hsp]
  omega

/-- Steps that are left in a state of a run of `G`. -/
def State.remaining (G : Node α) (s : State α) : ℕ := ((s.owed G).map Ob.steps).sum + s.temps

variable {G : Node α} {s s' : State α} {m : Mem α} {x : Value α} {τ : List (ℕ × Event α)}

theorem Inv.remaining_step (h : Inv Flow.trivial G s) {t : ℕ} {e : Event α}
    (hs : Step s (t, e) s') : s.remaining G = s'.remaining G + 1 := by
  have hc := h.conserve_step Ob.steps hs fun _ => rfl
  obtain ⟨c, fr, rest, o, ht, hf, rfl, rfl⟩ := step_iff.mp hs
  have hsteps := hf.steps
  have htemps := State.temps_after (o := o) ht
  unfold State.remaining State.owed
  omega

theorem remaining_start (hm : m.Unengaged) : (State.start G m x).remaining G = G.work + 3 := by
  have htotal : (G.total.map Ob.steps).sum = G.work + 3 := by
    simp only [Node.total, Multiset.map_add, Multiset.sum_add, G.steps_obs, Cont.obs]
    rfl
  unfold State.remaining State.owed
  rw [State.obs_start hm, htotal]
  rfl

theorem length_add_remaining (hm : m.Unengaged) (hr : Run Step (State.start G m x) τ s) :
    τ.length + s.remaining G = G.work + 3 := by
  have h := hr.invariant
    (I := fun τ s => Inv Flow.trivial G s ∧ τ.length + s.remaining G = G.work + 3)
    ⟨Inv.start hm trivial, by simpa using remaining_start hm⟩ ?_
  · exact h.2
  · rintro σ u ⟨t, e⟩ u' - ⟨hu, hlen⟩ hstep
    refine ⟨(hu.step hstep trivial).1, ?_⟩
    have := hu.remaining_step hstep
    rw [List.length_append, List.length_singleton]
    omega

/-- Every state of a run has a run to a state where no step is left. -/
theorem exists_complete (hm : m.Unengaged) (hr : Run Step (State.start G m x) τ s) :
    ∃ σ s', Run Step s σ s' ∧ Stuck Step s' := by
  refine exists_run_to_stuck (I := Inv Flow.trivial G) (μ := State.remaining G)
    (fun u l u' hu hl => (hu.step (t := l.1) hl trivial).1) (fun u l u' hu hl => ?_)
    (Inv.reached hm hr)
  have := hu.remaining_step (t := l.1) hl
  omega

/-! ### What a complete run has done -/

/-- Calls of the scheduler: one less than the arity of each all or any node. -/
def Node.submitCount : Node α → ℕ
  | leaf _ _ _ => 0
  | seq A B => A.submitCount + B.submitCount
  | @fork _ _ n fs => n + ∑ i, (fs i).submitCount

theorem Node.length_tasks (G : Node α) (a : ℕ) : (G.tasks a).length = G.submitCount := by
  unfold tasks
  induction G generalizing a with
  | leaf => rfl
  | seq A B ihA ihB => simp [collect, submitCount, ihA, ihB]
  | fork k fs ih => simp [collect, submitCount, ih, List.length_flatMap, Tally.sum_finRange]

theorem Ob.sum_shown {β : Type*} (q : Ob → Option β) (O : Multiset Ob) :
    (O.map (Ob.shown q)).sum = O.filterMap q := by
  induction O using Multiset.induction with
  | empty => rfl
  | cons o O ih =>
      rw [Multiset.map_cons, Multiset.sum_cons, ih, Multiset.filterMap_cons, shown]
      cases q o <;> rfl

/-- The nodes a graph lists have different addresses. -/
theorem Node.nodup_of_shown {β : Type*} {q : Ob → Option β} {a : ℕ} {l : List β}
    (hq : ∀ o o' b, b ∈ q o → b ∈ q o' → o = o')
    (h : ((G.obs a).map (Ob.shown q)).sum = (l : Multiset β)) : l.Nodup := by
  rw [Ob.sum_shown] at h
  exact Multiset.coe_nodup.mp (h ▸ (G.nodup_obs a).filterMap q hq)

theorem Node.nodup_leafAddrs (G : Node α) (a : ℕ) : (G.leafAddrs a).Nodup :=
  Node.nodup_of_shown (fun o o' _ h h' => by cases o <;> cases h; cases o' <;> cases h'; rfl)
    (G.shown_leafCall a)

theorem Node.nodup_seqAddrs (G : Node α) (a : ℕ) : (G.seqAddrs a).Nodup :=
  Node.nodup_of_shown (fun o o' _ h h' => by cases o <;> cases h; cases o' <;> cases h'; rfl)
    (G.shown_seqExec a)

theorem Node.nodup_forkAddrs (G : Node α) (a : ℕ) : (G.forkAddrs a).Nodup :=
  Node.nodup_of_shown (fun o o' _ h h' => by cases o <;> cases h; cases o' <;> cases h'; rfl)
    (G.shown_construct a)

/-- A complete run has called every leaf. -/
theorem leafCalls_addrs_perm (hm : m.Unengaged) (hr : Run Step (State.start G m x) τ s)
    (hs : Stuck Step s) : ((leafCalls τ).map Prod.fst).Perm (G.leafAddrs 0) := by
  have h := observed_perm (f := fun e => (Event.leafCall? e).map Prod.fst) (fun _ => rfl)
    (fun e => by cases e <;> rfl) (G.total_shown (G.shown_leafCall 0) rfl rfl rfl) hm hr hs
  rwa [← map_observed] at h

/-- **Every run of `execute` terminates, and does all its work once.**  No run is longer
than `G.work + 3` steps, and every run can be completed.  A complete run has exactly that
many steps, has called each leaf and executed each `seq`, all and any node once, and has
called the scheduler once for all children but the last of each all or any node. -/
theorem complete_once (hm : m.Unengaged) (hr : Run Step (State.start G m x) τ s) :
    τ.length ≤ G.work + 3 ∧ (∃ σ s', Run Step s σ s' ∧ Stuck Step s') ∧
    (Stuck Step s → τ.length = G.work + 3 ∧
      (((leafCalls τ).map Prod.fst).Nodup ∧ ((leafCalls τ).map Prod.fst).Perm (G.leafAddrs 0)) ∧
      ((seqExecs τ).Nodup ∧ (seqExecs τ).Perm (G.seqAddrs 0)) ∧
      ((constructs τ).Nodup ∧
        (constructs τ).Perm (G.forkAddrs 0)) ∧
      (submissions τ).length = G.submitCount) := by
  have hlen := length_add_remaining hm hr
  refine ⟨by omega, exists_complete hm hr, fun hs => ?_⟩
  -- nothing is left of the bound
  have hzero : s.remaining G = 0 := by
    have hreturned := (Inv.reached hm hr).stuck_iff.mp hs
    have htemps : s.temps = 0 := by
      apply List.sum_eq_zero
      intro y hy
      obtain ⟨st, hst, rfl⟩ := List.mem_map.mp hy
      rw [hreturned st hst]
      rfl
    rw [State.remaining, owed_eq_zero_of_stuck hm hr hs, htemps]
    rfl
  have hleaf := observed_perm (f := fun e => (Event.leafCall? e).map Prod.fst) (fun _ => rfl)
    (fun e => by cases e <;> rfl) (G.total_shown (G.shown_leafCall 0) rfl rfl rfl) hm hr hs
  rw [← map_observed] at hleaf
  have hseq := observed_perm (f := Event.seqExec?) (fun _ => rfl) (fun e => by cases e <;> rfl)
    (G.total_shown (G.shown_seqExec 0) rfl rfl rfl) hm hr hs
  have hfork := observed_perm (f := Event.construct?) (fun _ => rfl) (fun e => by cases e <;> rfl)
    (G.total_shown (G.shown_construct 0) rfl rfl rfl) hm hr hs
  refine ⟨by omega, ⟨hleaf.nodup_iff.mpr (G.nodup_leafAddrs 0), hleaf⟩,
    ⟨hseq.nodup_iff.mpr (G.nodup_seqAddrs 0), hseq⟩,
    ⟨hfork.nodup_iff.mpr (G.nodup_forkAddrs 0), hfork⟩, ?_⟩
  rw [← G.length_tasks 0]
  exact (submissions_perm hm hr hs).length_eq

theorem complete_once_race :
    (raceRun.1.length ≤ race.work + 3 ∧ ∃ σ s', Run Step raceRun.2 σ s' ∧ Stuck Step s') ∧
    raceRun.1.length = race.work + 3 ∧
    (((leafCalls raceRun.1).map Prod.fst).Nodup ∧
      ((leafCalls raceRun.1).map Prod.fst).Perm (race.leafAddrs 0)) ∧
    ((seqExecs raceRun.1).Nodup ∧ (seqExecs raceRun.1).Perm (race.seqAddrs 0)) ∧
    ((constructs raceRun.1).Nodup ∧ (constructs raceRun.1).Perm (race.forkAddrs 0)) ∧
    (submissions raceRun.1).length = race.submitCount := by
  obtain ⟨hlen, hex, hcomplete⟩ := complete_once Mem.fresh_unengaged run_raceRun
  exact ⟨⟨hlen, hex⟩, hcomplete stuck_raceRun⟩

end Orizzonte
