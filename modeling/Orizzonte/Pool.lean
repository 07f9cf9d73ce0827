/-
Orizzonte/Pool.lean

Schedulers that submit each task to a thread pool.  The pool has `n` workers, which take
the tasks in the order of submission and run each of them to its end, so a task is at
work from when fewer than `n` of the tasks ahead of it have not returned.

A task never waits for another one: a pool of one worker is enough for every graph
(`pool_completes`), and a worker for each task is the same as a thread for each
(`run_pool_iff`).
-/
import Orizzonte.Lifetime

namespace Orizzonte

open Lts

universe u

variable {α : Type u}

/-- Thread `t` has not returned. -/
def State.Unfinished (s : State α) (t : ℕ) : Prop := (s.threads.getD t []).isEmpty = false

instance (s : State α) : DecidablePred s.Unfinished :=
  fun t => inferInstanceAs (Decidable ((s.threads.getD t []).isEmpty = false))

instance (e : Event α) : Decidable e.Concurrent :=
  match e with
  | .submit _ _ inline => inferInstanceAs (Decidable (inline = false))
  | .leafCall .. | .leafRet .. | .tempDrop .. | .seqExec .. | .construct .. | .schedRet ..
  | .inputRead .. | .slotWrite .. | .fetchSub .. | .variantWrite .. | .destroy .. | .cleanup ..
  | .thenCall .. | .thenRet | .countDown .. => .isTrue True.intro

/-- Tasks ahead of task `t` in the queue of the pool that have not returned.  Thread `0` is the
calling one. -/
def State.ahead (s : State α) (t : ℕ) : Finset ℕ := {u ∈ Finset.Ioo 0 t | s.Unfinished u}

/-- A step where the tasks run on a pool of `n` workers. -/
def PoolStep (n : ℕ) (s : State α) (l : ℕ × Event α) (s' : State α) : Prop :=
  Step s l s' ∧ l.2.Concurrent ∧ (l.1 ≠ 0 → (s.ahead l.1).card < n)

/-! ### Threads that have not returned -/

variable {s s' : State α} {t u n : ℕ} {l : ℕ × Event α} {σ : List (ℕ × Event α)}

theorem State.unfinished_iff :
    s.Unfinished t ↔ ∃ fr rest, s.threads[t]? = some (fr :: rest) := by
  unfold Unfinished
  rw [List.getD_eq_getElem?_getD]
  rcases h : s.threads[t]? with - | - | ⟨fr, rest⟩ <;> simp

theorem unfinished_of_step (h : Step s l s') : s.Unfinished l.1 := by
  obtain ⟨c, fr, rest, o, ht, -⟩ := step_iff.mp h
  exact State.unfinished_iff.mpr ⟨fr, rest, ht⟩

/-- A thread that has returned does not come back. -/
theorem unfinished_back (h : Step s l s') (hu : u < s.threads.length) (h' : s'.Unfinished u) :
    s.Unfinished u := by
  rcases l with ⟨t, e⟩
  obtain ⟨c, fr, rest, o, ht, hf, rfl, rfl⟩ := step_iff.mp h
  obtain ⟨fr', rest', hu'⟩ := State.unfinished_iff.mp h'
  rcases State.getElem?_after ht hu' with ⟨rfl, -⟩ | ⟨-, hold⟩ | ⟨hnew, -⟩
  · exact unfinished_of_step h
  · exact State.unfinished_iff.mpr ⟨fr', rest', hold⟩
  · omega

theorem length_threads_mono (h : Step s l s') : s.threads.length ≤ s'.threads.length := by
  rcases l with ⟨t, e⟩
  obtain ⟨c, fr, rest, o, ht, hf, rfl, rfl⟩ := step_iff.mp h
  simp [State.after]

/-- A thread with a step ahead of it has not returned. -/
theorem unfinished_of_mem (hr : Run Step s σ s') (hu : u < s.threads.length)
    (hmem : u ∈ σ.map Prod.fst) : s.Unfinished u := by
  suffices h : (u ∈ σ.map Prod.fst ∨ s'.Unfinished u) → s.Unfinished u from h (.inl hmem)
  suffices h : s.threads.length ≤ s'.threads.length ∧
      (u ∈ σ.map Prod.fst ∨ s'.Unfinished u → s.Unfinished u) from h.2
  clear hmem
  induction hr with
  | refl => exact ⟨le_rfl, fun h => h.resolve_left (by simp)⟩
  | @tail τ v l v' hr hstep ih =>
      obtain ⟨hlen, ih⟩ := ih
      refine ⟨hlen.trans (length_threads_mono hstep), fun h => ih ?_⟩
      rw [List.map_append, List.mem_append] at h
      rcases h with (h | h) | h
      · exact .inl h
      · obtain rfl : u = l.1 := by simpa using h
        exact .inr (unfinished_of_step hstep)
      · exact .inr (unfinished_back hstep (hu.trans_le hlen) h)

theorem State.card_ahead_lt (s : State α) (h : t ≠ 0) : (s.ahead t).card < t := by
  have hle := Finset.card_le_card (Finset.filter_subset s.Unfinished (Finset.Ioo 0 t))
  rw [Nat.card_Ioo] at hle
  exact lt_of_le_of_lt hle (by omega)

/-! ### Runs on a pool -/

theorem PoolStep.run (hr : Run (PoolStep n) s σ s') :
    Run Step s σ s' ∧ ∀ l ∈ σ, l.2.Concurrent := by
  induction hr with
  | refl => exact ⟨.refl, by simp⟩
  | tail _ hl ih =>
      refine ⟨ih.1.tail hl.1, fun l hmem => ?_⟩
      rcases List.mem_append.mp hmem with hmem | hmem
      · exact ih.2 l hmem
      · rw [List.mem_singleton.mp hmem]
        exact hl.2.1

/-- Tasks are taken in the order of submission. -/
theorem card_ahead_lt_of_run {σ₁ σ₂ : List (ℕ × Event α)}
    (hr : Run (PoolStep n) s (σ₁ ++ l :: σ₂) s') (hl : l.1 ≠ 0) :
    (Finset.Ioo 0 l.1 ∩ (σ₂.map Prod.fst).toFinset).card < n := by
  obtain ⟨v, -, hv⟩ := hr.split
  rw [← List.singleton_append] at hv
  obtain ⟨v', hstep, hv'⟩ := hv.split
  have hstep := Run.single_iff.mp hstep
  refine lt_of_le_of_lt (Finset.card_le_card fun u hu => ?_) (hstep.2.2 hl)
  obtain ⟨hu, hmem⟩ := Finset.mem_inter.mp hu
  obtain ⟨fr, rest, ht⟩ := State.unfinished_iff.mp (unfinished_of_step hstep.1)
  have hlt : u < v.threads.length :=
    (Finset.mem_Ioo.mp hu).2.trans (List.getElem?_eq_some_iff.mp ht).1
  refine Finset.mem_filter.mpr ⟨hu, unfinished_back hstep.1 hlt ?_⟩
  exact unfinished_of_mem (PoolStep.run hv').1 (hlt.trans_le (length_threads_mono hstep.1))
    (List.mem_toFinset.mp hmem)

/-- Tasks that have begun, with steps ahead of them. -/
theorem card_begun_le {σ₁ σ₂ : List (ℕ × Event α)} (hr : Run (PoolStep n) s (σ₁ ++ σ₂) s') :
    (((σ₁.map Prod.fst).toFinset ∩ (σ₂.map Prod.fst).toFinset).erase 0).card ≤ n := by
  generalize hB : ((σ₁.map Prod.fst).toFinset ∩ (σ₂.map Prod.fst).toFinset).erase 0 = B
  have hmemB : ∀ u ∈ B, u ≠ 0 ∧ u ∈ σ₁.map Prod.fst ∧ u ∈ (σ₂.map Prod.fst).toFinset := by
    intro u hu
    rw [← hB, Finset.mem_erase, Finset.mem_inter, List.mem_toFinset] at hu
    exact hu
  rcases B.eq_empty_or_nonempty with rfl | hne
  · exact Nat.zero_le n
  · -- the last of them was taken with the others ahead of it
    have hmax := B.max'_mem hne
    obtain ⟨hzero, hmem, -⟩ := hmemB _ hmax
    obtain ⟨l, hl, hlt⟩ := List.mem_map.mp hmem
    obtain ⟨ρ, ρ', rfl⟩ := List.append_of_mem hl
    rw [List.append_assoc, List.cons_append] at hr
    have hfew := card_ahead_lt_of_run hr (hlt ▸ hzero)
    have hsub : B.erase (B.max' hne) ⊆
        Finset.Ioo 0 l.1 ∩ ((ρ' ++ σ₂).map Prod.fst).toFinset := by
      intro u hu
      obtain ⟨hu', hu⟩ := Finset.mem_erase.mp hu
      obtain ⟨hu₀, -, hmem'⟩ := hmemB u hu
      have hle := B.le_max' u hu
      refine Finset.mem_inter.mpr ⟨Finset.mem_Ioo.mpr ⟨by omega, by omega⟩, ?_⟩
      rw [List.map_append, List.toFinset_append]
      exact Finset.mem_union_right _ hmem'
    have hcard := Finset.card_le_card hsub
    rw [Finset.card_erase_of_mem hmax] at hcard
    omega

section Runs

variable {G : Node α} {m : Mem α} {x : Value α}

/-- Where a thread has not returned, the calling one or the first task in the queue that has not
has a step. -/
theorem Inv.stuck_pool_iff (h : Inv Flow.trivial G s) (hn : 0 < n) :
    Stuck (PoolStep n) s ↔ Stuck Step s := by
  constructor
  · intro hs
    by_contra hstuck
    rw [h.stuck_iff] at hstuck
    have hex : ∃ t, s.Unfinished t := by
      simp only [not_forall] at hstuck
      obtain ⟨st, hst, hne⟩ := hstuck
      obtain ⟨t, ht⟩ := List.mem_iff_getElem?.mp hst
      obtain ⟨fr, rest, rfl⟩ := List.exists_cons_of_ne_nil hne
      exact ⟨t, State.unfinished_iff.mpr ⟨fr, rest, ht⟩⟩
    obtain ⟨fr, rest, ht⟩ := State.unfinished_iff.mp (Nat.find_spec hex)
    obtain ⟨o, -, hc, hstep⟩ := h.exists_concurrent ht
    refine hs (Nat.find hex, o.event) _ ⟨hstep, hc, fun _ => ?_⟩
    have hempty : s.ahead (Nat.find hex) = ∅ := by
      refine Finset.filter_eq_empty_iff.mpr fun u hu => ?_
      exact Nat.find_min hex (Finset.mem_Ioo.mp hu).2
    show (s.ahead (Nat.find hex)).card < n
    rw [hempty]
    exact hn
  · exact fun hs l s' hl => hs l s' hl.1

/-- There are no more tasks than children that are not the last ones of their nodes. -/
theorem length_threads_le (hm : m.Unengaged) (hr : Run Step (State.start G m x) σ s) :
    s.threads.length ≤ G.submitCount + 1 := by
  have hle := (submissions_subperm hm hr).length_le
  rw [G.length_tasks] at hle
  exact (length_threads hr).1.trans (by omega)

/-- **A worker for each task is a thread for each task.** -/
theorem run_pool_iff (hm : m.Unengaged) (hn : G.submitCount ≤ n) :
    Run (PoolStep n) (State.start G m x) σ s ↔
      Run Step (State.start G m x) σ s ∧ ∀ l ∈ σ, l.2.Concurrent := by
  refine ⟨PoolStep.run, fun ⟨hr, hc⟩ => ?_⟩
  induction hr with
  | refl => exact .refl
  | @tail σ v l v' hr hl ih =>
      have hih := ih ⟨hr, fun l hmem => hc l (List.mem_append_left _ hmem)⟩
        fun l hmem => hc l (List.mem_append_left _ hmem)
      refine hih.tail ⟨hl, hc l (by simp), fun hne => ?_⟩
      obtain ⟨fr, rest, ht⟩ := State.unfinished_iff.mp (unfinished_of_step hl)
      have hlt := (List.getElem?_eq_some_iff.mp ht).1
      have hle := length_threads_le hm hr
      have hahead := v.card_ahead_lt hne
      omega

/-- **A pool of any size runs every graph to its end.**  Where a task makes a step, fewer than `n`
of the tasks submitted before it have steps ahead of them, and at most `n` tasks are under way at
any time.  Such a run comes to an end, and where the pool has no step left, nothing is left to do
and the latch has reached zero. -/
theorem pool_completes (hm : m.Unengaged) (hn : 0 < n)
    (hr : Run (PoolStep n) (State.start G m x) σ s) :
    (∀ σ₁ l σ₂, σ = σ₁ ++ l :: σ₂ → l.1 ≠ 0 →
      (Finset.Ioo 0 l.1 ∩ (σ₂.map Prod.fst).toFinset).card < n) ∧
    (∀ σ₁ σ₂, σ = σ₁ ++ σ₂ →
      (((σ₁.map Prod.fst).toFinset ∩ (σ₂.map Prod.fst).toFinset).erase 0).card ≤ n) ∧
    σ.length ≤ G.work + 3 ∧
    (Stuck (PoolStep n) s → Stuck Step s ∧ s.latch = 0) := by
  have hrun := (PoolStep.run hr).1
  refine ⟨?_, ?_, ?_, fun hs => ?_⟩
  · rintro σ₁ l σ₂ rfl
    exact card_ahead_lt_of_run hr
  · rintro σ₁ σ₂ rfl
    exact card_begun_le hr
  · have hlen := length_add_remaining hm hrun
    omega
  · have hstuck := ((Inv.reached hm hrun).stuck_pool_iff hn).mp hs
    exact ⟨hstuck, latch_zero_of_stuck hm hrun hstuck⟩

theorem pool_completes_race :
    (∀ σ₁ l σ₂, raceRun.1 = σ₁ ++ l :: σ₂ → l.1 ≠ 0 →
      (Finset.Ioo 0 l.1 ∩ (σ₂.map Prod.fst).toFinset).card < 1) ∧
    (∀ σ₁ σ₂, raceRun.1 = σ₁ ++ σ₂ →
      (((σ₁.map Prod.fst).toFinset ∩ (σ₂.map Prod.fst).toFinset).erase 0).card ≤ 1) ∧
    raceRun.1.length ≤ race.work + 3 ∧ Stuck Step raceRun.2 ∧ raceRun.2.latch = 0 := by
  have hrun : Run (PoolStep 1) (State.start race Mem.fresh .nothing) raceRun.1 raceRun.2 :=
    (run_pool_iff Mem.fresh_unengaged (by decide)).mpr ⟨run_raceRun, by decide⟩
  obtain ⟨horder, hworkers, hlen, hend⟩ := pool_completes Mem.fresh_unengaged Nat.one_pos hrun
  exact ⟨horder, hworkers, hlen, hend fun l u hl => stuck_raceRun l u hl.1⟩

end Runs

end Orizzonte
