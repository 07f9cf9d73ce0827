/-
Orizzonte/Lifetime.lean

How long the result of a leaf lives.  `leaf::execute` passes it to `then` as a
temporary, so it dies when the whole chain of continuations has returned, and each
`count_down` is made inside such a chain (`Held`).  The call that lets the counter
reach zero therefore leaves a result alive on its thread.  If that is a worker,
`sync_execute` may return before the result is destroyed: with a child that is
submitted anywhere in the graph, some schedule does that (`results_outlive`).
-/
import Orizzonte.Concurrent

namespace Orizzonte

open Lts

universe u v

variable {α : Type u}

/-- The result of the leaf at `a` has not been destroyed.  A callable that returns `void` has
the `nothing` in its place. -/
def State.Alive (s : State α) (a : ℕ) : Prop := ∃ st ∈ s.threads, ∃ y, Frame.leafTemp a y ∈ st

/-! ### Inside the continuation of a leaf -/

/-- Program points that only the continuation of a leaf leads to. -/
def Frame.Delivers : Frame α → Prop
  | allWrite _ _ _ _ _ | allFetchSub _ _ _ _ | allDestroy _ _ _ => True
  | anyFetchSub _ _ _ _ _ _ | anyWrite _ _ _ _ _ _ | anyDestroy _ _ => True
  | cleanup _ | thenCall _ | thenRun | countDown _ => True
  | _ => False

/-- Below every such point there is a result that is alive. -/
def Held : List (Frame α) → Prop
  | [] => True
  | fr :: rest => (fr.Delivers → ∃ a y, Frame.leafTemp a y ∈ rest) ∧ Held rest

theorem Held.append {fs rest : List (Frame α)} (h : Held rest)
    (hfs : ∀ fr ∈ fs, fr.Delivers → ∃ a y, Frame.leafTemp a y ∈ rest) : Held (fs ++ rest) := by
  induction fs with
  | nil => exact h
  | cons fr fs ih =>
      refine ⟨fun hd => ?_, ih fun fr' hfr' => hfs fr' (List.mem_cons_of_mem _ hfr')⟩
      obtain ⟨a, y, hmem⟩ := hfs fr (List.mem_cons_self ..) hd
      exact ⟨a, y, List.mem_append_right _ hmem⟩

theorem scheduleIfLast_not_delivers (k : Join) (a : ℕ) {n : ℕ} (fs : Fin (n + 1) → Node α)
    (i : Fin (n + 1)) (K : Cont α) : ¬ (scheduleIfLast k a fs i K).Delivers := by
  unfold scheduleIfLast
  split <;> exact id

theorem Fires.held {m : Mem α} {c : Choice α} {fr : Frame α} {rest : List (Frame α)}
    {o : Outcome α} (hf : Fires m c fr o) (h : Held (fr :: rest)) :
    Held (o.frames ++ rest) ∧ ∀ sp ∈ o.spawned, ¬ sp.Delivers := by
  obtain ⟨hfr, hrest⟩ := h
  have hno : ∀ fs : List (Frame α), (∀ fr ∈ fs, ¬ fr.Delivers) → Held (fs ++ rest) :=
    fun fs hfs => hrest.append fun fr hmem hd => absurd hd (hfs fr hmem)
  cases hf with
  | leafCall | seqExec | inputRead =>
      refine ⟨hno _ fun fr' hfr' => ?_, by simp⟩
      obtain rfl := List.mem_singleton.mp hfr'
      exact id
  | construct k fs a input K =>
      refine ⟨hno _ fun fr' hfr' => ?_, by simp⟩
      obtain rfl := List.mem_singleton.mp hfr'
      exact scheduleIfLast_not_delivers k a fs 0 K
  | leafRet a r f input arg K =>
      -- the chain of continuations starts here, above the result
      refine ⟨⟨fun _ => ⟨a, _, List.mem_cons_self ..⟩, fun hd => hd.elim, hrest⟩, by simp⟩
  | tempDrop => exact ⟨hrest, by simp⟩
  | submitInline k a fs i K =>
      refine ⟨hno _ fun fr' hfr' => ?_, by simp⟩
      rcases List.mem_pair.mp hfr' with rfl | rfl <;> exact id
  | submitThread k a fs i K =>
      refine ⟨hno _ fun fr' hfr' => ?_, fun sp hsp => ?_⟩
      · obtain rfl := List.mem_singleton.mp hfr'
        exact id
      · obtain rfl := List.mem_singleton.mp hsp
        exact id
  | schedRet k a fs i K =>
      refine ⟨hno _ fun fr' hfr' => ?_, by simp⟩
      obtain rfl := List.mem_singleton.mp hfr'
      exact scheduleIfLast_not_delivers k a fs i.succ K
  | _ => exact ⟨hrest.append fun _ _ _ => hfr True.intro, by simp⟩

section Run

variable {G : Node α} {s s' : State α} {m : Mem α} {x : Value α} {τ σ : List (ℕ × Event α)}

theorem held_run (hr : Run Step (State.start G m x) τ s) : ∀ st ∈ s.threads, Held st := by
  refine hr.invariant (I := fun _ s => ∀ st ∈ s.threads, Held st) ?_ ?_
  · intro st hst
    obtain rfl := List.mem_singleton.mp hst
    exact ⟨fun h => h.elim, True.intro⟩
  · rintro σ u ⟨t, e⟩ u' - hu hstep st hst
    obtain ⟨c, fr, rest, o, ht, hf, rfl, rfl⟩ := step_iff.mp hstep
    obtain ⟨hheld, hsp⟩ := hf.held (hu _ (List.mem_of_getElem? ht))
    obtain ⟨t', ht'⟩ := List.mem_iff_getElem?.mp hst
    rcases State.getElem?_after ht ht' with ⟨-, rfl⟩ | ⟨-, ht'⟩ | ⟨-, sp, hmem, rfl⟩
    · exact hheld
    · exact hu st (List.mem_of_getElem? ht')
    · exact ⟨fun hd => absurd hd (hsp sp hmem), True.intro⟩

/-- The `count_down` after which the counter is zero leaves a result alive, on the thread
that made it. -/
theorem alive_after_countDown (hr : Run Step (State.start G m x) τ s) {t : ℕ} {e : Event α}
    (hs : Step s (t, e) s') (hl : s.latch ≠ 0) (hl' : s'.latch = 0) :
    ∃ a, s'.Alive a := by
  obtain ⟨c, fr, rest, o, ht, hf, rfl, rfl⟩ := step_iff.mp hs
  have hheld := held_run hr _ (List.mem_of_getElem? ht)
  have hlt : t < s.threads.length := (List.getElem?_eq_some_iff.mp ht).1
  cases hf with
  | countDown q =>
      obtain ⟨a, y, hmem⟩ := hheld.1 True.intro
      refine ⟨a, rest, ?_, y, hmem⟩
      exact List.mem_append_left _ (List.mem_set hlt _)
  | _ =>
      -- no other event counts
      simp [State.after, Event.counted] at hl'
      exact absurd hl' hl

/-! ### The calling thread first -/

/-- Threads other than the calling one have not made a step. -/
def State.Unstarted (s : State α) : Prop :=
  ∀ t st, t ≠ 0 → s.threads[t]? = some st → ∃ fr, st = [fr] ∧ fr.obs ≠ 0

theorem Fires.spawned_obs {c : Choice α} {fr : Frame α} {o : Outcome α} (hf : Fires m c fr o) :
    o.spawned.length ≤ (o.event.submit?.toList).length ∧
      (o.event.Concurrent → o.spawned.length = (o.event.submit?.toList).length) ∧
      ∀ sp ∈ o.spawned, sp.obs ≠ 0 := by
  cases hf with
  | submitInline k a fs i K h => exact ⟨Nat.zero_le _, fun hc => (by cases hc), by simp⟩
  | submitThread k a fs i K h =>
      refine ⟨le_rfl, fun _ => rfl, fun sp hsp hzero => ?_⟩
      obtain rfl := List.mem_singleton.mp hsp
      have hmem : Ob.inputRead a i.castSucc ∈ (Frame.computation k a fs i.castSucc K).obs := by
        simp [Frame.obs, Join.taskObs]
      rw [hzero] at hmem
      exact Multiset.notMem_zero _ hmem
  | _ => exact ⟨by simp, by simp [Event.submit?], by simp⟩

/-- There is a thread for each submitted task, unless the scheduler runs it itself. -/
theorem length_threads (hr : Run Step (State.start G m x) τ s) :
    s.threads.length ≤ (submissions τ).length + 1 ∧
      ((∀ l ∈ τ, l.2.Concurrent) → s.threads.length = (submissions τ).length + 1) := by
  refine hr.invariant (I := fun τ s => s.threads.length ≤ (submissions τ).length + 1 ∧
    ((∀ l ∈ τ, l.2.Concurrent) → s.threads.length = (submissions τ).length + 1))
    ⟨le_rfl, fun _ => rfl⟩ ?_
  rintro σ u ⟨t, e⟩ u' - ⟨hle, heq⟩ hstep
  obtain ⟨c, fr, rest, o, ht, hf, rfl, rfl⟩ := step_iff.mp hstep
  obtain ⟨hsp, hsp', -⟩ := hf.spawned_obs
  have hlen : (u.after t rest o).threads.length = u.threads.length + o.spawned.length := by
    simp [State.after]
  have hsub : (submissions (σ ++ [(t, o.event)])).length =
      (submissions σ).length + (o.event.submit?.toList).length := by
    rw [submissions, observed_append, List.length_append]
    congr 1
  refine ⟨by omega, fun hc => ?_⟩
  have h₁ := heq fun l hl => hc l (List.mem_append_left _ hl)
  have h₂ := hsp' (hc _ (List.mem_append_right _ (List.mem_singleton_self _)))
  omega

/-- The calling thread can run until it is done while the others wait. -/
theorem exists_main_run (hm : m.Unengaged) (x : Value α) :
    ∃ τ s, Run Step (State.start G m x) τ s ∧ s.threads[0]? = some [] ∧ s.Unstarted ∧
      s.threads.length = (submissions τ).length + 1 := by
  have hex : ∃ τ s, Run (Only (fun l : ℕ × Event α => l.1 = 0 ∧ l.2.Concurrent) Step)
      (State.start G m x) τ s ∧
      Stuck (Only (fun l : ℕ × Event α => l.1 = 0 ∧ l.2.Concurrent) Step) s := by
    apply exists_run_to_stuck (I := Inv Flow.trivial G) (μ := State.remaining G)
    · intro u l u' hu hl
      exact (hu.step (t := l.1) hl.1 trivial).1
    · intro u l u' hu hl
      have := hu.remaining_step (t := l.1) hl.1
      omega
    · exact Inv.start hm trivial
  obtain ⟨τ, s, hr, hs⟩ := hex
  -- only the calling thread has moved
  have hun : s.Unstarted := by
    refine hr.invariant (I := fun _ s => s.Unstarted) (fun t st ht hst => ?_) ?_
    · obtain ⟨hlt, -⟩ := List.getElem?_eq_some_iff.mp hst
      exact absurd (Nat.lt_one_iff.mp hlt) ht
    · rintro σ u ⟨t, e⟩ u' - hu ⟨hstep, rfl, -⟩ t' st ht' hst
      obtain ⟨c, fr, rest, o, ht, hf, rfl, rfl⟩ := step_iff.mp hstep
      rcases State.getElem?_after ht hst with ⟨he, -⟩ | ⟨-, hold⟩ | ⟨-, sp, hsp, rfl⟩
      · exact absurd he ht'
      · exact hu t' st ht' hold
      · exact ⟨sp, rfl, hf.spawned_obs.2.2 sp hsp⟩
  obtain ⟨hrun, hall⟩ := Run.only_iff.mp hr
  have hlen := (length_threads hrun).2 fun l hl => (hall l hl).2
  refine ⟨τ, s, hrun, ?_, hun, hlen⟩
  obtain ⟨st, hst⟩ : ∃ st, s.threads[0]? = some st :=
    ⟨_, List.getElem?_eq_getElem (by omega)⟩
  -- if it had not returned, it could move again
  cases st with
  | nil => exact hst
  | cons fr rest =>
      obtain ⟨o, -, hc, hstep⟩ := (Inv.reached hm hrun).exists_concurrent hst
      exact absurd ⟨hstep, rfl, hc⟩ (hs (0, o.event) _)

theorem main_done (hr : Run Step s σ s') (h : s.threads[0]? = some []) :
    s'.threads[0]? = some [] := by
  induction hr with
  | refl => exact h
  | @tail τ u l u' _ hl ih =>
      obtain ⟨c, fr, rest, o, ht, hf, -, rfl⟩ := step_iff.mp (show Step u (l.1, l.2) u' from hl)
      have hne : l.1 ≠ 0 := by
        rintro he
        rw [he, ih] at ht
        cases ht
      have hlt : 0 < u.threads.length := (List.getElem?_eq_some_iff.mp ih).1
      simp only [State.after]
      rw [List.getElem?_append_left (by simpa using hlt), List.getElem?_set_ne hne, ih]

/-- Where a worker has not started, something is owed. -/
theorem owed_ne_zero_of_unstarted (hun : s.Unstarted) (hlen : 1 < s.threads.length) :
    s.owed G ≠ 0 := by
  intro hzero
  obtain ⟨fr, hst, hne⟩ := hun 1 _ one_ne_zero (List.getElem?_eq_getElem hlen)
  have hle : fr.obs ≤ s.owed G :=
    State.frame_obs_le (List.getElem_mem hlen) (hst ▸ List.mem_singleton_self fr)
  rw [hzero] at hle
  exact hne (le_antisymm hle zero_le)

/-- The counter reaches zero at one step of a run, and then a result is alive. -/
theorem exists_alive_of_latch (hr : Run Step (State.start G m x) τ s)
    (hs : Run Step s σ s') (hl : s.latch ≠ 0) (hl' : s'.latch = 0) :
    ∃ ρ u, ρ <+: σ ∧ Run Step s ρ u ∧ u.latch = 0 ∧ ∃ a, u.Alive a := by
  obtain ⟨ρ, u, ⟨t, e⟩, u', hu, hne, hstep, hzero, hpre⟩ :=
    hs.exists_leaving (P := fun s => s.latch ≠ 0) hl (not_not.mpr hl')
  rw [not_not] at hzero
  exact ⟨ρ ++ [(t, e)], u', hpre, hu.tail hstep, hzero,
    alive_after_countDown (hr.trans hu) hstep hne hzero⟩

/-- **Results of leaves outlive the latch.**  On no graph does a counter of zero mean that
they have been destroyed: every run that gets there passes a state where the counter is
zero and a result is alive.  That all of them are gone when `sync_execute` has returned
holds exactly if no task is submitted, that is, if no all or any node has two children. -/
theorem results_outlive (hm : m.Unengaged) (G : Node α) (x : Value α) :
    (¬ ∀ τ s, Run Step (State.start G m x) τ s → s.latch = 0 → ∀ a, ¬ s.Alive a) ∧
    (∀ τ s, Run Step (State.start G m x) τ s → s.latch = 0 →
      ∃ σ u, σ <+: τ ∧ Run Step (State.start G m x) σ u ∧ u.latch = 0 ∧ ∃ a, u.Alive a) ∧
    ((∀ τ s, Run Step (State.start G m x) τ s → s.Returns → ∀ a, ¬ s.Alive a) ↔
      G.submitCount = 0) := by
  have hstart : (State.start G m x).latch ≠ 0 := by
    show (G.cleanupCount : ℤ) + 1 ≠ 0
    omega
  have hpass : ∀ τ s, Run Step (State.start G m x) τ s → s.latch = 0 →
      ∃ σ u, σ <+: τ ∧ Run Step (State.start G m x) σ u ∧ u.latch = 0 ∧ ∃ a, u.Alive a :=
    fun τ s hr hl => exists_alive_of_latch .refl hr hstart hl
  refine ⟨fun h => ?_, hpass, fun h => ?_, fun hsub τ s hr hret a => ?_⟩
  · obtain ⟨τ, s, hr, hs⟩ := exists_complete (x := x) (G := G) hm .refl
    obtain ⟨σ, u, -, hu, hl, a, ha⟩ := hpass τ s hr (latch_zero_of_stuck hm hr hs)
    exact h σ u hu hl a ha
  · -- the calling thread runs first, so that a worker makes the last `count_down`
    by_contra hne
    obtain ⟨τ, s, hr, hmain, hun, hlen⟩ := exists_main_run hm x (G := G)
    have howed : s.owed G ≠ 0 := by
      refine owed_ne_zero_of_unstarted hun (by_contra fun hlt => hne ?_)
      have hstuck : Stuck Step s := by
        refine stuck_of_returned fun st hst => ?_
        obtain ⟨t, ht⟩ := List.mem_iff_getElem?.mp hst
        obtain ⟨htl, -⟩ := List.getElem?_eq_some_iff.mp ht
        obtain rfl : t = 0 := by omega
        exact Option.some.inj (ht.symm.trans hmain)
      rw [← G.length_tasks 0, ← (submissions_perm hm hr hstuck).length_eq]
      omega
    have hl : s.latch ≠ 0 := fun hl => howed (owed_eq_zero_of_latch hm hr hl)
    obtain ⟨σ, s', hs', hstuck⟩ := exists_complete hm hr
    obtain ⟨ρ, u, -, hu, hzero, a, ha⟩ :=
      exists_alive_of_latch hr hs' hl (latch_zero_of_stuck hm (hr.trans hs') hstuck)
    exact h _ u (hr.trans hu) ⟨main_done hu hmain, hzero⟩ a ha
  · -- there is no other thread
    have hnil : submissions τ = [] := by
      have hle := (submissions_subperm hm hr).length_le
      rw [G.length_tasks, hsub] at hle
      exact List.length_eq_zero_iff.mp (Nat.le_zero.mp hle)
    have hlen := (length_threads hr).1
    rw [hnil] at hlen
    rintro ⟨st, hst, y, hy⟩
    obtain ⟨t, ht⟩ := List.mem_iff_getElem?.mp hst
    have hlt : t < s.threads.length := (List.getElem?_eq_some_iff.mp ht).1
    obtain rfl : t = 0 := by
      rw [List.length_nil] at hlen
      omega
    rw [hret.1] at ht
    obtain rfl := Option.some.inj ht
    cases hy

theorem results_outlive_race :
    (¬ ∀ τ s, Run Step (State.start race Mem.fresh .nothing) τ s → s.latch = 0 →
      ∀ a, ¬ s.Alive a) ∧
    (∀ τ s, Run Step (State.start race Mem.fresh .nothing) τ s → s.latch = 0 →
      ∃ σ u, σ <+: τ ∧ Run Step (State.start race Mem.fresh .nothing) σ u ∧ u.latch = 0 ∧
        ∃ a, u.Alive a) ∧
    ((∀ τ s, Run Step (State.start race Mem.fresh .nothing) τ s → s.Returns →
      ∀ a, ¬ s.Alive a) ↔ race.submitCount = 0) :=
  results_outlive Mem.fresh_unengaged race .nothing

/-- The race, up to the point where the calling thread has returned and the loser is about to
destroy its result. -/
def heldRun : List (ℕ × Event ℕ) × State ℕ :=
  ((State.syncExecute race Mem.fresh).drive
    (List.replicate 12 (0, default) ++ List.replicate 7 (1, default))).getD default

/-- `sync_execute` has returned, and the result of the first leaf is alive on a worker. -/
theorem loser_outlives_race :
    ∃ τ s, Run Step (State.syncExecute race Mem.fresh) τ s ∧ s.Returns ∧ s.latch = 0 ∧
      s.Alive 1 := by
  refine ⟨heldRun.1, heldRun.2, ?_, ⟨rfl, rfl⟩, rfl, ?_⟩
  · exact @run_of_drive _ _ _ _ (List.replicate 12 (0, default) ++ List.replicate 7 (1, default))
      rfl
  · exact ⟨[.leafTemp 1 (.obj 1)], .tail _ (.head _), _, .head _⟩

end Run

end Orizzonte
