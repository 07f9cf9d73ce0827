/-
Orizzonte/Latch.lean

The latch of `sync_execute`.  It starts at `cleanup_count() + 1`, and in every state
of a run its counter is the number of calls of `count_down` that are still owed
(`latch_eq`).  So it never goes below zero, a complete run has brought it to zero
(`then_once_cleanup_count`), and where it is zero no call of `count_down` is owed,
hence nothing at all (`latch_zero_quiet`): what is left of the tasks is the
destruction of results on their stacks, which touches nothing that `sync_execute`
or its caller owns.
-/
import Orizzonte.Trace

namespace Orizzonte

open Lts

universe u

variable {α : Type u} {G : Node α} {s s' : State α} {m : Mem α} {x : Value α}
  {τ σ : List (ℕ × Event α)}

/-! ### The counter -/

theorem Step.latch {t : ℕ} {e : Event α} (h : Step s (t, e) s') :
    s'.latch = s.latch - e.counted := by
  obtain ⟨c, fr, rest, o, -, -, rfl, rfl⟩ := step_iff.mp h
  rfl

theorem latch_add_countDowns (hr : Run Step s τ s') :
    s'.latch + (countDowns τ).length = s.latch := by
  induction hr with
  | refl => simp [countDowns]
  | @tail τ u l u' _ hl ih =>
      obtain ⟨t, e⟩ := l
      have hlen : (observed Event.countDown? [(t, e)]).length = e.counted := by
        cases e <;> rfl
      have hl := hl.latch
      simp only [countDowns, observed_append, List.length_append] at ih ⊢
      push_cast [hlen]
      omega

/-- The counter of the latch is the number of calls of `count_down` still owed. -/
theorem latch_eq (hm : m.Unengaged) (hr : Run Step (State.start G m x) τ s) :
    s.latch = (((s.owed G).map (Ob.shown Ob.countDown?)).sum).card := by
  have h := observed_add_owed (f := Event.countDown?) (fun _ => rfl) (fun e => by cases e <;> rfl)
    G.total_countDown hm hr
  have hcard := congrArg Multiset.card h
  simp only [Multiset.card_add, Multiset.coe_card, List.length_cons, List.length_map,
    G.length_anyAddrs] at hcard
  have hlatch := latch_add_countDowns hr
  have hstart : (State.start G m x).latch = G.cleanupCount + 1 := rfl
  rw [hstart] at hlatch
  unfold countDowns at hlatch
  omega

theorem latch_zero_of_stuck (hm : m.Unengaged) (hr : Run Step (State.start G m x) τ s)
    (hs : Stuck Step s) : s.latch = 0 := by
  rw [latch_eq hm hr, owed_eq_zero_of_stuck hm hr hs]
  rfl

/-- **`then` is called once, `cleanup` `cleanup_count()` times**: never more often, and
exactly that often where no step is left.  The latch of `sync_execute` never goes below
zero and has reached zero there. -/
theorem then_once_cleanup_count (hm : m.Unengaged) (hr : Run Step (State.start G m x) τ s) :
    (thenCalls τ).length ≤ 1 ∧ (cleanups τ).length ≤ G.cleanupCount ∧ 0 ≤ s.latch ∧
      (Stuck Step s → (thenCalls τ).length = 1 ∧ (cleanups τ).length = G.cleanupCount ∧
        s.latch = 0) := by
  refine ⟨thenCalls_length_le hm hr, ?_, ?_,
    fun hs => ⟨thenCalls_length hm hr hs, ?_, latch_zero_of_stuck hm hr hs⟩⟩
  · rw [← G.length_anyAddrs 0]
    exact (cleanups_subperm hm hr).length_le
  · rw [latch_eq hm hr]
    exact Int.natCast_nonneg _
  · rw [← G.length_anyAddrs 0]
    exact (cleanups_perm hm hr hs).length_eq

theorem then_once_cleanup_count_race :
    ((thenCalls raceRun.1).length ≤ 1 ∧ (cleanups raceRun.1).length ≤ race.cleanupCount ∧
      0 ≤ raceRun.2.latch) ∧
    (thenCalls raceRun.1).length = 1 ∧ (cleanups raceRun.1).length = race.cleanupCount ∧
      raceRun.2.latch = 0 := by
  obtain ⟨hthen, hcleanup, hlatch, hcomplete⟩ :=
    then_once_cleanup_count Mem.fresh_unengaged run_raceRun
  exact ⟨⟨hthen, hcleanup, hlatch⟩, hcomplete stuck_raceRun⟩

/-! ### Where the counter is zero -/

/-- `sync_execute` returns: its own code is done, and the destructor of the latch does not
wait. -/
def State.Returns (s : State α) : Prop := s.threads[0]? = some [] ∧ s.latch = 0

/-- All that threads still hold are results of leaves. -/
def State.Quiet (s : State α) : Prop :=
  ∀ st ∈ s.threads, ∀ fr ∈ st, ∃ a y, fr = .leafTemp a y

/-- A quiet state can only drop results, whatever the memory of the graph. -/
theorem State.Quiet.step (h : s.Quiet) {t : ℕ} {e : Event α} (hs : Step s (t, e) s') :
    s'.Quiet ∧ (∃ a, e = .tempDrop a) ∧ s'.mem = s.mem ∧
      ∀ m', Step { s with mem := m' } (t, e) { s' with mem := m' } := by
  obtain ⟨c, fr, rest, o, ht, hf, rfl, rfl⟩ := step_iff.mp hs
  obtain ⟨a, y, rfl⟩ := h _ (List.mem_of_getElem? ht) fr (List.mem_cons_self ..)
  cases hf
  refine ⟨fun st hst fr' hfr' => ?_, ⟨a, rfl⟩, rfl, fun m' => ?_⟩
  · rcases List.mem_append.mp hst with hst | hst
    · rcases List.mem_or_eq_of_mem_set hst with hst | rfl
      · exact h st hst fr' hfr'
      · exact h _ (List.mem_of_getElem? ht) fr' (List.mem_cons_of_mem _ hfr')
    · simp at hst
  · exact step_iff.mpr ⟨c, _, rest, _, ht, .tempDrop a y, rfl, rfl⟩

theorem State.Quiet.run (h : s.Quiet) (hr : Run Step s σ s') :
    s'.Quiet ∧ (∀ l ∈ σ, ∃ a, l.2 = .tempDrop a) ∧ s'.mem = s.mem ∧
      ∀ m', Run Step { s with mem := m' } σ { s' with mem := m' } := by
  induction hr with
  | refl => exact ⟨h, by simp, rfl, fun _ => .refl⟩
  | @tail τ u l u' _ hl ih =>
      obtain ⟨hu, hτ, hmem, hrun⟩ := ih
      obtain ⟨hu', he, hmem', hstep⟩ := hu.step hl
      refine ⟨hu', fun l' hl' => ?_, hmem'.trans hmem, fun m' => (hrun m').tail (hstep m')⟩
      rcases List.mem_append.mp hl' with hl' | hl'
      · exact hτ l' hl'
      · obtain rfl := List.mem_singleton.mp hl'
        exact he

/-- Where the counter is zero, nothing is owed. -/
theorem owed_eq_zero_of_latch (hm : m.Unengaged) (hr : Run Step (State.start G m x) τ s)
    (hl : s.latch = 0) : s.owed G = 0 := by
  by_contra hne
  obtain ⟨o, ho⟩ := (Inv.reached hm hr).exists_countDown hne
  rw [latch_eq hm hr] at hl
  have hzero : ((s.owed G).map (Ob.shown Ob.countDown?)).sum = 0 :=
    Multiset.card_eq_zero.mp (by exact_mod_cast hl)
  have hle : Ob.shown Ob.countDown? (.countDown o) ≤
      ((s.owed G).map (Ob.shown Ob.countDown?)).sum :=
    Multiset.single_le_sum (fun _ _ => zero_le) _ (Multiset.mem_map_of_mem _ ho)
  rw [hzero] at hle
  simp [Ob.shown, Ob.countDown?] at hle

theorem quiet_of_owed_eq_zero (h : s.owed G = 0) : s.Quiet := by
  intro st hst fr hfr
  refine Frame.obs_eq_zero_iff.mp (le_antisymm ?_ zero_le)
  rw [← h]
  exact State.frame_obs_le hst hfr

/-- Where the counter is zero, every storage has been destroyed. -/
theorem unengaged_of_latch (hm : m.Unengaged) (hr : Run Step (State.start G m x) τ s)
    (hl : s.latch = 0) : s.mem.Unengaged := by
  intro a
  rw [← Bool.not_eq_true, (Inv.reached hm hr).engaged_iff]
  rintro ⟨-, hd⟩
  rw [State.obs_eq_owed, owed_eq_zero_of_latch hm hr hl] at hd
  exact Multiset.notMem_zero _ hd

/-- **Where the counter is zero, the tasks are through with the graph.**  No thread is in
the graph, in the scheduler or in a callback, and no later step is: all that follows is
the destruction of results on the stacks, which would go the same way whatever the memory
of the graph was overwritten with.  Every leaf has returned, and no storage is engaged. -/
theorem latch_zero_quiet (hm : m.Unengaged) (hr : Run Step (State.start G m x) τ s)
    (hl : s.latch = 0) :
    (∀ σ s', Run Step s σ s' → s'.Quiet ∧ (∀ l ∈ σ, ∃ a, l.2 = .tempDrop a) ∧ s'.mem = s.mem ∧
      ∀ m', Run Step { s with mem := m' } σ { s' with mem := m' }) ∧
    ((leafReturns τ).map Prod.fst).Perm (G.leafAddrs 0) ∧ s.mem.Unengaged := by
  have hzero := owed_eq_zero_of_latch hm hr hl
  refine ⟨fun σ s' hr' => (quiet_of_owed_eq_zero hzero).run hr', ?_, unengaged_of_latch hm hr hl⟩
  have h := observed_add_owed (f := fun e => (Event.leafRet? e).map Prod.fst) (fun _ => rfl)
    (fun e => by cases e <;> rfl) (G.total_shown (G.shown_leafRet 0) rfl rfl rfl) hm hr
  rw [hzero, Multiset.map_zero, Multiset.sum_zero, add_zero, ← map_observed] at h
  exact Multiset.coe_eq_coe.mp h

theorem latch_zero_quiet_race :
    (∀ σ s', Run Step raceRun.2 σ s' → s'.Quiet ∧ (∀ l ∈ σ, ∃ a, l.2 = .tempDrop a) ∧
      s'.mem = raceRun.2.mem ∧
      ∀ m', Run Step { raceRun.2 with mem := m' } σ { s' with mem := m' }) ∧
    ((leafReturns raceRun.1).map Prod.fst).Perm (race.leafAddrs 0) ∧ raceRun.2.mem.Unengaged :=
  latch_zero_quiet Mem.fresh_unengaged run_raceRun rfl

end Orizzonte
