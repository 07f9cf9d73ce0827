/-
Orizzonte/Linearize.lean

The runs of `execute` are the topological sorts of the order of the graph.

Runs respect the order, since what comes before an action happens before it
(`toposort_of_run`).  Where every task has a thread of its own, whatever the order allows
next can be done next (`exists_step_of_first`), so that every topological sort is a run
(`runs_are_toposorts`), and nothing is ordered but what the graph orders
(`order_is_exact`).  What never happens, such as the return of a callable, holds back
exactly what comes after it (`held_back_iff`).
-/
import Orizzonte.Frontier
import Orizzonte.Toposort
import Orizzonte.Blocking

namespace Orizzonte

open Lts Causality Relation

universe u

variable {α : Type u} {G : Node α} {w : ℕ → ℕ}

/-! ### Runs as lists of actions -/

/-- The action that an event is. -/
def Event.action? (e : Event α) : Option Ob :=
  match e with
  | leafCall a _ => some (.leafCall a)
  | leafRet a _ => some (.leafRet a)
  | tempDrop _ => none
  | seqExec b => some (.seqExec b)
  | construct a => some (.construct a)
  | submit a i _ => some (.submit a i)
  | schedRet a i => some (.schedRet a i)
  | inputRead a i => some (.inputRead a i)
  | slotWrite a i => some (.slotWrite a i)
  | fetchSub a _ i _ => some (.fetchSub a i)
  | variantWrite a => some (.variantWrite a)
  | destroy a => some (.destroy a)
  | cleanup a => some (.cleanup a)
  | thenCall _ => some .thenCall
  | thenRet => some .thenRet
  | countDown o => some (.countDown o)

theorem Event.mem_discharges {e : Event α} {o : Ob} : o ∈ e.discharges ↔ e.action? = some o := by
  cases e <;> simp [discharges, action?, eq_comm]

/-- The actions of a run, in order. -/
def actions : List (ℕ × Event α) → List Ob := observed Event.action?

/-- What a graph orders: every obligation but the rights to read. -/
def Node.actionSet (G : Node α) : Set Ob := {o | o ∈ G.total ∧ ∀ q, o ≠ .read q}

theorem Node.finite_actionSet (G : Node α) : G.actionSet.Finite :=
  G.total.toFinset.finite_toSet.subset fun _ ho => Multiset.mem_toFinset.mpr ho.1

variable {m : Mem α} {x : Value α} {s : State α} {τ : List (ℕ × Event α)} {L : List Ob}

theorem mem_actions {o : Ob} : o ∈ actions τ ↔ ∃ l ∈ τ, o ∈ l.2.discharges := by
  simp only [actions, observed, List.mem_filterMap, Event.mem_discharges]

theorem nodup_actions (hm : m.Unengaged) (hr : Run Step (State.start G m x) τ s) :
    (actions τ).Nodup := by
  refine hr.invariant (I := fun τ _ => (actions τ).Nodup) List.nodup_nil ?_
  rintro σ u ⟨t, e⟩ u' hσ hnd hstep
  rw [actions, observed_append, List.nodup_append]
  refine ⟨hnd, ?_, ?_⟩
  · cases he : e.action? <;> simp [observed, he]
  · rintro o ho o' ho' rfl
    obtain ⟨l, hl, hdone⟩ := mem_actions.mp ho
    have he : o ∈ e.discharges := by
      obtain ⟨l', hl', hnew⟩ := mem_actions.mp ho'
      rwa [List.mem_singleton.mp hl'] at hnew
    exact not_done_twice hm hσ hstep (ne_read_of_mem_discharges he) he l hl hdone

theorem mem_actionSet_of_mem_actions (hm : m.Unengaged)
    (hr : Run Step (State.start G m x) τ s) {o : Ob} (ho : o ∈ actions τ) : o ∈ G.actionSet := by
  obtain ⟨l, hl, ho⟩ := mem_actions.mp ho
  obtain ⟨σ, hσ, rfl⟩ := run_tracked_iff.mp hr
  obtain ⟨l', hl', rfl⟩ := List.mem_map.mp hl
  exact ⟨mem_total_of_discharges hm hσ hl' ho, ne_read_of_mem_discharges ho⟩

theorem mem_owed_iff_notMem_actions (hm : m.Unengaged) (hr : Run Step (State.start G m x) τ s)
    {o : Ob} (hread : ∀ q, o ≠ .read q) : o ∈ s.owed G ↔ o ∈ G.total ∧ o ∉ actions τ := by
  rw [mem_owed_iff hm hr hread, mem_actions]
  simp only [not_exists, not_and]

/-- **A complete run is a topological sort of the graph**, under any scheduler. -/
theorem toposort_of_run (hm : m.Unengaged) (hr : Run Step (State.start G m x) τ s)
    (hs : Stuck Step s) : Toposort (Precedes G (winner τ)) G.actionSet (actions τ) where
  nodup := nodup_actions hm hr
  mem_iff o := by
    refine ⟨mem_actionSet_of_mem_actions hm hr, fun ⟨ho, hread⟩ => ?_⟩
    by_contra hno
    have howed := (mem_owed_iff_notMem_actions hm hr hread).mpr ⟨ho, hno⟩
    rw [owed_eq_zero_of_stuck hm hr hs] at howed
    exact Multiset.notMem_zero o howed
  order := by
    obtain ⟨σ, hσ, rfl⟩ := run_tracked_iff.mp hr
    -- positions of the run, rather than of the list of its actions
    have hpair : σ.Pairwise fun l l' => ∀ y ∈ l.event.discharges, ∀ z ∈ l'.event.discharges,
        ¬ Precedes G (winner (σ.map Label.step)) z y := by
      rw [List.pairwise_iff_getElem]
      intro i j hi hj hij y hy z hz h
      have hhb := happensBefore_of_done hm hσ (wonBy_tracked hm hσ) (List.getElem?_eq_getElem hj)
        hz (List.getElem?_eq_getElem hi) hy (.single h)
      exact absurd hhb.lt (not_lt.mpr hij.le)
    rw [actions, observed, List.pairwise_filterMap]
    refine List.Pairwise.map _ ?_ hpair
    intro l l' h y hy z hz
    exact h y (Event.mem_discharges.mpr hy) z (Event.mem_discharges.mpr hz)

/-! ### The order of the graph is one -/

/-- The order depends on the winners of the any nodes alone. -/
theorem Precedes.congr {w' : ℕ → ℕ} (hw : ∀ a ∈ G.anyAddrs 0, w a = w' a) {y z : Ob}
    (h : Precedes G w y z) : Precedes G w' y z := by
  have hany : ∀ {n : ℕ} {fs : Fin (n + 1) → Node α} {a K p}, Called G (.any fs) a K p →
      w' a = w a := fun hc => (hw _ (mem_anyAddrs_of_site hc.mem_sites)).symm
  cases h with
  | race i j hc hi hne => exact .race i j hc ((hany hc).trans hi) hne
  | variantWrite i hc hi => exact .variantWrite i hc ((hany hc).trans hi)
  | _ => constructor <;> assumption

/-- Some complete run has the winners `w`. -/
theorem exists_run_of_winning (hw : Winning G w) : ∃ (σ : List (Label α)) (s : State α),
    Run Tracked (State.start G Mem.fresh .nothing) σ s ∧ Stuck Step s ∧
      ∀ a ∈ G.anyAddrs 0, winner (σ.map Label.step) a = w a := by
  have hlt : ∀ a N, (a, N) ∈ G.forks 0 → a ∈ G.anyAddrs 0 → w a < N := by
    intro a N hfork hany
    obtain ⟨n, fs, K, d, hx⟩ := exists_site_of_mem_anyAddrs Flow.trivial hany
    obtain ⟨p, hc⟩ := called_of_mem_sites _ hx
    rw [forks_unique hfork (mem_forks_of_site hx)]
    exact hw hc
  obtain ⟨τ, s, hr, hs, -, hwin⟩ := exists_run_with_winners Mem.fresh_unengaged .nothing hlt
  obtain ⟨σ, hσ, rfl⟩ := run_tracked_iff.mp hr
  exact ⟨σ, s, hσ, hs, hwin⟩

theorem Precedes.right_mem {y z : Ob} (h : Precedes G w y z) : z ∈ G.actionSet :=
  ⟨h.mem_total, by cases h <;> rintro q ⟨⟩⟩

/-- **The order of a graph has no cycle**, and what comes before an action is one. -/
theorem Precedes.strict (hw : Winning G w) {y z : Ob} (h : TransGen (Precedes G w) y z) :
    y ≠ z ∧ y ∈ G.actionSet := by
  obtain ⟨σ, s, hr, hs, hwin⟩ := exists_run_of_winning hw
  have h' : TransGen (Precedes G (winner (σ.map Label.step))) y z :=
    h.lift id fun _ _ hp => hp.congr fun a ha => (hwin a ha).symm
  obtain ⟨x, -, hlast⟩ := TransGen.tail'_iff.mp h
  have hdone : z ∉ s.owed G := by
    rw [owed_eq_zero_of_stuck Mem.fresh_unengaged (Tracked.run hr) hs]
    exact Multiset.notMem_zero z
  obtain ⟨j, l', hj, hz⟩ :=
    exists_discharged Mem.fresh_unengaged hr hlast.right_mem.1 hlast.right_mem.2 hdone
  obtain ⟨i, l, hi, hy, hij⟩ := happensBefore_of_order Mem.fresh_unengaged hr
    (wonBy_tracked Mem.fresh_unengaged hr) hj hz h'
  refine ⟨?_, ?_, ne_read_of_mem_discharges hy⟩
  · rintro rfl
    have := index_unique Mem.fresh_unengaged hr hi hy hj hz
    exact absurd hij.lt (not_lt.mpr this.ge)
  · exact mem_total_of_discharges Mem.fresh_unengaged hr (List.mem_of_getElem? hi) hy

theorem Precedes.mem_actionSet (hw : Winning G w) (y z : Ob) (h : Precedes G w y z) :
    y ∈ G.actionSet ∧ z ∈ G.actionSet :=
  ⟨(Precedes.strict hw (.single h)).2, h.right_mem⟩

theorem Precedes.acyclic (hw : Winning G w) (y : Ob) : ¬ TransGen (Precedes G w) y y :=
  fun h => (Precedes.strict hw h).1 rfl

/-- No any node has a single child, which would win and be the last one at once. -/
def Node.Contested (G : Node α) : Prop :=
  ∀ a N, (a, N) ∈ G.forks 0 → a ∈ G.anyAddrs 0 → 2 ≤ N

/-- Where every task has a thread of its own, frames with a next action are on top. -/
theorem State.Shaped.top_of_next {w' : ℕ → ℕ} {σ : List (Label α)} (hsh : s.Shaped)
    (hinf : s.Informed G w' σ) (hG : G.Contested) {t : ℕ} {st : List (Frame α)}
    (ht : s.threads[t]? = some st) {fr : Frame α} (hfr : fr ∈ st) {o : Ob}
    (hn : fr.next = some o) : ∃ rest, st = fr :: rest := by
  cases st with
  | nil => exact absurd hfr List.not_mem_nil
  | cons top rest =>
      rcases List.mem_cons.mp hfr with rfl | hrest
      · exact ⟨rest, rfl⟩
      · have hwait : fr.Waits := hsh _ (List.mem_of_getElem? ht) fr hrest
        have hknown := hinf t _ ht fr hfr
        cases fr with
        | leafTemp => cases hn
        | anyDestroy a n =>
            obtain rfl : n = 0 := hwait
            obtain ⟨⟨fs, K, p, hc⟩, -⟩ := hknown
            have hsite := hc.mem_sites
            have := hG a 1 (mem_forks_of_site hsite) (mem_anyAddrs_of_site hsite)
            omega
        | _ => exact hwait.elim

/-- What is owed and has nothing owed before it can be done next. -/
theorem exists_step_of_first (hm : m.Unengaged) (hr : Run Step (State.start G m x) τ s)
    (hsh : s.Shaped) (hG : G.Contested) (hw : Winning G w) {o : Ob} (ho : o ∈ s.owed G)
    (hread : ∀ q, o ≠ .read q) (hfirst : ∀ q ∈ s.owed G, ¬ Precedes G w q o) :
    ∃ t e s', Step s (t, e) s' ∧ e.Concurrent ∧ e.action? = some o := by
  have hinv := Inv.reached hm hr
  obtain ⟨σ, hσ, rfl⟩ := run_tracked_iff.mp hr
  have hinf := informed_of_run hm hσ (wonBy_tracked hm hσ)
  rcases hinv.next_or_precedes hw hinf ho hread with ⟨t, st, ht, fr, hfr, hn⟩ | ⟨q, hq, hqo⟩
  · obtain ⟨rest, rfl⟩ := hsh.top_of_next hinf hG ht hfr hn
    obtain ⟨out, hf, hconc, hstep⟩ := hinv.exists_concurrent ht
    refine ⟨t, out.event, _, hstep, hconc, ?_⟩
    rw [← Event.mem_discharges, hf.mem_discharges, hn]
  · exact absurd hqo (hfirst q hq)

/-- **A topological sort is begun by a run**, with a thread for each task. -/
theorem exists_run_of_toposort (hL : Toposort (Precedes G w) G.actionSet L)
    (hm : m.Unengaged) (x : Value α) (hG : G.Contested) (hw : Winning G w) {done : List Ob}
    (hdone : done <+: L) :
    ∃ τ s, Run Step (State.start G m x) τ s ∧ s.Shaped ∧ (∀ l ∈ τ, l.2.Concurrent) ∧
      actions τ = done := by
  induction done using List.reverseRecOn with
  | nil => exact ⟨[], _, .refl, State.shaped_start G m x, fun _ h => absurd h List.not_mem_nil, rfl⟩
  | append_singleton done o ih =>
      obtain ⟨τ, s, hr, hsh, hconc, rfl⟩ := ih ((List.prefix_append _ _).trans hdone)
      obtain ⟨rest, rfl⟩ := hdone
      have hmem : ∀ q, q ∈ G.total → (∀ p, q ≠ .read p) →
          q ∈ actions τ ∨ q = o ∨ q ∈ rest := by
        intro q hq hread
        have := (hL.mem_iff q).mpr ⟨hq, hread⟩
        simpa [or_assoc] using this
      obtain ⟨ho, hread⟩ := (hL.mem_iff o).mp (by simp)
      have hnd := hL.nodup
      have hord := hL.order
      simp only [List.append_assoc, List.singleton_append] at hnd hord
      have hnew : o ∉ actions τ := by
        intro h
        exact (List.nodup_append.mp hnd).2.2 o h o (List.mem_cons_self ..) rfl
      have howed := (mem_owed_iff_notMem_actions hm hr hread).mpr ⟨ho, hnew⟩
      obtain ⟨t, e, s', hstep, hc, he⟩ := exists_step_of_first hm hr hsh hG hw howed hread (by
        intro q hq hqo
        have hq' : ∀ p, q ≠ .read p := (Precedes.strict hw (.single hqo)).2.2
        obtain ⟨hq, hnot⟩ := (mem_owed_iff_notMem_actions hm hr hq').mp hq
        rcases (hmem q hq hq').resolve_left hnot with rfl | hrest
        · exact (Precedes.strict hw (.single hqo)).1 rfl
        · have hafter := (List.pairwise_append.mp hord).2.1
          exact (List.pairwise_cons.mp hafter).1 q hrest hqo)
      refine ⟨τ ++ [(t, e)], s', hr.tail hstep, hsh.step hstep hc, ?_, ?_⟩
      · intro l hl
        rcases List.mem_append.mp hl with hl | hl
        · exact hconc l hl
        · rwa [List.mem_singleton.mp hl]
      · rw [actions, observed_append]
        congr 1
        simp [observed, he]

/-- **A topological sort of the graph is a complete run**, with a thread for each task. -/
theorem exists_complete_of_toposort (hL : Toposort (Precedes G w) G.actionSet L)
    (hm : m.Unengaged) (x : Value α) (hG : G.Contested) (hw : Winning G w) :
    ∃ τ s, Run Step (State.start G m x) τ s ∧ Stuck Step s ∧ (∀ l ∈ τ, l.2.Concurrent) ∧
      actions τ = L := by
  obtain ⟨τ, s, hr, -, hconc, rfl⟩ := exists_run_of_toposort hL hm x hG hw (List.prefix_refl L)
  obtain ⟨ρ, s', hr', hs'⟩ := exists_complete hm hr
  -- what remains is the destruction of leaf results
  have hnil : actions ρ = [] := by
    apply List.eq_nil_iff_forall_not_mem.mpr
    intro o ho
    have hall : o ∈ actions (τ ++ ρ) := by
      rw [actions, observed_append]
      exact List.mem_append_right _ ho
    have hmem := (hL.mem_iff o).mpr (mem_actionSet_of_mem_actions hm (hr.trans hr') hall)
    have hnd := nodup_actions hm (hr.trans hr')
    rw [actions, observed_append] at hnd
    exact (List.nodup_append.mp hnd).2.2 o hmem o ho rfl
  refine ⟨τ ++ ρ, s', hr.trans hr', hs', ?_, ?_⟩
  · intro l hl
    rcases List.mem_append.mp hl with hl | hl
    · exact hconc l hl
    · have hnone : l.2.action? = none := List.filterMap_eq_nil_iff.mp hnil l hl
      obtain ⟨t, e⟩ := l
      cases e with
      | submit => cases hnone
      | _ => exact True.intro
  · rw [actions, observed_append]
    exact (congrArg (observed Event.action? τ ++ ·) hnil).trans (List.append_nil _)

/-- The actions of a run show who won. -/
theorem winner_eq_of_toposort (hm : m.Unengaged) (hr : Run Step (State.start G m x) τ s)
    (hs : Stuck Step s) (hw : Winning G w) (h : Toposort (Precedes G w) G.actionSet (actions τ)) :
    ∀ a ∈ G.anyAddrs 0, winner τ a = w a := by
  intro a ha
  by_contra hne
  obtain ⟨n, fs, K, d, hx⟩ := exists_site_of_mem_anyAddrs Flow.trivial ha
  obtain ⟨p, hc⟩ := called_of_mem_sites _ hx
  have hw' := winning_winner hm hr
  -- each would come before the other
  have h₁ : Precedes G w (.fetchSub a (w a)) (.fetchSub a (winner τ a)) :=
    .race ⟨w a, hw hc⟩ ⟨winner τ a, hw' hc⟩ hc rfl fun he => hne (Fin.mk.inj he)
  have h₂ : Precedes G (winner τ) (.fetchSub a (winner τ a)) (.fetchSub a (w a)) :=
    .race ⟨winner τ a, hw' hc⟩ ⟨w a, hw hc⟩ hc rfl fun he => hne (Fin.mk.inj he).symm
  have hlt := h.idxOf_lt_of_transGen (Precedes.mem_actionSet hw) (Precedes.acyclic hw) (.single h₁)
  have hgt := (toposort_of_run hm hr hs).idxOf_lt_of_transGen (Precedes.mem_actionSet hw')
    (Precedes.acyclic hw') (.single h₂)
  exact absurd hlt (not_lt.mpr hgt.le)

/-! ### The runs and the order -/

/-- **The complete runs are the topological sorts of the graph.**  Where every task has a thread of
its own and no any node has a single child, a list of actions is that of a complete run if and
only if it is a topological sort of the actions of the graph, for some choice of winners. -/
theorem runs_are_toposorts (hm : m.Unengaged) (hG : G.Contested) (x : Value α) (L : List Ob) :
    (∃ τ s, Run Step (State.start G m x) τ s ∧ Stuck Step s ∧ (∀ l ∈ τ, l.2.Concurrent) ∧
      actions τ = L) ↔ ∃ w, Winning G w ∧ Toposort (Precedes G w) G.actionSet L := by
  constructor
  · rintro ⟨τ, s, hr, hs, -, rfl⟩
    exact ⟨winner τ, winning_winner hm hr, toposort_of_run hm hr hs⟩
  · rintro ⟨w, hw, hL⟩
    exact exists_complete_of_toposort hL hm x hG hw

theorem contested_race : race.Contested := by
  intro a N h _
  obtain ⟨-, rfl⟩ := Prod.mk.inj (List.mem_singleton.mp h)
  exact le_rfl

theorem runs_are_toposorts_race :
    (∃ τ s, Run Step (State.start race Mem.fresh .nothing) τ s ∧ Stuck Step s ∧
      (∀ l ∈ τ, l.2.Concurrent) ∧ actions τ = actions raceRun.1) ↔
      ∃ w, Winning race w ∧ Toposort (Precedes race w) race.actionSet (actions raceRun.1) :=
  runs_are_toposorts Mem.fresh_unengaged contested_race .nothing (actions raceRun.1)

/-- **The order of the graph is kept, and nothing else is ordered.**  In every run with these
winners, what comes before an action in the order of the graph was done and happens before it;
and where no any node has a single child, an action that is done before another in all complete
runs in which every task has a thread of its own comes before it in the order of the graph.  (A
single child runs what follows its any node before it destroys the storage.) -/
theorem order_is_exact (hm : m.Unengaged) (x : Value α) (hw : Winning G w) {y z : Ob}
    (hy : y ∈ G.actionSet) (hz : z ∈ G.actionSet) :
    (TransGen (Precedes G w) y z → ∀ (σ : List (Label α)) s,
      Run Tracked (State.start G m x) σ s → (∀ l ∈ σ, l.event.WonBy w) →
      ∀ (j : ℕ) l', σ[j]? = some l' → z ∈ l'.event.discharges →
        ∃ (i : ℕ) (l : Label α), σ[i]? = some l ∧ y ∈ l.event.discharges ∧
          HappensBefore (signature .acqRel) σ i j) ∧
    (G.Contested → (∀ τ s, Run Step (State.start G m x) τ s → Stuck Step s →
      (∀ l ∈ τ, l.2.Concurrent) → (∀ a ∈ G.anyAddrs 0, winner τ a = w a) →
      (actions τ).idxOf y < (actions τ).idxOf z) → TransGen (Precedes G w) y z) := by
  constructor
  · intro h σ s hr hwon j l' hj hz
    exact happensBefore_of_order hm hr hwon hj hz h
  · intro hG hall
    apply (transGen_iff_forall_toposort G.finite_actionSet (Precedes.mem_actionSet hw)
      (Precedes.acyclic hw) hy hz).mpr
    intro L hL
    obtain ⟨τ, s, hr, hs, hconc, rfl⟩ := exists_complete_of_toposort hL hm x hG hw
    exact hall τ s hr hs hconc (winner_eq_of_toposort hm hr hs hw hL)

theorem winning_race : Winning race fun _ => 1 := by
  intro n fs a K p hc
  have hfork := mem_forks_of_site hc.mem_sites
  obtain ⟨-, hn⟩ := Prod.mk.inj (List.mem_singleton.mp hfork)
  show 1 < n + 1
  omega

/-- Where the second leaf wins the race, it has returned before `then` is called. -/
theorem order_race (hw : w 0 = 1) : TransGen (Precedes race w) (.leafRet 2) .thenCall := by
  have hc : Called race race 0 .root none := .root
  have hfetch : Precedes race w (.leafRet 2) (.fetchSub 0 1) := .anyFetchSub 1 hc
  have hwrite : Precedes race w (.fetchSub 0 1) (.variantWrite 0) := .variantWrite 1 hc hw
  exact .head hfetch (.head hwrite (.single .thenCall))

theorem order_is_exact_race :
    (∀ (σ : List (Label ℕ)) s, Run Tracked (State.start race Mem.fresh .nothing) σ s →
      (∀ l ∈ σ, l.event.WonBy fun _ => 1) →
      ∀ (j : ℕ) l', σ[j]? = some l' → Ob.thenCall ∈ l'.event.discharges →
        ∃ (i : ℕ) (l : Label ℕ), σ[i]? = some l ∧ Ob.leafRet 2 ∈ l.event.discharges ∧
          HappensBefore (signature .acqRel) σ i j) ∧
    TransGen (Precedes race fun _ => 1) (.leafRet 2) .thenCall := by
  obtain ⟨hkept, hexact⟩ := order_is_exact (y := .leafRet 2) (z := .thenCall) Mem.fresh_unengaged
    .nothing winning_race ⟨by decide, by simp⟩ ⟨by decide, by simp⟩
  refine ⟨hkept (order_race rfl), hexact contested_race fun τ s hr hs _ hwinner => ?_⟩
  have hw := winning_winner Mem.fresh_unengaged hr
  exact (toposort_of_run Mem.fresh_unengaged hr hs).idxOf_lt_of_transGen
    (Precedes.mem_actionSet hw) (Precedes.acyclic hw)
    (order_race (hwinner 0 (List.mem_singleton_self 0)))

/-! ### What the environment refuses -/

/-- Every task has a thread of its own, and nothing in `B` is done: callables in it do not return,
tasks in it are never begun, and so on. -/
def Event.Avoids (B : Set Ob) (e : Event α) : Prop := e.Concurrent ∧ ∀ o ∈ e.discharges, o ∉ B

theorem Event.blocking_iff {F : Set ℕ} {e : Event α} :
    e.Blocking F ↔ e.Avoids {o | ∃ a ∈ F, o = .leafRet a} := by
  cases e with
  | leafRet a y =>
      simp only [Blocking, Avoids, Concurrent, discharges, Multiset.mem_singleton, forall_eq]
      constructor
      · intro h
        refine ⟨trivial, ?_⟩
        rintro ⟨b, hb, he⟩
        exact h (Ob.leafRet.inj he ▸ hb)
      · exact fun h ha => h.2 ⟨a, ha, rfl⟩
  | _ => simp [Blocking, Avoids, Concurrent, discharges]

/-- What was done, was done after all that comes before it. -/
theorem mem_actions_of_order (hm : m.Unengaged) (hr : Run Step (State.start G m x) τ s) {y z : Ob}
    (h : ReflTransGen (Precedes G (winner τ)) y z) (hz : z ∈ actions τ) : y ∈ actions τ := by
  rcases reflTransGen_iff_eq_or_transGen.mp h with rfl | h
  · exact hz
  · obtain ⟨σ, hσ, rfl⟩ := run_tracked_iff.mp hr
    obtain ⟨l, hl, hz⟩ := mem_actions.mp hz
    obtain ⟨l', hl', rfl⟩ := List.mem_map.mp hl
    obtain ⟨j, hj⟩ := List.mem_iff_getElem?.mp hl'
    obtain ⟨i, l, hi, hy, -⟩ := happensBefore_of_order hm hσ (wonBy_tracked hm hσ) hj hz h
    exact mem_actions.mpr ⟨l.step, List.mem_map_of_mem (List.mem_of_getElem? hi), hy⟩

variable {B : Set Ob}

/-- Where only what is in `B` is left to do, it is what the threads would do next. -/
theorem Inv.refused_of_stuck (h : Inv Flow.trivial G s)
    (hs : Stuck (Only (fun l : ℕ × Event α => l.2.Avoids B) Step) s) {t : ℕ} {fr : Frame α}
    {rest : List (Frame α)} (ht : s.threads[t]? = some (fr :: rest)) :
    ∃ b ∈ B, fr.next = some b ∧ b ∈ s.owed G ∧ ∀ q, b ≠ .read q := by
  obtain ⟨o, hf, hc, hstep⟩ := h.exists_concurrent ht
  obtain ⟨b, hb, hB⟩ : ∃ b ∈ o.event.discharges, b ∈ B := by
    by_contra hno
    exact hs (t, o.event) _ ⟨hstep, hc, fun b hb hB => hno ⟨b, hb, hB⟩⟩
  exact ⟨b, hB, hf.mem_discharges.mp hb, (h.transfer ht hf).owed hb, ne_read_of_mem_discharges hb⟩

/-- Of what is left over there, every action is in `B`, or something that is left over comes
immediately before it. -/
theorem Inv.refused_or_precedes {w' : ℕ → ℕ} {σ : List (Label α)} (h : Inv Flow.trivial G s)
    (hw : Winning G w) (hinf : s.Informed G w' σ) (hsh : s.Shaped) (hG : G.Contested)
    (hs : Stuck (Only (fun l : ℕ × Event α => l.2.Avoids B) Step) s) {o : Ob}
    (ho : o ∈ s.owed G) (hread : ∀ q, o ≠ .read q) :
    o ∈ B ∨ ∃ q ∈ s.owed G, Precedes G w q o := by
  refine (h.next_or_precedes hw hinf ho hread).imp_left ?_
  rintro ⟨t, st, ht, fr, hfr, hn⟩
  obtain ⟨rest, rfl⟩ := hsh.top_of_next hinf hG ht hfr hn
  obtain ⟨b, hB, hnext, -⟩ := h.refused_of_stuck hs ht
  obtain rfl := Option.some.inj (hn.symm.trans hnext)
  exact hB

/-- **What is refused holds back exactly what comes after it.**  Every task has a thread of its own,
and no any node has a single child.  Where everything has been done that can be without the actions
in `B`, an action is left over if and only if it is in `B`, or comes after an action in `B` in the
order of the graph; and the latch has reached zero if and only if no action of the graph is in
`B`. -/
theorem held_back_iff (hm : m.Unengaged) (hG : G.Contested)
    (hr : Run (Only (fun l : ℕ × Event α => l.2.Avoids B) Step) (State.start G m x) τ s)
    (hs : Stuck (Only (fun l : ℕ × Event α => l.2.Avoids B) Step) s) :
    (∀ o ∈ G.actionSet, o ∉ actions τ ↔
      ∃ b ∈ B, b ∈ G.actionSet ∧ ReflTransGen (Precedes G (winner τ)) b o) ∧
    (s.latch = 0 ↔ ∀ b ∈ B, b ∉ G.actionSet) := by
  have hsh : s.Shaped := hr.invariant (I := fun _ s => s.Shaped) (State.shaped_start G m x)
    fun σ u l u' _ hu hl => hu.step (t := l.1) hl.1 hl.2.1
  obtain ⟨hrun, hall⟩ := Run.only_iff.mp hr
  have hinv := Inv.reached hm hrun
  have hw := winning_winner hm hrun
  obtain ⟨σ, hσ, hτ⟩ := run_tracked_iff.mp hrun
  have hinf := informed_of_run hm hσ (wonBy_tracked hm hσ)
  have hrefused : ∀ b ∈ B, b ∉ actions τ := by
    intro b hB hb
    obtain ⟨l, hl, hd⟩ := mem_actions.mp hb
    exact (hall l hl).2 b hd hB
  refine ⟨fun o ho => ⟨fun hnot => ?_, ?_⟩, fun hl b hB hb => ?_, fun hno => ?_⟩
  · -- the induction is along a topological sort
    obtain ⟨L, hL⟩ := Toposort.exists_of_acyclic G.finite_actionSet (Precedes.acyclic hw)
    induction hi : L.idxOf o using Nat.strongRecOn generalizing o with
    | ind i ih =>
        have howed := (mem_owed_iff_notMem_actions hm hrun ho.2).mpr ⟨ho.1, hnot⟩
        rcases hinv.refused_or_precedes hw hinf hsh hG hs howed ho.2 with hB | ⟨q, hq, hqo⟩
        · exact ⟨o, hB, ho, .refl⟩
        · have hmem := (Precedes.mem_actionSet hw q o hqo).1
          have hlt := hL.idxOf_lt_of_transGen (Precedes.mem_actionSet hw) (Precedes.acyclic hw)
            (.single hqo)
          have hdone := ((mem_owed_iff_notMem_actions hm hrun hmem.2).mp hq).2
          obtain ⟨b, hB, hb, hbo⟩ := ih (L.idxOf q) (hi ▸ hlt) q hmem hdone rfl
          exact ⟨b, hB, hb, hbo.tail hqo⟩
  · rintro ⟨b, hB, -, hbo⟩ hdone
    exact hrefused b hB (mem_actions_of_order hm hrun hbo hdone)
  · have howed := (mem_owed_iff_notMem_actions hm hrun hb.2).mpr ⟨hb.1, hrefused b hB⟩
    rw [owed_eq_zero_of_latch hm hrun hl] at howed
    exact Multiset.notMem_zero _ howed
  · -- no thread has anything left to do
    refine latch_zero_of_stuck hm hrun (stuck_of_returned fun st hst => ?_)
    obtain ⟨t, ht⟩ := List.mem_iff_getElem?.mp hst
    rcases st with - | ⟨fr, rest⟩
    · rfl
    · obtain ⟨b, hB, -, howed, hread⟩ := hinv.refused_of_stuck hs ht
      exact absurd ⟨((mem_owed_iff hm hrun hread).mp howed).1, hread⟩ (hno b hB)

theorem held_back_iff_race :
    (∀ o ∈ race.actionSet, o ∉ actions blockedRun.1 ↔
      ∃ b ∈ {o : Ob | ∃ a ∈ ({1} : Set ℕ), o = .leafRet a}, b ∈ race.actionSet ∧
        ReflTransGen (Precedes race (winner blockedRun.1)) b o) ∧
    (blockedRun.2.latch = 0 ↔
      ∀ b ∈ {o : Ob | ∃ a ∈ ({1} : Set ℕ), o = .leafRet a}, b ∉ race.actionSet) :=
  held_back_iff Mem.fresh_unengaged contested_race
    (by simpa only [Event.blocking_iff] using run_blockedRun)
    (by simpa only [Event.blocking_iff] using stuck_blockedRun)

end Orizzonte
