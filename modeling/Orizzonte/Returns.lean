/-
Orizzonte/Returns.lean

The runs of `sync_execute`.  Seen through `Execution.abs` they are the runs of `State`,
no fewer and no more (`refines`): it makes no difference to the graph that `count_down`
takes several steps and a mutex.

The other way round the runs of `State` tell when `sync_execute` returns (`returns`).
It does return (`terminates`), spontaneous wake-ups apart within a bounded number of
steps; and where the destructor of the latch has returned, every call of `count_down`
has, and what the tasks still do reads neither the graph nor the latch.
-/
import Orizzonte.SyncExecute

namespace Orizzonte

open Lts

universe u

variable {α : Type u}

namespace Execution

variable {G : Node α} {s s' : Execution α} {t : ℕ} {e : ExecEvent α} {m : Mem α} {x : Value α}
  {τ σ : List (ℕ × ExecEvent α)}

/-! ### The graph and the latch by themselves -/

theorem Valid.graph_of_step (h : s.Valid G) (hs : Step G s (t, e) s') :
    Run Orizzonte.Step (s.abs G) (graph? (t, e)).toList (s'.abs G) := by
  cases step_iff.mp hs with
  | graph ht hne hg => exact Run.single (h.abs_graph ht hne hg).1
  | @latch o rest e l ht hf =>
      rcases h.abs_latch ht hf with ⟨rfl, hstep⟩ | ⟨hne, habs⟩
      · exact Run.single hstep
      · have hnone : graph? (α := α) (t, .latch o e) = none := by
          unfold graph?
          split
          · rename_i he
            cases he
          · rename_i he
            cases he
            exact absurd rfl hne
          · rfl
        rw [hnone, habs]
        exact Run.refl
  | wait h0 ht hf =>
      rw [show abs G _ = s.abs G from h.abs_wait hf]
      exact Run.refl

theorem latch_of_step (hs : Step G s (t, e) s') :
    Run (Monitor.Step LatchImpl.body) s.latch (latch? G (t, e)).toList s'.latch := by
  cases step_iff.mp hs with
  | graph ht hne hg => exact Run.refl
  | latch ht hf => exact Run.single (Monitor.step_iff.mpr hf)
  | wait h0 ht hf => exact Run.single (Monitor.step_iff.mpr hf)

/-- A run is one of the graph machine, and one of the latch. -/
theorem Valid.run (h : s.Valid G) (hr : Run (Step G) s σ s') :
    s'.Valid G ∧ Run Orizzonte.Step (s.abs G) (σ.filterMap graph?) (s'.abs G) ∧
      Run (Monitor.Step LatchImpl.body) s.latch (σ.filterMap (latch? G)) s'.latch := by
  induction hr with
  | refl => exact ⟨h, Run.refl, Run.refl⟩
  | @tail σ u l u' _ hl ih =>
      obtain ⟨hu, hgraph, hlatch⟩ := ih
      obtain ⟨t, e⟩ := l
      rw [Tally.filterMap_concat, Tally.filterMap_concat]
      exact ⟨hu.step hl, hgraph.trans (hu.graph_of_step hl), hlatch.trans (latch_of_step hl)⟩

theorem run_start (hm : m.Unengaged) (hr : Run (Step G) (start G m x) τ s) :
    s.Valid G ∧ Run Orizzonte.Step (State.start G m x) (τ.filterMap graph?) (s.abs G) ∧
      Run (Monitor.Step LatchImpl.body)
        (LatchImpl.start ((G.cleanupCount + 1 : ℕ) : ℤ) (G.cleanupCount + 1) 1)
        (τ.filterMap (latch? G)) s.latch := by
  have h := (Valid.start (x := x) hm).run hr
  rwa [abs_start] at h

/-! ### Each step of the graph machine -/

/-- Nobody is in the latch. -/
structure Idle (G : Node α) (s : Execution α) (u : State α) : Prop where
  valid : s.Valid G
  abs : s.abs G = u
  mtx : s.latch.mtx = none
  calls : ∀ c < G.cleanupCount + 1, s.latch.threads[c]? = some (.running .countDown) ∨
    s.latch.threads[c]? = some (.running .countedDown)

/-- A step of `count_down` from which the call does not return. -/
theorem exists_step_latch {o : Option ℕ} {rest : List (Frame α)} {p q : LatchImpl.Point}
    {i : Monitor.Instr LatchImpl.Point ℤ} {l : Monitor.State LatchImpl.Point ℤ} (g : State α)
    (ht : g.threads[t]? = some (.countDown o :: rest))
    (hp : l.threads[G.latchCall o]? = some (.running p)) (hi : LatchImpl.body p l.data = some i)
    (hm : i.enabled l.mtx = true) (hq : i.next = .running q) (hne : q ≠ .countedDown) :
    ∃ l', Step G ⟨g, l⟩ (t, .latch o (.exec p)) ⟨g, l'⟩ ∧
      Monitor.Fires LatchImpl.body l (G.latchCall o) (.exec p) l' ∧
      l'.threads[G.latchCall o]? = some (.running q) := by
  have hself : (i.effect l (G.latchCall o)).threads[G.latchCall o]? = some (.running q) := by
    rw [i.effect_self hp, hq]
  have hf : Monitor.Fires LatchImpl.body l (G.latchCall o) (.exec p) _ := .exec hp hi hm
  refine ⟨_, ?_, hf, hself⟩
  have hstep : Fires G ⟨g, l⟩ t (.latch o (.exec p)) _ := .latch ht hf
  unfold counting at hstep
  rw [if_neg] at hstep
  · exact step_iff.mpr hstep
  · intro hd
    exact hne (Monitor.Thread.running.inj (Option.some.inj (hself.symm.trans hd)))

/-- `count_down`, from its call to its return, with nobody else in between. -/
theorem exists_run_countDown {o : Option ℕ} {rest : List (Frame α)}
    (ht : s.graph.threads[t]? = some (.countDown o :: rest))
    (hp : s.latch.threads[G.latchCall o]? = some (.running .countDown))
    (hm : s.latch.mtx = none) :
    ∃ l, Run (Step G) s [(t, .latch o (.exec .countDown)), (t, .latch o (.exec .decrement)),
        (t, .latch o (.exec .notifyAll)), (t, .latch o (.exec .unlock))]
        ⟨s.graph.leave t rest, l⟩ ∧ l.mtx = none ∧
      l.threads[G.latchCall o]? = some (.running .countedDown) ∧
      ∀ c ≠ G.latchCall o, ∀ p, s.latch.threads[c]? = some (.running p) →
        l.threads[c]? = some (.running p) := by
  obtain ⟨l₁, hs₁, hf₁, hp₁⟩ :=
    exists_step_latch s.graph ht hp rfl (by rw [hm]; rfl) rfl (by decide)
  obtain ⟨l₂, hs₂, hf₂, hp₂⟩ := exists_step_latch s.graph ht hp₁ rfl rfl rfl (by decide)
  obtain ⟨l₃, hs₃, hf₃, hp₃⟩ := exists_step_latch s.graph ht hp₂ rfl rfl rfl (by decide)
  -- the last step is the return
  have hf₄ : Monitor.Fires LatchImpl.body l₃ (G.latchCall o) (.exec .unlock) _ := .exec hp₃ rfl rfl
  have hp₄ : (Monitor.Instr.effect l₃ (G.latchCall o) (.unlock .countedDown)).threads[
      G.latchCall o]? = some (.running .countedDown) := Monitor.Instr.effect_self _ hp₃
  have hs₄ : Fires G ⟨s.graph, l₃⟩ t (.latch o (.exec .unlock)) _ := .latch ht hf₄
  unfold counting at hs₄
  rw [if_pos hp₄] at hs₄
  refine ⟨_, (Run.head hs₁ (Run.head hs₂ (Run.head hs₃ (Run.single (step_iff.mpr hs₄))))), rfl,
    hp₄, fun c hc p hcp => ?_⟩
  exact hf₄.running hc (hf₃.running hc (hf₂.running hc (hf₁.running hc hcp)))

/-- `count_down` takes one thread off its frame and one off the counter. -/
theorem eq_of_countDown {u v v' : State α} {o : Option ℕ}
    (h : Orizzonte.Step u (t, .countDown o) v) (h' : Orizzonte.Step u (t, .countDown o) v') :
    v = v' := by
  obtain ⟨c, fr, rest, out, ht, hf, he, rfl⟩ := Orizzonte.step_iff.mp h
  obtain ⟨c', fr', rest', out', ht', hf', he', rfl⟩ := Orizzonte.step_iff.mp h'
  obtain ⟨rfl, rfl⟩ := List.cons.inj (Option.some.inj (ht.symm.trans ht'))
  cases hf <;> cases he
  cases hf'
  rfl

/-- Where nobody is in the latch, each step of the graph machine is possible. -/
theorem Idle.exists_run {u u' : State α} {e : Event α} (h : Idle G s u)
    (hs : Orizzonte.Step u (t, e) u') :
    ∃ σ s', Run (Step G) s σ s' ∧ σ.filterMap graph? = [(t, e)] ∧ Idle G s' u' := by
  obtain ⟨hvalid, rfl, hmtx, hcalls⟩ := h
  obtain ⟨c, fr, rest, out, ht, hf, rfl, rfl⟩ := Orizzonte.step_iff.mp hs
  -- the thread has not taken the counter down
  have ht' : s.graph.threads[t]? = some (fr :: rest) := by
    rw [getElem?_abs] at ht
    obtain ⟨st, hst, hsettle⟩ := Option.map_eq_some_iff.mp ht
    suffices heq : settle G s.latch st = st by rw [hst, ← heq, hsettle]
    unfold settle
    split
    · rename_i o rest'
      obtain ⟨hmem, hret, -⟩ := hvalid.calls t o rest' hst
      have hp := (hcalls _ (Node.latchCall_lt hmem)).resolve_right hret
      rw [LatchImpl.counted_running hp]
      rfl
    · rfl
  by_cases hne : ∀ o, fr ≠ .countDown o
  · have hstep : Step G s (t, .graph out.event) ⟨s.graph.after t rest out, s.latch⟩ :=
      step_iff.mpr (.graph ht' hne (Orizzonte.step_iff.mpr ⟨c, fr, rest, out, ht', hf, rfl, rfl⟩))
    exact ⟨_, _, Run.single hstep, rfl, hvalid.step hstep, hvalid.abs_after ht' hne hf, hmtx,
      hcalls⟩
  · obtain ⟨o, rfl⟩ : ∃ o, fr = .countDown o := by
      simpa using hne
    obtain ⟨hmem, hret, -⟩ := hvalid.calls t o rest ht'
    have hp := (hcalls _ (Node.latchCall_lt hmem)).resolve_right hret
    obtain ⟨l, hrun, hfree, hdone, hkeep⟩ := exists_run_countDown ht' hp hmtx
    obtain ⟨hvalid', hgraph, -⟩ := hvalid.run hrun
    cases hf
    refine ⟨_, _, hrun, rfl, hvalid', eq_of_countDown (Run.single_iff.mp hgraph) hs, hfree,
      fun c hc => ?_⟩
    by_cases heq : c = G.latchCall o
    · subst heq
      exact .inr hdone
    · exact (hcalls c hc).imp (hkeep c heq _) (hkeep c heq _)

/-- **`sync_execute` runs the graph on a counter.**  What the threads do to the graph, and where
they take the counter down, is a run of `State`, and each run of `State` is what they do in some
run. -/
theorem refines {τ : List (ℕ × Event α)} {u : State α} (hm : m.Unengaged) :
    Run Orizzonte.Step (State.start G m x) τ u ↔
      ∃ σ s, Run (Step G) (start G m x) σ s ∧ σ.filterMap graph? = τ ∧ s.abs G = u := by
  constructor
  · intro hr
    have hidle : Idle G (start G m x) (State.start G m x) :=
      ⟨Valid.start hm, abs_start G m x, rfl, fun c hc => .inl (start_latch_countDown hc)⟩
    have happ : ∀ τ σ : List (ℕ × Event α), id (τ ++ σ) = id τ ++ id σ := fun _ _ => rfl
    have happ' : ∀ τ σ : List (ℕ × ExecEvent α),
        (τ ++ σ).filterMap graph? = τ.filterMap graph? ++ σ.filterMap graph? :=
      fun _ _ => List.filterMap_append
    obtain ⟨σ, s, hσ, hobs, hs⟩ := hr.simulate happ happ' (R := fun u s => Idle G s u)
      (fun u l u' v hl hv => hv.exists_run hl) hidle
    exact ⟨σ, s, hσ, hobs, hs.abs⟩
  · rintro ⟨σ, s, hσ, rfl, rfl⟩
    exact (run_start hm hσ).2.1

theorem refines_race :
    ∃ σ s, Run (Step race) (start race Mem.fresh .nothing) σ s ∧
      σ.filterMap graph? = raceRun.1 ∧ s.abs race = raceRun.2 :=
  (refines Mem.fresh_unengaged).mp run_raceRun

/-! ### Where nobody can go on -/

/-- The destructor of the latch has returned. -/
def Returned (G : Node α) (s : Execution α) : Prop :=
  s.latch.threads[G.cleanupCount + 1]? = some (.running .waited)

/-- Where no thread has a step but to wake up by itself, nobody has the mutex. -/
theorem Valid.mtx_free (h : s.Valid G)
    (hs : Stuck (Only (fun l => l.2.spurious = false) (Step G)) s) : s.latch.mtx = none := by
  by_contra hm
  obtain ⟨c, hm⟩ := Option.ne_none_iff_exists'.mp hm
  obtain ⟨p, hp, hholds⟩ := h.latch.exclusive.exists_owner hm
  obtain ⟨i, hi, hen⟩ := LatchImpl.exists_instr s.latch.data (.inl hholds)
  have hf : Monitor.Fires LatchImpl.body s.latch c (.exec p) _ := .exec hp hi hen
  rcases lt_or_ge c (G.cleanupCount + 1) with hlt | hge
  · obtain ⟨o, ho, rfl⟩ := Node.exists_latchCall hlt
    obtain ⟨t, rest, ht⟩ := h.called o ho p hp (by rintro rfl; exact hholds)
      (by rintro rfl; exact hholds)
    exact hs _ _ ⟨step_iff.mpr (.latch ht hf), rfl⟩
  · have hlen := (List.getElem?_eq_some_iff.mp hp).1
    rw [h.latch.length] at hlen
    obtain rfl : c = G.cleanupCount + 1 := by omega
    have h0 := h.waits.resolve_left fun hw => by
      cases hp.symm.trans hw
      exact hholds
    exact hs (0, _) _ ⟨step_iff.mpr (.wait rfl h0 hf), rfl⟩

/-- Every thread has left the graph. -/
theorem Valid.threads_of_stuck (h : s.Valid G)
    (hs : Stuck (Only (fun l => l.2.spurious = false) (Step G)) s) :
    ∀ st ∈ s.graph.threads, st = [] := by
  intro st hst
  obtain ⟨t, ht⟩ := List.mem_iff_getElem?.mp hst
  rcases st with - | ⟨fr, rest⟩
  · rfl
  exfalso
  by_cases hne : ∀ o, fr ≠ .countDown o
  · obtain ⟨out, hf⟩ := h.graph.exists_fires (abs_getElem?_of_ne (G := G) ht hne) default
    exact hs _ _ ⟨step_iff.mpr (.graph ht hne (Orizzonte.step_iff.mpr
      ⟨default, fr, rest, out, ht, hf, rfl, rfl⟩)), rfl⟩
  · obtain ⟨o, rfl⟩ : ∃ o, fr = .countDown o := by
      simpa using hne
    obtain ⟨hmem, hret, -⟩ := h.calls t o rest ht
    obtain ⟨p, hp, hof⟩ := h.latch.exists_countDown (Node.latchCall_lt hmem)
    obtain ⟨i, hi, hen⟩ := LatchImpl.exists_instr (p := p) s.latch.data
      (.inr ⟨h.mtx_free hs, fun he => hret (he ▸ hp), fun he => by subst he; exact hof⟩)
    exact hs _ _ ⟨step_iff.mpr (.latch ht (.exec hp hi hen)), rfl⟩

/-- Every call of `count_down` has returned. -/
theorem Valid.countedDown_of_stuck (h : s.Valid G)
    (hs : Stuck (Only (fun l => l.2.spurious = false) (Step G)) s) :
    ∀ c < G.cleanupCount + 1, s.latch.threads[c]? = some (.running .countedDown) := by
  have hempty := h.threads_of_stuck hs
  have howed : (s.abs G).owed G = 0 := by
    apply h.graph.obs_eq_zero
    intro st hst
    obtain ⟨st', hst', rfl⟩ := List.mem_map.mp hst
    rw [hempty st' hst']
    rfl
  intro c hc
  obtain ⟨o, ho, rfl⟩ := Node.exists_latchCall hc
  obtain ⟨p, hp, hof⟩ := h.latch.exists_countDown hc
  have hpast : p.past = true := by
    rw [← LatchImpl.counted_running hp, ← Bool.not_eq_false, h.counted o ho, howed]
    exact Multiset.notMem_zero _
  by_cases hd : p = .countedDown
  · exact hd ▸ hp
  · obtain ⟨t, rest, ht⟩ := h.called o ho p hp (by rintro rfl; cases hpast) hd
    cases hempty _ (List.mem_of_getElem? ht)

theorem Valid.returned_of_stuck (h : s.Valid G)
    (hs : Stuck (Only (fun l => l.2.spurious = false) (Step G)) s) : s.Returned G := by
  have hfree := h.mtx_free hs
  have hall := h.countedDown_of_stuck hs
  have hlt : G.cleanupCount + 1 < s.latch.threads.length := by
    rw [h.latch.length]
    omega
  have hth := List.getElem?_eq_getElem hlt
  obtain ⟨hof, -⟩ := (h.latch.kept _ _ hth).2 le_rfl
  obtain ⟨st, h0⟩ : ∃ st, s.graph.threads[0]? = some st := ⟨_, List.getElem?_eq_getElem h.length⟩
  obtain rfl := h.threads_of_stuck hs st (List.mem_of_getElem? h0)
  unfold Returned
  rcases hcase : s.latch.threads[G.cleanupCount + 1] with p | p | p
  · rw [hcase] at hth hof
    by_contra hne
    obtain ⟨i, hi, hen⟩ := LatchImpl.exists_instr (p := p) s.latch.data
      (.inr ⟨hfree, fun he => by subst he; exact hof True.intro, fun he => hne (he ▸ hth)⟩)
    exact hs (0, _) _ ⟨step_iff.mpr (.wait rfl h0 (.exec hth hi hen)), rfl⟩
  · rw [hcase] at hth
    exact absurd hth (h.latch.not_parked hall _ p)
  · rw [hcase] at hth
    exact absurd ⟨step_iff.mpr (.wait rfl h0 (.relock hth hfree)), rfl⟩ (hs (0, _) _)

/-! ### Where the destructor of the latch has returned -/

/-- No thread is in the latch, and no call of `count_down` is still to come. -/
theorem Valid.latch_of_returned (h : s.Valid G) (hret : s.Returned G) :
    (s.abs G).latch = 0 ∧ (s.abs G).threads = s.graph.threads ∧
      ∀ (t : ℕ) o rest, s.graph.threads[t]? ≠ some (.countDown o :: rest) := by
  have hall := h.latch.returned _ hret
  have hno : ∀ (t : ℕ) o rest, s.graph.threads[t]? ≠ some (.countDown o :: rest) := by
    intro t o rest ht
    obtain ⟨hmem, hne, -⟩ := h.calls t o rest ht
    exact hne (hall _ (Node.latchCall_lt hmem))
  refine ⟨h.latch.zero_of_countedDown hall, ?_, hno⟩
  show s.graph.threads.map (settle G s.latch) = s.graph.threads
  refine (List.map_congr_left fun st hst => ?_).trans (List.map_id _)
  obtain ⟨t, ht⟩ := List.mem_iff_getElem?.mp hst
  rcases st with - | ⟨fr, rest⟩
  · rfl
  · exact settle_of_ne fun o he => hno t o rest (he ▸ ht)

/-- From here on threads drop results, and nothing else happens; they would do so whatever the
memory of the graph and of the latch was overwritten with. -/
theorem Returned.run (hret : s.Returned G) (hquiet : s.graph.Quiet) (hr : Run (Step G) s σ s') :
    s'.Returned G ∧ s'.graph.Quiet ∧ (∀ l ∈ σ, ∃ a, l.2 = .graph (.tempDrop a)) ∧
      ∀ m' l', Run (Step G) ⟨{ s.graph with mem := m' }, l'⟩ σ
        ⟨{ s'.graph with mem := m' }, l'⟩ := by
  induction hr with
  | refl => exact ⟨hret, hquiet, by simp, fun _ _ => Run.refl⟩
  | @tail σ u l u' _ hl ih =>
      obtain ⟨hu, hq, hσ, hrun⟩ := ih
      obtain ⟨t, e⟩ := l
      have htop : ∀ fr rest, u.graph.threads[t]? = some (fr :: rest) → ∀ o, fr ≠ .countDown o := by
        rintro fr rest ht o rfl
        obtain ⟨a, y, he⟩ := hq _ (List.mem_of_getElem? ht) _ (List.mem_cons_self ..)
        cases he
      cases step_iff.mp hl with
      | @graph fr rest e g ht hne hg =>
          obtain ⟨hq', ⟨a, rfl⟩, -, hm'⟩ := hq.step hg
          refine ⟨hu, hq', fun l hl' => ?_, fun m' l' => (hrun m' l').tail
            (step_iff.mpr (.graph ht hne (hm' m')))⟩
          rcases List.mem_append.mp hl' with hl' | hl'
          · exact hσ l hl'
          · obtain rfl := List.mem_singleton.mp hl'
            exact ⟨a, rfl⟩
      | @latch o rest e l ht hf => exact absurd rfl (htop _ rest ht o)
      | wait h0 ht hf =>
          obtain ⟨i, hi, -⟩ := hf.exec_of_running hu
          cases hi

/-- Where the destructor of the latch has returned, nobody has the mutex. -/
theorem Valid.mtx_of_returned (h : s.Valid G) (hret : s.Returned G) : s.latch.mtx = none := by
  by_contra hm
  obtain ⟨c, hm⟩ := Option.ne_none_iff_exists'.mp hm
  obtain ⟨p, hp, hholds⟩ := h.latch.exclusive.exists_owner hm
  have hlt : c < G.cleanupCount + 1 + 1 := h.latch.length ▸ h.latch.exclusive.lt_length c hm
  -- every call that there is has returned
  rcases Nat.lt_succ_iff_lt_or_eq.mp hlt with hc | rfl
  · cases hp.symm.trans (h.latch.returned _ hret c hc)
    exact hholds
  · cases hp.symm.trans hret
    exact hholds

/-- What `then` and the leaves did is complete where the counter is zero. -/
theorem observed_perm_of_latch {β : Type*} {w : Ob → Multiset β} {f : Event α → Option β}
    {b : List β} {τ : List (ℕ × Event α)} {u : State α} (hw : ∀ q, w (.read q) = 0)
    (hf : ∀ e, e.weight w = ((f e).toList : Multiset β))
    (hb : (G.total.map w).sum = (b : Multiset β)) (hm : m.Unengaged)
    (hr : Run Orizzonte.Step (State.start G m x) τ u) (hl : u.latch = 0) :
    (observed f τ).Perm b := by
  have h := observed_add_owed hw hf hb hm hr
  rw [owed_eq_zero_of_latch hm hr hl, Multiset.map_zero, Multiset.sum_zero, add_zero] at h
  exact Multiset.coe_eq_coe.mp h

/-- **`sync_execute` returns when the tasks are through, and not before.**  Where no thread has
a step but to wake up by itself in `wait`, the destructor of the latch has returned and every
thread is through.  Where it has returned, each leaf has returned once and `then` has been called
once, no storage is engaged, every call of `count_down` has returned, nobody has the mutex, and
what the threads still do is to drop results, whatever becomes of the graph and of the latch. -/
theorem returns (hm : m.Unengaged) (hr : Run (Step G) (start G m x) τ s) :
    (Stuck (Only (fun l => l.2.spurious = false) (Step G)) s →
      s.Returned G ∧ ∀ st ∈ s.graph.threads, st = []) ∧
    (s.Returned G →
      ((leafReturns (τ.filterMap graph?)).map Prod.fst).Perm (G.leafAddrs 0) ∧
      (thenCalls (τ.filterMap graph?)).length = 1 ∧ s.graph.mem.Unengaged ∧
      (∀ c < G.cleanupCount + 1, s.latch.threads[c]? = some (.running .countedDown)) ∧
      s.latch.mtx = none ∧
      ∀ σ s', Run (Step G) s σ s' → (∀ l ∈ σ, ∃ a, l.2 = .graph (.tempDrop a)) ∧
        ∀ m' l', Run (Step G) ⟨{ s.graph with mem := m' }, l'⟩ σ
          ⟨{ s'.graph with mem := m' }, l'⟩) := by
  obtain ⟨h, hgraph, -⟩ := run_start hm hr
  refine ⟨fun hs => ⟨h.returned_of_stuck hs, h.threads_of_stuck hs⟩, fun hret => ?_⟩
  obtain ⟨hlatch, hthreads, -⟩ := h.latch_of_returned hret
  have hmem : (s.abs G).mem.Unengaged := unengaged_of_latch hm hgraph hlatch
  refine ⟨?_, ?_, hmem, h.latch.returned _ hret, h.mtx_of_returned hret, fun σ s' hσ => ?_⟩
  · have hperm := observed_perm_of_latch (f := fun e => (Event.leafRet? e).map Prod.fst)
      (fun _ => rfl) (fun e => by cases e <;> rfl)
      (G.total_shown (G.shown_leafRet 0) rfl rfl rfl) hm hgraph hlatch
    rwa [← map_observed] at hperm
  · have hperm := observed_perm_of_latch (f := fun e => (Event.thenArg? e).map fun _ => ())
      (fun _ => rfl) (fun e => by cases e <;> rfl) G.total_thenCall hm hgraph hlatch
    rw [← map_observed] at hperm
    simpa [thenCalls] using hperm.length_eq
  · have hquiet : s.graph.Quiet := by
      intro st hst
      rw [← hthreads] at hst
      exact quiet_of_owed_eq_zero (owed_eq_zero_of_latch hm hgraph hlatch) st hst
    obtain ⟨-, -, hdrops, hrun⟩ := hret.run hquiet hσ
    exact ⟨hdrops, hrun⟩

/-- In the race the calling thread wins and parks in `wait`; the other thread has still to drop
its result where `wait` has returned. -/
def returnsSched : List (ℕ × Choice ℕ) :=
  List.replicate 18 (0, default) ++ List.replicate 10 (1, default) ++ List.replicate 3 (0, default)

def returnsRun : List (ℕ × ExecEvent ℕ) × Execution ℕ :=
  ((start race Mem.fresh .nothing).drive race returnsSched).getD
    ([], start race Mem.fresh .nothing)

theorem run_returnsRun :
    Run (Step race) (start race Mem.fresh .nothing) returnsRun.1 returnsRun.2 :=
  run_of_drive (show (start race Mem.fresh .nothing).drive race returnsSched =
    some (returnsRun.1, returnsRun.2) from rfl)

theorem returns_returnsRun :
    ((leafReturns (returnsRun.1.filterMap graph?)).map Prod.fst).Perm (race.leafAddrs 0) ∧
    (thenCalls (returnsRun.1.filterMap graph?)).length = 1 ∧
    returnsRun.2.graph.mem.Unengaged ∧
    (∀ c < race.cleanupCount + 1,
      returnsRun.2.latch.threads[c]? = some (.running .countedDown)) ∧
    returnsRun.2.latch.mtx = none ∧
    ∀ σ s', Run (Step race) returnsRun.2 σ s' → (∀ l ∈ σ, ∃ a, l.2 = .graph (.tempDrop a)) ∧
      ∀ m' l', Run (Step race) ⟨{ returnsRun.2.graph with mem := m' }, l'⟩ σ
        ⟨{ s'.graph with mem := m' }, l'⟩ :=
  (returns Mem.fresh_unengaged run_returnsRun).2 rfl

/-! ### How long it takes -/

/-- The steps that are left, spontaneous wake-ups apart. -/
def remaining (G : Node α) (s : Execution α) : ℕ :=
  (s.abs G).remaining G + s.latch.total (LatchImpl.credit 1)

theorem Valid.remaining_step (h : s.Valid G) (hs : Step G s (t, e) s') :
    s'.remaining G + 1 ≤ s.remaining G + if e.spurious then 4 else 0 := by
  cases step_iff.mp hs with
  | @graph fr rest e g ht hne hg =>
      have hrem := h.graph.remaining_step (h.abs_graph ht hne hg).1
      show (abs G ⟨g, s.latch⟩).remaining G + s.latch.total (LatchImpl.credit 1) + 1 ≤ _ + 0
      unfold remaining
      omega
  | @latch o rest e l ht hf =>
      have hcredit := h.latch.credit_step (Monitor.step_iff.mpr hf)
      obtain ⟨p, q, -, -, rfl, -⟩ := h.latch_cases ht hf
      rw [if_neg (by simp)] at hcredit
      have hrem : (abs G (s.counting G t o rest l)).remaining G ≤ (s.abs G).remaining G := by
        rcases h.abs_latch ht hf with ⟨-, hstep⟩ | ⟨-, habs⟩
        · exact (h.graph.remaining_step hstep).ge.trans' (Nat.le_succ _)
        · exact (congrArg _ habs).le
      show (abs G (s.counting G t o rest l)).remaining G + l.total (LatchImpl.credit 1) + 1 ≤ _ + 0
      unfold remaining
      omega
  | @wait e l h0 ht hf =>
      have hcredit := h.latch.credit_step (Monitor.step_iff.mpr hf)
      have hspur : (ExecEvent.wait (α := α) e).spurious = true ↔ e = .wake := by
        cases e <;> simp [ExecEvent.spurious]
      show (abs G ⟨s.graph, l⟩).remaining G + l.total (LatchImpl.credit 1) + 1 ≤ _
      rw [h.abs_wait hf]
      unfold remaining
      simp only [hspur]
      omega

theorem remaining_start (hm : m.Unengaged) : (start G m x).remaining G =
    G.work + 3 + ((G.cleanupCount + 1) * 7 + 3) := by
  have hcredit := LatchImpl.total_credit_start (n := G.cleanupCount + 1) (k := 1)
  unfold remaining
  rw [abs_start, Orizzonte.remaining_start hm]
  exact congrArg _ hcredit

/-- How often `wait` woke up by itself. -/
def wakes (τ : List (ℕ × ExecEvent α)) : ℕ := (τ.filter fun l => l.2.spurious).length

/-- **`sync_execute` terminates**: a run has a bounded number of steps, with four more for each
time `wait` wakes up by itself, and from every state it can go on, without that, until the
destructor of the latch has returned and every thread is through. -/
theorem terminates (hm : m.Unengaged) (hr : Run (Step G) (start G m x) τ s) :
    τ.length ≤ G.work + 3 + ((G.cleanupCount + 1) * 7 + 3) + 4 * wakes τ ∧
    ∃ σ s', Run (Only (fun l => l.2.spurious = false) (Step G)) s σ s' ∧
      s'.Returned G ∧ ∀ st ∈ s'.graph.threads, st = [] := by
  constructor
  · have hle := hr.invariant (I := fun τ s => s.Valid G ∧
      τ.length + s.remaining G ≤ G.work + 3 + ((G.cleanupCount + 1) * 7 + 3) + 4 * wakes τ)
      ⟨Valid.start hm, by simp [remaining_start hm, wakes]⟩ ?_
    · omega
    · rintro σ u ⟨t, e⟩ u' - ⟨h, hle⟩ hs
      refine ⟨h.step hs, ?_⟩
      have hrem := h.remaining_step hs
      have hwakes : wakes (σ ++ [(t, e)]) = wakes σ + if e.spurious then 1 else 0 := by
        unfold wakes
        rw [List.filter_append, List.length_append, List.filter_singleton]
        cases e.spurious <;> simp
      rw [List.length_append, List.length_singleton, hwakes]
      split_ifs at hrem ⊢ <;> omega
  · have hstep : ∀ u l u', u.Valid G → Only (fun l => l.2.spurious = false) (Step G) u l u' →
        u'.Valid G := fun u l u' hu hl => hu.step (t := l.1) hl.1
    have h : s.Valid G := (run_start hm hr).1
    obtain ⟨σ, s', hσ, hstuck⟩ := exists_run_to_stuck (μ := remaining G) hstep
      (fun u l u' hu hl => by
        have hrem := hu.remaining_step (t := l.1) hl.1
        rw [hl.2] at hrem
        exact hrem) h
    have h' : s'.Valid G := hσ.invariant (I := fun _ u => u.Valid G) h
      fun _ u l u' _ hu hl => hstep u l u' hu hl
    exact ⟨σ, s', hσ, h'.returned_of_stuck hstuck, h'.threads_of_stuck hstuck⟩

theorem terminates_returnsRun :
    returnsRun.1.length ≤ race.work + 3 + ((race.cleanupCount + 1) * 7 + 3) +
      4 * wakes returnsRun.1 ∧
    ∃ σ s', Run (Only (fun l => l.2.spurious = false) (Step race)) returnsRun.2 σ s' ∧
      s'.Returned race ∧ ∀ st ∈ s'.graph.threads, st = [] :=
  terminates Mem.fresh_unengaged run_returnsRun

end Execution

end Orizzonte
