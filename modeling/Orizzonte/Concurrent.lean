/-
Orizzonte/Concurrent.lean

Schedulers that run every task on a thread of its own.  Without inline tasks a
stack holds nothing back: below the frame that moves there are only results of
leaves and, in an any node with a single child, the `destroy` that follows `then`
(`Frame.Waits`).  No frame that waits owes a `fetch_sub` or the call of `then`, so
these only depend on the frames that can move.
-/
import Orizzonte.Eval

namespace Orizzonte

open Lts

universe u v

variable {α : Type u} {φ : Flow.{u, v} α} {G : Node α} {s s' : State α} {t : ℕ} {e : Event α}

/-- The scheduler does not run a task inside its call. -/
def Event.Concurrent : Event α → Prop
  | submit _ _ inline => inline = false
  | _ => True

/-- Frames below the top one. -/
def Frame.Waits : Frame α → Prop
  | leafTemp _ _ => True
  | anyDestroy _ n => n = 0
  | _ => False

/-- Only frames of this kind wait. -/
def State.Shaped (s : State α) : Prop := ∀ st ∈ s.threads, ∀ fr ∈ st.tail, fr.Waits

theorem State.shaped_start (G : Node α) (m : Mem α) (x : Value α) :
    (State.start G m x).Shaped := by
  intro st hst fr hfr
  obtain rfl := List.mem_singleton.mp hst
  exact absurd hfr List.not_mem_nil

/-- A frame leaves nothing but waiting frames below its successor. -/
theorem Fires.tail_waits {m : Mem α} {c : Choice α} {fr : Frame α} {o : Outcome α}
    (hf : Fires m c fr o) (hc : o.event.Concurrent) : ∀ fr' ∈ o.frames.tail, fr'.Waits := by
  cases hf with
  | leafRet a r f input arg K =>
      intro fr' hfr'
      obtain rfl := List.mem_singleton.mp hfr'
      exact True.intro
  | submitInline => cases hc
  | allFetchSub a n i K h =>
      split_ifs <;> exact fun _ h => absurd h List.not_mem_nil
  | anyFetchSub a n i t out K h =>
      intro fr' hfr'
      -- both branches are taken only where the first child is the last one
      by_cases hfirst : (m a).state.bytes.left = n + 1
      · by_cases hlast : (m a).state.bytes.left = 1
        · rw [if_pos hfirst, if_pos hlast] at hfr'
          obtain rfl := List.mem_singleton.mp hfr'
          show n = 0
          omega
        · rw [if_pos hfirst, if_neg hlast] at hfr'
          exact absurd hfr' List.not_mem_nil
      · rw [if_neg hfirst] at hfr'
        split_ifs at hfr' <;> exact absurd hfr' List.not_mem_nil
  | _ => exact fun _ h => absurd h List.not_mem_nil

theorem State.Shaped.step (h : s.Shaped) (hs : Step s (t, e) s') (hc : e.Concurrent) :
    s'.Shaped := by
  obtain ⟨c, fr, rest, o, ht, hf, rfl, rfl⟩ := step_iff.mp hs
  have hrest : ∀ fr' ∈ rest, fr'.Waits := h _ (List.mem_of_getElem? ht)
  intro st hst fr' hfr'
  obtain ⟨t', ht'⟩ := List.mem_iff_getElem?.mp hst
  rcases State.getElem?_after ht ht' with ⟨-, rfl⟩ | ⟨-, ht'⟩ | ⟨-, sp, -, rfl⟩
  · rcases ho : o.frames with - | ⟨top, below⟩
    · rw [ho] at hfr'
      exact hrest fr' (List.mem_of_mem_tail hfr')
    · rw [ho] at hfr'
      rcases List.mem_append.mp hfr' with hfr' | hfr'
      · apply hf.tail_waits hc
        rw [ho]
        exact hfr'
      · exact hrest fr' hfr'
  · exact h st (List.mem_of_getElem? ht') fr' hfr'
  · exact absurd hfr' List.not_mem_nil

/-- A waiting frame owes no goal of a continuation. -/
theorem Frame.Waits.goal_notMem {fr : Frame α} (h : fr.Waits) (g : Option (ℕ × ℕ)) :
    Ob.goal g ∉ fr.obs := by
  cases fr with
  | leafTemp a x => exact Multiset.notMem_zero _
  | anyDestroy a n => rcases g with - | ⟨p, i⟩ <;> simp [Frame.obs, Ob.goal]
  | _ => exact h.elim

/-- A scheduler may always leave a task to another thread. -/
theorem Inv.exists_concurrent (h : Inv φ G s) {fr : Frame α} {rest : List (Frame α)}
    (ht : s.threads[t]? = some (fr :: rest)) :
    ∃ o, Fires s.mem default fr o ∧ o.event.Concurrent ∧
      Step s (t, o.event) (s.after t rest o) := by
  obtain ⟨o, ho⟩ := h.exists_fires ht default
  refine ⟨o, ho, ?_, step_iff.mpr ⟨default, fr, rest, o, ht, ho, rfl, rfl⟩⟩
  cases ho with
  | submitInline k a fs i K hi => cases hi
  | submitThread => exact rfl
  | _ => exact True.intro

/-- No goal is owed by a state, if none is by the frames that can move. -/
theorem Inv.drained_of_top (h : Inv φ G s) (hsh : s.Shaped) (Good : Option (ℕ × ℕ) → Prop)
    (hgood : ∀ {k : Join} {n : ℕ} {fs : Fin (n + 1) → Node α} {a K d},
      ⟨.fork k fs, a, K, d⟩ ∈ φ.sites G → Good K.endsAt →
      (k = .all → ∀ j : Fin (n + 1), Good (some (a, j))) ∧
      (k = .any → ∃ j : Fin (n + 1), Good (some (a, j))))
    (htop : ∀ (t : ℕ) (fr : Frame α) (rest : List (Frame α)),
      s.threads[t]? = some (fr :: rest) → ∀ g, Good g → Begun (s.obs (φ.sites G)) g →
      Ob.goal g ∉ fr.obs)
    (g : Option (ℕ × ℕ)) (hg : Good g) (hb : Begun (s.obs (φ.sites G)) g) :
    Ob.goal g ∉ s.obs (φ.sites G) := by
  apply h.drained Good hgood _ g hg hb
  intro st hst fr hfr g hg hb
  obtain ⟨t, ht⟩ := List.mem_iff_getElem?.mp hst
  cases st with
  | nil => exact absurd hfr List.not_mem_nil
  | cons top rest =>
      rcases List.mem_cons.mp hfr with rfl | hfr
      · exact htop t fr rest ht g hg hb
      · exact (hsh _ hst fr hfr).goal_notMem g

/-! ### Every outcome of the races is possible -/

section Converse

variable {m : Mem α} {x : Value α} {w : ℕ → ℕ}

/-- The steps of a concurrent scheduler that lets the children win that `w` names. -/
def Event.Fair (G : Node α) (w : ℕ → ℕ) : Event α → Prop
  | submit _ _ inline => inline = false
  | fetchSub a n i r => a ∈ G.anyAddrs 0 → r = n + 1 → i = w a
  | _ => True

theorem mem_anyAddrs_of_site {n : ℕ} {fs : Fin (n + 1) → Node α} {a : ℕ} {K : Cont α}
    {d : φ.D} (h : ⟨.any fs, a, K, d⟩ ∈ φ.sites G) : a ∈ G.anyAddrs 0 := by
  unfold Node.anyAddrs
  rw [Node.collect_eq_flatMap φ.out _ G 0 .root φ.d₀]
  exact List.mem_flatMap.mpr ⟨_, h, List.mem_singleton_self _⟩

theorem exists_site_of_mem_anyAddrs (φ : Flow.{u, v} α) {a : ℕ} (h : a ∈ G.anyAddrs 0) :
    ∃ (n : ℕ) (fs : Fin (n + 1) → Node α) (K : Cont α) (d : φ.D),
      ⟨.any fs, a, K, d⟩ ∈ φ.sites G := by
  unfold Node.anyAddrs at h
  rw [Node.collect_eq_flatMap φ.out _ G 0 .root φ.d₀] at h
  obtain ⟨⟨g, b, K, d⟩, hx, hb⟩ := List.mem_flatMap.mp h
  cases g with
  | leaf | seq => exact absurd hb List.not_mem_nil
  | @fork k n fs =>
      cases k with
      | all => exact absurd hb List.not_mem_nil
      | any =>
          obtain rfl := List.mem_singleton.mp hb
          exact ⟨n, fs, K, d, hx⟩

/-- While the counter of a node is its arity, every child owes its `fetch_sub`. -/
theorem Inv.fetchSub_mem_of_left (h : Inv φ G s) {k : Join} {n : ℕ} {fs : Fin (n + 1) → Node α}
    {a : ℕ} {K : Cont α} {d : φ.D} (hx : ⟨.fork k fs, a, K, d⟩ ∈ φ.sites G)
    (hc : Ob.construct a ∉ s.obs (φ.sites G)) (hleft : (s.mem a).state.bytes.left = n + 1)
    (j : Fin (n + 1)) : Ob.fetchSub a j ∈ s.obs (φ.sites G) := by
  have hcard : (pending (s.obs (φ.sites G)) a n).card = n + 1 := by
    rw [(h.nodes hx).left hc] at hleft
    exact_mod_cast hleft
  have huniv : pending (s.obs (φ.sites G)) a n = Finset.univ := by
    apply Finset.eq_univ_of_card
    rw [hcard, Fintype.card_fin]
  apply mem_pending.mp
  rw [huniv]
  exact Finset.mem_univ j

/-- Where no fair step is left, a thread is held back as a child about to be the first one on
its any node, instead of the child that `w` names. -/
theorem Inv.held_back (h : Inv φ G s)
    (hs : Stuck (Only (fun l : ℕ × Event α => l.2.Fair G w) Step) s) {t : ℕ} {fr : Frame α}
    {rest : List (Frame α)} (ht : s.threads[t]? = some (fr :: rest)) :
    ∃ a n i ty out K, fr = .anyFetchSub a n i ty out K ∧ i ≠ w a ∧
      (s.mem a).state.bytes.left = n + 1 := by
  obtain ⟨o, ho, hc, hstep⟩ := h.exists_concurrent ht
  have hnot : ¬ o.event.Fair G w := fun hfair => hs (t, o.event) _ ⟨hstep, hfair⟩
  cases ho with
  | anyFetchSub a n i ty out K hst =>
      refine ⟨a, n, i, ty, out, K, rfl, fun hi => hnot fun _ _ => hi, ?_⟩
      by_contra hne
      exact hnot fun _ hr => absurd hr hne
  | allFetchSub a n i K hst =>
      apply absurd _ hnot
      intro hany
      obtain ⟨n', fs', K', d', hx'⟩ := exists_site_of_mem_anyAddrs φ hany
      obtain ⟨fs, d, j, -, hx, -⟩ := h.frame_OK ht
      cases Node.fork_site_ext hx hx'
  | submitInline => cases hc
  | submitThread => exact absurd rfl hnot
  | _ => exact absurd True.intro hnot

/-- Where no fair step is left, no step is.  A thread that is held back is not the child that
`w` names; but that child still owes its `fetch_sub`, which some thread that is not held
back leads to. -/
theorem Inv.stuck_of_fair (h : Inv φ G s) (hsh : s.Shaped)
    (hw : ∀ a N, (a, N) ∈ G.forks 0 → a ∈ G.anyAddrs 0 → w a < N)
    (hs : Stuck (Only (fun l : ℕ × Event α => l.2.Fair G w) Step) s) : Stuck Step s := by
  rw [h.stuck_iff]
  intro st hst
  cases st with
  | nil => rfl
  | cons fr rest =>
      exfalso
      obtain ⟨t, ht⟩ := List.mem_iff_getElem?.mp hst
      obtain ⟨a, n, i, ty, out, K, rfl, -, hleft⟩ := h.held_back hs ht
      obtain ⟨fs, d, j, -, hx, hc, -⟩ := h.frame_OK ht
      -- nobody has been first on this node, so the named child is pending
      have hwa : w a < n + 1 := hw a (n + 1) (mem_forks_of_site hx) (mem_anyAddrs_of_site hx)
      have hpend : Ob.fetchSub a (w a) ∈ s.obs (φ.sites G) :=
        h.fetchSub_mem_of_left hx hc hleft ⟨w a, hwa⟩
      refine h.drained_of_top hsh
        (fun g => ∀ p i, g = some (p, i) → p ∈ G.anyAddrs 0 → i = w p) ?_ ?_
        (some (a, w a)) ?_ ?_ hpend
      · intro k n fs b K d hb _
        constructor
        · rintro rfl j p i hp hany
          obtain ⟨rfl, rfl⟩ := Prod.mk.inj (Option.some.inj hp)
          obtain ⟨n', fs', K', d', hx'⟩ := exists_site_of_mem_anyAddrs φ hany
          cases Node.fork_site_ext hb hx'
        · rintro rfl
          refine ⟨⟨w b, hw b (n + 1) (mem_forks_of_site hb) (mem_anyAddrs_of_site hb)⟩, ?_⟩
          intro p i hp _
          obtain ⟨rfl, rfl⟩ := Prod.mk.inj (Option.some.inj hp)
          rfl
      · intro t' fr' rest' ht' g hg _ hmem
        obtain ⟨b, n', i', ty', out', K', rfl, hne, -⟩ := h.held_back hs ht'
        obtain ⟨fs', d', j', -, hx', -⟩ := h.frame_OK ht'
        rcases g with - | ⟨p, l⟩
        · rcases Multiset.mem_add.mp hmem with hmem | hmem
          · simp [Ob.goal] at hmem
          · obtain ⟨q, hq⟩ := Src.exists_read_of_mem_obs hmem
            cases hq
        · rcases Multiset.mem_add.mp hmem with hmem | hmem
          · obtain ⟨rfl, rfl⟩ : p = b ∧ l = i' := by simpa [Ob.goal] using hmem
            exact hne (hg p l rfl (mem_anyAddrs_of_site hx'))
          · obtain ⟨q, hq⟩ := Src.exists_read_of_mem_obs hmem
            cases hq
      · intro p i hp _
        obtain ⟨rfl, rfl⟩ := Prod.mk.inj (Option.some.inj hp)
        rfl
      · intro p i hp
        obtain ⟨rfl, -⟩ := Prod.mk.inj (Option.some.inj hp)
        exact hc

theorem Event.Fair.concurrent (h : e.Fair G w) : e.Concurrent := by
  cases e <;> first | exact h | exact True.intro

/-- **Every assignment of winners is the one of some complete run**, with a thread for each
task. -/
theorem exists_run_with_winners (hm : m.Unengaged) (x : Value α)
    (hw : ∀ a N, (a, N) ∈ G.forks 0 → a ∈ G.anyAddrs 0 → w a < N) :
    ∃ τ s, Run Step (State.start G m x) τ s ∧ Stuck Step s ∧ (∀ l ∈ τ, l.2.Concurrent) ∧
      ∀ a ∈ G.anyAddrs 0, winner τ a = w a := by
  have hex : ∃ τ s, Run (Only (fun l : ℕ × Event α => l.2.Fair G w) Step) (State.start G m x) τ s ∧
      Stuck (Only (fun l : ℕ × Event α => l.2.Fair G w) Step) s := by
    apply exists_run_to_stuck (μ := State.remaining G)
      (I := fun s => Inv Flow.trivial G s ∧ s.Shaped) _ _
      ⟨Inv.start hm trivial, State.shaped_start G m x⟩
    · intro u l u' hu hl
      exact ⟨(hu.1.step (t := l.1) hl.1 trivial).1, hu.2.step (t := l.1) hl.1 hl.2.concurrent⟩
    · intro u l u' hu hl
      have := hu.1.remaining_step (t := l.1) hl.1
      omega
  obtain ⟨τ, s, hr, hs⟩ := hex
  have hsh : s.Shaped := hr.invariant (I := fun _ s => s.Shaped) (State.shaped_start G m x)
    fun σ u l u' _ hu hl => hu.step (t := l.1) hl.1 hl.2.concurrent
  obtain ⟨hr, hfair⟩ := Run.only_iff.mp hr
  have hstuck := (Inv.reached hm hr).stuck_of_fair hsh hw hs
  refine ⟨τ, s, hr, hstuck, fun l hl => (hfair l hl).concurrent, fun a ha => ?_⟩
  obtain ⟨n, fs, K, d, hx⟩ := exists_site_of_mem_anyAddrs Flow.trivial ha
  have hfork := mem_forks_of_site hx
  have hlen := length_fetchSubs hm hr hstuck hfork
  have hsnd := (fetchSubs_count_down hm hr hfork).values
  rcases hfs : fetchSubs a τ with - | ⟨⟨i, r⟩, rest⟩
  · rw [hfs] at hlen
    cases hlen
  · -- the first value returned is the arity
    have hr' : r = (n : ℤ) + 1 := by
      rw [hfs, List.length_cons, List.map_cons, List.range_succ_eq_map, List.map_cons] at hsnd
      have := (List.cons.inj hsnd).1
      push_cast at this
      omega
    obtain ⟨l, hl, hlf⟩ := List.mem_filterMap.mp
      (show (i, r) ∈ fetchSubs a τ by rw [hfs]; exact List.mem_cons_self ..)
    have hwin : winner τ a = i := by
      unfold winner
      rw [hfs]
      rfl
    rw [hwin]
    obtain ⟨t, e⟩ := l
    cases e with
    | fetchSub b n' i' r' =>
        have hf := hfair _ hl
        have hfork' := (mem_forks_of_fetchSub hm hr hl).1
        simp only [Event.fetchSub?] at hlf
        split_ifs at hlf with hb
        subst hb
        cases hlf
        obtain rfl : n = n' := by
          have := forks_unique hfork hfork'
          omega
        exact hf ha hr'
    | _ => cases hlf

end Converse

/-! ### Refinement -/

/-- **The runs of `execute` are the sequential evaluations of the graph.**  A complete run
calls every leaf with the argument, and `then` with the value, that the evaluator
computes from the winners of the run; runs with the same winners agree; and every choice
of winners is made by some complete run with a thread for each task. -/
theorem runs_are_evaluations {m : Mem α} (hm : m.Unengaged) (G : Node α) (x : Value α) :
    (∀ τ s, Run Step (State.start G m x) τ s → Stuck Step s →
      (∀ a ∈ G.anyAddrs 0, ((fetchSubs a τ).map Prod.fst).head? = some (winner τ a)) ∧
      (leafCalls τ).Perm (G.leafArgs (winner τ) 0 x) ∧
      thenCalls τ = [G.eval (winner τ) 0 x]) ∧
    (∀ τ s τ' s', Run Step (State.start G m x) τ s → Stuck Step s →
      Run Step (State.start G m x) τ' s' → Stuck Step s' →
      (∀ a ∈ G.anyAddrs 0, winner τ a = winner τ' a) →
      (leafCalls τ).Perm (leafCalls τ') ∧ thenCalls τ = thenCalls τ') ∧
    (∀ w : ℕ → ℕ, (∀ a N, (a, N) ∈ G.forks 0 → a ∈ G.anyAddrs 0 → w a < N) →
      ∃ τ s, Run Step (State.start G m x) τ s ∧ Stuck Step s ∧
        (∀ l ∈ τ, l.2.Concurrent) ∧ ∀ a ∈ G.anyAddrs 0, winner τ a = w a) := by
  refine ⟨fun τ s hr hs => ⟨fun a ha => ?_, run_computes_eval hm hr hs⟩,
    fun τ s τ' s' hr hs hr' hs' => runs_agree hm hm hr hs hr' hs',
    fun w hw => exists_run_with_winners hm x hw⟩
  obtain ⟨n, fs, K, d, hx⟩ := exists_site_of_mem_anyAddrs Flow.trivial ha
  have hlen := length_fetchSubs hm hr hs (mem_forks_of_site hx)
  unfold winner
  rcases hfs : fetchSubs a τ with - | ⟨p, rest⟩
  · rw [hfs] at hlen
    cases hlen
  · rfl

theorem runs_are_evaluations_race :
    (∀ τ s, Run Step (State.start race Mem.fresh .nothing) τ s → Stuck Step s →
      (∀ a ∈ race.anyAddrs 0, ((fetchSubs a τ).map Prod.fst).head? = some (winner τ a)) ∧
      (leafCalls τ).Perm (race.leafArgs (winner τ) 0 .nothing) ∧
      thenCalls τ = [race.eval (winner τ) 0 .nothing]) ∧
    (∀ τ s τ' s', Run Step (State.start race Mem.fresh .nothing) τ s → Stuck Step s →
      Run Step (State.start race Mem.fresh .nothing) τ' s' → Stuck Step s' →
      (∀ a ∈ race.anyAddrs 0, winner τ a = winner τ' a) →
      (leafCalls τ).Perm (leafCalls τ') ∧ thenCalls τ = thenCalls τ') ∧
    (∀ w : ℕ → ℕ, (∀ a N, (a, N) ∈ race.forks 0 → a ∈ race.anyAddrs 0 → w a < N) →
      ∃ τ s, Run Step (State.start race Mem.fresh .nothing) τ s ∧ Stuck Step s ∧
        (∀ l ∈ τ, l.2.Concurrent) ∧ ∀ a ∈ race.anyAddrs 0, winner τ a = w a) :=
  runs_are_evaluations Mem.fresh_unengaged race .nothing

end Orizzonte
