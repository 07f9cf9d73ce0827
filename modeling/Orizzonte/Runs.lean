/-
Orizzonte/Runs.lean

Runs of `execute` from its call on.  Whatever flow is used to look at a run, the
ledger is the same (`State.owed`), and it is conserved: what the events of a run
discharged and what is still owed add up to what the graph owed at the call
(`conserve`).  `conserve` is stated for a weight of the actions in any commutative
monoid; counts, sets of addresses and the number of steps are instances.
-/
import Orizzonte.Progress

namespace Orizzonte

open Lts

universe u v

variable {α : Type u}

/-! ### The ledger does not depend on the flow -/

section Congr

variable {D D' : Type*} (out : Node α → ℕ → D → D) (out' : Node α → ℕ → D' → D')

/-- The calls of a graph are the same for all annotations. -/
theorem Node.map_sites_congr {β : Type*} (f : Node α → ℕ → Cont α → β) (g : Node α) (a : ℕ)
    (K : Cont α) (d : D) (d' : D') :
    (g.sites out a K d).map (fun x => f x.node x.addr x.cont) =
      (g.sites out' a K d').map fun x => f x.node x.addr x.cont := by
  induction g generalizing a K d d' with
  | leaf => rfl
  | seq A B ihA ihB =>
      simp only [sites, List.map_cons, List.map_append]
      rw [ihA a _ d d', ihB _ K _ (out' A a d')]
  | fork k fs ih =>
      simp only [sites, List.map_cons, List.map_flatMap]
      congr 1
      exact congrArg (fun h => List.flatMap h _) (funext fun i => ih i _ _ d d')

theorem Mem.obs_sites_congr (m : Mem α) (g : Node α) (a : ℕ) (K : Cont α) (d : D) (d' : D') :
    m.obs (g.sites out a K d) = m.obs (g.sites out' a K d') := by
  have h := Node.map_sites_congr out out'
    (fun g a K => Site.owes m (⟨g, a, K, ()⟩ : Site α Unit)) g a K d d'
  exact congrArg List.sum h

end Congr

/-- What a state of a run of `G` owes. -/
def State.owed (G : Node α) (s : State α) : Multiset Ob := s.obs ((Flow.trivial (α := α)).sites G)

variable {φ : Flow.{u, v} α} {G : Node α} {s s' : State α} {m : Mem α} {x : Value α}
  {τ : List (ℕ × Event α)}

theorem State.obs_eq_owed (φ : Flow.{u, v} α) (G : Node α) (s : State α) :
    s.obs (φ.sites G) = s.owed G :=
  congrArg ((s.threads.map stackObs).sum + ·) (Mem.obs_sites_congr _ _ s.mem G 0 .root φ.d₀ ())

/-! ### The state at the call -/

/-- What a call of `execute` owes. -/
def Node.total (G : Node α) : Multiset Ob := G.obs 0 + (Cont.root : Cont α).obs

theorem Mem.Unengaged.obs_eq_zero {D : Type*} {l : List (Site α D)} (hm : m.Unengaged) :
    m.obs l = 0 := by
  apply Multiset.eq_zero_of_forall_notMem
  intro o ho
  obtain ⟨y, -, ho⟩ := Tally.mem_sum_map.mp ho
  unfold Site.owes at ho
  split at ho
  · rw [Join.owes_of_not_engaged (hm _)] at ho
    exact Multiset.notMem_zero o ho
  · exact Multiset.notMem_zero o ho

theorem State.obs_start {D : Type*} {l : List (Site α D)} (hm : m.Unengaged) :
    (State.start G m x).obs l = G.total := by
  simp [State.obs, State.start, hm.obs_eq_zero, Frame.obs, Src.obs, Node.total]

theorem Node.nodup_total (G : Node α) : G.total.Nodup := by
  refine Multiset.nodup_add.mpr ⟨G.nodup_obs 0, by simp [Cont.obs], ?_⟩
  apply Multiset.disjoint_left.mpr
  intro o ho ho'
  have hw := G.within_of_mem_obs ho
  simp only [Cont.obs, Multiset.mem_add, Multiset.mem_singleton] at ho'
  rcases ho' with (rfl | rfl) | rfl <;> exact hw

theorem Inv.start (hm : m.Unengaged) (hx : φ.holds φ.d₀ x) : Inv φ G (State.start G m x) := by
  have hobs : (State.start G m x).obs (φ.sites G) = G.total := State.obs_start hm
  have hmem : ∀ {k : Join} {n : ℕ} {fs : Fin (n + 1) → Node α} {a K d},
      ⟨.fork k fs, a, K, d⟩ ∈ φ.sites G → ∀ {o}, o ∈ (Node.fork k fs).obs a → o ∈ G.total :=
    fun hd _ ho => Multiset.mem_add.mpr
      (.inl (Multiset.mem_of_le (Node.obs_le_of_mem_sites hd) ho))
  have hbranch : ∀ {k : Join} {n : ℕ} {fs : Fin (n + 1) → Node α} {a K d},
      ⟨.fork k fs, a, K, d⟩ ∈ φ.sites G → ∀ {o i}, o ∈ k.branchObs a fs i → o ∈ G.total :=
    fun hd o i ho => hmem hd (Node.mem_obs_fork.mpr (.inr (.inr ⟨i, ho⟩)))
  have hcons : ∀ {k : Join} {n : ℕ} {fs : Fin (n + 1) → Node α} {a K d},
      ⟨.fork k fs, a, K, d⟩ ∈ φ.sites G → Ob.construct a ∈ G.total :=
    fun hd => hmem hd (Node.first_mem_obs _ _)
  -- everything is still owed, so each clause about what has been done is vacuous
  refine ⟨hobs ▸ G.nodup_total, ?_, fun {k n fs a K d} hd => ?_, fun a => ?_, fun hn => ?_⟩
  · intro st hst fr hfr
    obtain rfl := List.mem_singleton.mp hst
    obtain rfl := List.mem_singleton.mp hfr
    exact ⟨φ.d₀, Node.mem_sites_self, .root, trivial, hx⟩
  · rw [hobs]
    have heng : ((State.start G m x).mem a).state.engaged = false := hm a
    refine ⟨fun hc => absurd (hcons hd) hc, fun hc => absurd (hcons hd) hc,
      fun hc => absurd (hcons hd) hc, fun he => by simp [heng] at he, fun _ i _ => ?_,
      fun hk i hw => absurd ?_ hw, fun hk hw => absurd ?_ hw, fun i hi => absurd ?_ hi⟩
    · exact hbranch hd (Join.mem_branchObs.mpr (.inr (.inr (.inr (.inl rfl)))))
    · exact hbranch hd (Join.mem_branchObs.mpr (.inr (.inr (.inl ⟨hk, rfl⟩))))
    · exact hmem hd (Node.mem_obs_fork.mpr (.inr (.inl
        (Join.mem_nodeObs.mpr (.inr (.inr ⟨hk, .inl rfl⟩))))))
    · exact hbranch hd (Join.mem_branchObs.mpr (.inr (.inr (.inr (.inl rfl)))))
  · have heng : ((State.start G m x).mem a).state.engaged = false := hm a
    rw [heng, hobs]
    refine iff_of_false Bool.false_ne_true fun hc => hc.1 ?_
    rcases Multiset.mem_add.mp hc.2 with hd | hd
    · exact Multiset.mem_add.mpr (.inl (G.construct_mem_obs hd rfl))
    · simp [Cont.obs] at hd
  · rw [hobs] at hn
    exact absurd (Multiset.mem_add.mpr (.inr (by simp [Cont.obs]))) hn

/-- **The invariant of a flow holds along every run that the flow allows**, and the flow
knows the values of all its events. -/
theorem Inv.run (hm : m.Unengaged) (hx : φ.holds φ.d₀ x)
    (hr : Run Step (State.start G m x) τ s) (hτ : ∀ l ∈ τ, φ.allowed l.2) :
    Inv φ G s ∧ ∀ l ∈ τ, l.2.OK φ G := by
  have h := (Run.only_iff (P := fun l : ℕ × Event α => φ.allowed l.2)).mpr ⟨hr, hτ⟩
  refine h.invariant (I := fun τ s => Inv φ G s ∧ ∀ l ∈ τ, l.2.OK φ G)
    ⟨Inv.start hm hx, by simp⟩ ?_
  rintro σ u ⟨t, e⟩ u' - ⟨hu, hσ⟩ ⟨hstep, he⟩
  obtain ⟨hu', hOK⟩ := hu.step hstep he
  refine ⟨hu', fun l hl => ?_⟩
  rcases List.mem_append.mp hl with hl | hl
  · exact hσ l hl
  · obtain rfl := List.mem_singleton.mp hl
    exact hOK

/-- The invariant of the machine holds along every run. -/
theorem Inv.reached (hm : m.Unengaged) (hr : Run Step (State.start G m x) τ s) :
    Inv Flow.trivial G s :=
  (Inv.run hm trivial hr fun _ _ => trivial).1

/-! ### Conservation -/

section Conserve

variable {M : Type*} [AddCommMonoid M] (w : Ob → M)

/-- The weight of what an event discharges. -/
def Event.weight (e : Event α) : M := (e.discharges.map w).sum

theorem Inv.conserve_step (h : Inv φ G s) {t : ℕ} {e : Event α} (hs : Step s (t, e) s')
    (hw : ∀ q, w (.read q) = 0) :
    ((s.obs (φ.sites G)).map w).sum = e.weight w + ((s'.obs (φ.sites G)).map w).sum := by
  obtain ⟨c, fr, rest, o, ht, hf, rfl, rfl⟩ := step_iff.mp hs
  obtain ⟨ρ, hρ, heq, -⟩ := h.ledger ht hf
  have hzero : (ρ.map w).sum = 0 := by
    apply Multiset.sum_eq_zero
    intro y hy
    obtain ⟨o', ho', rfl⟩ := Multiset.mem_map.mp hy
    obtain ⟨q, rfl⟩ := hρ o' ho'
    exact hw q
  rw [heq, Multiset.map_add, Multiset.map_add, Multiset.sum_add, Multiset.sum_add, hzero, add_zero]
  rfl

/-- **Conservation**: what a run discharged and what it still owes is what the graph owed. -/
theorem conserve (hw : ∀ q, w (.read q) = 0) (hm : m.Unengaged)
    (hr : Run Step (State.start G m x) τ s) :
    (G.total.map w).sum = (τ.map fun l => l.2.weight w).sum + ((s.owed G).map w).sum := by
  have h := hr.invariant (I := fun τ s => Inv Flow.trivial G s ∧ (G.total.map w).sum =
    (τ.map fun l => l.2.weight w).sum + ((s.owed G).map w).sum)
    ⟨Inv.start hm trivial, by simp [State.owed, State.obs_start hm]⟩ ?_
  · exact h.2
  · rintro σ u ⟨t, e⟩ u' - ⟨hu, heq⟩ hstep
    refine ⟨(hu.step hstep trivial).1, ?_⟩
    have hc := hu.conserve_step w hstep hw
    rw [heq, State.owed, hc, List.map_append, List.sum_append, add_assoc]
    simp [State.owed]

end Conserve

/-! ### Owed or done -/

/-- An action is owed after a step unless it was not owed before, or is the one of the
step. -/
theorem Inv.mem_obs_step (h : Inv φ G s) {t : ℕ} {e : Event α} (hs : Step s (t, e) s') {o : Ob}
    (ho : ∀ q, o ≠ .read q) :
    o ∈ s'.obs (φ.sites G) ↔ o ∈ s.obs (φ.sites G) ∧ o ∉ e.discharges := by
  obtain ⟨c, fr, rest, out, ht, hf, rfl, rfl⟩ := step_iff.mp hs
  have T := h.transfer ht hf
  exact ⟨fun hmem => ⟨Multiset.mem_of_le T.le hmem, fun he => T.gone he hmem⟩,
    fun hmem => by_contra fun hn => hmem.2 (T.lost hmem.1 hn ho)⟩

/-- **An action of the graph is owed until it is done.** -/
theorem mem_owed_iff (hm : m.Unengaged) (hr : Run Step (State.start G m x) τ s) {o : Ob}
    (ho : ∀ q, o ≠ .read q) :
    o ∈ s.owed G ↔ o ∈ G.total ∧ ∀ l ∈ τ, o ∉ l.2.discharges := by
  have h := hr.invariant (I := fun τ s => Inv Flow.trivial G s ∧
    (o ∈ s.owed G ↔ o ∈ G.total ∧ ∀ l ∈ τ, o ∉ l.2.discharges))
    ⟨Inv.start hm trivial, by simp [State.owed, State.obs_start hm]⟩ ?_
  · exact h.2
  · rintro σ u ⟨t, e⟩ u' - ⟨hu, hiff⟩ hstep
    refine ⟨(hu.step hstep trivial).1, ?_⟩
    have hmem := hu.mem_obs_step hstep ho
    simp only [State.owed] at hiff ⊢
    rw [hmem, hiff, and_assoc]
    simp only [List.mem_append, List.mem_singleton, or_imp, forall_and, forall_eq]

/-- No action is done twice. -/
theorem not_done_twice (hm : m.Unengaged) (hr : Run Step (State.start G m x) τ s) {t : ℕ}
    {e : Event α} (hs : Step s (t, e) s') {o : Ob} (ho : ∀ q, o ≠ .read q)
    (he : o ∈ e.discharges) : ∀ l ∈ τ, o ∉ l.2.discharges := by
  obtain ⟨c, fr, rest, out, ht, hf, rfl, rfl⟩ := step_iff.mp hs
  have T := (Inv.reached hm hr).transfer ht hf
  exact ((mem_owed_iff hm hr ho).mp (T.owed he)).2

end Orizzonte
