/-
Orizzonte/Progress.lean

What an obligation waits for.  An obligation that no frame owes is owed by the
`_state` of a node, whose children still owe a `fetch_sub` each.  Followed down the
graph, these end at a frame (`Inv.drained`), so a state without frames owes nothing
(`Inv.obs_eq_zero`).  Followed up the graph, through the continuations, they end at
a `count_down` (`Inv.exists_countDown`), so as long as anything is owed, a
`count_down` is.

Every frame can move (`Inv.exists_fires`): no assertion of a storage fails, and a
run can only end where all threads have returned.  A measure on states bounds the
length of runs.
-/
import Orizzonte.Invariant

namespace Orizzonte

universe u v

variable {α : Type u}

/-! ### The end of a continuation -/

/-- The action a continuation ends with: the call of `then`, or the `fetch_sub` of a
child. -/
def Ob.goal : Option (ℕ × ℕ) → Ob
  | none => .thenCall
  | some (p, i) => .fetchSub p i

/-- The node of that `fetch_sub` has been constructed. -/
def Begun (O : Multiset Ob) (e : Option (ℕ × ℕ)) : Prop :=
  ∀ p i, e = some (p, i) → Ob.construct p ∉ O

theorem Cont.goal_mem_obs (K : Cont α) : Ob.goal K.endsAt ∈ K.obs := by
  induction K with
  | root => simp [endsAt, Ob.goal, obs]
  | seqK B b K ih => exact Multiset.mem_add.mpr (.inr ih)
  | joinK k a n i t K ih => cases k <;> simp [endsAt, Ob.goal, obs, Join.childObs]

theorem Cont.obs_ne_zero (K : Cont α) : K.obs ≠ 0 :=
  fun h => Multiset.notMem_zero _ (h ▸ K.goal_mem_obs)

theorem Cont.countDown_mem_obs {K : Cont α} (h : K.endsAt = none) :
    Ob.countDown none ∈ K.obs := by
  induction K with
  | root => simp [obs]
  | seqK B b K ih => exact Multiset.mem_add.mpr (.inr (ih h))
  | joinK => cases h

/-- A continuation owes no other call of `then`, and no other `fetch_sub` on a node that
has been constructed. -/
theorem Cont.endsAt_of_goal_mem {K : Cont α} {e : Option (ℕ × ℕ)} (h : Ob.goal e ∈ K.obs)
    (he : Begun K.obs e) : K.endsAt = e := by
  induction K with
  | root =>
      rcases e with - | ⟨p, i⟩
      · rfl
      · simp [obs, Ob.goal] at h
  | seqK B b K ih =>
      rcases Multiset.mem_add.mp h with h | h
      · rcases e with - | ⟨p, i⟩
        · exact (B.within_of_mem_obs h).elim
        · exact absurd (Multiset.mem_add.mpr (.inl (B.construct_mem_obs h rfl))) (he p i rfl)
      · exact ih h fun p i hp hmem => he p i hp (Multiset.mem_add.mpr (.inr hmem))
  | joinK k a n i t K ih =>
      rcases e with - | ⟨p, j⟩
      · cases k <;> simp [obs, Join.childObs, Ob.goal] at h
      · cases k <;> simp [obs, Join.childObs, Ob.goal] at h <;> simp [endsAt, h]

/-- A continuation that owes the `cleanup` of a node owes its `construct` as well. -/
theorem Cont.construct_mem_of_cleanup {K : Cont α} {p : ℕ} (h : Ob.cleanup p ∈ K.obs) :
    Ob.construct p ∈ K.obs := by
  induction K with
  | root => simp [obs] at h
  | seqK B b K ih =>
      rcases Multiset.mem_add.mp h with h | h
      · exact Multiset.mem_add.mpr (.inl (B.construct_mem_obs h rfl))
      · exact Multiset.mem_add.mpr (.inr (ih h))
  | joinK k a n i t K ih => cases k <;> simp [obs, Join.childObs] at h

/-- `x` is the call of execute on the graph, or on a child, up to the parts of `seq` that
its continuation ends at.  `P` is a property that both parts of a `seq` inherit. -/
def Spine (φ : Flow.{u, v} α) (G : Node α) (P : Node α → ℕ → Prop) (x : Site α φ.D) : Prop :=
  match x.cont.endsAt with
  | none => P G 0 → P x.node x.addr
  | some (p, i) => p < x.addr ∧ ∃ (k : Join) (n : ℕ) (fs : Fin (n + 1) → Node α) (K : Cont α)
      (d : φ.D) (j : Fin (n + 1)), (j : ℕ) = i ∧ ⟨.fork k fs, p, K, d⟩ ∈ φ.sites G ∧
      (P (fs j) (Node.childAddr fs p j) → P x.node x.addr)

theorem spine_of_mem_sites {φ : Flow.{u, v} α} {G : Node α} {P : Node α → ℕ → Prop}
    (hP : ∀ A B a, P (.seq A B) a → P A a ∧ P B (a + A.size)) :
    ∀ x ∈ φ.sites G, Spine φ G P x := by
  refine Node.sites_induction ?_ ?_ ?_ ?_
  · exact fun h => h
  · intro A B a K d _ ih
    unfold Spine at ih ⊢
    simp only [Cont.endsAt] at ih ⊢
    split at ih
    · exact fun h => (hP A B a (ih h)).1
    · obtain ⟨hlt, k, n, fs, K', d', j, hj, hx, hch⟩ := ih
      exact ⟨hlt, k, n, fs, K', d', j, hj, hx, fun h => (hP A B a (hch h)).1⟩
  · intro A B a K d _ ih
    unfold Spine at ih ⊢
    simp only at ih ⊢
    split at ih
    · exact fun h => (hP A B a (ih h)).2
    · obtain ⟨hlt, k, n, fs, K', d', j, hj, hx, hch⟩ := ih
      exact ⟨Nat.lt_add_right _ hlt, k, n, fs, K', d', j, hj, hx,
        fun h => (hP A B a (hch h)).2⟩
  · intro k n fs a K d i hx _
    exact ⟨Node.lt_childAddr fs a i, k, n, fs, K, d, i, rfl, hx, fun h => h⟩

/-- A continuation ends at a node before the call it is passed to. -/
theorem lt_addr_of_endsAt {φ : Flow.{u, v} α} {G : Node α} {x : Site α φ.D}
    (hx : x ∈ φ.sites G) {p i : ℕ} (he : x.cont.endsAt = some (p, i)) : p < x.addr := by
  have h := spine_of_mem_sites (P := fun _ _ => True) (fun _ _ _ _ => ⟨trivial, trivial⟩) x hx
  simp only [Spine, he] at h
  exact h.1

variable {φ : Flow.{u, v} α} {G : Node α} {s : State α}

theorem exists_fork_of_endsAt {x : Site α φ.D} (hx : x ∈ φ.sites G) {p i : ℕ}
    (he : x.cont.endsAt = some (p, i)) :
    ∃ (k : Join) (n : ℕ) (fs : Fin (n + 1) → Node α) (K : Cont α) (d : φ.D) (j : Fin (n + 1)),
      (j : ℕ) = i ∧ ⟨.fork k fs, p, K, d⟩ ∈ φ.sites G := by
  have h := spine_of_mem_sites (P := fun _ _ => True) (fun _ _ _ _ => ⟨trivial, trivial⟩) x hx
  simp only [Spine, he] at h
  obtain ⟨-, k, n, fs, K, d, j, hj, hp, -⟩ := h
  exact ⟨k, n, fs, K, d, j, hj, hp⟩

/-! ### Down the graph -/

/-- What the memory owes, it owes for an engaged node with a pending child. -/
theorem Inv.owed_by_node (h : Inv φ G s) {o : Ob} (ho : o ∈ s.mem.obs (φ.sites G)) :
    ∃ (k : Join) (n : ℕ) (fs : Fin (n + 1) → Node α) (a : ℕ) (K : Cont α) (d : φ.D),
      ⟨.fork k fs, a, K, d⟩ ∈ φ.sites G ∧ Ob.construct a ∉ s.obs (φ.sites G) ∧
      (∃ j : Fin (n + 1), Ob.fetchSub a j ∈ s.obs (φ.sites G)) ∧
      (o ∈ k.lastObs a ∨
        (o ∈ k.firstObs a ∨ o ∈ K.obs) ∧ K.obs ≤ s.obs (φ.sites G) ∧
          (k = .any → ∀ j : Fin (n + 1), Ob.fetchSub a j ∈ s.obs (φ.sites G))) := by
  obtain ⟨⟨g, a, K, d⟩, hx, ho⟩ := Tally.mem_sum_map.mp ho
  have hle : Site.owes s.mem ⟨g, a, K, d⟩ ≤ s.obs (φ.sites G) :=
    (List.le_sum_of_mem (List.mem_map_of_mem hx)).trans (Multiset.le_add_left _ _)
  cases g with
  | leaf | seq => simp [Site.owes] at ho
  | @fork k n fs =>
      change o ∈ k.owes a n K (s.mem a).state at ho
      change k.owes a n K (s.mem a).state ≤ s.obs (φ.sites G) at hle
      have hst : (s.mem a).state.engaged = true ∧ 1 ≤ (s.mem a).state.bytes.left := by
        by_contra hno
        cases k <;> simp [Join.owes_all, Join.owes_any, if_neg hno] at ho
      have hc := ((h.engaged_iff a).mp hst.1).1
      have hleft := (h.nodes hx).left hc
      have hpos : 0 < (pending (s.obs (φ.sites G)) a n).card := by omega
      obtain ⟨j, hj⟩ := Finset.card_pos.mp hpos
      refine ⟨k, n, fs, a, K, d, hx, hc, ⟨j, mem_pending.mp hj⟩, ?_⟩
      -- before the first `fetch_sub` an any node holds its continuation, an all node always
      cases k with
      | all =>
          rw [Join.owes_all, if_pos hst] at ho hle
          rcases Multiset.mem_add.mp ho with ho | ho
          · exact .inl ho
          · exact .inr ⟨.inr ho, (Multiset.le_add_left _ _).trans hle, fun hk => by cases hk⟩
      | any =>
          rw [Join.owes_any, if_pos hst] at ho hle
          rcases Multiset.mem_add.mp ho with ho | ho
          · exact .inl ho
          · by_cases hfull : (s.mem a).state.bytes.left = n + 1
            · rw [if_pos hfull] at ho hle
              refine .inr ⟨Multiset.mem_add.mp ho, ?_, fun _ j => ?_⟩
              · exact (Multiset.le_add_left _ _).trans ((Multiset.le_add_left _ _).trans hle)
              · have hcard : (pending (s.obs (φ.sites G)) a n).card = n + 1 := by
                  rw [hleft] at hfull
                  exact_mod_cast hfull
                have huniv : pending (s.obs (φ.sites G)) a n = Finset.univ := by
                  apply Finset.eq_univ_of_card
                  rw [hcard, Fintype.card_fin]
                exact mem_pending.mp (huniv ▸ Finset.mem_univ j)
            · rw [if_neg hfull] at ho
              exact absurd ho (Multiset.notMem_zero o)

theorem Join.goal_notMem_lastObs {k : Join} {a : ℕ} {e : Option (ℕ × ℕ)} :
    Ob.goal e ∉ k.lastObs a := by
  rcases e with - | ⟨p, i⟩ <;> cases k <;> simp [lastObs, Ob.goal]

theorem Join.goal_notMem_firstObs {k : Join} {a : ℕ} {e : Option (ℕ × ℕ)} :
    Ob.goal e ∉ k.firstObs a := by
  rcases e with - | ⟨p, i⟩ <;> cases k <;> simp [firstObs, Ob.goal]

/-- **No goal waits without a frame.**  Let `Good` select goals such that a good goal of an
all node makes those of its children good, and one of an any node makes that of some
child good.  If no frame owes a good goal, none is owed. -/
theorem Inv.drained (h : Inv φ G s) (Good : Option (ℕ × ℕ) → Prop)
    (hgood : ∀ {k : Join} {n : ℕ} {fs : Fin (n + 1) → Node α} {a K d},
      ⟨.fork k fs, a, K, d⟩ ∈ φ.sites G → Good K.endsAt →
      (k = .all → ∀ j : Fin (n + 1), Good (some (a, j))) ∧
      (k = .any → ∃ j : Fin (n + 1), Good (some (a, j))))
    (hfr : ∀ st ∈ s.threads, ∀ fr ∈ st, ∀ e, Good e → Begun (s.obs (φ.sites G)) e →
      Ob.goal e ∉ fr.obs)
    (e : Option (ℕ × ℕ)) (hg : Good e) (he : Begun (s.obs (φ.sites G)) e) :
    Ob.goal e ∉ s.obs (φ.sites G) := by
  -- a goal that is left over waits for a goal of a later node
  have step : ∀ e, Good e → Begun (s.obs (φ.sites G)) e → Ob.goal e ∈ s.obs (φ.sites G) →
      ∃ (a : ℕ) (j : ℕ), (∀ p i, e = some (p, i) → p < a) ∧ a < G.size ∧ Good (some (a, j)) ∧
        Ob.construct a ∉ s.obs (φ.sites G) ∧ Ob.fetchSub a j ∈ s.obs (φ.sites G) := by
    intro e hg he hmem
    rcases Multiset.mem_add.mp hmem with hmem | hmem
    · obtain ⟨st, hst, hmem⟩ := Tally.mem_sum_map.mp hmem
      obtain ⟨fr, hfr', hmem⟩ := Tally.mem_sum_map.mp hmem
      exact absurd hmem (hfr st hst fr hfr' e hg he)
    · obtain ⟨k, n, fs, a, K, d, hx, hc, ⟨j, hj⟩, hmem⟩ := h.owed_by_node hmem
      obtain ⟨hmem, hle, hall⟩ := hmem.resolve_left Join.goal_notMem_lastObs
      have hends : K.endsAt = e := Cont.endsAt_of_goal_mem
        (hmem.resolve_left Join.goal_notMem_firstObs)
        fun p i hp hmem => he p i hp (Multiset.mem_of_le hle hmem)
      have hlt : ∀ p i, e = some (p, i) → p < a :=
        fun p i hp => lt_addr_of_endsAt hx (hends.trans hp)
      have ha : a < G.size := by
        have := G.within_of_mem_obs (Multiset.mem_of_le (Node.obs_le_of_mem_sites hx)
          (Node.first_mem_obs _ _))
        simpa [Node.first, Ob.Within] using this
      cases k with
      | all => exact ⟨a, j, hlt, ha, (hgood hx (hends ▸ hg)).1 rfl j, hc, hj⟩
      | any =>
          obtain ⟨j', hj'⟩ := (hgood hx (hends ▸ hg)).2 rfl
          exact ⟨a, j', hlt, ha, hj', hc, hall rfl j'⟩
  -- the goal of a child comes after the goal of its node, and addresses are bounded
  have key : ∀ b p i, G.size ≤ p + b → Good (some (p, i)) →
      Ob.construct p ∉ s.obs (φ.sites G) → Ob.fetchSub p i ∈ s.obs (φ.sites G) → False := by
    intro b
    induction b with
    | zero =>
        intro p i hb hg hc hmem
        obtain ⟨a, j, hlt, ha, -⟩ := step (some (p, i)) hg
          (fun _ _ e => (Prod.mk.inj (Option.some.inj e)).1 ▸ hc) hmem
        have := hlt p i rfl
        omega
    | succ b ih =>
        intro p i hb hg hc hmem
        obtain ⟨a, j, hlt, -, hg', hc', hmem'⟩ := step (some (p, i)) hg
          (fun _ _ e => (Prod.mk.inj (Option.some.inj e)).1 ▸ hc) hmem
        have := hlt p i rfl
        exact ih a j (by omega) hg' hc' hmem'
  intro hmem
  obtain ⟨a, j, -, -, hg', hc', hmem'⟩ := step e hg he hmem
  exact key G.size a j (Nat.le_add_left _ _) hg' hc' hmem'

/-- **A state without frames owes nothing.** -/
theorem Inv.obs_eq_zero (h : Inv φ G s) (hs : ∀ st ∈ s.threads, st = []) :
    s.obs (φ.sites G) = 0 := by
  have hnone : ∀ st ∈ s.threads, ∀ fr ∈ st, False := fun st hst fr hfr => by
    rw [hs st hst] at hfr
    exact List.not_mem_nil hfr
  apply Multiset.eq_zero_of_forall_notMem
  intro o ho
  rcases Multiset.mem_add.mp ho with ho | ho
  · obtain ⟨st, hst, ho⟩ := Tally.mem_sum_map.mp ho
    obtain ⟨fr, hfr, -⟩ := Tally.mem_sum_map.mp ho
    exact hnone st hst fr hfr
  · obtain ⟨k, n, fs, a, K, d, -, hc, ⟨j, hj⟩, -⟩ := h.owed_by_node ho
    refine h.drained (fun _ => True) (fun _ _ => ⟨fun _ _ => trivial, fun _ => ⟨0, trivial⟩⟩)
      (fun st hst fr hfr => (hnone st hst fr hfr).elim) (some (a, j)) trivial ?_ hj
    exact fun _ _ e => (Prod.mk.inj (Option.some.inj e)).1 ▸ hc

/-! ### Up the graph -/

/-- A node with a pending child, or a continuation of one, leads to a `count_down`. -/
theorem Inv.countDown_of_fetchSub (h : Inv φ G s) {k : Join} {n : ℕ} {fs : Fin (n + 1) → Node α}
    {a : ℕ} {K : Cont α} {d : φ.D} (hx : ⟨.fork k fs, a, K, d⟩ ∈ φ.sites G)
    (hc : Ob.construct a ∉ s.obs (φ.sites G)) {j : Fin (n + 1)}
    (hj : Ob.fetchSub a j ∈ s.obs (φ.sites G)) :
    ∃ x, Ob.countDown x ∈ s.obs (φ.sites G) := by
  -- the node the continuation ends at comes before this one
  induction a using Nat.strongRecOn generalizing k n K d with
  | ind a ih =>
      have hleft := h.one_le_left hx hc j hj
      have heng := (h.nodes hx).engaged hc hleft
      have hle : k.owes a n K (s.mem a).state ≤ s.obs (φ.sites G) :=
        (List.le_sum_of_mem (List.mem_map_of_mem (f := Site.owes s.mem) hx)).trans
          (Multiset.le_add_left _ _)
      cases k with
      | any =>
          rw [Join.owes_any, if_pos ⟨heng, hleft⟩] at hle
          refine ⟨some a, Multiset.mem_of_le hle (Multiset.mem_add.mpr (.inl ?_))⟩
          simp [Join.lastObs]
      | all =>
          rw [Join.owes_all, if_pos ⟨heng, hleft⟩] at hle
          have hK : K.obs ≤ s.obs (φ.sites G) := (Multiset.le_add_left _ _).trans hle
          rcases hends : K.endsAt with - | ⟨p, i⟩
          · exact ⟨none, Multiset.mem_of_le hK (Cont.countDown_mem_obs hends)⟩
          · obtain ⟨k', n', fs', K', d', j', rfl, hx'⟩ := exists_fork_of_endsAt hx hends
            refine ih p (lt_addr_of_endsAt hx hends) hx'
              ((h.nodes hx).entered hc p j' hends) (j := j') ?_
            have := Multiset.mem_of_le hK K.goal_mem_obs
            rwa [hends] at this

theorem Inv.countDown_of_cont (h : Inv φ G s) {x : Site α φ.D} (hx : x ∈ φ.sites G)
    (hK : x.cont.Entered (s.obs (φ.sites G))) (hle : x.cont.obs ≤ s.obs (φ.sites G)) :
    ∃ y, Ob.countDown y ∈ s.obs (φ.sites G) := by
  rcases hends : x.cont.endsAt with - | ⟨p, i⟩
  · exact ⟨none, Multiset.mem_of_le hle (Cont.countDown_mem_obs hends)⟩
  · obtain ⟨k, n, fs, K, d, j, rfl, hp⟩ := exists_fork_of_endsAt hx hends
    apply h.countDown_of_fetchSub hp (hK p j hends) (j := j)
    have := Multiset.mem_of_le hle x.cont.goal_mem_obs
    rwa [hends] at this

/-- A frame that owes anything leads to a `count_down`. -/
theorem Inv.countDown_of_frame (h : Inv φ G s) {fr : Frame α}
    (hok : fr.OK φ G (s.obs (φ.sites G)) s.mem) (hle : fr.obs ≤ s.obs (φ.sites G))
    (hne : fr.obs ≠ 0) : ∃ x, Ob.countDown x ∈ s.obs (φ.sites G) := by
  have hmem : ∀ {o}, o ∈ fr.obs → o ∈ s.obs (φ.sites G) := Multiset.mem_of_le hle
  have hK : ∀ {K : Cont α} {X : Multiset Ob}, fr.obs = X + K.obs → K.obs ≤ s.obs (φ.sites G) :=
    fun e => (Multiset.le_add_left _ _).trans (e ▸ hle)
  cases fr with
  | exec g a input K =>
      obtain ⟨d, hd, hE, -⟩ := hok
      exact h.countDown_of_cont hd hE (hK rfl)
  | leafRun a r f input arg K =>
      obtain ⟨t, d, hd, hE, -⟩ := hok
      exact h.countDown_of_cont hd hE (hK rfl)
  | leafTemp => exact absurd rfl hne
  | submit k a fs i K =>
      -- a child that has not been submitted will perform its `fetch_sub`
      obtain ⟨d, hd, hc⟩ := hok
      refine h.countDown_of_fetchSub hd hc (j := i.castSucc) (hmem ?_)
      refine Multiset.mem_sum.mpr ⟨i.castSucc, Finset.mem_Ici.mpr le_rfl, ?_⟩
      exact Join.mem_branchObs.mpr (.inr (.inr (.inr (.inl rfl))))
  | inScheduler k a fs i K =>
      obtain ⟨d, hd, hc⟩ := hok
      refine h.countDown_of_fetchSub hd hc (j := i.succ) (hmem (Multiset.mem_add.mpr (.inr ?_)))
      refine Multiset.mem_sum.mpr ⟨i.succ, Finset.mem_Ici.mpr le_rfl, ?_⟩
      exact Join.mem_branchObs.mpr (.inr (.inr (.inr (.inl rfl))))
  | computation k a fs i K =>
      obtain ⟨d, hd, hc⟩ := hok
      refine h.countDown_of_fetchSub hd hc (j := i) (hmem ?_)
      cases k <;> simp [Frame.obs, Join.taskObs, Join.childObs]
  | allWrite a n i out K | allFetchSub a n i K | anyFetchSub a n i t out K =>
      obtain ⟨fs, d, j, rfl, hd, hc, -⟩ := hok
      exact h.countDown_of_fetchSub hd hc (j := j) (hmem (by simp [Frame.obs]))
  | allDestroy a n K =>
      obtain ⟨fs, d, hd, hc, -⟩ := hok
      exact h.countDown_of_cont hd ((h.nodes hd).entered hc) (hK rfl)
  | anyWrite a n i t out K =>
      obtain ⟨fs, d, j, rfl, hd, hc, -⟩ := hok
      exact h.countDown_of_cont hd ((h.nodes hd).entered hc) (hK rfl)
  | anyDestroy a n | cleanup a => exact ⟨some a, hmem (by simp [Frame.obs])⟩
  | thenCall res | thenRun => exact ⟨none, hmem (by simp [Frame.obs])⟩
  | countDown x => exact ⟨x, hmem (by simp [Frame.obs])⟩

/-- **As long as anything is owed, a `count_down` is.** -/
theorem Inv.exists_countDown (h : Inv φ G s) (hne : s.obs (φ.sites G) ≠ 0) :
    ∃ x, Ob.countDown x ∈ s.obs (φ.sites G) := by
  obtain ⟨o, ho⟩ := Multiset.exists_mem_of_ne_zero hne
  rcases Multiset.mem_add.mp ho with ho | ho
  · obtain ⟨st, hst, ho⟩ := Tally.mem_sum_map.mp ho
    obtain ⟨fr, hfr, ho⟩ := Tally.mem_sum_map.mp ho
    apply h.countDown_of_frame (h.frames st hst fr hfr) (State.frame_obs_le hst hfr)
    exact fun e => Multiset.notMem_zero o (e ▸ ho)
  · obtain ⟨k, n, fs, a, K, d, hx, hc, ⟨j, hj⟩, -⟩ := h.owed_by_node ho
    exact h.countDown_of_fetchSub hx hc hj

/-- The only frame that owes nothing is the one that holds the result of a leaf. -/
theorem Frame.obs_eq_zero_iff {fr : Frame α} : fr.obs = 0 ↔ ∃ a x, fr = .leafTemp a x := by
  constructor
  · intro h
    cases fr with
    | leafTemp a x => exact ⟨a, x, rfl⟩
    | submit k a fs i K =>
        have := Join.sum_branchObs_castSucc k a fs i
        simp [obs, this] at h
    | _ => simp [obs, Join.taskObs, Cont.obs_ne_zero] at h
  · rintro ⟨a, x, rfl⟩
    rfl

/-! ### Every frame can move -/

theorem Inv.engaged_of_fetchSub (h : Inv φ G s) {k : Join} {n : ℕ} {fs : Fin (n + 1) → Node α}
    {a : ℕ} {K : Cont α} {d : φ.D} (hx : ⟨.fork k fs, a, K, d⟩ ∈ φ.sites G)
    (hc : Ob.construct a ∉ s.obs (φ.sites G)) (j : Fin (n + 1))
    (hj : Ob.fetchSub a j ∈ s.obs (φ.sites G)) : (s.mem a).state.engaged = true :=
  (h.nodes hx).engaged hc (h.one_le_left hx hc j hj)

/-- **No assertion fails**: whatever the choices, the frame on top of a thread has a step. -/
theorem Inv.exists_fires (h : Inv φ G s) {t : ℕ} {fr : Frame α} {rest : List (Frame α)}
    (ht : s.threads[t]? = some (fr :: rest)) (c : Choice α) : ∃ o, Fires s.mem c fr o := by
  have hok := h.frame_OK ht
  have hobs := State.top_obs_le (l := φ.sites G) ht
  have heng : ∀ {k : Join} {n : ℕ} {fs : Fin (n + 1) → Node α} {a K d},
      ⟨.fork k fs, a, K, d⟩ ∈ φ.sites G → Ob.construct a ∉ s.obs (φ.sites G) →
      ∀ j : Fin (n + 1), Ob.fetchSub a j ∈ fr.obs → (s.mem a).state.engaged = true :=
    fun hd hc j hj => h.engaged_of_fetchSub hd hc j (Multiset.mem_of_le hobs hj)
  have hdest : ∀ {a}, Ob.construct a ∉ s.obs (φ.sites G) → Ob.destroy a ∈ fr.obs →
      (s.mem a).state.engaged = true :=
    fun hc hd => (h.engaged_iff _).mpr ⟨hc, Multiset.mem_of_le hobs hd⟩
  cases fr with
  | exec g a input K =>
      cases g with
      | leaf => exact ⟨_, .leafCall ..⟩
      | seq => exact ⟨_, .seqExec ..⟩
      | fork k fs =>
          -- a node whose `construct` is owed is not engaged
          refine ⟨_, .construct k fs a input K ?_⟩
          rw [Src.moveFrom_state, ← Bool.not_eq_true, h.engaged_iff]
          refine fun hc => hc.1 (Multiset.mem_of_le hobs ?_)
          exact Multiset.mem_add.mpr (.inl (Multiset.mem_add.mpr
            (.inl (Node.first_mem_obs (.fork k fs) a))))
  | leafRun => exact ⟨_, .leafRet ..⟩
  | leafTemp => exact ⟨_, .tempDrop ..⟩
  | submit k a fs i K =>
      rcases hc : c.inline with - | -
      · exact ⟨_, .submitThread k a fs i K hc⟩
      · exact ⟨_, .submitInline k a fs i K hc⟩
  | inScheduler => exact ⟨_, .schedRet ..⟩
  | computation k a fs i K =>
      obtain ⟨d, hd, hc⟩ := hok
      refine ⟨_, .inputRead k a fs i K (heng hd hc i ?_)⟩
      cases k <;> simp [Frame.obs, Join.taskObs, Join.childObs]
  | allWrite => exact ⟨_, .slotWrite ..⟩
  | allFetchSub a n i K =>
      obtain ⟨fs, d, j, rfl, hd, hc, -⟩ := hok
      exact ⟨_, .allFetchSub a n j K (heng hd hc j (by simp [Frame.obs]))⟩
  | allDestroy a n K =>
      obtain ⟨fs, d, hd, hc, -⟩ := hok
      exact ⟨_, .allDestroy a n K (hdest hc (by simp [Frame.obs]))⟩
  | anyFetchSub a n i t out K =>
      obtain ⟨fs, d, j, rfl, hd, hc, -⟩ := hok
      exact ⟨_, .anyFetchSub a n j t out K (heng hd hc j (by simp [Frame.obs]))⟩
  | anyWrite => exact ⟨_, .variantWrite ..⟩
  | anyDestroy a n =>
      obtain ⟨fs, K, d, hd, hc, -⟩ := hok
      exact ⟨_, .anyDestroy a n (hdest hc (by simp [Frame.obs]))⟩
  | cleanup => exact ⟨_, .cleanup ..⟩
  | thenCall => exact ⟨_, .thenCall ..⟩
  | thenRun => exact ⟨_, .thenRet⟩
  | countDown => exact ⟨_, .countDown ..⟩

/-- A state in which all threads have returned is the end of its run. -/
theorem stuck_of_returned (hs : ∀ st ∈ s.threads, st = []) : Lts.Stuck Step s := by
  rintro ⟨t, e⟩ s' hstep
  obtain ⟨c, fr, rest, o, ht, -⟩ := step_iff.mp hstep
  simpa using hs _ (List.mem_of_getElem? ht)

theorem stuck_of_replicate {n : ℕ} (hs : s.threads = List.replicate n []) : Lts.Stuck Step s := by
  refine stuck_of_returned fun st hst => ?_
  rw [hs] at hst
  exact List.eq_of_mem_replicate hst

/-- A run can go on until every thread has returned. -/
theorem Inv.stuck_iff (h : Inv φ G s) :
    Lts.Stuck Step s ↔ ∀ st ∈ s.threads, st = [] := by
  constructor
  · intro hs st hst
    obtain ⟨t, ht⟩ := List.mem_iff_getElem?.mp hst
    cases st with
    | nil => rfl
    | cons fr rest =>
        obtain ⟨o, ho⟩ := h.exists_fires ht default
        exact absurd (step_iff.mpr ⟨_, fr, rest, o, ht, ho, rfl, rfl⟩) (hs (t, o.event) _)
  · exact stuck_of_returned

end Orizzonte
