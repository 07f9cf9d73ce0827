/-
Orizzonte/Blocking.lean

Leaves that never return.  `F` is a set of leaves whose callables block once they are
called; every task has a thread of its own.  Where only such calls are left, exactly
those parts of the graph have run that do not wait for a blocked leaf: `Node.done`
says which graphs deliver a result, `Node.Part` which nodes are started
(`progress_law`).

One direction is a flow: what has been started or delivered was entitled to.  The
other follows an obligation that is left over to the blocked frame it waits for.
-/
import Orizzonte.Concurrent

namespace Orizzonte

open Lts

universe u v

variable {α : Type u}

/-! ### What can be done without the blocked leaves -/

/-- The graph delivers its result. -/
def Node.done (F : Set ℕ) : Node α → ℕ → Prop
  | leaf _ _ _, a => a ∉ F
  | seq A B, a => A.done F a ∧ B.done F (a + A.size)
  | @fork _ .all n fs, a => ∀ i : Fin (n + 1), (fs i).done F (childAddr fs a i)
  | @fork _ .any n fs, a => ∃ i : Fin (n + 1), (fs i).done F (childAddr fs a i)

/-- `h` at `b` is a node of the graph `g` at `a`, and `P` says that the first part of every
`seq` in whose second part it lies is done. -/
inductive Node.Part (F : Set ℕ) : Node α → ℕ → Node α → ℕ → Prop → Prop
  | self (g a) : Part F g a g a True
  | fst {A B a h b P} : Part F A a h b P → Part F (seq A B) a h b P
  | snd {A B a h b P} : Part F B (a + A.size) h b P → Part F (seq A B) a h b (A.done F a ∧ P)
  | child {k : Join} {n : ℕ} {fs : Fin (n + 1) → Node α} {a h b P} (i : Fin (n + 1)) :
      Part F (fs i) (childAddr fs a i) h b P → Part F (fork k fs) a h b P

/-- The node at `a` has been executed. -/
def Node.StartedIn (τ : List (ℕ × Event α)) : Node α → ℕ → Prop
  | leaf _ _ _, a => a ∈ (leafCalls τ).map Prod.fst
  | seq A _, a => a + A.size ∈ seqExecs τ
  | fork _ _, a => a ∈ constructs τ

/-- Every task runs on a thread of its own, and the leaves in `F` do not return. -/
def Event.Blocking (F : Set ℕ) : Event α → Prop
  | submit _ _ inline => inline = false
  | leafRet a _ => a ∉ F
  | _ => True

theorem Event.Blocking.concurrent {F : Set ℕ} {e : Event α} (h : e.Blocking F) :
    e.Concurrent := by
  cases e <;> first | exact h | exact True.intro

/-- A call is annotated with the condition for it, and its result with the condition for that. -/
def Flow.progress (F : Set ℕ) : Flow α where
  D := Prop
  d₀ := True
  out := fun g a d => d ∧ g.done F a
  holds := fun d _ => d
  allowed := Event.Blocking F
  leaf_rule := fun ha hd => ⟨hd, ha⟩
  seq_rule := fun h => ⟨h.1.1, h.1.2, h.2⟩
  all_rule := fun h => ⟨(h 0).1, fun i => (h i).2⟩
  any_rule := fun _ h => ⟨h.1, _, h.2⟩

section Progress

variable {F : Set ℕ} {G : Node α} {s : State α} {m : Mem α} {x : Value α}
  {τ : List (ℕ × Event α)}

/-- A node of the graph is the node of a call, annotated with the same condition. -/
theorem Node.Part.exists_site {g h : Node α} {a b : ℕ} {P : Prop} (hp : g.Part F a h b P)
    (K : Cont α) (d : Prop) :
    ∃ K' d', ⟨h, b, K', d'⟩ ∈ g.sites (Flow.progress F).out a K d ∧ (d' ↔ d ∧ P) := by
  induction hp generalizing K d with
  | self g a => exact ⟨K, d, mem_sites_self, (and_iff_left trivial).symm⟩
  | @fst A B a h b P _ ih =>
      obtain ⟨K', d', hx, hd⟩ := ih (.seqK B (a + A.size) K) d
      exact ⟨K', d', mem_sites_seq.mpr (.inr (.inl hx)), hd⟩
  | @snd A B a h b P _ ih =>
      obtain ⟨K', d', hx, hd⟩ := ih K (d ∧ A.done F a)
      exact ⟨K', d', mem_sites_seq.mpr (.inr (.inr hx)), by rw [hd, and_assoc]⟩
  | @child k n fs a h b P i _ ih =>
      obtain ⟨K', d', hx, hd⟩ := ih (.joinK k a n i (fs i).outType K) d
      exact ⟨K', d', mem_sites_fork.mpr (.inr ⟨i, hx⟩), hd⟩

/-- The condition of a call implies the one of the call it is part of. -/
theorem Node.ann_of_mem_sites {g : Node α} {a : ℕ} {K : Cont α} {d : Prop} {y : Site α Prop}
    (hy : y ∈ g.sites (Flow.progress F).out a K d) (h : y.ann) : d := by
  induction g generalizing a K d with
  | leaf =>
      obtain rfl := List.mem_singleton.mp hy
      exact h
  | seq A B ihA ihB =>
      rcases mem_sites_seq.mp hy with rfl | hy | hy
      · exact h
      · exact ihA hy
      · exact (ihB hy).1
  | fork k fs ih =>
      rcases mem_sites_fork.mp hy with rfl | ⟨i, hy⟩
      · exact h
      · exact ih i hy

theorem startedIn_iff (hm : m.Unengaged) (hr : Run Step (State.start G m x) τ s) {h : Node α}
    {a : ℕ} (hfirst : h.first a ∈ G.total) : h.StartedIn τ a ↔ h.first a ∉ s.owed G := by
  have hshown : ∀ {β : Type} {f : Event α → Option β} {b : β},
      (∀ q, h.first a ≠ .read q) → (∀ e, h.first a ∈ e.discharges ↔ f e = some b) →
      (b ∈ observed f τ ↔ h.first a ∉ s.owed G) := by
    intro β f b hq hf
    rw [mem_owed_iff hm hr hq, done_iff_mem_observed hf, and_iff_right hfirst, not_not]
  cases h with
  | leaf t r f =>
      show a ∈ (leafCalls τ).map Prod.fst ↔ _
      rw [leafCalls, map_observed]
      apply hshown (by simp [Node.first])
      intro e
      cases e <;> simp [Node.first, Event.discharges, Event.leafCall?, eq_comm]
  | seq A B =>
      apply hshown (by simp [Node.first])
      intro e
      cases e <;> simp [Node.first, Event.discharges, Event.seqExec?, eq_comm]
  | fork k fs => exact hshown (by simp [Node.first]) fun e => mem_discharges_construct

/-! ### What waits for a blocked leaf -/

/-- The goal of a continuation that a result is due for. -/
def Due (F : Set ℕ) (G : Node α) : Option (ℕ × ℕ) → Prop
  | none => G.done F 0
  | some (p, i) => ∃ (k : Join) (n : ℕ) (fs : Fin (n + 1) → Node α) (K : Cont α) (d : Prop)
      (j : Fin (n + 1)), (j : ℕ) = i ∧ ⟨.fork k fs, p, K, d⟩ ∈ (Flow.progress F).sites G ∧
      (fs j).done F (Node.childAddr fs p j)

/-- A call whose continuation ends at a due goal is done. -/
theorem Due.done {y : Site α Prop} (hy : y ∈ (Flow.progress F).sites G)
    (h : Due F G y.cont.endsAt) : y.node.done F y.addr := by
  have hspine := @spine_of_mem_sites _ (Flow.progress F) G (Node.done F) (fun _ _ _ h => h) y hy
  unfold Spine at hspine
  rcases he : y.cont.endsAt with - | ⟨p, i⟩
  · rw [he] at h hspine
    exact hspine h
  · rw [he] at h hspine
    obtain ⟨-, k, n, fs, K, d, j, rfl, hp, himp⟩ := hspine
    obtain ⟨k', n', fs', K', d', j', hj, hp', hdone⟩ := h
    cases Node.fork_site_ext hp hp'
    obtain rfl := Fin.ext hj
    exact himp hdone

theorem Due.children {k : Join} {n : ℕ} {fs : Fin (n + 1) → Node α} {a : ℕ} {K : Cont α}
    {d : Prop} (hx : ⟨.fork k fs, a, K, d⟩ ∈ (Flow.progress F).sites G)
    (h : (Node.fork k fs).done F a) :
    (k = .all → ∀ j : Fin (n + 1), Due F G (some (a, j))) ∧
      (k = .any → ∃ j : Fin (n + 1), Due F G (some (a, j))) := by
  constructor
  · rintro rfl j
    exact ⟨.all, n, fs, K, d, j, rfl, hx, h j⟩
  · rintro rfl
    obtain ⟨j, hj⟩ := h
    exact ⟨j, .any, n, fs, K, d, j, rfl, hx, hj⟩

/-- What comes after a call, and whose own condition is met, needs the call done. -/
theorem done_of_first_mem_cont : ∀ y ∈ (Flow.progress F).sites G,
    ∀ z ∈ (Flow.progress F).sites G, z.first ∈ y.cont.obs → z.ann → y.node.done F y.addr := by
  refine Node.sites_induction ?_ ?_ ?_ ?_
  · intro z _ hz _
    have hno : z.first ∉ (Cont.root : Cont α).obs := by
      obtain ⟨g, b, K, d⟩ := z
      cases g <;> simp [Site.first, Node.first, Cont.obs]
    exact absurd hz hno
  · intro A B a K d hx ih z hzG hz hann
    rcases Multiset.mem_add.mp hz with hz | hz
    · -- `z` is a call inside `B`, so its condition includes that of `B`
      obtain ⟨y, hy, hown⟩ := Node.exists_site_of_mem_obs (Flow.progress F).out hz K
        (d ∧ A.done F a)
      have hfirst : y.first = z.first := (Node.first_eq_of_mem_own hown).symm
      have hyG : y ∈ (Flow.progress F).sites G :=
        Node.mem_sites_trans (Node.mem_sites_snd hx) hy
      obtain rfl := Node.site_ext hyG hzG hfirst
      exact (Node.ann_of_mem_sites hy hann).2
    · exact (ih z hzG hz hann).1
  · intro A B a K d hx ih z hzG hz hann
    exact (ih z hzG hz hann).2
  · intro k n fs a K d i hx _ z _ hz _
    obtain ⟨g, b, K', d'⟩ := z
    cases k <;> cases g <;> simp [Site.first, Node.first, Cont.obs, Join.childObs] at hz

/-! ### Where only blocked calls are left -/

/-- The only threads that have not returned are inside the callable of a leaf in `F`. -/
def State.BlockedIn (F : Set ℕ) (s : State α) : Prop :=
  ∀ st ∈ s.threads, ∀ fr ∈ st.head?, ∃ a r f input y K,
    fr = .leafRun a r f input y K ∧ a ∈ F

theorem State.BlockedIn.stuck (h : s.BlockedIn F) :
    Stuck (Only (fun l : ℕ × Event α => l.2.Blocking F) Step) s := by
  rintro ⟨t, e⟩ s' ⟨hstep, he⟩
  obtain ⟨c, fr, rest, o, ht, hf, rfl, rfl⟩ := step_iff.mp hstep
  obtain ⟨a, r, f, input, y, K, rfl, ha⟩ := h _ (List.mem_of_getElem? ht) fr rfl
  cases hf
  exact he ha

theorem Inv.blockedIn_of_stuck {φ : Flow.{u, v} α} (h : Inv φ G s)
    (hs : Stuck (Only (fun l : ℕ × Event α => l.2.Blocking F) Step) s) : s.BlockedIn F := by
  intro st hst fr hfr
  obtain ⟨t, ht⟩ := List.mem_iff_getElem?.mp hst
  cases st with
  | nil => cases hfr
  | cons top rest =>
      obtain rfl := Option.some.inj hfr
      obtain ⟨o, ho, hc, hstep⟩ := h.exists_concurrent ht
      have hnot : ¬ o.event.Blocking F := fun he => hs (t, o.event) _ ⟨hstep, he⟩
      cases ho with
      | leafRet a r f input y K =>
          refine ⟨a, r, f, input, y, K, rfl, ?_⟩
          by_contra ha
          exact hnot ha
      | submitInline => cases hc
      | submitThread => exact absurd rfl hnot
      | _ => exact absurd True.intro hnot

section Stuck

variable (h : Inv (Flow.progress F) G s) (hsh : s.Shaped) (hb : s.BlockedIn F)

include h hsh hb

/-- What a frame of such a state owes, a blocked call is to be followed by, or an any node
with a single child waits for. -/
theorem Inv.owed_by_blocked {st : List (Frame α)} (hst : st ∈ s.threads) {fr : Frame α}
    (hfr : fr ∈ st) {o : Ob} (ho : o ∈ fr.obs) :
    (∃ a t r f K d, ⟨.leaf t r f, a, K, d⟩ ∈ (Flow.progress F).sites G ∧ a ∈ F ∧
      K.obs ≤ s.obs ((Flow.progress F).sites G) ∧
      (o = .leafRet a ∨ (∃ q, o = .read q) ∨ o ∈ K.obs)) ∨
    (∃ a, fr = .anyDestroy a 0) := by
  have hok := h.frames st hst fr hfr
  have hle : fr.obs ≤ s.obs ((Flow.progress F).sites G) := State.frame_obs_le hst hfr
  cases st with
  | nil => cases hfr
  | cons top rest =>
      -- the top frame is blocked, a frame below it waits for a call to return
      rcases List.mem_cons.mp hfr with rfl | hfr
      · obtain ⟨a, r, f, input, y, K, rfl, ha⟩ := hb _ hst fr rfl
        obtain ⟨t, d, hd, -⟩ := hok
        refine .inl ⟨a, t, r, f, K, d, hd, ha, (Multiset.le_add_left _ _).trans hle, ?_⟩
        rcases Multiset.mem_add.mp ho with ho | ho
        · rcases Multiset.mem_add.mp ho with ho | ho
          · exact .inl (Multiset.mem_singleton.mp ho)
          · split_ifs at ho
            · exact .inr (.inl (Src.exists_read_of_mem_obs ho))
            · exact absurd ho (Multiset.notMem_zero _)
        · exact .inr (.inr ho)
      · have hw : fr.Waits := hsh _ hst fr hfr
        cases fr with
        | leafTemp => exact absurd ho (Multiset.notMem_zero _)
        | anyDestroy a n =>
            obtain rfl : n = 0 := hw
            exact .inr ⟨a, rfl⟩
        | _ => exact hw.elim

/-- No goal that is due is left over. -/
theorem Inv.due_notMem {e : Option (ℕ × ℕ)} (hd : Due F G e)
    (he : Begun (s.obs ((Flow.progress F).sites G)) e) :
    Ob.goal e ∉ s.obs ((Flow.progress F).sites G) := by
  apply h.drained (Due F G) (fun hx hg => Due.children hx (Due.done hx hg)) _ e hd he
  intro st hst fr hfr e hd he hmem
  rcases h.owed_by_blocked hsh hb hst hfr hmem with
    ⟨a, t, r, f, K, d, hx, ha, hK, ho | ⟨q, ho⟩ | ho⟩ | ⟨a, rfl⟩
  · rcases e with - | ⟨p, i⟩ <;> cases ho
  · rcases e with - | ⟨p, i⟩ <;> cases ho
  · obtain rfl : K.endsAt = e :=
      Cont.endsAt_of_goal_mem ho fun p i hp hc => he p i hp (Multiset.mem_of_le hK hc)
    exact Due.done hx hd ha
  · exact (show (Frame.anyDestroy (α := α) a 0).Waits from rfl).goal_notMem e hmem

/-- A node of such a state that has pending children has none that is due. -/
theorem Inv.fetchSub_notMem {k : Join} {n : ℕ} {fs : Fin (n + 1) → Node α} {a : ℕ} {K : Cont α}
    {d : Prop} (hx : ⟨.fork k fs, a, K, d⟩ ∈ (Flow.progress F).sites G)
    (hc : Ob.construct a ∉ s.obs ((Flow.progress F).sites G)) {j : Fin (n + 1)}
    (hj : (fs j).done F (Node.childAddr fs a j)) :
    Ob.fetchSub a j ∉ s.obs ((Flow.progress F).sites G) := by
  apply h.due_notMem hsh hb (e := some (a, (j : ℕ)))
  · exact ⟨k, n, fs, K, d, j, rfl, hx, hj⟩
  · intro p i hp
    obtain ⟨rfl, -⟩ := Prod.mk.inj (Option.some.inj hp)
    exact hc

/-- A call whose condition is met has been made. -/
theorem Inv.first_notMem {z : Site α Prop} (hz : z ∈ (Flow.progress F).sites G) (hann : z.ann) :
    z.first ∉ s.obs ((Flow.progress F).sites G) := by
  intro hmem
  have hne : (∀ a, z.first ≠ .leafRet a) ∧ (∀ q, z.first ≠ .read q) ∧
      (∀ a, z.first ≠ .cleanup a) ∧ (∀ a, z.first ≠ .destroy a) ∧
      (∀ a, z.first ≠ .variantWrite a) ∧ ∀ a, z.first ≠ .countDown a := by
    obtain ⟨g, b, K, d⟩ := z
    cases g <;> simp [Site.first, Node.first]
  rcases Multiset.mem_add.mp hmem with hmem | hmem
  · obtain ⟨st, hst, hmem⟩ := Tally.mem_sum_map.mp hmem
    obtain ⟨fr, hfr, hmem⟩ := Tally.mem_sum_map.mp hmem
    -- a blocked leaf is not done, so what follows it is not entitled
    rcases h.owed_by_blocked hsh hb hst hfr hmem with
      ⟨a, t, r, f, K, d, hx, ha, hK, ho | ⟨q, ho⟩ | ho⟩ | ⟨a, rfl⟩
    · exact hne.1 a ho
    · exact hne.2.1 q ho
    · exact done_of_first_mem_cont _ hx z hz ho hann ha
    · simp [Frame.obs, hne] at hmem
  · -- the continuation of a node that is done has been handed out
    obtain ⟨k, n, fs, a, K, d, hx, hc, ⟨j, hj⟩, hmem⟩ := h.owed_by_node hmem
    rcases hmem with hmem | ⟨hmem | hmem, -, hall⟩
    · cases k <;> simp [Join.lastObs, hne] at hmem
    · cases k <;> simp [Join.firstObs, hne] at hmem
    · have hdone := done_of_first_mem_cont _ hx z hz hmem hann
      cases k with
      | all => exact h.fetchSub_notMem hsh hb hx hc (hdone j) hj
      | any =>
          obtain ⟨j', hj'⟩ := hdone
          exact h.fetchSub_notMem hsh hb hx hc hj' (hall rfl j')

/-- An any node with several children, all of them done, has called `cleanup`. -/
theorem Inv.cleanup_notMem {n : ℕ} {fs : Fin (n + 1) → Node α} {a : ℕ} {K : Cont α} {d : Prop}
    (hx : ⟨.any fs, a, K, d⟩ ∈ (Flow.progress F).sites G) (hn : 1 ≤ n)
    (hc : Ob.construct a ∉ s.obs ((Flow.progress F).sites G))
    (hdone : ∀ i : Fin (n + 1), (fs i).done F (Node.childAddr fs a i)) :
    Ob.cleanup a ∉ s.obs ((Flow.progress F).sites G) := by
  intro hmem
  rcases Multiset.mem_add.mp hmem with hmem | hmem
  · obtain ⟨st, hst, hmem⟩ := Tally.mem_sum_map.mp hmem
    obtain ⟨fr, hfr, hmem⟩ := Tally.mem_sum_map.mp hmem
    rcases h.owed_by_blocked hsh hb hst hfr hmem with
      ⟨b, t, r, f, K', d', -, -, hK, ho | ⟨q, ho⟩ | ho⟩ | ⟨b, rfl⟩
    · cases ho
    · cases ho
    · exact hc (Multiset.mem_of_le hK (Cont.construct_mem_of_cleanup ho))
    · -- that node has one child, this one more
      obtain rfl : a = b := by simpa [Frame.obs] using hmem
      obtain ⟨fs', K', d', hx', -⟩ := h.frames st hst _ hfr
      cases Node.fork_site_ext hx hx'
      omega
  · obtain ⟨k, n', fs', b, K', d', hx', hc', ⟨j, hj⟩, hmem⟩ := h.owed_by_node hmem
    rcases hmem with hmem | ⟨hmem | hmem, hK, -⟩
    · obtain rfl : a = b := by
        cases k with
        | all => simp [Join.lastObs] at hmem
        | any => simpa [Join.lastObs] using hmem
      cases Node.fork_site_ext hx hx'
      exact h.fetchSub_notMem hsh hb hx hc (hdone j) hj
    · cases k <;> simp [Join.firstObs] at hmem
    · exact hc (Multiset.mem_of_le hK (Cont.construct_mem_of_cleanup hmem))

end Stuck

/-! ### The progress law -/

/-- What has been executed was entitled to it. -/
theorem ann_of_startedIn (hτ : ∀ l ∈ τ, l.2.OK (Flow.progress F) G) {z : Site α Prop}
    (hz : z ∈ (Flow.progress F).sites G) (hst : z.node.StartedIn τ z.addr) : z.ann := by
  obtain ⟨h, b, K, d⟩ := z
  cases h with
  | leaf t r f =>
      obtain ⟨⟨b', x⟩, hmem, rfl⟩ := List.mem_map.mp hst
      obtain ⟨⟨t', e⟩, hl, he⟩ := List.mem_filterMap.mp hmem
      cases e <;> cases he
      obtain ⟨_, _, _, _, _, hsite, hd⟩ := hτ _ hl
      cases Node.site_ext hsite hz rfl
      exact hd
  | seq A B =>
      obtain ⟨⟨t', e⟩, hl, he⟩ := List.mem_filterMap.mp hst
      cases e <;> cases he
      obtain ⟨_, _, _, _, _, _, hb, hsite, hd⟩ := hτ _ hl
      cases Node.site_ext hsite hz (congrArg Ob.seqExec hb.symm)
      exact hd
  | fork k fs =>
      obtain ⟨⟨t', e⟩, hl, he⟩ := List.mem_filterMap.mp hst
      cases e <;> cases he
      obtain ⟨_, _, _, _, _, _, hsite, hd⟩ := hτ _ hl
      cases Node.site_ext hsite hz rfl
      exact hd

/-- **The progress law.**  Where only the calls of the leaves in `F` are left, `then` has
been called exactly if the graph is done, a node has been executed exactly if the first
part of every `seq` in whose second part it lies is done, and an any node that has been
executed and has several children has called `cleanup` exactly if all of them are done. -/
theorem progress_law (hm : m.Unengaged)
    (hr : Run (Only (fun l : ℕ × Event α => l.2.Blocking F) Step) (State.start G m x) τ s)
    (hs : Stuck (Only (fun l : ℕ × Event α => l.2.Blocking F) Step) s) :
    (thenCalls τ ≠ [] ↔ G.done F 0) ∧
      (∀ h b P, G.Part F 0 h b P → (h.StartedIn τ b ↔ P)) ∧
      ∀ (n : ℕ) (fs : Fin (n + 1) → Node α) (b : ℕ) (P : Prop), G.Part F 0 (.any fs) b P →
        1 ≤ n → (Node.any fs).StartedIn τ b →
        (b ∈ cleanups τ ↔ ∀ i, (fs i).done F (Node.childAddr fs b i)) := by
  have hsh : s.Shaped := hr.invariant (I := fun _ s => s.Shaped) (State.shaped_start G m x)
    fun σ u l u' _ hu hl => hu.step (t := l.1) hl.1 hl.2.concurrent
  obtain ⟨hrun, hall⟩ := Run.only_iff.mp hr
  obtain ⟨h, hτ⟩ := @Inv.run _ (Flow.progress F) _ _ _ _ _ hm True.intro hrun hall
  have hb : s.BlockedIn F := h.blockedIn_of_stuck hs
  have howed : s.obs ((Flow.progress F).sites G) = s.owed G := State.obs_eq_owed _ G s
  -- executed if and only if entitled: the flow for one direction, the blocked frames for the other
  have hstart : ∀ z ∈ (Flow.progress F).sites G, z.node.StartedIn τ z.addr ↔ z.ann := by
    intro z hz
    refine ⟨ann_of_startedIn hτ hz, fun hann => ?_⟩
    have hfirst : z.node.first z.addr ∈ G.total :=
      Multiset.mem_add.mpr (.inl (Multiset.mem_of_le (Node.obs_le_of_mem_sites hz)
        (Node.first_mem_obs _ _)))
    rw [startedIn_iff hm hrun hfirst, ← howed]
    exact h.first_notMem hsh hb hz hann
  refine ⟨⟨fun hne => ?_, fun hdone => ?_⟩, fun g b P hp => ?_, fun n fs b P hp hn hst => ?_⟩
  · -- `then`
    obtain ⟨y, hy⟩ := List.exists_mem_of_ne_nil _ hne
    obtain ⟨⟨t, e⟩, hl, he⟩ := List.mem_filterMap.mp hy
    cases e <;> cases he
    exact (hτ _ hl).2
  · have hnot : Ob.thenCall ∉ s.owed G := by
      rw [← howed]
      exact h.due_notMem hsh hb (e := none) hdone fun p i hp => by cases hp
    rw [mem_owed_iff hm hrun (by simp)] at hnot
    intro hnil
    refine hnot ⟨Multiset.mem_add.mpr (.inr (by simp [Cont.obs])), fun l hl hmem => ?_⟩
    obtain ⟨t, e⟩ := l
    cases e <;> simp [Event.discharges] at hmem
    rename_i y
    have hy : y ∈ thenCalls τ := List.mem_filterMap.mpr ⟨_, hl, rfl⟩
    rw [hnil] at hy
    cases hy
  · obtain ⟨K, d, hz, hd⟩ := hp.exists_site .root True
    rw [true_and] at hd
    exact (hstart _ hz).trans hd
  · -- `cleanup`
    obtain ⟨K, d, hz, -⟩ := hp.exists_site .root True
    have hc : Ob.construct b ∉ s.obs ((Flow.progress F).sites G) :=
      h.first_notMem hsh hb hz ((hstart _ hz).mp hst)
    have hown : Ob.cleanup b ∈ G.total :=
      mem_total_of_own hz (by simp [Join.own, Join.lastObs])
    constructor
    · intro hmem i
      obtain ⟨⟨t, e⟩, hl, he⟩ := List.mem_filterMap.mp hmem
      cases e <;> cases he
      obtain ⟨n', fs', K', d', hsite, hi⟩ := hτ _ hl
      cases Node.fork_site_ext hsite hz
      obtain ⟨-, -, hi⟩ := hi i
      exact hi
    · intro hdone
      have hnot := h.cleanup_notMem hsh hb hz hn hc hdone
      rw [howed, mem_owed_iff hm hrun (by simp), and_iff_right hown,
        done_iff_mem_observed (f := Event.cleanup?) (b := b)] at hnot
      · exact not_not.mp hnot
      · intro e
        cases e <;> simp [Event.discharges, Event.cleanup?, eq_comm]

/-- The race in which the thread that was given the first child stays in its callable. -/
def blockedRun : List (ℕ × Event ℕ) × State ℕ :=
  ((State.syncExecute race Mem.fresh).drive
    (List.replicate 12 (0, default) ++ List.replicate 2 (1, default))).getD default

theorem run_blockedRun :
    Run (Only (fun l : ℕ × Event ℕ => l.2.Blocking {1}) Step)
      (State.start race Mem.fresh .nothing) blockedRun.1 blockedRun.2 := by
  apply Run.only_iff.mpr
  constructor
  · exact @run_of_drive _ _ _ _
      (List.replicate 12 (0, default) ++ List.replicate 2 (1, default)) rfl
  · have hall : (blockedRun.1.all fun l => match l.2 with
        | .submit _ _ inline => !inline
        | .leafRet a _ => a != 1
        | _ => true) = true := rfl
    rintro ⟨t, e⟩ hl
    have he := List.all_eq_true.mp hall _ hl
    cases e with
    | submit a i inline => simpa [Event.Blocking] using he
    | leafRet a y => simpa [Event.Blocking] using he
    | _ => exact True.intro

theorem stuck_blockedRun :
    Stuck (Only (fun l : ℕ × Event ℕ => l.2.Blocking {1}) Step) blockedRun.2 := by
  apply State.BlockedIn.stuck
  intro st hst fr hfr
  obtain ⟨t, ht⟩ := List.mem_iff_getElem?.mp hst
  match t, ht with
  | 0, ht =>
      obtain rfl : [] = st := Option.some.inj ht
      cases hfr
  | 1, ht =>
      obtain rfl : _ = st := Option.some.inj ht
      exact ⟨1, false, _, _, _, _, (Option.some.inj hfr).symm, rfl⟩

theorem progress_law_race :
    (thenCalls blockedRun.1 ≠ [] ↔ race.done {1} 0) ∧
      (∀ h b P, race.Part {1} 0 h b P → (h.StartedIn blockedRun.1 b ↔ P)) ∧
      ∀ (n : ℕ) (fs : Fin (n + 1) → Node ℕ) (b : ℕ) (P : Prop), race.Part {1} 0 (.any fs) b P →
        1 ≤ n → (Node.any fs).StartedIn blockedRun.1 b →
        (b ∈ cleanups blockedRun.1 ↔ ∀ i, (fs i).done {1} (Node.childAddr fs b i)) :=
  progress_law Mem.fresh_unengaged run_blockedRun stuck_blockedRun

end Progress

end Orizzonte
