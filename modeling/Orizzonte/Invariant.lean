/-
Orizzonte/Invariant.lean

`Inv` is preserved by every step that the flow allows (`Inv.step`), and it holds
where `execute` is about to be called (`Inv.start`).

A step is seen through two summaries: `Transfer`, what it does to the ledger and
to `_values`, and `Touches`, what it does to `_state` of one node.  Each clause of
the invariant is then a lemma of its own.
-/
import Orizzonte.Flow

namespace Orizzonte

universe u v

variable {α : Type u}

/-! ### Two summaries of a step -/

/-- What a step does to `_state` of the node at `p`. -/
inductive Touches (m : Mem α) (fr : Frame α) (o : Outcome α) (p : ℕ) : Prop
  | none (hst : (o.mem p).state = (m p).state) (hc : Ob.construct p ∉ o.event.discharges)
      (hf : ∀ i, Ob.fetchSub p i ∉ o.event.discharges)
      (hd : Ob.destroy p ∉ o.event.discharges)
  | construct (k : Join) (n : ℕ) (fs : Fin (n + 1) → Node α) (input : Src α) (K : Cont α)
      (hfr : fr = .exec (.fork k fs) p input K) (he : o.event = .construct p)
      (hst : (o.mem p).state = ⟨⟨input.read m, n + 1⟩, true⟩)
  | fetchSub (n i : ℕ) (K : Cont α)
      (hfr : fr = .allFetchSub p n i K ∨ ∃ t out, fr = .anyFetchSub p n i t out K)
      (he : o.event = .fetchSub p n i (m p).state.bytes.left)
      (hst : (o.mem p).state = ⟨⟨(m p).state.bytes.input, (m p).state.bytes.left - 1⟩,
        (m p).state.engaged⟩)
  | destroy (n : ℕ) (hfr : (∃ K, fr = .allDestroy p n K) ∨ fr = .anyDestroy p n)
      (he : o.event = .destroy p) (hst : (o.mem p).state = ⟨(m p).state.bytes, false⟩)

theorem Fires.touches {m : Mem α} {c : Choice α} {fr : Frame α} {o : Outcome α}
    (hf : Fires m c fr o) (p : ℕ) : Touches m fr o p := by
  cases hf with
  | @construct k n fs a input K h =>
      -- the four rules that write a storage; all others leave it alone
      by_cases hp : p = a
      · subst hp
        exact .construct k n fs input K rfl rfl (by simp)
      · exact .none (by simp [hp]) (by simp [Event.discharges, hp]) (by simp [Event.discharges])
          (by simp [Event.discharges])
  | allFetchSub a n i K h =>
      by_cases hp : p = a
      · subst hp
        exact .fetchSub n i K (.inl rfl) rfl (by simp)
      · exact .none (by simp [hp]) (by simp [Event.discharges]) (by simp [Event.discharges, hp])
          (by simp [Event.discharges])
  | anyFetchSub a n i t out K h =>
      by_cases hp : p = a
      · subst hp
        exact .fetchSub n i K (.inr ⟨t, out, rfl⟩) rfl (by simp)
      · exact .none (by simp [hp]) (by simp [Event.discharges]) (by simp [Event.discharges, hp])
          (by simp [Event.discharges])
  | allDestroy a n K h =>
      by_cases hp : p = a
      · subst hp
        exact .destroy n (.inl ⟨K, rfl⟩) rfl (by simp)
      · exact .none (by simp [hp]) (by simp [Event.discharges]) (by simp [Event.discharges])
          (by simp [Event.discharges, hp])
  | anyDestroy a n h =>
      by_cases hp : p = a
      · subst hp
        exact .destroy n (.inr rfl) rfl (by simp)
      · exact .none (by simp [hp]) (by simp [Event.discharges]) (by simp [Event.discharges])
          (by simp [Event.discharges, hp])
  | leafCall t r =>
      refine .none ?_ (by simp [Event.discharges]) (by simp [Event.discharges])
        (by simp [Event.discharges])
      cases r <;> simp
  | _ =>
      exact .none (by simp) (by simp [Event.discharges]) (by simp [Event.discharges])
        (by simp [Event.discharges])

/-- What a step does to the ledger, from `O` to `O'`, and to `_values`. -/
structure Transfer (O O' : Multiset Ob) (e : Event α) (m m' : Mem α) : Prop where
  le : O' ≤ O
  owed : ∀ {x}, x ∈ e.discharges → x ∈ O
  gone : ∀ {x}, x ∈ e.discharges → x ∉ O'
  lost : ∀ {x}, x ∈ O → x ∉ O' → (∀ q, x ≠ .read q) → x ∈ e.discharges
  slots : ∀ q j, Ob.slotWrite q j ∉ e.discharges → Ob.read q ∈ O' → (m' q).slots j = (m q).slots j
  alt : ∀ q, Ob.variantWrite q ∉ e.discharges → Ob.read q ∈ O' → (m' q).alt = (m q).alt

/-- The ledger of the state after a step. -/
theorem State.obs_after {D : Type*} {l : List (Site α D)} {s : State α} {t : ℕ} {fr : Frame α}
    {rest : List (Frame α)} {o : Outcome α} (ht : s.threads[t]? = some (fr :: rest)) :
    (s.after t rest o).obs l + (fr.obs + s.mem.obs l) =
      s.obs l + (stackObs o.frames + stackObs o.spawned + o.mem.obs l) := by
  have hset := Tally.sum_map_set stackObs ht (o.frames ++ rest)
  have hsp : (o.spawned.map fun fr => stackObs [fr]).sum = stackObs o.spawned := by
    simp [stackObs]
  simp only [stackObs_cons, stackObs_append] at hset
  have hset' : ((s.threads.set t (o.frames ++ rest)).map stackObs).sum + fr.obs =
      (s.threads.map stackObs).sum + stackObs o.frames := by
    rw [← add_assoc, ← add_assoc] at hset
    exact add_right_cancel hset
  simp only [State.obs, State.after, List.map_append, List.map_map, List.sum_append,
    Function.comp_def, hsp]
  calc _ = (((s.threads.set t (o.frames ++ rest)).map stackObs).sum + fr.obs) +
        stackObs o.spawned + o.mem.obs l + s.mem.obs l := by abel
    _ = _ := by rw [hset']; abel

variable {φ : Flow.{u, v} α} {G : Node α} {s : State α} {t : ℕ} {c : Choice α} {fr : Frame α}
  {rest : List (Frame α)} {o : Outcome α}

/-- The threads after a step: the one that moved, the others, and the new ones. -/
theorem State.getElem?_after {t' : ℕ} {st : List (Frame α)}
    (ht : s.threads[t]? = some (fr :: rest)) (ht' : (s.after t rest o).threads[t']? = some st) :
    (t' = t ∧ st = o.frames ++ rest) ∨ (t' ≠ t ∧ s.threads[t']? = some st) ∨
      (s.threads.length ≤ t' ∧ ∃ sp ∈ o.spawned, st = [sp]) := by
  have hlt : t < s.threads.length := (List.getElem?_eq_some_iff.mp ht).1
  simp only [after] at ht'
  by_cases hlt' : t' < s.threads.length
  · rw [List.getElem?_append_left (by simpa using hlt')] at ht'
    by_cases he : t' = t
    · subst he
      rw [List.getElem?_set_self hlt] at ht'
      exact .inl ⟨rfl, (Option.some.inj ht').symm⟩
    · rw [List.getElem?_set_ne (Ne.symm he)] at ht'
      exact .inr (.inl ⟨he, ht'⟩)
  · rw [List.getElem?_append_right (by simpa using hlt')] at ht'
    obtain ⟨sp, hsp, rfl⟩ := List.mem_map.mp (List.mem_of_getElem? ht')
    exact .inr (.inr ⟨not_lt.mp hlt', sp, hsp, rfl⟩)

theorem Inv.frame_OK (h : Inv φ G s) (ht : s.threads[t]? = some (fr :: rest)) :
    fr.OK φ G (s.obs (φ.sites G)) s.mem :=
  h.frames _ (List.mem_of_getElem? ht) fr (List.mem_cons_self ..)

/-- A frame on a stack owes part of what the state owes. -/
theorem State.frame_obs_le {D : Type*} {l : List (Site α D)} {st : List (Frame α)}
    (hst : st ∈ s.threads) (hfr : fr ∈ st) : fr.obs ≤ s.obs l := by
  calc fr.obs ≤ stackObs st := List.le_sum_of_mem (List.mem_map_of_mem hfr)
    _ ≤ (s.threads.map stackObs).sum := List.le_sum_of_mem (List.mem_map_of_mem hst)
    _ ≤ s.obs l := Multiset.le_add_right _ _

theorem State.top_obs_le {D : Type*} {l : List (Site α D)}
    (ht : s.threads[t]? = some (fr :: rest)) : fr.obs ≤ s.obs l :=
  frame_obs_le (List.mem_of_getElem? ht) (List.mem_cons_self ..)

theorem mem_pending {O : Multiset Ob} {a n : ℕ} {i : Fin (n + 1)} :
    i ∈ pending O a n ↔ Ob.fetchSub a i ∈ O := by
  simp [pending]

theorem card_pending_le (O : Multiset Ob) (a n : ℕ) : (pending O a n).card ≤ n + 1 := by
  have := Finset.card_le_univ (pending O a n)
  simpa using this

/-- The counter is in range at a `fetch_sub`. -/
theorem Inv.one_le_left (h : Inv φ G s) {k : Join} {n : ℕ} {fs : Fin (n + 1) → Node α} {a : ℕ}
    {K : Cont α} {d : φ.D} (hx : ⟨.fork k fs, a, K, d⟩ ∈ φ.sites G)
    (hc : Ob.construct a ∉ s.obs (φ.sites G)) (j : Fin (n + 1))
    (hj : Ob.fetchSub a j ∈ s.obs (φ.sites G)) : 1 ≤ (s.mem a).state.bytes.left := by
  rw [(h.nodes hx).left hc]
  have : 0 < (pending (s.obs (φ.sites G)) a n).card :=
    Finset.card_pos.mpr ⟨j, mem_pending.mpr hj⟩
  omega

theorem Inv.left_lt_one (h : Inv φ G s) {k : Join} {n : ℕ} {fs : Fin (n + 1) → Node α} {a : ℕ}
    {K : Cont α} {d : φ.D} (hx : ⟨.fork k fs, a, K, d⟩ ∈ φ.sites G)
    (hc : Ob.construct a ∉ s.obs (φ.sites G))
    (hf : ∀ i < n + 1, Ob.fetchSub a i ∉ s.obs (φ.sites G)) :
    (s.mem a).state.bytes.left < 1 := by
  rw [(h.nodes hx).left hc]
  have : pending (s.obs (φ.sites G)) a n = ∅ :=
    Finset.eq_empty_of_forall_notMem fun i hi => hf i i.isLt (mem_pending.mp hi)
  simp [this]

/-- In a state of the invariant, the frame that moves fits. -/
theorem Inv.fits (h : Inv φ G s) (ht : s.threads[t]? = some (fr :: rest)) :
    fr.Fits (φ.sites G) s.mem := by
  have hok := h.frame_OK ht
  have hobs := State.top_obs_le (l := φ.sites G) ht
  cases fr with
  | exec g a input K =>
      cases g with
      | leaf | seq => exact True.intro
      | fork k fs =>
          obtain ⟨d, hd, -⟩ := hok
          exact ⟨d, hd⟩
  | allFetchSub a n i K =>
      obtain ⟨fs, d, j, hj, hd, hc, -⟩ := hok
      refine ⟨⟨fs, d, hd⟩, h.one_le_left hd hc j (Multiset.mem_of_le hobs ?_)⟩
      simp [Frame.obs, hj]
  | allDestroy a n K =>
      obtain ⟨fs, d, hd, hc, hf⟩ := hok
      exact ⟨⟨fs, d, hd⟩, h.left_lt_one hd hc hf⟩
  | anyFetchSub a n i t out K =>
      obtain ⟨fs, d, j, hj, hd, hc, -⟩ := hok
      refine ⟨⟨fs, d, hd⟩, h.one_le_left hd hc j (Multiset.mem_of_le hobs ?_), ?_⟩
      · simp [Frame.obs, hj]
      · have := card_pending_le (s.obs (φ.sites G)) a n
        rw [(h.nodes hd).left hc]
        exact_mod_cast this
  | anyDestroy a n =>
      obtain ⟨fs, K, d, hd, hc, hf⟩ := hok
      exact ⟨⟨fs, K, d, hd⟩, h.left_lt_one hd hc hf⟩
  | _ => exact True.intro

/-- **The ledger of a step**: the event's obligation leaves the ledger, and nothing
else does but rights to read. -/
theorem Inv.ledger (h : Inv φ G s) (ht : s.threads[t]? = some (fr :: rest))
    (hf : Fires s.mem c fr o) :
    ∃ ρ : Multiset Ob, (∀ x ∈ ρ, ∃ q, x = .read q) ∧
      s.obs (φ.sites G) = o.event.discharges + ρ + (s.after t rest o).obs (φ.sites G) ∧
      (∀ q j, .read q ∉ ρ → .slotWrite q j ∉ o.event.discharges →
        (o.mem q).slots j = (s.mem q).slots j) ∧
      (∀ q, .read q ∉ ρ → .variantWrite q ∉ o.event.discharges →
        (o.mem q).alt = (s.mem q).alt) := by
  obtain ⟨ρ, hρ, hbal, hslots, halt⟩ := hf.balance (h.fits ht)
  refine ⟨ρ, hρ, ?_, hslots, halt⟩
  have hafter := State.obs_after (o := o) (l := φ.sites G) ht
  change fr.obs + s.mem.obs (φ.sites G) = o.event.discharges + ρ +
    (stackObs o.frames + stackObs o.spawned) + o.mem.obs (φ.sites G) at hbal
  rw [hbal] at hafter
  apply add_right_cancel (b := stackObs o.frames + stackObs o.spawned + o.mem.obs (φ.sites G))
  rw [← hafter]
  abel

theorem Inv.transfer (h : Inv φ G s) (ht : s.threads[t]? = some (fr :: rest))
    (hf : Fires s.mem c fr o) :
    Transfer (s.obs (φ.sites G)) ((s.after t rest o).obs (φ.sites G)) o.event s.mem o.mem := by
  obtain ⟨ρ, hρ, heq, hslots, halt⟩ := h.ledger ht hf
  have hnd := heq ▸ h.nodup
  have hread : ∀ q, Ob.read q ∈ (s.after t rest o).obs (φ.sites G) → Ob.read q ∉ ρ :=
    fun q hq hmem => Multiset.disjoint_left.mp (Multiset.nodup_add.mp hnd).2.2
      (Multiset.mem_add.mpr (.inr hmem)) hq
  refine ⟨heq ▸ Multiset.le_add_left _ _, fun hx => ?_, fun hx hx' => ?_,
    fun hx hx' hr => ?_, fun q j hw hq => hslots q j (hread q hq) hw,
    fun q hw hq => halt q (hread q hq) hw⟩
  · rw [heq]
    exact Multiset.mem_add.mpr (.inl (Multiset.mem_add.mpr (.inl hx)))
  · exact Multiset.disjoint_left.mp (Multiset.nodup_add.mp hnd).2.2
      (Multiset.mem_add.mpr (.inl hx)) hx'
  · rw [heq] at hx
    rcases Multiset.mem_add.mp hx with hx | hx
    · rcases Multiset.mem_add.mp hx with hx | hx
      · exact hx
      · obtain ⟨q, hq⟩ := hρ _ hx
        exact absurd hq (hr q)
    · exact absurd hx hx'

/-! ### Which frame performs an action -/

theorem Fires.of_slotWrite {m : Mem α} (hf : Fires m c fr o) {a i : ℕ}
    (he : Ob.slotWrite a i ∈ o.event.discharges) :
    ∃ n out K, fr = .allWrite a n i out K ∧ (o.mem a).slots i = out.read m := by
  cases hf with
  | slotWrite a' n i' out K =>
      obtain ⟨rfl, rfl⟩ : a = a' ∧ i = i' := by simpa [Event.discharges] using he
      exact ⟨n, out, K, rfl, by simp⟩
  | _ => simp [Event.discharges] at he

theorem Fires.of_variantWrite {m : Mem α} (hf : Fires m c fr o) {a : ℕ}
    (he : Ob.variantWrite a ∈ o.event.discharges) :
    ∃ n i t out K, fr = .anyWrite a n i t out K ∧ (o.mem a).alt = .variant t (out.read m) := by
  cases hf with
  | variantWrite a' n i t out K =>
      obtain rfl : a = a' := by simpa [Event.discharges] using he
      exact ⟨n, i, t, out, K, rfl, by simp⟩
  | _ => simp [Event.discharges] at he

theorem Fires.of_thenCall {m : Mem α} (hf : Fires m c fr o)
    (he : Ob.thenCall ∈ o.event.discharges) :
    ∃ res, fr = .thenCall res ∧ o.event = .thenCall (res.read m) := by
  cases hf with
  | thenCall res => exact ⟨res, rfl, rfl⟩
  | _ => simp [Event.discharges] at he

/-- A `fetch_sub` is made by the continuation of a child, whose result the flow knows. -/
theorem Inv.fetchSub_frame (h : Inv φ G s) (ht : s.threads[t]? = some (fr :: rest)) {a n i : ℕ}
    {K : Cont α} (hfr : fr = .allFetchSub a n i K ∨ ∃ t out, fr = .anyFetchSub a n i t out K) :
    ∃ (k : Join) (fs : Fin (n + 1) → Node α) (d : φ.D) (j : Fin (n + 1)), (j : ℕ) = i ∧
      ⟨.fork k fs, a, K, d⟩ ∈ φ.sites G ∧ Ob.construct a ∉ s.obs (φ.sites G) ∧
      (k = .all → Ob.slotWrite a i ∉ s.obs (φ.sites G)) ∧
      ∃ y, φ.holds (φ.out (fs j) (Node.childAddr fs a j) d) y := by
  have hok := h.frame_OK ht
  rcases hfr with rfl | ⟨t, out, rfl⟩
  · obtain ⟨fs, d, j, hj, hd, hc, hw, hy⟩ := hok
    exact ⟨.all, fs, d, j, hj, hd, hc, fun _ => hw, hy⟩
  · obtain ⟨fs, d, j, hj, hd, hc, -, -, hy⟩ := hok
    exact ⟨.any, fs, d, j, hj, hd, hc, nofun, _, hy⟩

theorem Inv.destroy_frame (h : Inv φ G s) (ht : s.threads[t]? = some (fr :: rest)) {a n : ℕ}
    (hfr : (∃ K, fr = .allDestroy a n K) ∨ fr = .anyDestroy a n) :
    ∃ (k : Join) (fs : Fin (n + 1) → Node α) (K : Cont α) (d : φ.D),
      ⟨.fork k fs, a, K, d⟩ ∈ φ.sites G ∧ Ob.construct a ∉ s.obs (φ.sites G) ∧
      ∀ i < n + 1, Ob.fetchSub a i ∉ s.obs (φ.sites G) := by
  have hok := h.frame_OK ht
  rcases hfr with ⟨K, rfl⟩ | rfl
  · obtain ⟨fs, d, hd, hc, hf⟩ := hok
    exact ⟨.all, fs, K, d, hd, hc, hf⟩
  · obtain ⟨fs, K, d, hd, hc, hf⟩ := hok
    exact ⟨.any, fs, K, d, hd, hc, hf⟩

/-! ### The members of a node after a step -/

section Nodes

variable (h : Inv φ G s) (ht : s.threads[t]? = some (fr :: rest)) (hf : Fires s.mem c fr o)
  {k : Join} {n : ℕ} {fs : Fin (n + 1) → Node α} {a : ℕ} {K : Cont α} {d : φ.D}
  (hx : ⟨.fork k fs, a, K, d⟩ ∈ φ.sites G)

include h ht hf hx

/-- The call of `execute` that constructs the node at `a` is the one of its site. -/
theorem Inv.construct_frame {k' : Join} {n' : ℕ} {fs' : Fin (n' + 1) → Node α} {input : Src α}
    {K' : Cont α} (hfr : fr = .exec (.fork k' fs') a input K') :
    n' = n ∧ K.Entered (s.obs (φ.sites G)) ∧ φ.holds d (input.read s.mem) ∧
      (∀ i : Fin (n + 1), Ob.fetchSub a i ∈ s.obs (φ.sites G)) ∧
      Ob.destroy a ∈ s.obs (φ.sites G) := by
  subst hfr
  obtain ⟨d', hd', hK, -, hy⟩ := h.frame_OK ht
  have hle := State.top_obs_le (l := φ.sites G) ht
  cases Node.fork_site_ext hx hd'
  have hmem : ∀ x, x ∈ (Node.fork k fs).obs a → x ∈ s.obs (φ.sites G) := fun x hx =>
    Multiset.mem_of_le hle (Multiset.mem_add.mpr (.inl (Multiset.mem_add.mpr (.inl hx))))
  refine ⟨rfl, hK, hy, fun i => hmem _ ?_, hmem _ ?_⟩
  · exact Node.mem_obs_fork.mpr (.inr (.inr
      ⟨i, Join.mem_branchObs.mpr (.inr (.inr (.inr (.inl rfl))))⟩))
  · exact Node.mem_obs_fork.mpr (.inr (.inl (Join.mem_nodeObs.mpr (.inl rfl))))

theorem Inv.entered_after (hc : Ob.construct a ∉ (s.after t rest o).obs (φ.sites G)) :
    K.Entered ((s.after t rest o).obs (φ.sites G)) := by
  have T := h.transfer ht hf
  by_cases hO : Ob.construct a ∈ s.obs (φ.sites G)
  · rcases hf.touches a with ⟨-, hc', -, -⟩ | ⟨k', n', fs', input, K', hfr, he, -⟩ |
      ⟨_, _, _, -, he, -⟩ | ⟨_, -, he, -⟩
    · exact absurd (T.lost hO hc (by simp)) hc'
    · exact (h.construct_frame ht hf hx hfr).2.1.mono T.le
    · have := T.lost hO hc (by simp)
      simp [he, Event.discharges] at this
    · have := T.lost hO hc (by simp)
      simp [he, Event.discharges] at this
  · exact ((h.nodes hx).entered hO).mono T.le

/-- A `fetch_sub` takes its child out of the pending ones. -/
theorem Inv.left_after (hc : Ob.construct a ∉ (s.after t rest o).obs (φ.sites G)) :
    (o.mem a).state.bytes.left =
      (pending ((s.after t rest o).obs (φ.sites G)) a n).card := by
  have T := h.transfer ht hf
  have hlost : ∀ {x}, x ∈ s.obs (φ.sites G) → x ∉ o.event.discharges → (∀ q, x ≠ .read q) →
      x ∈ (s.after t rest o).obs (φ.sites G) :=
    fun hx he hr => by_contra fun hx' => he (T.lost hx hx' hr)
  have hO : Ob.construct a ∉ o.event.discharges → Ob.construct a ∉ s.obs (φ.sites G) :=
    fun he hmem => hc (hlost hmem he (by simp))
  rcases hf.touches a with ⟨hst, hc', hf', -⟩ | ⟨k', n', fs', input, K', hfr, he, hst⟩ |
    ⟨n', i, K', hfr, he, hst⟩ | ⟨n', hfr, he, hst⟩
  · -- no child of this node was counted
    rw [hst, (h.nodes hx).left (hO hc')]
    congr 2
    ext i
    simp only [mem_pending]
    exact ⟨fun hi => hlost hi (hf' i) (by simp), fun hi => Multiset.mem_of_le T.le hi⟩
  · -- `construct`: all children are pending
    obtain ⟨rfl, -, -, hall, -⟩ := h.construct_frame ht hf hx hfr
    have : pending ((s.after t rest o).obs (φ.sites G)) a n' = Finset.univ := by
      ext i
      simpa [mem_pending] using hlost (hall i) (by simp [he, Event.discharges]) (by simp)
    simp [hst, this]
  · -- `fetch_sub`: the counter and the pending children both go down by one
    obtain ⟨k', fs', d', j, rfl, hd', -, -⟩ := h.fetchSub_frame ht hfr
    cases Node.fork_site_ext hx hd'
    have hj : Ob.fetchSub a j ∈ s.obs (φ.sites G) := T.owed (by simp [he, Event.discharges])
    have : pending ((s.after t rest o).obs (φ.sites G)) a n =
        (pending (s.obs (φ.sites G)) a n).erase j := by
      ext i
      simp only [Finset.mem_erase, mem_pending]
      constructor
      · intro hi
        refine ⟨fun e => T.gone (x := .fetchSub a i) ?_ hi, Multiset.mem_of_le T.le hi⟩
        simp [he, e, Event.discharges]
      · rintro ⟨hne, hi⟩
        exact hlost hi (by simp [he, Event.discharges, Fin.val_inj, hne]) (by simp)
    have hcard := Finset.card_erase_add_one (mem_pending.mpr hj)
    rw [hst, this, (h.nodes hx).left (hO (by simp [he, Event.discharges]))]
    push_cast [← hcard]
    omega
  · rw [hst, (h.nodes hx).left (hO (by simp [he, Event.discharges]))]
    congr 2
    ext i
    simp only [mem_pending]
    exact ⟨fun hi => hlost hi (by simp [he, Event.discharges]) (by simp),
      fun hi => Multiset.mem_of_le T.le hi⟩

theorem Inv.engaged_after (hc : Ob.construct a ∉ (s.after t rest o).obs (φ.sites G))
    (hl : 1 ≤ (o.mem a).state.bytes.left) : (o.mem a).state.engaged = true := by
  have T := h.transfer ht hf
  have hO : Ob.construct a ∉ o.event.discharges → Ob.construct a ∉ s.obs (φ.sites G) :=
    fun he hmem => he (T.lost hmem hc (by simp))
  rcases hf.touches a with ⟨hst, hc', hf', -⟩ | ⟨k', n', fs', input, K', hfr, he, hst⟩ |
    ⟨n', i, K', hfr, he, hst⟩ | ⟨n', hfr, he, hst⟩
  · rw [hst] at hl ⊢
    exact (h.nodes hx).engaged (hO hc') hl
  · rw [hst]
  · rw [hst] at hl ⊢
    exact (h.nodes hx).engaged (hO (by simp [he, Event.discharges])) (by simp at hl; omega)
  · obtain ⟨k', fs', K', d', hd', hc', hf'⟩ := h.destroy_frame ht hfr
    have := h.left_lt_one hd' hc' hf'
    rw [hst] at hl
    exact absurd hl (not_le.mpr this)

theorem Inv.input_after (he : (o.mem a).state.engaged = true) :
    φ.holds d (o.mem a).state.bytes.input := by
  rcases hf.touches a with ⟨hst, -⟩ | ⟨k', n', fs', input, K', hfr, -, hst⟩ |
    ⟨n', i, K', hfr, -, hst⟩ | ⟨n', hfr, -, hst⟩
  · rw [hst] at he ⊢
    exact (h.nodes hx).input he
  · rw [hst]
    exact (h.construct_frame ht hf hx hfr).2.2.1
  · rw [hst] at he ⊢
    exact (h.nodes hx).input he
  · simp [hst] at he

theorem Inv.slot_fetch_after (hk : k = .all) (i : Fin (n + 1))
    (hw : Ob.slotWrite a i ∈ (s.after t rest o).obs (φ.sites G)) :
    Ob.fetchSub a i ∈ (s.after t rest o).obs (φ.sites G) := by
  have T := h.transfer ht hf
  have hwO := Multiset.mem_of_le T.le hw
  refine by_contra fun hn => ?_
  have he := T.lost ((h.nodes hx).slot_fetch hk i hwO) hn (by simp)
  rcases hf.touches a with ⟨-, -, hf', -⟩ | ⟨_, _, _, _, _, -, he', -⟩ |
    ⟨n', j, K', hfr, he', -⟩ | ⟨_, -, he', -⟩
  · exact hf' i he
  · simp [he', Event.discharges] at he
  · obtain ⟨k', fs', d', j', rfl, hd', -, hw', -⟩ := h.fetchSub_frame ht hfr
    cases Node.fork_site_ext hx hd'
    have hij : (i : ℕ) = j' := by simpa [he', Event.discharges] using he
    exact hw' hk (hij ▸ hwO)
  · simp [he', Event.discharges] at he

theorem Inv.slots_after (hk : k = .all) (i : Fin (n + 1))
    (hw : Ob.slotWrite a i ∉ (s.after t rest o).obs (φ.sites G))
    (hr : Ob.read a ∈ (s.after t rest o).obs (φ.sites G)) :
    φ.holds (φ.out (fs i) (Node.childAddr fs a i) d) ((o.mem a).slots i) := by
  have T := h.transfer ht hf
  by_cases hwO : Ob.slotWrite a i ∈ s.obs (φ.sites G)
  · obtain ⟨n', out, K', rfl, hst⟩ := hf.of_slotWrite (T.lost hwO hw (by simp))
    obtain ⟨fs', d', j, hj, hd', -, -, hy⟩ := h.frame_OK ht
    cases Node.fork_site_ext hx hd'
    obtain rfl := Fin.ext hj
    rwa [hst]
  · rw [T.slots a i (fun he => hwO (T.owed he)) hr]
    exact (h.nodes hx).slots hk i hwO (Multiset.mem_of_le T.le hr)

theorem Inv.alt_after (hk : k = .any)
    (hw : Ob.variantWrite a ∉ (s.after t rest o).obs (φ.sites G))
    (hr : Ob.read a ∈ (s.after t rest o).obs (φ.sites G)) :
    φ.holds (φ.out (.any fs) a d) (o.mem a).alt := by
  have T := h.transfer ht hf
  by_cases hwO : Ob.variantWrite a ∈ s.obs (φ.sites G)
  · obtain ⟨n', i, t', out, K', rfl, hst⟩ := hf.of_variantWrite (T.lost hwO hw (by simp))
    obtain ⟨fs', d', j, rfl, hd', -, rfl, -, hy, hall⟩ := h.frame_OK ht
    cases Node.fork_site_ext hx hd'
    rw [hst]
    exact φ.any_rule hall hy
  · rw [T.alt a (fun he => hwO (T.owed he)) hr]
    exact (h.nodes hx).alt hk hwO (Multiset.mem_of_le T.le hr)

theorem Inv.out_after (i : Fin (n + 1))
    (hi : Ob.fetchSub a i ∉ (s.after t rest o).obs (φ.sites G)) :
    ∃ y, φ.holds (φ.out (fs i) (Node.childAddr fs a i) d) y := by
  have T := h.transfer ht hf
  by_cases hO : Ob.fetchSub a i ∈ s.obs (φ.sites G)
  · have he := T.lost hO hi (by simp)
    rcases hf.touches a with ⟨-, -, hf', -⟩ | ⟨_, _, _, _, _, -, he', -⟩ |
      ⟨n', j, K', hfr, he', -⟩ | ⟨_, -, he', -⟩
    · exact absurd he (hf' i)
    · simp [he', Event.discharges] at he
    · obtain ⟨k', fs', d', j', rfl, hd', -, -, hy⟩ := h.fetchSub_frame ht hfr
      cases Node.fork_site_ext hx hd'
      obtain rfl : i = j' := by simpa [he', Event.discharges, Fin.val_inj] using he
      exact hy
    · simp [he', Event.discharges] at he
  · exact (h.nodes hx).out i hO

theorem Inv.nodeOK_after :
    NodeOK φ ((s.after t rest o).obs (φ.sites G)) o.mem k fs a K d where
  entered := h.entered_after ht hf hx
  left := h.left_after ht hf hx
  engaged := h.engaged_after ht hf hx
  input := h.input_after ht hf hx
  slot_fetch := h.slot_fetch_after ht hf hx
  slots := h.slots_after ht hf hx
  alt := h.alt_after ht hf hx
  out := h.out_after ht hf hx

end Nodes

/-! ### The frames after a step -/

/-- The new frames of a thread are part of what the new state owes. -/
theorem State.new_obs_le {D : Type*} {l : List (Site α D)}
    (ht : s.threads[t]? = some (fr :: rest)) {fr' : Frame α} (hfr' : fr' ∈ o.frames) :
    fr'.obs ≤ (s.after t rest o).obs l := by
  have hlt : t < s.threads.length := (List.getElem?_eq_some_iff.mp ht).1
  have hst : o.frames ++ rest ∈ (s.after t rest o).threads :=
    List.mem_append_left _ (List.mem_set hlt _)
  exact frame_obs_le hst (List.mem_append_left _ hfr')

theorem scheduleIfLast_OK {k : Join} {n : ℕ} {fs : Fin (n + 1) → Node α} {a : ℕ} {K : Cont α}
    {d : φ.D} {O : Multiset Ob} {m : Mem α} (hx : ⟨.fork k fs, a, K, d⟩ ∈ φ.sites G)
    (hc : Ob.construct a ∉ O) (i : Fin (n + 1)) : (scheduleIfLast k a fs i K).OK φ G O m := by
  unfold scheduleIfLast
  split
  · exact ⟨d, hx, hc⟩
  · exact ⟨d, hx, hc⟩

/-- Most frames are replaced by one, on the same thread. -/
theorem eq_of_new {fr' fr'' : Frame α} (h : fr' ∈ [fr''] ∨ fr' ∈ ([] : List (Frame α))) :
    fr' = fr'' := by
  simpa using h

section Frames

variable (h : Inv φ G s) (ht : s.threads[t]? = some (fr :: rest)) (hf : Fires s.mem c fr o)

include h ht hf

theorem Inv.change :
    Change (s.obs (φ.sites G)) ((s.after t rest o).obs (φ.sites G)) s.mem o.mem := by
  have T := h.transfer ht hf
  refine ⟨T.le, fun p hp => ?_, fun q j hw => T.slots q j fun he => hw (T.owed he),
    fun q hw => T.alt q fun he => hw (T.owed he)⟩
  rcases hf.touches p with ⟨hst, -⟩ | ⟨_, _, _, _, _, -, he, -⟩ | ⟨_, _, _, -, -, hst⟩ |
    ⟨_, -, -, hst⟩
  · rw [hst]
  · exact absurd (T.owed (by simp [he, Event.discharges])) hp
  · rw [hst]
  · rw [hst]

/-- When the counter reached `0`, no child is pending. -/
theorem Inv.no_fetchSub {k : Join} {n : ℕ} {fs : Fin (n + 1) → Node α} {a : ℕ} {K : Cont α}
    {d : φ.D} (hx : ⟨.fork k fs, a, K, d⟩ ∈ φ.sites G)
    (hc : Ob.construct a ∉ (s.after t rest o).obs (φ.sites G))
    (hl : (o.mem a).state.bytes.left = 0) :
    ∀ i < n + 1, Ob.fetchSub a i ∉ (s.after t rest o).obs (φ.sites G) := by
  have hcard := h.left_after ht hf hx hc
  rw [hl] at hcard
  have hempty : pending ((s.after t rest o).obs (φ.sites G)) a n = ∅ :=
    Finset.card_eq_zero.mp (by exact_mod_cast hcard.symm)
  intro i hi hmem
  exact Finset.notMem_empty (⟨i, hi⟩ : Fin (n + 1)) (hempty ▸ mem_pending.mpr hmem)

theorem Inv.new_OK (he : φ.allowed o.event) {fr' : Frame α}
    (hfr' : fr' ∈ o.frames ∨ fr' ∈ o.spawned) :
    fr'.OK φ G ((s.after t rest o).obs (φ.sites G)) o.mem := by
  have hok := h.frame_OK ht
  have T := h.transfer ht hf
  have hnot : ∀ {x}, x ∉ s.obs (φ.sites G) → x ∉ (s.after t rest o).obs (φ.sites G) :=
    fun hx hmem => hx (Multiset.mem_of_le T.le hmem)
  have hnew : ∀ {fr'}, fr' ∈ o.frames → fr'.obs ≤ (s.after t rest o).obs (φ.sites G) :=
    fun hm => State.new_obs_le ht hm
  have hchange := h.change ht hf
  have hnode := fun {k : Join} {n : ℕ} {fs : Fin (n + 1) → Node α} {a K d}
    (hx : ⟨.fork k fs, a, K, d⟩ ∈ φ.sites G) => h.nodeOK_after ht hf hx
  have hdone := fun {k : Join} {n : ℕ} {fs : Fin (n + 1) → Node α} {a K d}
    (hx : ⟨.fork k fs, a, K, d⟩ ∈ φ.sites G) => h.no_fetchSub ht hf hx
  cases hf with
  | leafCall t' r f a input K =>
      obtain ⟨d, hd, hK, hv, hy⟩ := hok
      obtain rfl := eq_of_new hfr'
      refine ⟨t', d, hd, hK.mono T.le, hy, fun hr => ⟨hv.mono T.le, ?_⟩⟩
      simp [hr]
  | seqExec A B a input K =>
      obtain ⟨d, hd, hK, hv, hy⟩ := hok
      obtain rfl := eq_of_new hfr'
      exact ⟨d, Node.mem_sites_fst hd, hK.seqK.mono T.le, hv.seqK.mono T.le, hy⟩
  | construct k fs a input K he =>
      obtain ⟨d, hd, -⟩ := hok
      obtain rfl := eq_of_new hfr'
      exact scheduleIfLast_OK hd (T.gone (by simp [Event.discharges])) 0
  | leafRet a r f input arg K =>
      -- the argument is the one of the call, by value or by reference
      obtain ⟨t', d, hd, hK, hy, hr⟩ := hok
      have harg : φ.holds d (if r then input.read s.mem else arg) := by
        split
        · rwa [(hr ‹_›).2]
        · exact hy
      simp only [List.mem_cons, List.not_mem_nil, or_false] at hfr'
      rcases hfr' with rfl | rfl
      · refine Cont.invoke_OK (fun _ => True.intro) (hK.mono T.le) ?_
        exact arrives_of_mem_sites _ hd _ (φ.leaf_rule he harg)
      · exact True.intro
  | tempDrop a out => simp at hfr'
  | submitInline k a fs i K hi | submitThread k a fs i K hi =>
      obtain ⟨d, hd, hc⟩ := hok
      simp only [List.mem_cons, List.not_mem_nil, or_false] at hfr'
      rcases hfr' with rfl | rfl <;> exact ⟨d, hd, hnot hc⟩
  | schedRet k a fs i K =>
      obtain ⟨d, hd, hc⟩ := hok
      obtain rfl := eq_of_new hfr'
      exact scheduleIfLast_OK hd (hnot hc) _
  | inputRead k a fs i K hst =>
      obtain ⟨d, hd, hc⟩ := hok
      obtain rfl := eq_of_new hfr'
      exact ⟨d, Node.mem_sites_child hd i, .joinK (hnot hc), ⟨i, rfl⟩, (h.nodes hd).input hst⟩
  | slotWrite a n i out K =>
      obtain ⟨fs, d, j, hj, hd, hc, hv, hy⟩ := hok
      obtain rfl := eq_of_new hfr'
      exact ⟨fs, d, j, hj, hd, hnot hc, T.gone (by simp [Event.discharges]), _, hy⟩
  | allFetchSub a n i K hst =>
      obtain ⟨fs, d, j, hj, hd, hc, -⟩ := hok
      simp only [List.not_mem_nil, or_false] at hfr'
      split_ifs at hfr' with hl
      · obtain rfl := List.mem_singleton.mp hfr'
        exact ⟨fs, d, hd, hnot hc, hdone hd (hnot hc) (by simp [hl])⟩
      · simp at hfr'
  | allDestroy a n K hst =>
      -- all children have written their slot, and this thread has the right to read them
      obtain ⟨fs, d, hd, hc, hfs⟩ := hok
      obtain rfl := eq_of_new hfr'
      have hread := Multiset.mem_of_le (hnew (List.mem_singleton_self _))
        (show Ob.read a ∈ _ by simp [Src.obs])
      have hw : ∀ i : Fin (n + 1), Ob.slotWrite a i ∉ s.obs (φ.sites G) :=
        fun i hmem => hfs i i.isLt ((h.nodes hd).slot_fetch rfl i hmem)
      refine Cont.invoke_OK (fun _ => ?_) ((hnode hd).entered (hnot hc)) ?_
      · exact ⟨n, fs, K, d, rfl, hd, fun i hi => hnot (hw ⟨i, hi⟩)⟩
      · refine arrives_of_mem_sites _ hd _ (φ.all_rule fun i => ?_)
        exact (hnode hd).slots rfl i (hnot (hw i)) hread
  | anyFetchSub a n i t' out K hst =>
      obtain ⟨fs, d, j, rfl, hd, hc, ht', hv, hy⟩ := hok
      simp only [List.mem_append, List.not_mem_nil, or_false] at hfr'
      rcases hfr' with hfr' | hfr'
      · split_ifs at hfr' with hl
        · obtain rfl := List.mem_singleton.mp hfr'
          have hobs : out.obs ≤ _ := le_trans
            ((Multiset.le_add_left _ _).trans (Multiset.le_add_right _ _))
            (hnew (List.mem_append_left _ (by simp [hl] : Frame.anyWrite a n j t' out K ∈ _)))
          refine ⟨fs, d, j, rfl, hd, hnot hc, ht', hv.mono T.le, ?_, ?_⟩
          · rwa [hv.read_eq .root hchange hobs]
          · rwa [← hl]
        · simp at hfr'
      · split_ifs at hfr' with hl
        · obtain rfl := List.mem_singleton.mp hfr'
          exact ⟨fs, K, d, hd, hnot hc, hdone hd (hnot hc) (by simp [hl])⟩
        · simp at hfr'
  | variantWrite a n i t' out K =>
      -- the value just written is the one of the winner
      obtain ⟨fs, d, j, hj, hd, hc, -⟩ := hok
      obtain rfl := eq_of_new hfr'
      have hread := Multiset.mem_of_le (hnew (List.mem_singleton_self _))
        (show Ob.read a ∈ _ by simp [Src.obs])
      have hw : Ob.variantWrite a ∉ _ := T.gone (by simp [Event.discharges])
      refine Cont.invoke_OK (fun _ => ⟨n, fs, K, d, hd, hw⟩) ((hnode hd).entered (hnot hc)) ?_
      exact arrives_of_mem_sites _ hd _ ((hnode hd).alt rfl hw hread)
  | anyDestroy a n hst =>
      obtain ⟨fs, K, d, hd, hc, hfs⟩ := hok
      obtain rfl := eq_of_new hfr'
      exact ⟨n, fs, K, d, hd, fun i hi => hnot (hfs i hi)⟩
  | cleanup | thenCall | thenRet =>
      obtain rfl := eq_of_new hfr'
      exact True.intro
  | countDown => simp at hfr'

theorem Inv.frames_after (he : φ.allowed o.event) :
    ∀ st ∈ (s.after t rest o).threads, ∀ fr' ∈ st,
      fr'.OK φ G ((s.after t rest o).obs (φ.sites G)) o.mem := by
  -- the frames that did not move see no difference
  have hold : ∀ st ∈ s.threads, ∀ fr' ∈ st, fr'.obs ≤ (s.after t rest o).obs (φ.sites G) →
      fr'.OK φ G ((s.after t rest o).obs (φ.sites G)) o.mem :=
    fun st hst fr' hfr' hle => (h.frames st hst fr' hfr').stable (h.change ht hf) hle
  intro st hst fr' hfr'
  have hle : fr'.obs ≤ (s.after t rest o).obs (φ.sites G) := State.frame_obs_le hst hfr'
  rcases List.mem_append.mp hst with hst | hst
  · rcases List.mem_or_eq_of_mem_set hst with hst | rfl
    · exact hold st hst fr' hfr' hle
    · rcases List.mem_append.mp hfr' with hfr' | hfr'
      · exact h.new_OK ht hf he (.inl hfr')
      · exact hold _ (List.mem_of_getElem? ht) fr' (List.mem_cons_of_mem _ hfr') hle
  · obtain ⟨sp, hsp, rfl⟩ := List.mem_map.mp hst
    obtain rfl := List.mem_singleton.mp hfr'
    exact h.new_OK ht hf he (.inr hsp)

theorem Inv.engaged_iff_after (a : ℕ) : (o.mem a).state.engaged = true ↔
    Ob.construct a ∉ (s.after t rest o).obs (φ.sites G) ∧
      Ob.destroy a ∈ (s.after t rest o).obs (φ.sites G) := by
  have T := h.transfer ht hf
  have hiff : ∀ {x}, x ∉ o.event.discharges → (∀ q, x ≠ .read q) →
      (x ∈ (s.after t rest o).obs (φ.sites G) ↔ x ∈ s.obs (φ.sites G)) :=
    fun he hr => ⟨Multiset.mem_of_le T.le, fun hx => by_contra fun hx' => he (T.lost hx hx' hr)⟩
  rcases hf.touches a with ⟨hst, hc, -, hd⟩ | ⟨k, n, fs, input, K, hfr, he, hst⟩ |
    ⟨_, _, _, -, he, hst⟩ | ⟨_, -, he, hst⟩
  · -- another node's storage, or none
    rw [hst, hiff hc (by simp), hiff hd (by simp)]
    exact h.engaged_iff a
  · obtain ⟨d, hd, -⟩ : ∃ d, ⟨.fork k fs, a, K, d⟩ ∈ φ.sites G ∧ _ := by
      have hok := h.frame_OK ht
      rw [hfr] at hok
      exact hok
    have hdest := (h.construct_frame ht hf hd hfr).2.2.2.2
    simp only [hst, true_iff]
    exact ⟨T.gone (by simp [he, Event.discharges]),
      (hiff (by simp [he, Event.discharges]) (by simp)).mpr hdest⟩
  · rw [hst, hiff (by simp [he, Event.discharges]) (by simp),
      hiff (by simp [he, Event.discharges]) (by simp)]
    exact h.engaged_iff a
  · simp only [hst, Bool.false_eq_true, false_iff]
    exact fun hmem => T.gone (by simp [he, Event.discharges]) hmem.2

theorem Inv.event_OK : o.event.OK φ G := by
  have hok := h.frame_OK ht
  cases hf with
  | leafCall t' r f a input K =>
      obtain ⟨d, hd, -, -, hy⟩ := hok
      exact ⟨t', r, f, K, d, hd, hy⟩
  | seqExec A B a input K =>
      obtain ⟨d, hd, -, -, hy⟩ := hok
      exact ⟨A, B, a, K, d, _, rfl, hd, hy⟩
  | construct k fs a input K =>
      obtain ⟨d, hd, -, -, hy⟩ := hok
      exact ⟨k, _, fs, K, d, _, hd, hy⟩
  | cleanup a =>
      obtain ⟨n, fs, K, d, hd, hfs⟩ := hok
      exact ⟨n, fs, K, d, hd, fun i => (h.nodes hd).out i (hfs i i.isLt)⟩
  | thenCall res => exact hok.2
  | _ => exact True.intro

theorem Inv.after (he : φ.allowed o.event) : Inv φ G (s.after t rest o) where
  nodup := Multiset.nodup_of_le (h.transfer ht hf).le h.nodup
  frames := h.frames_after ht hf he
  nodes := h.nodeOK_after ht hf
  engaged_iff := h.engaged_iff_after ht hf
  result hn := by
    have T := h.transfer ht hf
    by_cases hO : Ob.thenCall ∈ s.obs (φ.sites G)
    · obtain ⟨res, rfl, -⟩ := hf.of_thenCall (T.lost hO hn (by simp))
      exact ⟨_, (h.frame_OK ht).2⟩
    · exact h.result hO

end Frames

/-- **Every allowed step preserves the invariant**, and the flow knows the values of its
event. -/
theorem Inv.step {s' : State α} {e : Event α} (h : Inv φ G s) (hs : Step s (t, e) s')
    (he : φ.allowed e) : Inv φ G s' ∧ e.OK φ G := by
  obtain ⟨c, fr, rest, o, ht, hf, rfl, rfl⟩ := step_iff.mp hs
  exact ⟨h.after ht hf he, h.event_OK ht hf⟩

end Orizzonte
