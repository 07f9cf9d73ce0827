/-
Orizzonte/Safety.lean

The shared state of an all or any node.  From `construct` on, `_left` is the number
of children that have not performed their `fetch_sub`, which therefore returns the
arity, the arity minus one, and so on down to one, each value once.  `_state` is
engaged from `construct` until `destroy`, which is called once, by the thread that
was returned one.  No assertion of `aligned_storage_for` fails, and wherever a task
is about to use the storage or holds a reference into it, the storage is engaged
(`shared_state_safe`).
-/
import Orizzonte.Termination

namespace Orizzonte

open Lts

universe u v

variable {α : Type u} {φ : Flow.{u, v} α} {G : Node α} {s s' : State α} {m : Mem α} {x : Value α}
  {τ : List (ℕ × Event α)} {a N : ℕ}

/-! ### The nodes of a graph -/

theorem exists_site_of_mem_forks (φ : Flow.{u, v} α) (h : (a, N) ∈ G.forks 0) :
    ∃ (k : Join) (n : ℕ) (fs : Fin (n + 1) → Node α) (K : Cont α) (d : φ.D),
      N = n + 1 ∧ ⟨.fork k fs, a, K, d⟩ ∈ φ.sites G := by
  unfold Node.forks at h
  rw [Node.collect_eq_flatMap φ.out _ G 0 .root φ.d₀] at h
  obtain ⟨⟨g, b, K, d⟩, hx, hb⟩ := List.mem_flatMap.mp h
  cases g with
  | leaf | seq => simp at hb
  | @fork k n fs =>
      obtain ⟨rfl, rfl⟩ : a = b ∧ N = n + 1 := by simpa using hb
      exact ⟨k, n, fs, K, d, rfl, hx⟩

theorem mem_forks_of_site {k : Join} {n : ℕ} {fs : Fin (n + 1) → Node α} {K : Cont α}
    {d : φ.D} (h : ⟨.fork k fs, a, K, d⟩ ∈ φ.sites G) :
    (a, n + 1) ∈ G.forks 0 := by
  unfold Node.forks
  rw [Node.collect_eq_flatMap φ.out _ G 0 .root φ.d₀]
  exact List.mem_flatMap.mpr ⟨_, h, List.mem_singleton_self _⟩

/-- A node has one arity. -/
theorem forks_unique {N' : ℕ} (h : (a, N) ∈ G.forks 0) (h' : (a, N') ∈ G.forks 0) : N = N' := by
  obtain ⟨k, n, fs, K, d, rfl, hx⟩ := exists_site_of_mem_forks (Flow.trivial (α := α)) h
  obtain ⟨k', n', fs', K', d', rfl, hx'⟩ := exists_site_of_mem_forks (Flow.trivial (α := α)) h'
  cases Node.fork_site_ext hx hx'
  rfl

/-- The actions of a node of the graph itself are owed at the call. -/
theorem mem_total_of_own {k : Join} {n : ℕ} {fs : Fin (n + 1) → Node α} {K : Cont α} {d : φ.D}
    (hx : ⟨.fork k fs, a, K, d⟩ ∈ φ.sites G) {o : Ob} (ho : o ∈ k.own a n) : o ∈ G.total := by
  refine Multiset.mem_add.mpr (.inl (Multiset.mem_of_le (Node.obs_le_of_mem_sites hx) ?_))
  rw [Node.obs_fork_own]
  exact Multiset.mem_add.mpr (.inl ho)

theorem Join.construct_mem_own (k : Join) (a n : ℕ) : Ob.construct a ∈ k.own a n := by
  simp [own]

theorem Join.destroy_mem_own (k : Join) (a n : ℕ) : Ob.destroy a ∈ k.own a n := by
  cases k <;> simp [own, lastObs]

theorem Join.fetchSub_mem_own (k : Join) (a : ℕ) {n : ℕ} (i : Fin (n + 1)) :
    Ob.fetchSub a i ∈ k.own a n := by
  refine Multiset.mem_add.mpr (.inr (Multiset.mem_sum.mpr ⟨i, Finset.mem_univ i, ?_⟩))
  cases k <;> simp [childObs]

/-! ### What was done, in the list of the events -/

/-- An action is among those done if the list that shows it has it. -/
theorem done_iff_mem_observed {β : Type*} {f : Event α → Option β} {b : β} {o : Ob}
    (hf : ∀ e, o ∈ e.discharges ↔ f e = some b) (τ : List (ℕ × Event α)) :
    (∀ l ∈ τ, o ∉ l.2.discharges) ↔ b ∉ observed f τ := by
  simp only [observed, List.mem_filterMap, not_exists, not_and, hf]

theorem mem_discharges_construct {e : Event α} :
    Ob.construct a ∈ e.discharges ↔ e.construct? = some a := by
  cases e <;> simp [Event.discharges, Event.construct?, eq_comm]

theorem mem_discharges_destroy {e : Event α} :
    Ob.destroy a ∈ e.discharges ↔ e.destroy? = some a := by
  cases e <;> simp [Event.discharges, Event.destroy?, eq_comm]

theorem mem_discharges_fetchSub {e : Event α} {i : ℕ} :
    Ob.fetchSub a i ∈ e.discharges ↔ (e.fetchSub? a).map Prod.fst = some i := by
  cases e <;> simp [Event.discharges, Event.fetchSub?]
  rename_i b n j r
  by_cases hb : b = a
  · simp [hb, eq_comm]
  · simp [hb, Ne.symm hb]

/-- What stands for an action of its own is shown at most once. -/
theorem nodup_observed {β : Type*} {f : Event α → Option β} {q : β → Ob}
    (hf : ∀ e b, f e = some b → q b ∈ e.discharges) (hq : ∀ b p, q b ≠ .read p)
    (hm : m.Unengaged) (hr : Run Step (State.start G m x) τ s) : (observed f τ).Nodup := by
  refine hr.invariant (I := fun τ _ => (observed f τ).Nodup) List.nodup_nil ?_
  rintro σ u ⟨t, e⟩ u' hσ hnd hstep
  rw [observed_append, List.nodup_append]
  refine ⟨hnd, ?_, fun b hb b' hb' hbb' => ?_⟩
  · cases he : f e <;> simp [observed, he]
  · subst hbb'
    have he : f e = some b := by
      cases he : f e <;> simp [observed, he] at hb'
      rw [hb']
    obtain ⟨l, hl, hlb⟩ := List.mem_filterMap.mp hb
    exact not_done_twice hm hσ hstep (hq b) (hf e b he) l hl (hf l.2 b hlb)

/-! ### The counter -/

/-- `_left` is the number of children that have not performed their `fetch_sub`. -/
theorem left_eq_card (hm : m.Unengaged) (hr : Run Step (State.start G m x) τ s)
    (ha : (a, N) ∈ G.forks 0) (hc : a ∈ constructs τ) :
    (s.mem a).state.bytes.left =
      (Finset.univ.filter fun i : Fin N => (i : ℕ) ∉ (fetchSubs a τ).map Prod.fst).card := by
  obtain ⟨k, n, fs, K, d, rfl, hx⟩ := exists_site_of_mem_forks (Flow.trivial (α := α)) ha
  have hO : Ob.construct a ∉ s.owed G := by
    rw [mem_owed_iff hm hr (by simp), done_iff_mem_observed fun _ => mem_discharges_construct]
    exact fun h => h.2 hc
  refine (((Inv.reached hm hr).nodes hx).left hO).trans (congrArg _ (congrArg _ ?_))
  apply Finset.filter_congr
  intro i _
  rw [fetchSubs, map_observed]
  refine (mem_owed_iff hm hr (by simp)).trans ?_
  rw [done_iff_mem_observed fun _ => mem_discharges_fetchSub]
  exact and_iff_right (mem_total_of_own hx (k.fetchSub_mem_own a i))

/-- The values that the calls of `fetch_sub` on a node return count down from its arity, and
the counter holds the next one. -/
structure CountsDown (G : Node α) (a N : ℕ) (τ : List (ℕ × Event α)) (s : State α) : Prop where
  before : Ob.construct a ∈ s.owed G → fetchSubs a τ = []
  left : Ob.construct a ∉ s.owed G →
    (s.mem a).state.bytes.left = (N : ℤ) - (fetchSubs a τ).length
  values : (fetchSubs a τ).map Prod.snd =
    (List.range (fetchSubs a τ).length).map fun j : ℕ => (N : ℤ) - j

/-- An event that is no `fetch_sub` on the node leaves its record as it is. -/
theorem fetchSubs_append_of_not_mem {t : ℕ} {e : Event α}
    (hno : ∀ i, Ob.fetchSub a i ∉ e.discharges) : fetchSubs a (τ ++ [(t, e)]) = fetchSubs a τ := by
  have he : e.fetchSub? a = none := by
    refine Option.eq_none_iff_forall_not_mem.mpr fun p hp => hno p.1 ?_
    exact mem_discharges_fetchSub.mpr (by rw [hp]; rfl)
  simp [fetchSubs, observed, he]

/-- A step that leaves the record and the counter as they are. -/
theorem CountsDown.same {u u' : State α} {e : ℕ × Event α} (h : CountsDown G a N τ u)
    (hiff : Ob.construct a ∈ u'.owed G ↔ Ob.construct a ∈ u.owed G)
    (hrec : fetchSubs a (τ ++ [e]) = fetchSubs a τ)
    (hst : (u'.mem a).state.bytes.left = (u.mem a).state.bytes.left) :
    CountsDown G a N (τ ++ [e]) u' := by
  refine ⟨fun hc => ?_, fun hc => ?_, ?_⟩
  · rw [hrec, h.before (hiff.mp hc)]
  · rw [hrec, hst, h.left fun hc' => hc (hiff.mpr hc')]
  · rw [hrec]
    exact h.values

theorem CountsDown.step {k : Join} {n : ℕ} {fs : Fin (n + 1) → Node α} {K : Cont α}
    (hx : ⟨.fork k fs, a, K, ()⟩ ∈ (Flow.trivial (α := α)).sites G) {u u' : State α} {t : ℕ}
    {e : Event α} (hI : Inv Flow.trivial G u) (h : CountsDown G a (n + 1) τ u)
    (hs : Step u (t, e) u') : CountsDown G a (n + 1) (τ ++ [(t, e)]) u' := by
  have hmem : Ob.construct a ∈ u'.owed G ↔
      Ob.construct a ∈ u.owed G ∧ Ob.construct a ∉ e.discharges := hI.mem_obs_step hs (by simp)
  obtain ⟨c, fr, rest, o, ht, hf, rfl, rfl⟩ := step_iff.mp hs
  -- by what the step does to this node's storage
  rcases hf.touches a with ⟨hst, hc, hno, -⟩ | ⟨k', n', fs', input, K', hfr, he, hst⟩ |
    ⟨n', i, K', hfr, he, hst⟩ | ⟨n', hfr, he, hst⟩
  · exact h.same (hmem.trans (and_iff_left hc)) (fetchSubs_append_of_not_mem hno)
      (congrArg (·.bytes.left) hst)
  · have hno : ∀ i, Ob.fetchSub a i ∉ o.event.discharges := by simp [he, Event.discharges]
    obtain ⟨rfl, -⟩ := hI.construct_frame ht hf hx hfr
    have hO : Ob.construct a ∈ u.owed G :=
      (hI.transfer ht hf).owed (by simp [he, Event.discharges])
    have hrec := (fetchSubs_append_of_not_mem (t := t) hno).trans (h.before hO)
    refine ⟨fun _ => hrec, fun _ => ?_, by rw [hrec]; rfl⟩
    apply (congrArg (·.bytes.left) hst).trans
    simp [hrec]
  · -- the value returned is the counter, so the list goes on where it stopped
    obtain ⟨-, -, -, -, -, -, hO, -⟩ := hI.fetchSub_frame ht hfr
    have hl := h.left hO
    have happ : fetchSubs a (τ ++ [(t, o.event)]) =
        fetchSubs a τ ++ [(i, (u.mem a).state.bytes.left)] := by
      simp [fetchSubs, observed, he, Event.fetchSub?]
    refine ⟨fun hc => absurd (hmem.mp hc).1 hO, fun _ => ?_, ?_⟩
    · apply (congrArg (·.bytes.left) hst).trans
      simp only [happ, hl, List.length_append, List.length_singleton]
      push_cast
      omega
    · rw [happ, List.map_append, List.length_append, List.length_singleton, List.range_succ,
        List.map_append, h.values, hl]
      rfl
  · have hno : ∀ i, Ob.fetchSub a i ∉ o.event.discharges := by simp [he, Event.discharges]
    have hc : Ob.construct a ∉ o.event.discharges := by simp [he, Event.discharges]
    exact h.same (hmem.trans (and_iff_left hc)) (fetchSubs_append_of_not_mem hno)
      (congrArg (·.bytes.left) hst)

theorem fetchSubs_count_down (hm : m.Unengaged) (hr : Run Step (State.start G m x) τ s)
    (ha : (a, N) ∈ G.forks 0) : CountsDown G a N τ s := by
  obtain ⟨k, n, fs, K, d, rfl, hx⟩ := exists_site_of_mem_forks (Flow.trivial (α := α)) ha
  refine hr.invariant (I := CountsDown G a (n + 1)) ?_ ?_
  · refine ⟨fun _ => rfl, fun hc => absurd ?_ hc, rfl⟩
    simpa [State.owed, State.obs_start hm] using mem_total_of_own hx (k.construct_mem_own a n)
  · rintro σ u ⟨t, e⟩ u' hσ h hs
    exact h.step hx (Inv.reached hm hσ) hs

theorem nodup_fetchSubs_fst (hm : m.Unengaged) (hr : Run Step (State.start G m x) τ s) :
    ((fetchSubs a τ).map Prod.fst).Nodup := by
  rw [fetchSubs, map_observed]
  exact nodup_observed (q := fun i => .fetchSub a i)
    (fun e i he => mem_discharges_fetchSub.mpr he) (fun _ _ => by simp) hm hr

/-- In a complete run every child has performed its `fetch_sub`. -/
theorem length_fetchSubs (hm : m.Unengaged) (hr : Run Step (State.start G m x) τ s)
    (hs : Stuck Step s) (ha : (a, N) ∈ G.forks 0) : (fetchSubs a τ).length = N := by
  obtain ⟨k, n, fs, K, d, rfl, hx⟩ := exists_site_of_mem_forks (Flow.trivial (α := α)) ha
  have hzero := owed_eq_zero_of_stuck hm hr hs
  have hc : Ob.construct a ∉ s.owed G := by simp [hzero]
  have hleft := (fetchSubs_count_down hm hr ha).left hc
  have hnode := ((Inv.reached hm hr).nodes hx).left hc
  rw [State.obs_eq_owed, hzero] at hnode
  have hcard : (pending (0 : Multiset Ob) a n).card = 0 := by simp [pending]
  rw [hcard] at hnode
  omega

/-! ### The storage -/

/-- The node whose last child is about to call `destroy`, and its arity less one. -/
def Frame.destroying? : Frame α → Option (ℕ × ℕ)
  | allDestroy a n _ => some (a, n)
  | anyDestroy a n => some (a, n)
  | _ => none

@[simp] theorem Cont.invoke_destroying (K : Cont α) (out : Src α) :
    (K.invoke out).destroying? = none := by
  cases K with
  | joinK k => cases k <;> rfl
  | _ => rfl

@[simp] theorem scheduleIfLast_destroying (k : Join) (a : ℕ) {n : ℕ} (fs : Fin (n + 1) → Node α)
    (i : Fin (n + 1)) (K : Cont α) : (scheduleIfLast k a fs i K).destroying? = none := by
  unfold scheduleIfLast
  split <;> rfl

/-- The frame at `destroy` comes from a `fetch_sub` that returned one. -/
theorem Fires.destroying {c : Choice α} {fr fr' : Frame α} {o : Outcome α} {n : ℕ}
    (hf : Fires m c fr o) (hd : fr'.destroying? = some (a, n)) :
    (fr' ∈ o.frames → ∃ i, o.event = .fetchSub a n i 1) ∧ fr' ∉ o.spawned := by
  have hno : ∀ {l : List (Frame α)}, (∀ fr ∈ l, fr.destroying? = none) → fr' ∉ l :=
    fun h hmem => by
      rw [h _ hmem] at hd
      cases hd
  cases hf with
  | allFetchSub b n' i K h =>
      -- `destroy` comes next only where `fetch_sub` returned one
      refine ⟨fun hmem => ?_, List.not_mem_nil⟩
      simp only [List.mem_ite_nil_right, List.mem_singleton] at hmem
      obtain ⟨h1, rfl⟩ := hmem
      cases hd
      exact ⟨i, by rw [h1]⟩
  | anyFetchSub b n' i t out K h =>
      refine ⟨fun hmem => ?_, List.not_mem_nil⟩
      simp only [List.mem_append, List.mem_ite_nil_right, List.mem_singleton] at hmem
      rcases hmem with ⟨-, rfl⟩ | ⟨h1, rfl⟩
      · cases hd
      · cases hd
        exact ⟨i, by rw [h1]⟩
  | _ =>
      refine ⟨fun hmem => absurd hmem (hno ?_), hno ?_⟩ <;>
        simp only [List.forall_mem_cons, Cont.invoke_destroying, scheduleIfLast_destroying] <;>
        simp [Frame.destroying?]

/-- `_state` is engaged from `construct` to `destroy`. -/
theorem engaged_iff_done (hm : m.Unengaged) (hr : Run Step (State.start G m x) τ s)
    (ha : (a, N) ∈ G.forks 0) :
    (s.mem a).state.engaged = true ↔ a ∈ constructs τ ∧ a ∉ destroys τ := by
  obtain ⟨k, n, fs, K, d, rfl, hx⟩ := exists_site_of_mem_forks (Flow.trivial (α := α)) ha
  have hc := mem_owed_iff (o := .construct a) hm hr (by simp)
  have hd := mem_owed_iff (o := .destroy a) hm hr (by simp)
  rw [done_iff_mem_observed fun _ => mem_discharges_construct,
    and_iff_right (mem_total_of_own hx (k.construct_mem_own a n))] at hc
  rw [done_iff_mem_observed fun _ => mem_discharges_destroy,
    and_iff_right (mem_total_of_own hx (k.destroy_mem_own a n))] at hd
  rw [(Inv.reached hm hr).engaged_iff, State.obs_eq_owed, hc, hd, not_not]
  rfl

/-- The thread at `destroy` is the one that was returned one. -/
theorem destroyer_got_one (hr : Run Step (State.start G m x) τ s) :
    ∀ t st, s.threads[t]? = some st → ∀ fr ∈ st, ∀ a n, fr.destroying? = some (a, n) →
      ∃ i, (t, .fetchSub a n i 1) ∈ τ := by
  refine hr.invariant (I := fun τ s => ∀ t st, s.threads[t]? = some st → ∀ fr ∈ st, ∀ a n,
      fr.destroying? = some (a, n) → ∃ i, (t, .fetchSub a n i 1) ∈ τ) ?_ ?_
  · intro t st ht fr hfr a n hd
    obtain rfl := List.mem_singleton.mp (List.mem_of_getElem? ht)
    obtain rfl := List.mem_singleton.mp hfr
    cases hd
  · rintro σ u ⟨t, e⟩ u' - ih hstep t' st ht' fr hfr a n hd
    obtain ⟨c, top, rest, o, ht, hf, rfl, rfl⟩ := step_iff.mp hstep
    have hold : ∀ {t' st}, u.threads[t']? = some st → fr ∈ st →
        ∃ i, (t', .fetchSub a n i 1) ∈ σ ++ [(t, o.event)] := fun ht' hmem => by
      obtain ⟨i, hi⟩ := ih _ _ ht' fr hmem a n hd
      exact ⟨i, List.mem_append_left _ hi⟩
    rcases State.getElem?_after ht ht' with ⟨rfl, rfl⟩ | ⟨-, ht'⟩ | ⟨-, sp, hsp, rfl⟩
    · rcases List.mem_append.mp hfr with hfr | hfr
      · obtain ⟨i, hi⟩ := (hf.destroying hd).1 hfr
        exact ⟨i, by simp [hi]⟩
      · exact hold ht (List.mem_cons_of_mem _ hfr)
    · exact hold ht' hfr
    · obtain rfl := List.mem_singleton.mp hfr
      exact absurd hsp (hf.destroying hd).2

theorem destroy_after_one (hr : Run Step (State.start G m x) τ s) {t : ℕ}
    {σ : List (ℕ × Event α)} (hp : σ ++ [(t, .destroy a)] <+: τ) :
    ∃ n i, (t, .fetchSub a n i 1) ∈ σ := by
  obtain ⟨u, u', hu, hstep⟩ := hr.exists_step hp
  obtain ⟨c, fr, rest, o, ht, hf, he, rfl⟩ := step_iff.mp hstep
  have hone := destroyer_got_one hu t _ ht fr (List.mem_cons_self ..) a
  rcases hf.touches a with ⟨-, -, -, hd⟩ | ⟨_, _, _, _, _, -, he', -⟩ | ⟨_, _, _, -, he', -⟩ |
    ⟨n, hfr, -, -⟩
  · simp [he, Event.discharges] at hd
  · cases he.symm.trans he'
  · cases he.symm.trans he'
  · refine ⟨n, hone n ?_⟩
    rcases hfr with ⟨K, rfl⟩ | rfl <;> rfl

/-- Program points that refer to the storage of the node at `a`: its own accesses, and the
use of `_state->_input` by a child, until the callable it is passed to has returned. -/
def Frame.Uses (a : ℕ) : Frame α → Prop
  | exec _ _ (.input p) _ => p = a
  | leafRun _ true _ (.input p) _ _ => p = a
  | computation _ p _ _ _ => p = a
  | allWrite p _ _ _ _ => p = a
  | allFetchSub p _ _ _ => p = a
  | allDestroy p _ _ => p = a
  | anyFetchSub p _ _ _ _ _ => p = a
  | anyDestroy p _ => p = a
  | _ => False

/-- Wherever a storage is referred to, it is engaged. -/
theorem Inv.engaged_of_uses (h : Inv φ G s) {st : List (Frame α)} (hst : st ∈ s.threads)
    {fr : Frame α} (hfr : fr ∈ st) (hu : fr.Uses a) : (s.mem a).state.engaged = true := by
  have hok := h.frames st hst fr hfr
  have hobs : fr.obs ≤ s.obs (φ.sites G) := State.frame_obs_le hst hfr
  -- a child that uses the input of its node has not performed its `fetch_sub`
  have hinput : ∀ {g : Node α} {b K d}, ⟨g, b, K, d⟩ ∈ φ.sites G →
      K.Entered (s.obs (φ.sites G)) → (∃ i, K.endsAt = some (a, i)) →
      K.obs ≤ s.obs (φ.sites G) → (s.mem a).state.engaged = true := by
    rintro g b K d hx hE ⟨i, hi⟩ hle
    obtain ⟨k, n, fs, K', d', j, rfl, hp⟩ := exists_fork_of_endsAt hx hi
    apply h.engaged_of_fetchSub hp (hE a j hi) j
    have := Multiset.mem_of_le hle K.goal_mem_obs
    rwa [hi] at this
  -- the child that destroys the storage owes that
  have hdest : Ob.construct a ∉ s.obs (φ.sites G) → Ob.destroy a ∈ fr.obs →
      (s.mem a).state.engaged = true :=
    fun hc hd => (h.engaged_iff _).mpr ⟨hc, Multiset.mem_of_le hobs hd⟩
  cases fr with
  | exec g b input K =>
      cases input with
      | input p =>
          obtain rfl : p = a := hu
          obtain ⟨d, hd, hE, hv, -⟩ := hok
          exact hinput hd hE hv ((Multiset.le_add_left _ _).trans hobs)
      | _ => exact hu.elim
  | leafRun b r f input arg K =>
      cases r with
      | false => exact hu.elim
      | true =>
          cases input with
          | input p =>
              obtain rfl : p = a := hu
              obtain ⟨t, d, hd, hE, -, hv⟩ := hok
              exact hinput hd hE (hv rfl).1 ((Multiset.le_add_left _ _).trans hobs)
          | _ => exact hu.elim
  | computation k b fs i K =>
      obtain rfl : b = a := hu
      obtain ⟨d, hd, hc⟩ := hok
      refine h.engaged_of_fetchSub hd hc i (Multiset.mem_of_le hobs ?_)
      cases k <;> simp [Frame.obs, Join.taskObs, Join.childObs]
  | allWrite b n i out K | allFetchSub b n i K | anyFetchSub b n i t out K =>
      obtain rfl : b = a := hu
      obtain ⟨fs, d, j, rfl, hd, hc, -⟩ := hok
      exact h.engaged_of_fetchSub hd hc j (Multiset.mem_of_le hobs (by simp [Frame.obs]))
  | allDestroy b n K =>
      obtain rfl : b = a := hu
      obtain ⟨fs, d, hd, hc, -⟩ := hok
      exact hdest hc (by simp [Frame.obs])
  | anyDestroy b n =>
      obtain rfl : b = a := hu
      obtain ⟨fs, K, d, hd, hc, -⟩ := hok
      exact hdest hc (by simp [Frame.obs])
  | _ => exact hu.elim

theorem Inv.no_assertion (h : Inv φ G s) (t : ℕ) (c : Choice α) (e : Assertion) :
    s.step t c ≠ some (.error e) := by
  unfold State.step
  split
  · rename_i fr rest ht
    obtain ⟨o, ho⟩ := h.exists_fires ht c
    simp [ho.step, Except.map]
  · simp

/-- **The shared state of every node is safe**, in every state of every run.  For each all or
any node of arity `N`: from `construct` on `_left` is the number of children without a
`fetch_sub`; the values returned so far are `N`, `N - 1`, ..., one per child, and in a
complete run all of them down to `1`; `_state` is engaged from `construct` to `destroy`.
`destroy` is called at most once per node, by the thread that was returned `1`.  No
assertion of a storage fails, and a storage is engaged wherever it is referred to. -/
theorem shared_state_safe (hm : m.Unengaged) (hr : Run Step (State.start G m x) τ s) :
    (∀ a N, (a, N) ∈ G.forks 0 →
      (a ∈ constructs τ → (s.mem a).state.bytes.left =
        (Finset.univ.filter fun i : Fin N => (i : ℕ) ∉ (fetchSubs a τ).map Prod.fst).card) ∧
      ((fetchSubs a τ).map Prod.fst).Nodup ∧
      (fetchSubs a τ).map Prod.snd =
        (List.range (fetchSubs a τ).length).map (fun j : ℕ => (N : ℤ) - j) ∧
      (Stuck Step s → (fetchSubs a τ).length = N) ∧
      ((s.mem a).state.engaged = true ↔ a ∈ constructs τ ∧ a ∉ destroys τ)) ∧
    (destroys τ).Nodup ∧
    (∀ t a σ, σ ++ [(t, .destroy a)] <+: τ → ∃ n i, (t, .fetchSub a n i 1) ∈ σ) ∧
    (∀ t c e, s.step t c ≠ some (.error e)) ∧
    (∀ st ∈ s.threads, ∀ fr ∈ st, ∀ a, fr.Uses a → (s.mem a).state.engaged = true) := by
  have h := Inv.reached hm hr
  refine ⟨fun a N ha => ⟨left_eq_card hm hr ha, nodup_fetchSubs_fst hm hr,
    (fetchSubs_count_down hm hr ha).values, fun hs => length_fetchSubs hm hr hs ha,
    engaged_iff_done hm hr ha⟩, ?_, fun t a σ hp => destroy_after_one hr hp, h.no_assertion,
    fun st hst fr hfr a hu => h.engaged_of_uses hst hfr hu⟩
  exact nodup_observed (q := .destroy) (fun e a he => mem_discharges_destroy.mpr he)
    (fun _ _ => by simp) hm hr

theorem shared_state_safe_race :
    ((raceRun.2.mem 0).state.bytes.left = (Finset.univ.filter fun i : Fin 2 =>
        (i : ℕ) ∉ (fetchSubs 0 raceRun.1).map Prod.fst).card ∧
      ((fetchSubs 0 raceRun.1).map Prod.fst).Nodup ∧
      (fetchSubs 0 raceRun.1).map Prod.snd =
        (List.range (fetchSubs 0 raceRun.1).length).map (fun j : ℕ => ((2 : ℕ) : ℤ) - j) ∧
      (fetchSubs 0 raceRun.1).length = 2 ∧
      ((raceRun.2.mem 0).state.engaged = true ↔
        0 ∈ constructs raceRun.1 ∧ 0 ∉ destroys raceRun.1)) ∧
    (destroys raceRun.1).Nodup ∧
    (∀ t a σ, σ ++ [(t, .destroy a)] <+: raceRun.1 → ∃ n i, (t, .fetchSub a n i 1) ∈ σ) ∧
    (∀ t c e, raceRun.2.step t c ≠ some (.error e)) ∧
    (∀ st ∈ raceRun.2.threads, ∀ fr ∈ st, ∀ a, fr.Uses a →
      (raceRun.2.mem a).state.engaged = true) := by
  obtain ⟨hforks, hrest⟩ := shared_state_safe Mem.fresh_unengaged run_raceRun
  obtain ⟨hleft, hnodup, hvalues, hlen, heng⟩ := hforks 0 2 (by decide)
  exact ⟨⟨hleft (by decide), hnodup, hvalues, hlen stuck_raceRun, heng⟩, hrest⟩

end Orizzonte
