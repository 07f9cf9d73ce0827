/-
Orizzonte/Races.lean

No data race on the members of a graph, in any run (`race_free`): of two conflicting
accesses one happens before the other.

Who accesses what is read off the frames.  `_state` is written where it is constructed
and where it is destroyed; every other access to it lies between the two in the order of
the graph (`Frame.AccessesState`).  `_values` is written before the action that hands it
out, and from then on it is used by the thread of that action alone (`State.Owned`).

With a relaxed `fetch_sub` this does not hold (`race_of_relaxed`).
-/
import Orizzonte.HappensBefore

namespace Orizzonte

open Lts Causality Relation

universe u

variable {α : Type u} {G : Node α} {s s' : State α} {m : Mem α} {x : Value α} {l l' : Label α}
  {σ : List (Label α)} {τ : List (ℕ × Event α)} {w : ℕ → ℕ}

/-! ### Who accesses `_state` -/

/-- The node whose `_state` an access is to. -/
def Loc.state? : Loc → Option ℕ
  | engaged a | input a | left a => some a
  | slot _ _ | alt _ => none

/-- The access is to `_state` of the node at `a`, by the action `y`. -/
structure AccessesState (G : Node α) (w : ℕ → ℕ) (v : Access Loc) (a : ℕ) (y : Ob) : Prop where
  loc : v.loc.state? = some a
  span : TransGen (Precedes G w) (.construct a) (.destroy a)
  order : y = .construct a ∨ y = .destroy a ∨
    (TransGen (Precedes G w) (.construct a) y ∧ TransGen (Precedes G w) y (.destroy a) ∧
      (v = Loc.read (.engaged a) ∨ v = Loc.read (.input a) ∨ v = Loc.rmw (.left a)))

/-- The children of a node lie between its `construct` and its `destroy`. -/
theorem Called.between {k : Join} {n : ℕ} {fs : Fin (n + 1) → Node α} {a : ℕ} {K : Cont α}
    {p : Option Ob} (hw : Winning G w) (hc : Called G (.fork k fs) a K p) (i : Fin (n + 1)) :
    TransGen (Precedes G w) (.construct a) (.inputRead a i) ∧
      TransGen (Precedes G w) (.inputRead a i) (.fetchSub a i) ∧
      TransGen (Precedes G w) (.fetchSub a i) (.destroy a) := by
  refine ⟨hc.inputRead_of_construct i, ?_, .single (.destroy i hc)⟩
  exact ((TransGen.single (.call (hc.child i))).trans_left ((hc.child i).last_of_first hw)).trans
    (hc.fetchSub_of_last i)

/-- What reads the input of a node does so as part of a child. -/
theorem Called.reads_input {g : Node α} {b a : ℕ} {K : Cont α} {p : Option Ob} (hw : Winning G w)
    (hc : Called G g b K p) (hK : ∃ i, K.endsAt = some (a, i)) {y : Ob}
    (hy : ReflTransGen (Precedes G w) (g.first b) y)
    (hy' : ReflTransGen (Precedes G w) y (g.last b)) :
    AccessesState G w (Loc.read (.input a)) a y := by
  obtain ⟨i, hK⟩ := hK
  have hspine := hc.spine hw
  rw [hK] at hspine
  obtain ⟨k, n, fs, K', p', j, rfl, hq, hfirst, hend⟩ := hspine
  obtain ⟨hcons, htask, hdestroy⟩ := hq.between hw j
  refine ⟨rfl, (hcons.trans htask).trans hdestroy, .inr (.inr ⟨?_, ?_, .inr (.inl rfl)⟩)⟩
  · exact (hcons.trans hfirst).trans_left hy
  · exact (TransGen.trans_right hy' hend).trans hdestroy

/-! ### Who accesses `_values` -/

/-- The action that hands out the object a location belongs to. -/
def Loc.origin? : Loc → Option Ob
  | slot a _ => some (.destroy a)
  | alt a => some (.variantWrite a)
  | engaged _ | input _ | left _ => none

/-- The action that gives the location its value. -/
def Loc.writer? : Loc → Option Ob
  | slot a i => some (.slotWrite a i)
  | alt a => some (.variantWrite a)
  | engaged _ | input _ | left _ => none

def Src.origin? : Src α → Option Ob
  | slots a _ => some (.destroy a)
  | alt a => some (.variantWrite a)
  | temp _ | input _ => none

/-- The object that a frame refers to. -/
def Frame.src? : Frame α → Option (Src α)
  | exec _ _ input _ => some input
  | leafRun _ _ _ input _ _ => some input
  | allWrite _ _ _ out _ => some out
  | anyFetchSub _ _ _ _ out _ => some out
  | anyWrite _ _ _ _ out _ => some out
  | thenCall res => some res
  | _ => none

theorem Src.mem_locs {r : Src α} {v : Loc} (h : v ∈ r.locs) :
    (∃ a, r = .input a ∧ v = .input a) ∨ ∃ o, r.origin? = some o ∧ v.origin? = some o := by
  cases r with
  | temp => exact absurd h List.not_mem_nil
  | input a => exact .inl ⟨a, rfl, List.mem_singleton.mp h⟩
  | slots a n =>
      obtain ⟨i, -, rfl⟩ := List.mem_map.mp h
      exact .inr ⟨_, rfl, rfl⟩
  | alt a =>
      obtain rfl := List.mem_singleton.mp h
      exact .inr ⟨_, rfl, rfl⟩

theorem Src.mem_look {r : Src α} {v : Access Loc} (h : v ∈ r.look) :
    (∃ a, r = .input a ∧ v = Loc.read (.input a)) ∨
      ∃ o, r.origin? = some o ∧ v.loc.origin? = some o := by
  obtain ⟨u, hu, rfl⟩ := List.mem_map.mp h
  exact (Src.mem_locs hu).imp (fun ⟨a, hr, hu⟩ => ⟨a, hr, hu ▸ rfl⟩) id

theorem Src.mem_take {r : Src α} {v : Access Loc} (h : v ∈ r.take) :
    (∃ a, r = .input a ∧ v = Loc.read (.input a)) ∨
      ∃ o, r.origin? = some o ∧ v.loc.origin? = some o := by
  cases r with
  | input a => exact Src.mem_look h
  | temp | slots | alt =>
      obtain ⟨u, hu, rfl⟩ := List.mem_map.mp h
      refine .inr ((Src.mem_locs hu).resolve_left ?_)
      rintro ⟨a, hr, -⟩
      cases hr

/-- **Who accesses what**: `_state` of a node, or its `_values`, and these to give them their
value or as the object that the frame refers to. -/
theorem Frame.access_cases {fr : Frame α} (hw : Winning G w) {P : Ob → Prop} {O : Multiset Ob}
    (hinf : fr.Informed G w P) (hok : fr.OK Flow.trivial G O m) {v : Access Loc}
    (hv : v ∈ fr.accesses) : ∃ y, fr.next = some y ∧
      ((∃ a, AccessesState G w v a y) ∨ ∃ o, v.loc.origin? = some o ∧
        ((v.loc.writer? = some y ∧ ReflTransGen (Precedes G w) y o) ∨
          ∃ r, fr.src? = some r ∧ r.origin? = some o)) := by
  have hroot : ∀ {a : ℕ}, ¬ (Src.input a : Src α).Valid Flow.trivial G O .root := by
    rintro a ⟨i, hi⟩
    cases hi
  cases fr with
  | exec g a input K =>
      obtain ⟨p, hc, -⟩ := hinf
      obtain ⟨d, -, -, hvalid, -⟩ := hok
      have htake : v ∈ input.take → (∃ b, AccessesState G w v b (g.first a)) ∨
          ∃ o, v.loc.origin? = some o ∧
            ((v.loc.writer? = some (g.first a) ∧ ReflTransGen (Precedes G w) (g.first a) o) ∨
              ∃ r, some input = some r ∧ r.origin? = some o) := by
        intro hv
        rcases Src.mem_take hv with ⟨b, rfl, rfl⟩ | ⟨o, ho, hvo⟩
        · exact .inl ⟨b, hc.reads_input hw hvalid .refl (hc.last_of_first hw)⟩
        · exact .inr ⟨o, hvo, .inr ⟨input, rfl, ho⟩⟩
      refine ⟨_, rfl, ?_⟩
      cases g with
      | leaf t r f =>
          cases r with
          | true => exact absurd hv List.not_mem_nil
          | false => exact htake hv
      | seq => exact absurd hv List.not_mem_nil
      | fork k fs =>
          rcases List.mem_append.mp hv with hv | hv
          · exact htake hv
          · obtain ⟨hcons, htask, hdestroy⟩ := hc.between hw 0
            refine .inl ⟨a, ?_, (hcons.trans htask).trans hdestroy, .inl rfl⟩
            simp only [List.mem_cons, List.not_mem_nil, or_false] at hv
            rcases hv with rfl | rfl | rfl <;> rfl
  | leafRun a r f input arg K =>
      obtain ⟨⟨t, r', f', p, hc⟩, -⟩ := hinf
      obtain ⟨t, d, -, -, -, hvalid⟩ := hok
      refine ⟨_, rfl, ?_⟩
      cases r with
      | false => exact absurd hv List.not_mem_nil
      | true =>
          rcases Src.mem_look hv with ⟨b, rfl, rfl⟩ | ⟨o, ho, hvo⟩
          · exact .inl ⟨b, hc.reads_input hw (hvalid rfl).1 (hc.last_of_first hw) .refl⟩
          · exact .inr ⟨o, hvo, .inr ⟨input, rfl, ho⟩⟩
  | computation k a fs i K =>
      obtain ⟨⟨p, hc⟩, -⟩ := hinf
      obtain rfl := List.mem_singleton.mp hv
      obtain ⟨hcons, htask, hdestroy⟩ := hc.between hw i
      exact ⟨_, rfl, .inl ⟨a, rfl, (hcons.trans htask).trans hdestroy,
        .inr (.inr ⟨hcons, htask.trans hdestroy, .inl rfl⟩)⟩⟩
  | allWrite a n i out K =>
      obtain ⟨fs, j, p, rfl, hc, -⟩ := hinf
      obtain ⟨fs', d, j', -, -, -, hvalid, -⟩ := hok
      refine ⟨_, rfl, .inr ?_⟩
      rcases List.mem_append.mp hv with hv | hv
      · rcases Src.mem_take hv with ⟨b, rfl, -⟩ | ⟨o, ho, hvo⟩
        · exact absurd hvalid hroot
        · exact ⟨o, hvo, .inr ⟨out, rfl, ho⟩⟩
      · obtain rfl := List.mem_singleton.mp hv
        exact ⟨_, rfl, .inl ⟨rfl, (ReflTransGen.single (.allFetchSub j hc)).tail (.destroy j hc)⟩⟩
  | allFetchSub a n i K =>
      obtain ⟨⟨fs, p, hc⟩, -⟩ := hinf
      obtain ⟨fs', d, j, rfl, -⟩ := hok
      obtain ⟨hcons, htask, hdestroy⟩ := hc.between hw j
      refine ⟨_, rfl, .inl ⟨a, ?_, (hcons.trans htask).trans hdestroy,
        .inr (.inr ⟨hcons.trans htask, hdestroy, ?_⟩)⟩⟩
      all_goals
        simp only [Frame.accesses, List.mem_cons, List.not_mem_nil, or_false] at hv
        rcases hv with rfl | rfl <;> simp [Loc.state?, Loc.read, Loc.rmw]
  | anyFetchSub a n i t out K =>
      obtain ⟨fs, j, p, rfl, hc, -⟩ := hinf
      obtain ⟨hcons, htask, hdestroy⟩ := hc.between hw j
      refine ⟨_, rfl, .inl ⟨a, ?_, (hcons.trans htask).trans hdestroy,
        .inr (.inr ⟨hcons.trans htask, hdestroy, ?_⟩)⟩⟩
      all_goals
        simp only [Frame.accesses, List.mem_cons, List.not_mem_nil, or_false] at hv
        rcases hv with rfl | rfl <;> simp [Loc.state?, Loc.read, Loc.rmw]
  | anyWrite a n i t out K =>
      obtain ⟨fs', d, j', -, -, -, -, hvalid, -⟩ := hok
      refine ⟨_, rfl, .inr ?_⟩
      rcases List.mem_append.mp hv with hv | hv
      · rcases Src.mem_take hv with ⟨b, rfl, -⟩ | ⟨o, ho, hvo⟩
        · exact absurd hvalid hroot
        · exact ⟨o, hvo, .inr ⟨out, rfl, ho⟩⟩
      · obtain rfl := List.mem_singleton.mp hv
        exact ⟨_, rfl, .inl ⟨rfl, .refl⟩⟩
  | allDestroy a n K =>
      obtain ⟨⟨fs, p, hc⟩, -⟩ := hinf
      obtain ⟨hcons, htask, hdestroy⟩ := hc.between hw 0
      refine ⟨_, rfl, .inl ⟨a, ?_, (hcons.trans htask).trans hdestroy, .inr (.inl rfl)⟩⟩
      simp only [Frame.accesses, List.mem_cons, List.not_mem_nil, or_false] at hv
      rcases hv with rfl | rfl | rfl <;> rfl
  | anyDestroy a n =>
      obtain ⟨⟨fs, K, p, hc⟩, -⟩ := hinf
      obtain ⟨hcons, htask, hdestroy⟩ := hc.between hw 0
      refine ⟨_, rfl, .inl ⟨a, ?_, (hcons.trans htask).trans hdestroy, .inr (.inl rfl)⟩⟩
      simp only [Frame.accesses, List.mem_cons, List.not_mem_nil, or_false] at hv
      rcases hv with rfl | rfl | rfl <;> rfl
  | thenCall res =>
      obtain ⟨hvalid, -⟩ := hok
      refine ⟨_, rfl, .inr ?_⟩
      rcases Src.mem_take hv with ⟨b, rfl, -⟩ | ⟨o, ho, hvo⟩
      · exact absurd hvalid hroot
      · exact ⟨o, hvo, .inr ⟨res, rfl, ho⟩⟩
  | leafTemp | submit | inScheduler | cleanup | thenRun | countDown =>
      exact absurd hv List.not_mem_nil

/-! ### Objects stay on their thread -/

/-- The action was done by thread `t`. -/
def DoneBy (σ : List (Label α)) (t : ℕ) (o : Ob) : Prop :=
  ∃ (k : ℕ) (l : Label α), σ[k]? = some l ∧ l.thread = t ∧ o ∈ l.event.discharges

/-- An object that a frame refers to was handed out on its thread. -/
def State.Owned (σ : List (Label α)) (s : State α) : Prop :=
  ∀ (t : ℕ) st, s.threads[t]? = some st → ∀ fr ∈ st, ∀ r o, fr.src? = some r →
    r.origin? = some o → DoneBy σ t o

theorem DoneBy.append {t : ℕ} {o : Ob} {ρ : List (Label α)} (h : DoneBy σ t o) :
    DoneBy (σ ++ ρ) t o := by
  obtain ⟨k, l, hk, hl, ho⟩ := h
  exact ⟨k, l, getElem?_append_of_eq_some hk, hl, ho⟩

@[simp] theorem Cont.invoke_src (K : Cont α) (out : Src α) : (K.invoke out).src? = some out := by
  cases K with
  | joinK k => cases k <;> rfl
  | _ => rfl

@[simp] theorem scheduleIfLast_src (k : Join) (a : ℕ) {n : ℕ} (fs : Fin (n + 1) → Node α)
    (i : Fin (n + 1)) (K : Cont α) : (scheduleIfLast k a fs i K).src? = none := by
  unfold scheduleIfLast
  split <;> rfl

/-- A frame passes on the object that it refers to, or hands out a new one. -/
theorem Fires.src {c : Choice α} {fr : Frame α} {o : Outcome α} (hf : Fires m c fr o)
    {fr' : Frame α} (hfr' : fr' ∈ o.frames) {r : Src α} {y : Ob} (hr : fr'.src? = some r)
    (hy : r.origin? = some y) : fr.src? = some r ∨ fr.next = some y := by
  cases hf with
  | leafCall | seqExec | slotWrite =>
      obtain rfl := List.mem_singleton.mp hfr'
      first | exact .inl hr | cases hr
  | construct | schedRet =>
      obtain rfl := List.mem_singleton.mp hfr'
      rw [scheduleIfLast_src] at hr
      cases hr
  | leafRet =>
      rcases List.mem_cons.mp hfr' with rfl | hfr'
      · rw [Cont.invoke_src] at hr
        cases hr
        cases hy
      · obtain rfl := List.mem_singleton.mp hfr'
        cases hr
  | tempDrop | countDown => exact absurd hfr' List.not_mem_nil
  | submitInline =>
      rcases List.mem_cons.mp hfr' with rfl | hfr'
      · cases hr
      · obtain rfl := List.mem_singleton.mp hfr'
        cases hr
  | submitThread | anyDestroy | cleanup | thenCall | thenRet =>
      obtain rfl := List.mem_singleton.mp hfr'
      cases hr
  | inputRead =>
      obtain rfl := List.mem_singleton.mp hfr'
      cases hr
      cases hy
  | allFetchSub =>
      split_ifs at hfr'
      · obtain rfl := List.mem_singleton.mp hfr'
        cases hr
      · exact absurd hfr' List.not_mem_nil
  | allDestroy | variantWrite =>
      obtain rfl := List.mem_singleton.mp hfr'
      rw [Cont.invoke_src] at hr
      cases hr
      exact .inr hy
  | anyFetchSub =>
      rcases List.mem_append.mp hfr' with hfr' | hfr'
      · split_ifs at hfr'
        · obtain rfl := List.mem_singleton.mp hfr'
          exact .inl hr
        · exact absurd hfr' List.not_mem_nil
      · split_ifs at hfr'
        · obtain rfl := List.mem_singleton.mp hfr'
          cases hr
        · exact absurd hfr' List.not_mem_nil

theorem Fires.spawned_src {c : Choice α} {fr : Frame α} {o : Outcome α} (hf : Fires m c fr o)
    {fr' : Frame α} (hfr' : fr' ∈ o.spawned) : fr'.src? = none := by
  cases hf with
  | submitThread =>
      obtain rfl := List.mem_singleton.mp hfr'
      rfl
  | _ => exact absurd hfr' List.not_mem_nil

theorem State.Owned.step (h : s.Owned σ) (hl : Tracked s l s') : s'.Owned (σ ++ [l]) := by
  obtain ⟨c, fr, rest, o, ht, hf, he, -, -, rfl⟩ := tracked_iff.mp hl
  intro t st hst fr' hmem r y hr hy
  rcases State.getElem?_after ht hst with ⟨rfl, rfl⟩ | ⟨-, hst⟩ | ⟨-, sp, hsp, rfl⟩
  · rcases List.mem_append.mp hmem with hmem | hmem
    · rcases hf.src hmem hr hy with hr | hnext
      · exact (h _ _ ht fr (List.mem_cons_self ..) r y hr hy).append
      · refine ⟨σ.length, l, List.getElem?_concat_length, rfl, ?_⟩
        rw [he]
        exact hf.mem_discharges.mpr hnext
    · exact (h _ _ ht fr' (List.mem_cons_of_mem _ hmem) r y hr hy).append
  · exact (h t st hst fr' hmem r y hr hy).append
  · obtain rfl := List.mem_singleton.mp hmem
    rw [hf.spawned_src hsp] at hr
    cases hr

theorem owned_of_run (hr : Run Tracked (State.start G m x) σ s) : s.Owned σ := by
  refine hr.invariant (I := fun σ s => s.Owned σ) ?_ fun σ u l u' _ h hl => h.step hl
  intro t st hst fr hfr r y hr hy
  obtain rfl := List.mem_singleton.mp (List.mem_of_getElem? hst)
  obtain rfl := List.mem_singleton.mp hfr
  cases hr
  cases hy

/-! ### Data-race freedom -/

/-- Who makes an access of a run: `Frame.access_cases` along the run. -/
theorem access_of_run (hm : m.Unengaged) (hr : Run Tracked (State.start G m x) σ s)
    (hw : ∀ l ∈ σ, l.event.WonBy w) (hwin : Winning G w) {i : ℕ} (hi : σ[i]? = some l)
    {v : Access Loc} (hv : v ∈ l.accesses) : ∃ y ∈ l.event.discharges,
      (∃ a, AccessesState G w v a y) ∨ ∃ o, v.loc.origin? = some o ∧
        ((v.loc.writer? = some y ∧ ReflTransGen (Precedes G w) y o) ∨
          DoneBy (σ.take i) l.thread o) := by
  induction hr with
  | refl => simp at hi
  | @tail σ u l' u' hσ hl ih =>
      have hwσ : ∀ l ∈ σ, l.event.WonBy w := fun l hmem => hw l (List.mem_append_left _ hmem)
      rcases getElem?_snoc_cases hi with hi | ⟨rfl, rfl⟩
      · have hlt := (List.getElem?_eq_some_iff.mp hi).1
        rw [List.take_append_of_le_length hlt.le]
        exact ih hwσ hi
      · have hinf := informed_of_run hm hσ hwσ
        have howned := owned_of_run hσ
        obtain ⟨c, fr, rest, o, ht, hf, he, hacc, -, rfl⟩ := tracked_iff.mp hl
        rw [hacc] at hv
        have hok := (Inv.reached hm (Tracked.run hσ)).frame_OK ht
        obtain ⟨y, hy, hcases⟩ := Frame.access_cases hwin
          (hinf _ _ ht fr (List.mem_cons_self ..)) hok hv
        refine ⟨y, ?_, hcases.imp_right ?_⟩
        · rw [he]
          exact hf.mem_discharges.mpr hy
        · rintro ⟨o, ho, hcase⟩
          refine ⟨o, ho, hcase.imp_right ?_⟩
          rintro ⟨r, hr, hro⟩
          rw [List.take_left]
          exact howned _ _ ht fr (List.mem_cons_self ..) r o hr hro

theorem happensBefore_of_thread {order : MemoryOrder} {i j : ℕ} (hij : i < j) (hi : σ[i]? = some l)
    (hj : σ[j]? = some l') (h : l.thread = l'.thread) :
    HappensBefore (signature order) σ i j :=
  .single ⟨hij, l, l', hi, hj, .inl h⟩

theorem DoneBy.of_take {i t : ℕ} {o : Ob} (h : DoneBy (σ.take i) t o) :
    ∃ (k : ℕ) (l : Label α), k < i ∧ σ[k]? = some l ∧ l.thread = t ∧ o ∈ l.event.discharges := by
  obtain ⟨k, l, hk, hl, ho⟩ := h
  have hlt : k < i := by
    have := (List.getElem?_eq_some_iff.mp hk).1
    rw [List.length_take] at this
    omega
  exact ⟨k, l, hlt, List.getElem?_take_of_lt hlt ▸ hk, hl, ho⟩

/-- Conflicting accesses to one `_state` are ordered by the graph. -/
theorem AccessesState.ordered {v v' : Access Loc} {a : ℕ} {y y' : Ob}
    (h : AccessesState G w v a y) (h' : AccessesState G w v' a y') (hc : v.Conflicts v') :
    y = y' ∨ TransGen (Precedes G w) y y' ∨ TransGen (Precedes G w) y' y := by
  rcases h.order with rfl | rfl | ⟨hcons, hdestroy, hv⟩ <;>
    rcases h'.order with rfl | rfl | ⟨hcons', hdestroy', hv'⟩
  · exact .inl rfl
  · exact .inr (.inl h.span)
  · exact .inr (.inl hcons')
  · exact .inr (.inr h.span)
  · exact .inl rfl
  · exact .inr (.inr hdestroy')
  · exact .inr (.inr hcons)
  · exact .inr (.inl hdestroy)
  · -- between the two there are reads, and the atomic `fetch_sub`
    obtain ⟨hloc, hwrite, hatomic⟩ := hc
    rcases hv with rfl | rfl | rfl <;> rcases hv' with rfl | rfl | rfl <;>
      simp [Loc.read, Loc.rmw] at hloc hwrite hatomic

theorem Loc.state_of_origin {v : Loc} {a : ℕ} {o : Ob} (h : v.state? = some a)
    (ho : v.origin? = some o) : False := by
  cases v <;> cases h <;> cases ho

/-- **No data race**: in every run, of two conflicting accesses to a member of a node the
earlier one happens before the other. -/
theorem race_free (hm : m.Unengaged) (hr : Run Tracked (State.start G m x) σ s) :
    RaceFree (signature .acqRel) Label.accesses σ := by
  intro i j l l' hij hi hj v hv v' hv' hconf
  obtain ⟨w, hw⟩ : ∃ w, w = winner (σ.map Label.step) := ⟨_, rfl⟩
  have hwon : ∀ l ∈ σ, l.event.WonBy w := hw ▸ wonBy_tracked hm hr
  have hwin : Winning G w := hw ▸ winning_winner hm (Tracked.run hr)
  obtain ⟨y, hy, hrole⟩ := access_of_run hm hr hwon hwin hi hv
  obtain ⟨y', hy', hrole'⟩ := access_of_run hm hr hwon hwin hj hv'
  have hne : y ≠ y' := fun h => hij.ne (index_unique hm hr hi hy hj (h ▸ hy'))
  rcases hrole with ⟨a, hst⟩ | ⟨o, ho, hrole⟩ <;> rcases hrole' with ⟨a', hst'⟩ | ⟨o', ho', hrole'⟩
  · obtain rfl : a = a' := Option.some.inj (hst.loc.symm.trans (hconf.1 ▸ hst'.loc))
    rcases hst.ordered hst' hconf with h | h | h
    · exact absurd h hne
    · exact happensBefore_of_done hm hr hwon hi hy hj hy' h
    · exact absurd (happensBefore_of_done hm hr hwon hj hy' hi hy h).lt (not_lt.mpr hij.le)
  · exact (Loc.state_of_origin (hconf.1 ▸ hst.loc) ho').elim
  · exact (Loc.state_of_origin (hconf.1 ▸ hst'.loc) ho).elim
  · obtain rfl : o = o' := Option.some.inj (ho.symm.trans (hconf.1 ▸ ho'))
    rcases hrole with ⟨hwr, hyo⟩ | hdone <;> rcases hrole' with ⟨hwr', hyo'⟩ | hdone'
    · exact absurd (Option.some.inj (hwr.symm.trans (hconf.1 ▸ hwr'))) hne
    · obtain ⟨k, l₀, hkj, hk, hth, hok⟩ := hdone'.of_take
      rcases eq_or_happensBefore hm hr hwon hi hy hk hok hyo with rfl | hik
      · obtain rfl := Option.some.inj (hi.symm.trans hk)
        exact happensBefore_of_thread hij hi hj hth
      · exact hik.trans (happensBefore_of_thread hkj hk hj hth)
    · -- the object was handed out before its value was written
      obtain ⟨k, l₀, hki, hk, -, hok⟩ := hdone.of_take
      have hjk : j ≤ k := by
        rcases eq_or_happensBefore hm hr hwon hj hy' hk hok hyo' with rfl | hjk
        · exact le_rfl
        · exact hjk.lt.le
      omega
    · obtain ⟨k, l₀, -, hk, hth, hok⟩ := hdone.of_take
      obtain ⟨k', l₀', -, hk', hth', hok'⟩ := hdone'.of_take
      obtain rfl := index_unique hm hr hk hok hk' hok'
      obtain rfl := Option.some.inj (hk.symm.trans hk')
      exact happensBefore_of_thread hij hi hj (hth.symm.trans hth')

theorem race_free_race : RaceFree (signature .acqRel) Label.accesses raceLabels.1 :=
  race_free Mem.fresh_unengaged run_raceLabels

/-! ### Why `fetch_sub` acquires and releases -/

/-- The thread, the thread created and the object of the events of that run. -/
def raceTable : List (ℕ × Option ℕ × Option SyncObject) :=
  raceLabels.1.map fun l => (l.thread, l.creates, l.event.object .relaxed)

/-- **With `memory_order_relaxed` there is a data race**: the last child destroys `_state` while
the leaf of the winner may still read its input. -/
theorem race_of_relaxed : ¬ RaceFree (signature .relaxed) Label.accesses raceLabels.1 := by
  intro h
  have hread : ∃ l, raceLabels.1[4]? = some l ∧ Loc.read (.input 0) ∈ l.accesses :=
    ⟨_, rfl, by decide⟩
  have hdestroy : ∃ l, raceLabels.1[16]? = some l ∧ Loc.write (.input 0) ∈ l.accesses :=
    ⟨_, rfl, by decide⟩
  obtain ⟨l, hl, hv⟩ := hread
  obtain ⟨l', hl', hv'⟩ := hdestroy
  have hb := h 4 16 l l' (by decide) hl hl' _ hv _ hv' ⟨rfl, .inr rfl, by simp [Loc.read]⟩
  have hb' : HappensBefore ⟨Prod.fst, fun p => p.2.1, fun p => p.2.2⟩ raceTable 4 16 :=
    hb.map (φ := id) (fun _ => rfl) (fun _ _ h => h) (fun _ _ h => h)
  -- from the call of the leaf to its `count_down`, nothing leaves the thread of the winner
  have hclosed : ∀ p < 20, ∀ q < 20, 3 ≤ p ∧ (p ≤ 11 ∨ 17 ≤ p) →
      Direct ⟨Prod.fst, fun p => p.2.1, fun p => p.2.2⟩ raceTable p q →
      3 ≤ q ∧ (q ≤ 11 ∨ 17 ≤ q) := by decide
  have hend := hb'.of_closed (S := fun p => 3 ≤ p ∧ (p ≤ 11 ∨ 17 ≤ p)) ?_ (by decide)
  · simp at hend
  · rintro p q hp hd
    obtain ⟨-, l, l', hp', hq', -⟩ := id hd
    have hqlt := (List.getElem?_eq_some_iff.mp hq').1
    exact hclosed p (List.getElem?_eq_some_iff.mp hp').1 q hqlt hp hd

end Orizzonte
