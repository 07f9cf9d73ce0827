/-
Orizzonte/HappensBefore.lean

Happens-before in the runs of `execute`.

A `Label` records with each step what the memory model needs to know: the accesses to
the members of the all and any nodes, and the thread that a submission creates.
`fetch_sub` acquires and releases `_left`, and `count_down` is a section under the mutex
of the latch (`signature`); that is all the synchronisation there is.

It is enough: what the graph puts before an action happens before it, in every run
(`happensBefore_of_order`), and all that the tasks do happens before `sync_execute`
returns (`happensBefore_return`).
-/
import Orizzonte.Causality
import Orizzonte.Informed

namespace Orizzonte

open Lts Causality Relation

universe u

variable {α : Type u}

/-! ### Accesses -/

/-- The members of the all and any nodes: `_state._engaged`, `_state->_input`,
`_state->_left`, and `_values`. -/
inductive Loc
  | engaged (a : ℕ)
  | input (a : ℕ)
  | left (a : ℕ)
  | slot (a i : ℕ)
  | alt (a : ℕ)
  deriving DecidableEq

namespace Loc

def read (v : Loc) : Access Loc := ⟨v, false, false⟩
def write (v : Loc) : Access Loc := ⟨v, true, false⟩

/-- An atomic read-modify-write. -/
def rmw (v : Loc) : Access Loc := ⟨v, true, true⟩

end Loc

/-- The members that an object passed by a forwarding reference consists of. -/
def Src.locs : Src α → List Loc
  | temp _ => []
  | input a => [.input a]
  | slots a n => (List.range n).map (.slot a)
  | alt a => [.alt a]

/-- A callable reads its argument through a reference. -/
def Src.look (r : Src α) : List (Access Loc) := r.locs.map Loc.read

/-- An object is initialised or assigned from `FWD(x)`: `_input` is copied, `_values` is moved
from. -/
def Src.take : Src α → List (Access Loc)
  | input a => (input a : Src α).look
  | r => r.locs.map Loc.write

/-- The accesses of the next step of a frame.  A computation and a `fetch_sub` read
`_engaged` for the assertion in `operator->`. -/
def Frame.accesses : Frame α → List (Access Loc)
  | exec (.leaf _ byRef _) _ input _ => if byRef then [] else input.take
  | exec (.seq _ _) _ _ _ => []
  | exec (.fork _ _) a input _ =>
      input.take ++ [Loc.write (.engaged a), Loc.write (.input a), Loc.write (.left a)]
  | leafRun _ byRef _ input _ _ => if byRef then input.look else []
  | computation _ a _ _ _ => [Loc.read (.engaged a)]
  | allWrite a _ i out _ => out.take ++ [Loc.write (.slot a i)]
  | allFetchSub a _ _ _ => [Loc.read (.engaged a), Loc.rmw (.left a)]
  | anyFetchSub a _ _ _ _ _ => [Loc.read (.engaged a), Loc.rmw (.left a)]
  | anyWrite a _ _ _ out _ => out.take ++ [Loc.write (.alt a)]
  | allDestroy a _ _ => [Loc.write (.engaged a), Loc.write (.input a), Loc.write (.left a)]
  | anyDestroy a _ => [Loc.write (.engaged a), Loc.write (.input a), Loc.write (.left a)]
  | thenCall res => res.take
  | leafTemp _ _ | submit _ _ _ _ _ | inScheduler _ _ _ _ _ | cleanup _ | thenRun
  | countDown _ => []

/-! ### Labels -/

/-- A step: its thread and its event, its accesses, and the thread that it creates. -/
structure Label (α : Type u) where
  thread : ℕ
  event : Event α
  accesses : List (Access Loc)
  creates : Option ℕ

def Label.step (l : Label α) : ℕ × Event α := (l.thread, l.event)

/-- One step of thread `t` with its label, when it has one. -/
def State.track (s : State α) (t : ℕ) (c : Choice α) : Option (Label α × State α) :=
  match s.threads[t]? with
  | some (fr :: rest) =>
      match fr.step s.mem c with
      | .ok o => some (⟨t, o.event, fr.accesses,
          if o.spawned.isEmpty then none else some s.threads.length⟩, s.after t rest o)
      | .error _ => none
  | _ => none

/-- A step of the machine with its label. -/
def Tracked (s : State α) (l : Label α) (s' : State α) : Prop :=
  ∃ c, s.track l.thread c = some (l, s')

/-- The memory order of `fetch_sub`. -/
inductive MemoryOrder
  | relaxed
  | acqRel

inductive SyncObject
  | left (a : ℕ)
  /-- of the latch -/
  | mutex
  deriving DecidableEq

def Event.object : MemoryOrder → Event α → Option SyncObject
  | .acqRel, fetchSub a _ _ _ => some (.left a)
  | _, countDown _ => some .mutex
  | _, _ => none

/-- What synchronises, for a memory order of `fetch_sub`. -/
def signature (order : MemoryOrder) : Signature (Label α) SyncObject where
  thread := Label.thread
  creates := Label.creates
  object l := l.event.object order

variable {G : Node α} {s s' : State α} {m : Mem α} {x : Value α} {l l' : Label α}
  {σ : List (Label α)} {τ : List (ℕ × Event α)} {w : ℕ → ℕ}

theorem tracked_iff : Tracked s l s' ↔ ∃ c fr rest o,
    s.threads[l.thread]? = some (fr :: rest) ∧ Fires s.mem c fr o ∧ l.event = o.event ∧
    l.accesses = fr.accesses ∧
    l.creates = (if o.spawned.isEmpty then none else some s.threads.length) ∧
    s' = s.after l.thread rest o := by
  constructor
  · rintro ⟨c, h⟩
    unfold State.track at h
    split at h
    · rename_i fr rest ht
      split at h
      · rename_i o ho
        obtain ⟨hl, rfl⟩ := Prod.mk.inj (Option.some.inj h)
        exact ⟨c, fr, rest, o, ht, .of_step ho, by rw [← hl], by rw [← hl], by rw [← hl], rfl⟩
      · cases h
    · cases h
  · rintro ⟨c, fr, rest, o, ht, hf, he, hacc, hnew, rfl⟩
    obtain ⟨t, e, acc, new⟩ := l
    simp only at ht he hacc hnew
    subst he hacc hnew
    exact ⟨c, by simp [State.track, ht, hf.step]⟩

theorem Tracked.step (h : Tracked s l s') : Step s l.step s' := by
  obtain ⟨c, fr, rest, o, ht, hf, he, -, -, rfl⟩ := tracked_iff.mp h
  exact step_iff.mpr ⟨c, fr, rest, o, ht, hf, he.symm, rfl⟩

theorem exists_tracked {t : ℕ} {e : Event α} (h : Step s (t, e) s') :
    ∃ l : Label α, l.step = (t, e) ∧ Tracked s l s' := by
  obtain ⟨c, fr, rest, o, ht, hf, rfl, rfl⟩ := step_iff.mp h
  exact ⟨⟨t, o.event, fr.accesses, _⟩, rfl,
    tracked_iff.mpr ⟨c, fr, rest, o, ht, hf, rfl, rfl, rfl, rfl⟩⟩

/-- The labels do not change the runs. -/
theorem run_tracked_iff :
    Run Step s τ s' ↔ ∃ σ : List (Label α), Run Tracked s σ s' ∧ σ.map Label.step = τ := by
  constructor
  · intro h
    induction h with
    | refl => exact ⟨[], .refl, rfl⟩
    | @tail τ u e u' _ hl ih =>
        obtain ⟨σ, hσ, rfl⟩ := ih
        obtain ⟨l, hl, htr⟩ := exists_tracked (t := e.1) (e := e.2) hl
        exact ⟨σ ++ [l], hσ.tail htr, by rw [List.map_append, List.map_singleton, hl]⟩
  · rintro ⟨σ, h, rfl⟩
    induction h with
    | refl => exact .refl
    | tail _ hl ih =>
        rw [List.map_append]
        exact ih.tail hl.step

theorem Tracked.run (h : Run Tracked s σ s') : Run Step s (σ.map Label.step) s' :=
  run_tracked_iff.mpr ⟨σ, h, rfl⟩

theorem Fires.length_spawned_le {c : Choice α} {fr : Frame α} {o : Outcome α}
    (hf : Fires m c fr o) : o.spawned.length ≤ 1 := by
  cases hf <;> first | exact le_rfl | exact Nat.zero_le 1

/-! ### What a thread knows -/

/-- The action was done, and happens before whatever thread `t` does next. -/
def Knows (σ : List (Label α)) (t : ℕ) (o : Ob) : Prop :=
  ∃ i l, σ[i]? = some l ∧ o ∈ l.event.discharges ∧ Seen (signature .acqRel) σ t i

/-- Threads know what comes before the next actions of their frames. -/
def State.Informed (G : Node α) (w : ℕ → ℕ) (σ : List (Label α)) (s : State α) : Prop :=
  ∀ (t : ℕ) st, s.threads[t]? = some st → ∀ fr ∈ st, fr.Informed G w (Knows σ t)

theorem Knows.append {t : ℕ} {o : Ob} {ρ : List (Label α)} (h : Knows σ t o) :
    Knows (σ ++ ρ) t o := by
  obtain ⟨i, l, hi, ho, hseen⟩ := h
  exact ⟨i, l, getElem?_append_of_eq_some hi, ho, hseen.append⟩

/-- What a thread knows at an event, it knows afterwards. -/
theorem knows_of_happensBefore {i : ℕ} {o : Ob} (hi : σ[i]? = some l')
    (ho : o ∈ l'.event.discharges)
    (h : HappensBefore (signature .acqRel) (σ ++ [l]) i σ.length) :
    Knows (σ ++ [l]) l.thread o :=
  ⟨i, l', getElem?_append_of_eq_some hi, ho, h.seen⟩

theorem knows_own {o : Ob} (ho : o ∈ l.event.discharges) : Knows (σ ++ [l]) l.thread o :=
  ⟨σ.length, l, List.getElem?_concat_length, ho, seen_last⟩

theorem Knows.created {t : ℕ} {o : Ob} (h : Knows (σ ++ [l]) l.thread o)
    (hl : l.creates = some t) : Knows (σ ++ [l]) t o := by
  obtain ⟨i, l', hi, ho, hseen⟩ := h
  exact ⟨i, l', hi, ho, hseen.created hl⟩

/-- What is not owed any more was done. -/
theorem exists_discharged (hm : m.Unengaged) (hr : Run Tracked (State.start G m x) σ s) {o : Ob}
    (ho : o ∈ G.total) (hread : ∀ q, o ≠ .read q) (hdone : o ∉ s.owed G) :
    ∃ (i : ℕ) (l : Label α), σ[i]? = some l ∧ o ∈ l.event.discharges := by
  by_contra hno
  simp only [not_exists, not_and] at hno
  refine hdone ((mem_owed_iff hm (Tracked.run hr) hread).mpr ⟨ho, fun e he => ?_⟩)
  obtain ⟨l, hl, rfl⟩ := List.mem_map.mp he
  obtain ⟨i, hi⟩ := List.mem_iff_getElem?.mp hl
  exact hno i l hi

theorem exists_fetchSub_of_mem {e : Event α} {a i : ℕ} (h : Ob.fetchSub a i ∈ e.discharges) :
    ∃ n r, e = .fetchSub a n i r := by
  cases e <;> simp [Event.discharges] at h
  obtain ⟨rfl, rfl⟩ := h
  exact ⟨_, _, rfl⟩

/-- Every earlier `fetch_sub` on the same node happens before a `fetch_sub`. -/
theorem happensBefore_fetchSub {a n i j : ℕ} {r : ℤ} {k : ℕ} (he : l.event = .fetchSub a n i r)
    (hk : σ[k]? = some l') (ho : Ob.fetchSub a j ∈ l'.event.discharges) :
    HappensBefore (signature .acqRel) (σ ++ [l]) k σ.length := by
  have hl' : (signature .acqRel).object l' = some (SyncObject.left a) := by
    show l'.event.object .acqRel = _
    obtain ⟨n', r', hev⟩ := exists_fetchSub_of_mem ho
    rw [hev]
    rfl
  apply happensBefore_of_object hk hl'
  show l.event.object .acqRel = _
  rw [he]
  rfl

/-- The last `fetch_sub` on a node comes after all the others. -/
theorem knows_fetchSubs (hm : m.Unengaged) (hr : Run Tracked (State.start G m x) σ s)
    (hl : Tracked s l s') {a n i : ℕ} (he : l.event = .fetchSub a n i 1) (j : Fin (n + 1)) :
    Knows (σ ++ [l]) l.thread (.fetchSub a j) := by
  have hr' : Run Tracked (State.start G m x) (σ ++ [l]) s' := hr.tail hl
  obtain ⟨c, fr, rest, o, ht, hf, heo, -, -, rfl⟩ := tracked_iff.mp hl
  have hinv := Inv.reached hm (Tracked.run hr)
  rcases hf.touches a with ⟨-, -, hno, -⟩ | ⟨_, _, _, _, _, -, he', -⟩ |
    ⟨n', i', K, hfr, he', hst⟩ | ⟨_, -, he', -⟩
  · exact absurd (by rw [← heo, he]; exact Multiset.mem_singleton_self _) (hno i)
  · cases (heo.symm.trans he).symm.trans he'
  · obtain ⟨-, rfl, rfl, hleft⟩ := Event.fetchSub.inj ((heo.symm.trans he).symm.trans he')
    obtain ⟨k, fs, d, -, -, hx, hc, -⟩ := hinv.fetchSub_frame ht hfr
    have hc' := fun hmem => hc (Multiset.mem_of_le (hinv.transfer ht hf).le hmem)
    have hzero : (o.mem a).state.bytes.left = 0 := by
      rw [hst, ← hleft]
      rfl
    have hdone := hinv.no_fetchSub ht hf hx hc' hzero j j.isLt
    rw [State.obs_eq_owed] at hdone
    have htot : Ob.fetchSub a j ∈ G.total := mem_total_of_own hx (k.fetchSub_mem_own a j)
    obtain ⟨i, l', hi, ho⟩ := exists_discharged hm hr' htot (by simp) hdone
    rcases getElem?_snoc_cases hi with hi | ⟨rfl, rfl⟩
    · exact knows_of_happensBefore hi ho (happensBefore_fetchSub he hi ho)
    · exact knows_own ho
  · cases (heo.symm.trans he).symm.trans he'

/-- **Threads stay informed.** -/
theorem State.Informed.step (hm : m.Unengaged) (hr : Run Tracked (State.start G m x) σ s)
    (h : s.Informed G w σ) (hl : Tracked s l s') (hw : l.event.WonBy w) :
    s'.Informed G w (σ ++ [l]) := by
  have hlast : ∀ a n i, l.event = .fetchSub a n i 1 → ∀ j : Fin (n + 1),
      Knows (σ ++ [l]) l.thread (.fetchSub a j) :=
    fun a n i he j => knows_fetchSubs hm hr hl he j
  obtain ⟨c, fr, rest, o, ht, hf, he, -, hnew, rfl⟩ := tracked_iff.mp hl
  have htop : fr.Informed G w (Knows σ l.thread) := h _ _ ht fr (List.mem_cons_self ..)
  have hfr' : ∀ fr', fr' ∈ o.frames ∨ fr' ∈ o.spawned →
      fr'.Informed G w (Knows (σ ++ [l]) l.thread) := by
    intro fr' hfr'
    apply hf.informed htop _ _ _ hfr'
    · intro y hy
      apply knows_own
      rw [he]
      exact hf.mem_discharges.mpr hy
    · exact fun a n i hev => hlast a n i (he.trans hev)
    · exact he ▸ hw
  intro t st hst fr' hmem
  rcases State.getElem?_after ht hst with ⟨rfl, rfl⟩ | ⟨-, hst⟩ | ⟨hge, sp, hsp, rfl⟩
  · rcases List.mem_append.mp hmem with hmem | hmem
    · exact hfr' fr' (.inl hmem)
    · exact (h _ _ ht fr' (List.mem_cons_of_mem _ hmem)).mono fun _ => Knows.append
  · exact (h t st hst fr' hmem).mono fun _ => Knows.append
  · obtain rfl := List.mem_singleton.mp hmem
    apply (hfr' fr' (.inr hsp)).mono
    intro y hy
    apply hy.created
    -- the one task that a step hands out is the one on the new thread
    have hone := hf.length_spawned_le
    have hlt := (List.getElem?_eq_some_iff.mp hst).1
    have hpos := List.length_pos_of_mem hsp
    simp only [State.after, List.length_append, List.length_set, List.length_map] at hlt
    obtain rfl : t = s.threads.length := by omega
    rw [hnew, if_neg]
    simpa using List.ne_nil_of_mem hsp

theorem State.informed_start (G : Node α) (w : ℕ → ℕ) (m : Mem α) (x : Value α) :
    (State.start G m x).Informed G w [] := by
  intro t st hst fr hfr
  obtain rfl := List.mem_singleton.mp (List.mem_of_getElem? hst)
  obtain rfl := List.mem_singleton.mp hfr
  exact ⟨none, .root, fun y hy => by cases hy⟩

theorem informed_of_run (hm : m.Unengaged) (hr : Run Tracked (State.start G m x) σ s)
    (hw : ∀ l ∈ σ, l.event.WonBy w) : s.Informed G w σ := by
  induction hr with
  | refl => exact State.informed_start G w m x
  | @tail σ u l u' hσ hl ih =>
      have hu := ih fun l hmem => hw l (List.mem_append_left _ hmem)
      exact hu.step hm hσ hl (hw l (List.mem_append_right _ (List.mem_singleton_self _)))

/-! ### The order of the graph is kept -/

/-- Where a node had a `fetch_sub`, the first one was that of the child that `w` names. -/
theorem exists_winner_fetchSub (hm : m.Unengaged) (hr : Run Tracked (State.start G m x) σ s)
    (hw : ∀ l ∈ σ, l.event.WonBy w) {a n i : ℕ} {r : ℤ} (hl : l ∈ σ)
    (he : l.event = .fetchSub a n i r) :
    ∃ (k : ℕ) (l' : Label α), σ[k]? = some l' ∧ Ob.fetchSub a (w a) ∈ l'.event.discharges := by
  have hfork : (a, n + 1) ∈ G.forks 0 := by
    refine (mem_forks_of_fetchSub hm (Tracked.run hr) (t := l.thread) (i := i) (r := r) ?_).1
    rw [← he]
    exact List.mem_map_of_mem (f := Label.step) hl
  have hvalues := (fetchSubs_count_down hm (Tracked.run hr) hfork).values
  have hne : (i, r) ∈ fetchSubs a (σ.map Label.step) := by
    refine List.mem_filterMap.mpr ⟨_, List.mem_map_of_mem hl, ?_⟩
    show Event.fetchSub? a l.event = _
    rw [he]
    exact if_pos rfl
  rcases hfs : fetchSubs a (σ.map Label.step) with - | ⟨⟨i₀, r₀⟩, rest⟩
  · rw [hfs] at hne
    exact absurd hne List.not_mem_nil
  · -- the first value returned is the arity
    have hr₀ : r₀ = (n : ℤ) + 1 := by
      rw [hfs, List.length_cons, List.map_cons, List.range_succ_eq_map, List.map_cons] at hvalues
      have := (List.cons.inj hvalues).1
      push_cast at this
      omega
    obtain ⟨e, hmem, hfirst⟩ := List.mem_filterMap.mp
      (show (i₀, r₀) ∈ fetchSubs a (σ.map Label.step) by rw [hfs]; exact List.mem_cons_self ..)
    obtain ⟨l', hl', rfl⟩ := List.mem_map.mp hmem
    obtain ⟨k, hk⟩ := List.mem_iff_getElem?.mp hl'
    refine ⟨k, l', hk, ?_⟩
    change Event.fetchSub? a l'.event = some (i₀, r₀) at hfirst
    have hwon := hw l' hl'
    cases hev : l'.event with
    | fetchSub b n' i' r' =>
        rw [hev] at hfirst hwon
        simp only [Event.fetchSub?] at hfirst
        split_ifs at hfirst with hb
        obtain ⟨rfl, rfl⟩ := Prod.mk.inj (Option.some.inj hfirst)
        subst hb
        have hfork' : (b, n' + 1) ∈ G.forks 0 := by
          refine (mem_forks_of_fetchSub hm (Tracked.run hr) (t := l'.thread) (i := i') (r := r') ?_).1
          rw [← hev]
          exact List.mem_map_of_mem (f := Label.step) hl'
        obtain rfl : n = n' := by
          have := forks_unique hfork hfork'
          omega
        rw [hwon hr₀]
        exact Multiset.mem_singleton_self _
    | _ =>
        rw [hev] at hfirst
        cases hfirst

/-- The winner of an any node comes first, and `_left` is acquired and released. -/
theorem happensBefore_of_races (hm : m.Unengaged)
    (hr : Run Tracked (State.start G m x) (σ ++ [l]) s) (hw : ∀ l' ∈ σ ++ [l], l'.event.WonBy w)
    {y z : Ob} (hz : z ∈ l.event.discharges) (h : y.Races w z) :
    ∃ (i : ℕ) (l' : Label α), (σ ++ [l])[i]? = some l' ∧ y ∈ l'.event.discharges ∧
      HappensBefore (signature .acqRel) (σ ++ [l]) i σ.length := by
  cases y <;> cases z <;> try exact h.elim
  obtain ⟨rfl, rfl, hne⟩ := h
  obtain ⟨n, r, he⟩ := exists_fetchSub_of_mem hz
  obtain ⟨k, l', hk, hy⟩ := exists_winner_fetchSub hm hr hw
    (List.mem_append_right _ (List.mem_singleton_self l)) he
  refine ⟨k, l', hk, hy, ?_⟩
  rcases getElem?_snoc_cases hk with hk | ⟨rfl, rfl⟩
  · exact happensBefore_fetchSub he hk hy
  · rw [he] at hy
    cases Multiset.mem_singleton.mp hy
    exact absurd rfl hne

/-- **What the graph puts immediately before an action happens before it.** -/
theorem happensBefore_of_precedes (hm : m.Unengaged)
    (hr : Run Tracked (State.start G m x) σ s) (hw : ∀ l ∈ σ, l.event.WonBy w) {j : ℕ}
    {y z : Ob} (hj : σ[j]? = some l') (hz : z ∈ l'.event.discharges) (h : Precedes G w y z) :
    ∃ (i : ℕ) (l : Label α), σ[i]? = some l ∧ y ∈ l.event.discharges ∧
      HappensBefore (signature .acqRel) σ i j := by
  induction hr with
  | refl => simp at hj
  | @tail σ u l u' hσ hl ih =>
      have hwσ : ∀ l ∈ σ, l.event.WonBy w := fun l hmem => hw l (List.mem_append_left _ hmem)
      rcases getElem?_snoc_cases hj with hj | ⟨rfl, rfl⟩
      · obtain ⟨i, l₀, hi, hy, hij⟩ := ih hwσ hj
        exact ⟨i, l₀, getElem?_append_of_eq_some hi, hy, hij.append⟩
      · obtain ⟨c, fr, rest, o, ht, hf, he, -⟩ := tracked_iff.mp hl
        have htop := informed_of_run hm hσ hwσ _ _ ht fr (List.mem_cons_self ..)
        have hn : fr.next = some z := by
          rw [← hf.mem_discharges, ← he]
          exact hz
        rcases htop.known hn h with ⟨i, l₀, hi, hy, hseen⟩ | hrace
        · exact ⟨i, l₀, getElem?_append_of_eq_some hi, hy, hseen.happensBefore⟩
        · exact happensBefore_of_races hm (hσ.tail hl) hw hz hrace

/-- **The order of the graph is kept**: what comes before an action of a run in the order of the
graph was done, and happens before it. -/
theorem happensBefore_of_order (hm : m.Unengaged)
    (hr : Run Tracked (State.start G m x) σ s) (hw : ∀ l ∈ σ, l.event.WonBy w) {j : ℕ}
    {y z : Ob} (hj : σ[j]? = some l') (hz : z ∈ l'.event.discharges)
    (h : TransGen (Precedes G w) y z) :
    ∃ (i : ℕ) (l : Label α), σ[i]? = some l ∧ y ∈ l.event.discharges ∧
      HappensBefore (signature .acqRel) σ i j := by
  induction h using TransGen.head_induction_on with
  | single h => exact happensBefore_of_precedes hm hr hw hj hz h
  | head h _ ih =>
      obtain ⟨i, l, hi, hy, hij⟩ := ih
      obtain ⟨k, l₀, hk, hx, hki⟩ := happensBefore_of_precedes hm hr hw hi hy h
      exact ⟨k, l₀, hk, hx, hki.trans hij⟩

theorem ne_read_of_mem_discharges {e : Event α} {o : Ob} (h : o ∈ e.discharges) (q : ℕ) :
    o ≠ .read q := by
  rintro rfl
  cases e <;> simp [Event.discharges] at h

/-- An action is done at one position of a run. -/
theorem index_unique (hm : m.Unengaged) (hr : Run Tracked (State.start G m x) σ s) {o : Ob}
    {i j : ℕ} (hi : σ[i]? = some l) (ho : o ∈ l.event.discharges)
    (hj : σ[j]? = some l') (ho' : o ∈ l'.event.discharges) : i = j := by
  induction hr with
  | refl => simp at hi
  | @tail σ u k u' hσ hl ih =>
      have hlast : ∀ {i : ℕ} {l : Label α}, σ[i]? = some l → o ∈ l.event.discharges →
          o ∉ k.event.discharges := by
        intro i l hi ho hk
        have hmem : l.step ∈ σ.map Label.step := List.mem_map_of_mem (List.mem_of_getElem? hi)
        exact not_done_twice hm (Tracked.run hσ) hl.step (ne_read_of_mem_discharges ho) hk _ hmem ho
      rcases getElem?_snoc_cases hi with hi' | ⟨rfl, rfl⟩ <;>
        rcases getElem?_snoc_cases hj with hj' | ⟨rfl, rfl⟩
      · exact ih hi' hj'
      · exact absurd ho' (hlast hi' ho)
      · exact absurd ho (hlast hj' ho')
      · rfl

/-- Of two actions in the order of the graph, both done, the first happens before the other. -/
theorem happensBefore_of_done (hm : m.Unengaged) (hr : Run Tracked (State.start G m x) σ s)
    (hw : ∀ l ∈ σ, l.event.WonBy w) {i j : ℕ} {y z : Ob} (hi : σ[i]? = some l)
    (hy : y ∈ l.event.discharges) (hj : σ[j]? = some l') (hz : z ∈ l'.event.discharges)
    (h : TransGen (Precedes G w) y z) : HappensBefore (signature .acqRel) σ i j := by
  obtain ⟨k, l₀, hk, hy', hkj⟩ := happensBefore_of_order hm hr hw hj hz h
  obtain rfl := index_unique hm hr hi hy hk hy'
  exact hkj

theorem eq_or_happensBefore (hm : m.Unengaged) (hr : Run Tracked (State.start G m x) σ s)
    (hw : ∀ l ∈ σ, l.event.WonBy w) {i j : ℕ} {y z : Ob} (hi : σ[i]? = some l)
    (hy : y ∈ l.event.discharges) (hj : σ[j]? = some l') (hz : z ∈ l'.event.discharges)
    (h : ReflTransGen (Precedes G w) y z) : i = j ∨ HappensBefore (signature .acqRel) σ i j := by
  rcases reflTransGen_iff_eq_or_transGen.mp h with rfl | h
  · exact .inl (index_unique hm hr hi hy hj hz)
  · exact .inr (happensBefore_of_done hm hr hw hi hy hj hz h)

theorem wonBy_tracked (hm : m.Unengaged) (hr : Run Tracked (State.start G m x) σ s) :
    ∀ l ∈ σ, l.event.WonBy (winner (σ.map Label.step)) :=
  fun _ hl => wonBy_winner hm (Tracked.run hr) _ (List.mem_map_of_mem hl)

/-! ### Winners are children -/

theorem winning_winner (hm : m.Unengaged) (hr : Run Step (State.start G m x) τ s) :
    Winning G (winner τ) := by
  intro n fs a K p hc
  unfold winner
  rcases hfs : fetchSubs a τ with - | ⟨⟨i, r⟩, rest⟩
  · exact Nat.succ_pos n
  · show i < n + 1
    obtain ⟨⟨t, e⟩, hmem, hfirst⟩ := List.mem_filterMap.mp
      (show (i, r) ∈ fetchSubs a τ by rw [hfs]; exact List.mem_cons_self ..)
    cases e with
    | fetchSub b n' i' r' =>
        simp only [Event.fetchSub?] at hfirst
        split_ifs at hfirst with hb
        cases hfirst
        subst hb
        obtain ⟨hfork, hlt⟩ := mem_forks_of_fetchSub hm hr hmem
        have hn := forks_unique (mem_forks_of_site hc.mem_sites) hfork
        omega
    | _ => cases hfirst

/-! ### Schedules -/

/-- Run a schedule with labels. -/
def State.trackAll (s : State α) (sched : List (ℕ × Choice α)) :
    Option (List (Label α) × State α) :=
  Lts.drive (fun u tc => u.track tc.1 tc.2) s sched

theorem thread_of_track {t : ℕ} {c : Choice α} (h : s.track t c = some (l, s')) :
    l.thread = t := by
  unfold State.track at h
  split at h
  · split at h
    · cases h
      rfl
    · cases h
  · cases h

theorem run_of_trackAll {sched : List (ℕ × Choice α)} (h : s.trackAll sched = some (σ, s')) :
    Run Tracked s σ s' := by
  refine Lts.run_of_drive (fun u tc l u' hnext => ?_) h
  obtain ⟨t, c⟩ := tc
  obtain rfl := thread_of_track hnext
  exact ⟨c, hnext⟩

/-! ### The return of `sync_execute` -/

/-- With the section of the mutex in which `wait` finds the counter at zero (`none`). -/
def returning : Signature (Option (Label α)) SyncObject where
  thread l := (l.map Label.thread).getD 0
  creates l := l.bind Label.creates
  object
    | some l => l.event.object .acqRel
    | none => some .mutex

theorem mem_total_of_discharges (hm : m.Unengaged)
    (hr : Run Tracked (State.start G m x) σ s) (hl : l ∈ σ) {o : Ob}
    (ho : o ∈ l.event.discharges) : o ∈ G.total := by
  obtain ⟨ρ, ρ', rfl⟩ := List.append_of_mem hl
  obtain ⟨u, u', hu, hstep⟩ := hr.exists_step (σ := ρ) ⟨ρ', by rw [List.append_assoc]; rfl⟩
  obtain ⟨c, fr, rest, out, ht, hf, he, -, -, rfl⟩ := tracked_iff.mp hstep
  have hr' := Tracked.run hu
  rw [he] at ho
  have howed := ((Inv.reached hm hr').transfer ht hf).owed ho
  exact ((mem_owed_iff hm hr' (ne_read_of_mem_discharges ho)).mp howed).1

/-- **What the tasks did happens before `sync_execute` returns**: where the counter of the latch
is zero, the `wait` that finds it so comes after every event of the run but the destruction of
leaf results. -/
theorem happensBefore_return (hm : m.Unengaged) (hr : Run Tracked (State.start G m x) σ s)
    (hl : s.latch = 0) {i : ℕ} (hi : σ[i]? = some l) (hne : ∀ a, l.event ≠ .tempDrop a) :
    HappensBefore returning (σ.map some ++ [none]) i σ.length := by
  obtain ⟨o, ho⟩ : ∃ o, o ∈ l.event.discharges := by
    cases he : l.event
    case tempDrop a => exact absurd he (hne a)
    all_goals exact ⟨_, Multiset.mem_singleton_self _⟩
  have hwin := winning_winner hm (Tracked.run hr)
  have htot := mem_total_of_discharges hm hr (List.mem_of_getElem? hi) ho
  obtain ⟨c, hoc, hc⟩ :=
    exists_countDown_of_mem_total hwin htot (ne_read_of_mem_discharges ho)
  have hdone : Ob.countDown c ∉ s.owed G := by
    rw [owed_eq_zero_of_latch hm (Tracked.run hr) hl]
    exact Multiset.notMem_zero _
  obtain ⟨j, l', hj, hcd⟩ := exists_discharged hm hr hc (by simp) hdone
  have hmutex : HappensBefore returning (σ.map some ++ [none]) j (σ.map some).length := by
    have hsome : (σ.map some)[j]? = some (some l') := by
      rw [List.getElem?_map, hj]
      rfl
    have hobj : returning.object (some l') = some .mutex := by
      show l'.event.object .acqRel = _
      cases he : l'.event <;> rw [he] at hcd <;> simp [Event.discharges] at hcd
      rfl
    exact happensBefore_of_object hsome hobj rfl
  rw [List.length_map] at hmutex
  rcases eq_or_happensBefore hm hr (wonBy_tracked hm hr) hi ho hj hcd hoc with rfl | hij
  · exact hmutex
  · have hij' : HappensBefore returning (σ.map some) i j :=
      hij.map (fun _ => rfl) (fun _ _ h => h) (φ := id) (fun _ _ h => h)
    exact hij'.append.trans hmutex

/-- The race in which the calling thread wins, with labels. -/
def raceLabels : List (Label ℕ) × State ℕ :=
  ((State.syncExecute race Mem.fresh).trackAll
    (List.replicate 12 (0, default) ++ List.replicate 8 (1, default))).getD default

theorem run_raceLabels :
    Run Tracked (State.start race Mem.fresh .nothing) raceLabels.1 raceLabels.2 :=
  @run_of_trackAll _ _ _ _ (List.replicate 12 (0, default) ++ List.replicate 8 (1, default)) rfl

theorem happensBefore_return_race :
    HappensBefore returning (raceLabels.1.map some ++ [none]) 0 raceLabels.1.length :=
  happensBefore_return Mem.fresh_unengaged run_raceLabels rfl (i := 0) rfl fun a h => by cases h

end Orizzonte
