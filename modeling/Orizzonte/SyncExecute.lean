/-
Orizzonte/SyncExecute.lean

`sync_execute` with the latch it has: the threads run the graph, and where one calls
`l.count_down()` it goes through `latch_impl::count_down`, step by step, in
competition with the others for the mutex; the calling thread, once it is through with
`graph.execute`, goes through `wait`.

Each step is a step of `State` or none, on the state in which the threads that have
taken the counter down have already returned from `count_down` (`Execution.abs`).
`Execution.Valid` says how the two fit together at any time, and `Valid.step` that each
step keeps it.
-/
import Orizzonte.BoolLatch
import Orizzonte.Termination

namespace Orizzonte

open Lts

universe u

variable {α : Type u}

/-! ### The latch seen from a call -/

namespace LatchImpl

/-- The call has taken the counter down. -/
def Point.past : Point → Bool
  | notifyAll | unlock | countedDown => true
  | _ => false

/-- Call `c` has taken the counter down. -/
def counted (l : Monitor.State Point ℤ) (c : ℕ) : Bool :=
  match l.threads[c]? with
  | some (.running p) => p.past
  | _ => false

variable {l l' : Monitor.State Point ℤ} {c t : ℕ} {e : Monitor.Event Point}

theorem counted_running {p : Point} (h : l.threads[c]? = some (.running p)) :
    counted l c = p.past := by
  simp [counted, h]

/-- Where the mutex is free a call can go on, and where it has the mutex it can anyway. -/
theorem exists_instr {p : Point} {mtx : Option ℕ} (d : ℤ)
    (h : p.Holds ∨ (mtx = none ∧ p ≠ .countedDown ∧ p ≠ .waited)) :
    ∃ i, body p d = some i ∧ i.enabled mtx = true := by
  rcases h with hp | ⟨rfl, hp, hp'⟩
  · cases p <;> first | exact hp.elim | exact ⟨_, rfl, rfl⟩
  · cases p <;> first | exact ⟨_, rfl, rfl⟩ | contradiction

/-- The other calls do not change that. -/
theorem counted_other (hf : Monitor.Fires body l t e l') (hne : c ≠ t) :
    counted l' c = counted l c := by
  unfold counted
  rcases hf.other hne with h | h
  · rw [h]
  · rw [h]
    rcases l.threads[c]? with - | (p | p | p) <;> rfl

theorem running_other (hf : Monitor.Fires body l t e l') (hne : c ≠ t) {p : Point} :
    l'.threads[c]? = some (.running p) ↔ l.threads[c]? = some (.running p) := by
  refine ⟨fun h => ?_, hf.running hne⟩
  obtain ⟨th, hth, he | he⟩ := hf.before hne h
  · rw [hth, ← he]
  · cases th <;> cases he
    exact hth

end LatchImpl

/-! ### The machine with its latch -/

/-- The calls of `l.count_down()`, by the lambda of `sync_execute` that makes them: the first
one, and the second one for each any node. -/
def Node.latchCalls (G : Node α) : List (Option ℕ) := none :: (G.anyAddrs 0).map some

/-- The thread of the latch that stands for a call. -/
def Node.latchCall (G : Node α) (o : Option ℕ) : ℕ := G.latchCalls.idxOf o

theorem Node.length_latchCalls (G : Node α) : G.latchCalls.length = G.cleanupCount + 1 := by
  rw [latchCalls, List.length_cons, List.length_map, G.length_anyAddrs]

theorem Node.filterMap_total_countDown (G : Node α) :
    G.total.filterMap Ob.countDown? = (G.latchCalls : Multiset (Option ℕ)) := by
  rw [← Ob.sum_shown]
  exact G.total_countDown

theorem Node.mem_latchCalls {G : Node α} {o : Option ℕ} :
    o ∈ G.latchCalls ↔ Ob.countDown o ∈ G.total := by
  rw [← Multiset.mem_coe, ← G.filterMap_total_countDown, Multiset.mem_filterMap]
  constructor
  · rintro ⟨y, hy, ho⟩
    cases y <;> cases ho
    exact hy
  · exact fun h => ⟨_, h, rfl⟩

theorem Node.nodup_latchCalls (G : Node α) : G.latchCalls.Nodup := by
  rw [← Multiset.coe_nodup, ← G.filterMap_total_countDown]
  refine G.nodup_total.filterMap _ fun y y' o h h' => ?_
  cases y <;> cases h
  cases y' <;> cases h'
  rfl

theorem Node.latchCall_lt {G : Node α} {o : Option ℕ} (h : o ∈ G.latchCalls) :
    G.latchCall o < G.cleanupCount + 1 := by
  rw [← G.length_latchCalls]
  exact List.idxOf_lt_length_iff.mpr h

theorem Node.latchCall_inj {G : Node α} {o o' : Option ℕ} (h : o ∈ G.latchCalls)
    (he : G.latchCall o = G.latchCall o') : o = o' :=
  (List.idxOf_inj h).mp he

theorem Node.exists_latchCall {G : Node α} {c : ℕ} (hc : c < G.cleanupCount + 1) :
    ∃ o ∈ G.latchCalls, G.latchCall o = c := by
  have hlt : c < G.latchCalls.length := by rwa [G.length_latchCalls]
  exact ⟨G.latchCalls[c], List.getElem_mem hlt, G.nodup_latchCalls.idxOf_getElem c hlt⟩

/-- Only the frame that is about to call `count_down` does. -/
theorem Fires.countDown_notMem {m : Mem α} {c : Choice α} {fr : Frame α} {o : Outcome α}
    (hf : Fires m c fr o) (hne : ∀ q, fr ≠ .countDown q) :
    o.event.counted = 0 ∧ ∀ q, Ob.countDown q ∉ o.event.discharges := by
  cases hf with
  | countDown q => exact absurd rfl (hne q)
  | _ => exact ⟨rfl, fun q h => by simp [Event.discharges] at h⟩

theorem Fires.spawned_ne {m : Mem α} {c : Choice α} {fr : Frame α} {o : Outcome α}
    (hf : Fires m c fr o) {sp : Frame α} (hsp : sp ∈ o.spawned) (q : Option ℕ) :
    sp ≠ .countDown q := by
  cases hf <;> simp at hsp
  rintro rfl
  cases hsp

/-- The graph with the threads in it, and the latch.  The counter of `State` is not used. -/
structure Execution (α : Type u) where
  graph : State α
  latch : Monitor.State LatchImpl.Point ℤ

inductive ExecEvent (α : Type u)
  | graph (e : Event α)
  /-- a step of `count_down`, called by the lambda for `o` -/
  | latch (o : Option ℕ) (e : Monitor.Event LatchImpl.Point)
  /-- a step of `wait` -/
  | wait (e : Monitor.Event LatchImpl.Point)

/-- `wait` wakes up by itself. -/
def ExecEvent.spurious : ExecEvent α → Bool
  | wait .wake => true
  | _ => false

/-- A step of a thread leaves the others as they are. -/
theorem State.getElem?_after_of_ne {s : State α} {t t' : ℕ} {rest st : List (Frame α)}
    {o : Outcome α} (hne : t' ≠ t) (ht' : s.threads[t']? = some st) :
    (s.after t rest o).threads[t']? = some st := by
  have hlt : t' < s.threads.length := (List.getElem?_eq_some_iff.mp ht').1
  show (s.threads.set t (o.frames ++ rest) ++ _)[t']? = _
  rw [List.getElem?_append_left (by rwa [List.length_set]), List.getElem?_set_ne hne.symm, ht']

/-- Thread `t` returns from its top frame to `rest`. -/
def State.leave (s : State α) (t : ℕ) (rest : List (Frame α)) : State α :=
  { s with threads := s.threads.set t rest }

namespace Execution

/-- `sync_execute(scheduler, G, then)`, on a graph object with memory `m`. -/
def start (G : Node α) (m : Mem α) (x : Value α) : Execution α where
  graph := State.start G m x
  latch := LatchImpl.start ((G.cleanupCount + 1 : ℕ) : ℤ) (G.cleanupCount + 1) 1

/-- Thread `t` made a step of `count_down`, from which it returns to `rest` after the last one. -/
def counting (G : Node α) (s : Execution α) (t : ℕ) (o : Option ℕ) (rest : List (Frame α))
    (l : Monitor.State LatchImpl.Point ℤ) : Execution α where
  graph := if l.threads[G.latchCall o]? = some (.running .countedDown) then
      s.graph.leave t rest
    else s.graph
  latch := l

/-- One step of thread `t`, when it has one. -/
def step (G : Node α) (s : Execution α) (t : ℕ) (c : Choice α) :
    Option (ExecEvent α × Execution α) :=
  match s.graph.threads[t]? with
  | none => none
  | some [] =>
      -- the destructor of the latch, on the thread that called `sync_execute`
      if t = 0 then
        (Monitor.step LatchImpl.body s.latch (G.cleanupCount + 1)).map fun r =>
          (.wait r.1, { s with latch := r.2 })
      else none
  | some (.countDown o :: rest) =>
      (Monitor.step LatchImpl.body s.latch (G.latchCall o)).map fun r =>
        (.latch o r.1, s.counting G t o rest r.2)
  | some (_ :: _) =>
      match s.graph.step t c with
      | some (.ok r) => some (.graph r.1, { s with graph := r.2 })
      | _ => none

def Step (G : Node α) (s : Execution α) (l : ℕ × ExecEvent α) (s' : Execution α) : Prop :=
  ∃ c, s.step G l.1 c = some (l.2, s')

variable {G : Node α} {s s' : Execution α} {t : ℕ} {e : ExecEvent α}

/-- The steps, one rule for each kind of event. -/
inductive Fires (G : Node α) (s : Execution α) (t : ℕ) : ExecEvent α → Execution α → Prop
  | graph {fr rest e g} : s.graph.threads[t]? = some (fr :: rest) → (∀ o, fr ≠ .countDown o) →
      Orizzonte.Step s.graph (t, e) g → Fires G s t (.graph e) { s with graph := g }
  | latch {o rest e l} : s.graph.threads[t]? = some (.countDown o :: rest) →
      Monitor.Fires LatchImpl.body s.latch (G.latchCall o) e l →
      Fires G s t (.latch o e) (s.counting G t o rest l)
  | wait {e l} : t = 0 → s.graph.threads[t]? = some [] →
      Monitor.Fires LatchImpl.body s.latch (G.cleanupCount + 1) e l →
      Fires G s t (.wait e) { s with latch := l }

theorem step_iff : Step G s (t, e) s' ↔ Fires G s t e s' := by
  constructor
  · rintro ⟨c, h⟩
    unfold step at h
    split at h
    · cases h
    · rename_i ht
      split_ifs at h with h0
      obtain ⟨r, hr, he⟩ := Option.map_eq_some_iff.mp h
      cases he
      exact .wait h0 ht (.of_step hr)
    · rename_i o rest ht
      obtain ⟨r, hr, he⟩ := Option.map_eq_some_iff.mp h
      cases he
      exact .latch ht (.of_step hr)
    · rename_i fr rest hne ht
      split at h
      · rename_i r hr
        cases h
        exact .graph ht (fun o he => hne o he) ⟨c, hr⟩
      · cases h
  · intro h
    cases h with
    | graph ht hne hs =>
        obtain ⟨c, hs⟩ := hs
        refine ⟨c, ?_⟩
        unfold step
        split
        · rename_i h
          cases ht.symm.trans h
        · rename_i h
          cases ht.symm.trans h
        · rename_i o _ h
          cases ht.symm.trans h
          exact absurd rfl (hne o)
        · rw [hs]
    | latch ht hf => exact ⟨default, by simp [step, ht, hf.step]⟩
    | wait h0 ht hf =>
        subst h0
        exact ⟨default, by simp [step, ht, hf.step]⟩

/-- Run a schedule, which says whose step comes next and what is chosen there. -/
def drive (G : Node α) (s : Execution α) (sched : List (ℕ × Choice α)) :
    Option (List (ℕ × ExecEvent α) × Execution α) :=
  Lts.drive (fun u tc => (u.step G tc.1 tc.2).map fun r => ((tc.1, r.1), r.2)) s sched

theorem run_of_drive {τ : List (ℕ × ExecEvent α)} {sched : List (ℕ × Choice α)}
    (h : s.drive G sched = some (τ, s')) : Run (Step G) s τ s' := by
  refine Lts.run_of_drive (fun u tc l u' hnext => ?_) h
  obtain ⟨r, hr, heq⟩ := Option.map_eq_some_iff.mp hnext
  cases heq
  exact ⟨tc.2, hr⟩

/-! ### The state of the graph machine -/

/-- A thread that has taken the counter down has returned. -/
def settle (G : Node α) (l : Monitor.State LatchImpl.Point ℤ) : List (Frame α) → List (Frame α)
  | .countDown o :: rest =>
      if LatchImpl.counted l (G.latchCall o) then rest else .countDown o :: rest
  | st => st

/-- The state of the graph machine that an execution is in. -/
def abs (G : Node α) (s : Execution α) : State α where
  mem := s.graph.mem
  threads := s.graph.threads.map (settle G s.latch)
  latch := s.latch.data

/-- What the graph machine does. -/
def graph? : ℕ × ExecEvent α → Option (ℕ × Event α)
  | (t, .graph e) => some (t, e)
  | (t, .latch o (.exec .decrement)) => some (t, .countDown o)
  | _ => none

/-- What the latch does. -/
def latch? (G : Node α) : ℕ × ExecEvent α → Option (ℕ × Monitor.Event LatchImpl.Point)
  | (_, .latch o e) => some (G.latchCall o, e)
  | (_, .wait e) => some (G.cleanupCount + 1, e)
  | _ => none

theorem settle_of_not_counted {l : Monitor.State LatchImpl.Point ℤ} {st : List (Frame α)}
    (h : ∀ o, .countDown o ∈ st → LatchImpl.counted l (G.latchCall o) = false) :
    settle G l st = st := by
  unfold settle
  split
  · rename_i o rest
    rw [h o (List.mem_cons_self ..)]
    rfl
  · rfl

theorem settle_congr {l l' : Monitor.State LatchImpl.Point ℤ} {st : List (Frame α)}
    (h : ∀ o rest, st = .countDown o :: rest →
      LatchImpl.counted l' (G.latchCall o) = LatchImpl.counted l (G.latchCall o)) :
    settle G l' st = settle G l st := by
  unfold settle
  split
  · rename_i o rest
    rw [h o rest rfl]
  · rfl

theorem settle_of_ne {l : Monitor.State LatchImpl.Point ℤ} {fr : Frame α} {rest : List (Frame α)}
    (h : ∀ o, fr ≠ .countDown o) : settle G l (fr :: rest) = fr :: rest := by
  unfold settle
  split
  · rename_i o _ he
    exact absurd (List.cons.inj he).1 (h o)
  · rfl

theorem getElem?_abs (t : ℕ) :
    (s.abs G).threads[t]? = (s.graph.threads[t]?).map (settle G s.latch) :=
  List.getElem?_map

/-- What holds of an execution in every state. -/
structure Valid (G : Node α) (s : Execution α) : Prop where
  graph : Inv Flow.trivial G (s.abs G)
  latch : LatchImpl.Inv (G.cleanupCount + 1) 1 s.latch
  owed : ∀ o, Ob.countDown o ∈ (s.abs G).owed G → o ∈ G.latchCalls
  /-- a call is owed until it has taken the counter down -/
  counted : ∀ o ∈ G.latchCalls,
    (LatchImpl.counted s.latch (G.latchCall o) = false ↔ Ob.countDown o ∈ (s.abs G).owed G)
  /-- a thread that makes a call is in it, and no other thread makes it -/
  calls : ∀ (t : ℕ) o rest, s.graph.threads[t]? = some (.countDown o :: rest) →
    o ∈ G.latchCalls ∧ s.latch.threads[G.latchCall o]? ≠ some (.running .countedDown) ∧
      ∀ (t' : ℕ) rest', s.graph.threads[t']? = some (.countDown o :: rest') → t' = t
  /-- a call that has begun and has not returned is made by some thread -/
  called : ∀ o ∈ G.latchCalls, ∀ p, s.latch.threads[G.latchCall o]? = some (.running p) →
    p ≠ .countDown → p ≠ .countedDown →
    ∃ (t : ℕ) (rest : List (Frame α)), s.graph.threads[t]? = some (.countDown o :: rest)
  /-- `wait` is called when the calling thread is through -/
  waits : s.latch.threads[G.cleanupCount + 1]? = some (.running .wait) ∨
    s.graph.threads[0]? = some []
  length : 0 < s.graph.threads.length

variable {m : Mem α} {x : Value α}

theorem abs_start (G : Node α) (m : Mem α) (x : Value α) :
    (start G m x).abs G = State.start G m x := by
  have hlatch : ((G.cleanupCount + 1 : ℕ) : ℤ) = G.cleanupCount + 1 := by push_cast; rfl
  simp only [abs, start, State.start, LatchImpl.start, hlatch]
  rfl

theorem start_latch_countDown {c : ℕ} (hc : c < G.cleanupCount + 1) :
    (start G m x).latch.threads[c]? = some (.running .countDown) := by
  obtain ⟨p, hp, -⟩ := (LatchImpl.Inv.start (G.cleanupCount + 1) 1).exists_countDown hc
  rcases LatchImpl.start_threads hp with ⟨-, he⟩ | ⟨hge, -⟩
  · rwa [he] at hp
  · exact absurd hc (not_lt.mpr hge)

theorem start_latch_wait :
    (start G m x).latch.threads[G.cleanupCount + 1]? = some (.running .wait) := by
  have hlt : G.cleanupCount + 1 < (start G m x).latch.threads.length := by
    have hlen : (start G m x).latch.threads.length = G.cleanupCount + 1 + 1 :=
      (LatchImpl.Inv.start (G.cleanupCount + 1) 1).length
    omega
  have hth := List.getElem?_eq_getElem hlt
  rcases LatchImpl.start_threads hth with ⟨hlt, -⟩ | ⟨-, he⟩
  · exact absurd hlt (lt_irrefl _)
  · rwa [he] at hth

theorem Valid.start (hm : m.Unengaged) : (start G m x).Valid G := by
  have howed : ((Execution.start G m x).abs G).owed G = G.total := by
    rw [abs_start]
    exact State.obs_start hm
  refine ⟨?_, LatchImpl.Inv.start _ 1, ?_, ?_, ?_, ?_, .inl start_latch_wait, Nat.one_pos⟩
  · rw [abs_start]
    exact Inv.start hm trivial
  · intro o ho
    exact Node.mem_latchCalls.mpr (howed ▸ ho)
  · intro o ho
    rw [LatchImpl.counted_running (start_latch_countDown (Node.latchCall_lt ho)), howed]
    exact iff_of_true rfl (Node.mem_latchCalls.mp ho)
  · intro t o rest ht
    cases List.mem_singleton.mp (List.mem_of_getElem? ht)
  · intro o ho p hp hne
    rw [start_latch_countDown (Node.latchCall_lt ho)] at hp
    exact absurd (Monitor.Thread.running.inj (Option.some.inj hp)).symm hne

/-! ### Threads in a call -/

/-- A frame on a stack of the graph machine that is about to count down is owed. -/
theorem owed_of_mem {u : State α} {t : ℕ} {st : List (Frame α)} {o : Option ℕ}
    (ht : u.threads[t]? = some st) (ho : .countDown o ∈ st) : Ob.countDown o ∈ u.owed G :=
  Multiset.mem_of_le (State.frame_obs_le (List.mem_of_getElem? ht) ho)
    (Multiset.mem_singleton_self _)

/-- Two threads do not make the same call. -/
theorem unique_of_mem {u : State α} (h : Inv Flow.trivial G u) {t t' : ℕ} {st st' : List (Frame α)}
    {o : Option ℕ} (ht : u.threads[t]? = some st) (ho : .countDown o ∈ st)
    (ht' : u.threads[t']? = some st') (ho' : .countDown o ∈ st') : t = t' := by
  have hmem : ∀ {st : List (Frame α)}, .countDown o ∈ st → Ob.countDown o ∈ stackObs st :=
    fun ho => Tally.mem_sum_map.mpr ⟨_, ho, Multiset.mem_singleton_self _⟩
  exact Tally.index_unique_of_nodup (Multiset.nodup_add.mp h.nodup).1 ht ht' (hmem ho) (hmem ho')

namespace Valid

theorem not_counted (h : s.Valid G) {o : Option ℕ} (ho : Ob.countDown o ∈ (s.abs G).owed G) :
    LatchImpl.counted s.latch (G.latchCall o) = false :=
  (h.counted o (h.owed o ho)).mpr ho

/-- A thread that has not taken the counter down has its frame in the graph machine. -/
theorem getElem?_abs_of_owed {o : Option ℕ} {t : ℕ} {rest : List (Frame α)}
    (hc : LatchImpl.counted s.latch (G.latchCall o) = false)
    (ht : s.graph.threads[t]? = some (.countDown o :: rest)) :
    (s.abs G).threads[t]? = some (.countDown o :: rest) := by
  rw [getElem?_abs, ht]
  simp [settle, hc]

/-! ### Steps of the graph -/

section Graph

variable {fr : Frame α} {rest : List (Frame α)} {e : Event α} {g : State α}

theorem abs_getElem?_of_ne (ht : s.graph.threads[t]? = some (fr :: rest))
    (hne : ∀ o, fr ≠ .countDown o) : (s.abs G).threads[t]? = some (fr :: rest) := by
  rw [getElem?_abs, ht]
  exact congrArg some (settle_of_ne hne)

/-- What a thread goes on with after a step of the graph is owed after it, so it was not counted
before. -/
theorem settle_frames (h : s.Valid G) {c : Choice α} {out : Outcome α}
    (ht : s.graph.threads[t]? = some (fr :: rest)) (hne : ∀ o, fr ≠ .countDown o)
    (hf : Orizzonte.Fires s.graph.mem c fr out) :
    settle G s.latch (out.frames ++ rest) = out.frames ++ rest := by
  have habs := abs_getElem?_of_ne (G := G) ht hne
  have hstep : Orizzonte.Step (s.abs G) (t, out.event) ((s.abs G).after t rest out) :=
    Orizzonte.step_iff.mpr ⟨c, fr, rest, out, habs, hf, rfl, rfl⟩
  apply settle_of_not_counted
  intro o ho
  apply h.not_counted
  have hlt : t < (s.abs G).threads.length := (List.getElem?_eq_some_iff.mp habs).1
  have hat : ((s.abs G).after t rest out).threads[t]? = some (out.frames ++ rest) := by
    show ((s.abs G).threads.set t (out.frames ++ rest) ++ _)[t]? = _
    rw [List.getElem?_append_left (by rwa [List.length_set]), List.getElem?_set_self hlt]
  exact ((h.graph.mem_obs_step hstep (by simp)).mp (owed_of_mem hat ho)).1

/-- A step of the graph is the same step of the graph machine. -/
theorem abs_after (h : s.Valid G) {c : Choice α} {out : Outcome α}
    (ht : s.graph.threads[t]? = some (fr :: rest)) (hne : ∀ o, fr ≠ .countDown o)
    (hf : Orizzonte.Fires s.graph.mem c fr out) :
    abs G ⟨s.graph.after t rest out, s.latch⟩ = (s.abs G).after t rest out := by
  simp only [abs, State.after, (hf.countDown_notMem hne).1, sub_zero, State.mk.injEq, true_and,
    and_true, List.map_append, List.map_set, h.settle_frames ht hne hf, List.map_map]
  congr 1
  apply List.map_congr_left
  intro sp hsp
  exact settle_of_ne (hf.spawned_ne hsp)

/-- A step of the graph does not expose a call that has taken the counter down. -/
theorem abs_graph (h : s.Valid G) (ht : s.graph.threads[t]? = some (fr :: rest))
    (hne : ∀ o, fr ≠ .countDown o) (hs : Orizzonte.Step s.graph (t, e) g) :
    Orizzonte.Step (s.abs G) (t, e) (abs G ⟨g, s.latch⟩) ∧ (∀ o, Ob.countDown o ∉ e.discharges) ∧
      (∀ (t' : ℕ) st, t' ≠ t → s.graph.threads[t']? = some st → g.threads[t']? = some st) ∧
      (∀ (t' : ℕ) st, g.threads[t']? = some st → (t' ≠ t ∧ s.graph.threads[t']? = some st) ∨
        (abs G ⟨g, s.latch⟩).threads[t']? = some st) ∧
      s.graph.threads.length ≤ g.threads.length := by
  obtain ⟨c, fr', rest', out, ht', hf, rfl, rfl⟩ := Orizzonte.step_iff.mp hs
  obtain ⟨rfl, rfl⟩ := List.cons.inj (Option.some.inj (ht.symm.trans ht'))
  refine ⟨?_, (hf.countDown_notMem hne).2, fun t' st hne' h' => State.getElem?_after_of_ne hne' h',
    fun t' st hst => ?_, ?_⟩
  · rw [h.abs_after ht hne hf]
    exact Orizzonte.step_iff.mpr ⟨c, fr, rest, out, abs_getElem?_of_ne ht hne, hf, rfl, rfl⟩
  · rw [getElem?_abs, hst]
    rcases State.getElem?_after ht hst with ⟨-, rfl⟩ | hold | ⟨-, sp, hsp, rfl⟩
    · exact .inr (congrArg some (h.settle_frames ht hne hf))
    · exact .inl hold
    · exact .inr (congrArg some (settle_of_ne (hf.spawned_ne hsp)))
  · simp [State.after]

theorem graph_step (h : s.Valid G) (ht : s.graph.threads[t]? = some (fr :: rest))
    (hne : ∀ o, fr ≠ .countDown o) (hs : Orizzonte.Step s.graph (t, e) g) :
    Valid G ⟨g, s.latch⟩ := by
  obtain ⟨hstep, hno, hkeep, hthreads, hlen⟩ := h.abs_graph ht hne hs
  have hinv : Inv Flow.trivial G (abs G ⟨g, s.latch⟩) := (h.graph.step hstep trivial).1
  have howed : ∀ o, Ob.countDown o ∈ (abs G ⟨g, s.latch⟩).owed G ↔
      Ob.countDown o ∈ (s.abs G).owed G := fun o =>
    (h.graph.mem_obs_step hstep (by simp)).trans (and_iff_left (hno o))
  have hfresh : ∀ {t' : ℕ} {o : Option ℕ} {rest' : List (Frame α)},
      g.threads[t']? = some (.countDown o :: rest') →
      (t' ≠ t ∧ s.graph.threads[t']? = some (.countDown o :: rest')) ∨
        Ob.countDown o ∈ (s.abs G).owed G := fun hg =>
    (hthreads _ _ hg).imp_right fun ha => (howed _).mp (owed_of_mem ha (List.mem_cons_self ..))
  refine ⟨hinv, h.latch, fun o ho => h.owed o ((howed o).mp ho),
    fun o ho => (h.counted o ho).trans (howed o).symm, ?_, ?_, ?_, h.length.trans_le hlen⟩
  · intro t' o rest' hg
    cases hc : LatchImpl.counted s.latch (G.latchCall o)
    · refine ⟨?_, fun hd => ?_, fun t'' rest'' hg' => ?_⟩
      · rcases hfresh hg with ⟨-, hold⟩ | ho
        · exact (h.calls _ _ _ hold).1
        · exact h.owed o ho
      · rw [LatchImpl.counted_running hd] at hc
        cases hc
      · exact unique_of_mem hinv (getElem?_abs_of_owed hc hg') (List.mem_cons_self ..)
          (getElem?_abs_of_owed hc hg) (List.mem_cons_self ..)
    · have hold : ∀ {t' : ℕ} {rest' : List (Frame α)},
          g.threads[t']? = some (.countDown o :: rest') →
          s.graph.threads[t']? = some (.countDown o :: rest') := by
        intro t' rest' hg
        rcases hfresh hg with ⟨-, hold⟩ | ho
        · exact hold
        · rw [h.not_counted ho] at hc
          cases hc
      obtain ⟨hmem, hd, huniq⟩ := h.calls _ _ _ (hold hg)
      exact ⟨hmem, hd, fun t'' rest'' hg' => huniq t'' rest'' (hold hg')⟩
  · intro o ho p hp hnew hret
    obtain ⟨t', rest', ht'⟩ := h.called o ho p hp hnew hret
    refine ⟨t', rest', hkeep t' _ ?_ ht'⟩
    rintro rfl
    exact hne o (List.cons.inj (Option.some.inj (ht.symm.trans ht'))).1
  · refine h.waits.imp_right fun h0 => hkeep 0 _ ?_ h0
    rintro rfl
    cases ht.symm.trans h0

end Graph

/-! ### Steps of `count_down` -/

section Latch

variable {o : Option ℕ} {rest : List (Frame α)} {e : Monitor.Event LatchImpl.Point}
  {l : Monitor.State LatchImpl.Point ℤ}

/-- Either the call takes the counter down, or it changes nothing that the graph machine has. -/
theorem latch_cases (h : s.Valid G) (ht : s.graph.threads[t]? = some (.countDown o :: rest))
    (hf : Monitor.Fires LatchImpl.body s.latch (G.latchCall o) e l) :
    ∃ p q, s.latch.threads[G.latchCall o]? = some (.running p) ∧
      l.threads[G.latchCall o]? = some (.running q) ∧ e = .exec p ∧ q ≠ .countDown ∧
      ((p = .decrement ∧ q = .notifyAll ∧ l.data = s.latch.data - 1) ∨
        (p ≠ .decrement ∧ q.past = p.past ∧ l.data = s.latch.data)) := by
  obtain ⟨hmem, hret, -⟩ := h.calls _ _ _ ht
  obtain ⟨p, hp, hof⟩ := h.latch.exists_countDown (Node.latchCall_lt hmem)
  cases hf with
  | wake hp' => cases hp.symm.trans hp'
  | relock hp' => cases hp.symm.trans hp'
  | @exec p' i hp' hi hm =>
      obtain rfl := Monitor.Thread.running.inj (Option.some.inj (hp.symm.trans hp'))
      cases p with
      | countedDown => exact absurd hp hret
      | countDown | notifyAll | unlock =>
          cases hi
          exact ⟨_, _, hp, Monitor.Instr.effect_self _ hp, rfl, by decide,
            .inr ⟨by decide, rfl, rfl⟩⟩
      | decrement =>
          cases hi
          exact ⟨_, _, hp, Monitor.Instr.effect_self _ hp, rfl, by decide, .inl ⟨rfl, rfl, rfl⟩⟩
      | _ => exact hof.elim

@[simp] theorem latch_counting : (s.counting G t o rest l).latch = l := rfl

@[simp] theorem mem_counting : (s.counting G t o rest l).graph.mem = s.graph.mem := by
  unfold counting
  split_ifs <;> rfl

@[simp] theorem length_counting :
    (s.counting G t o rest l).graph.threads.length = s.graph.threads.length := by
  unfold counting
  split_ifs
  · exact List.length_set
  · rfl

theorem counting_other {t' : ℕ} (hne : t' ≠ t) :
    (s.counting G t o rest l).graph.threads[t']? = s.graph.threads[t']? := by
  unfold counting
  split_ifs
  · exact List.getElem?_set_ne hne.symm
  · rfl

theorem counted_of_ne (hf : Monitor.Fires LatchImpl.body s.latch (G.latchCall o) e l)
    {o' : Option ℕ} (ho' : o' ∈ G.latchCalls) (hne : o' ≠ o) :
    LatchImpl.counted l (G.latchCall o') = LatchImpl.counted s.latch (G.latchCall o') :=
  LatchImpl.counted_other hf fun he => hne (Node.latchCall_inj ho' he)

/-- The stacks of the graph machine after a step of `count_down`. -/
theorem abs_counting_threads (h : s.Valid G)
    (ht : s.graph.threads[t]? = some (.countDown o :: rest))
    (hf : Monitor.Fires LatchImpl.body s.latch (G.latchCall o) e l) :
    (abs G (s.counting G t o rest l)).threads = (s.abs G).threads.set t
      (if LatchImpl.counted l (G.latchCall o) then rest else .countDown o :: rest) := by
  have hlt : t < s.graph.threads.length := (List.getElem?_eq_some_iff.mp ht).1
  have habs : (s.abs G).threads[t]? = some (settle G s.latch (.countDown o :: rest)) := by
    rw [getElem?_abs, ht]
    rfl
  apply List.ext_getElem?
  intro t'
  by_cases htt : t' = t
  · subst htt
    rw [List.getElem?_set_self (List.getElem?_eq_some_iff.mp habs).1, getElem?_abs]
    obtain ⟨p, q, hp, hq, -, -, hcase⟩ := h.latch_cases ht hf
    by_cases hd : l.threads[G.latchCall o]? = some (.running .countedDown)
    · -- the call returns: it had taken the counter down before
      obtain rfl := Monitor.Thread.running.inj (Option.some.inj (hq.symm.trans hd))
      have hc : LatchImpl.counted l (G.latchCall o) = true := LatchImpl.counted_running hd
      have hc' : LatchImpl.counted s.latch (G.latchCall o) = true := by
        rw [LatchImpl.counted_running hp]
        rcases hcase with ⟨-, hq', -⟩ | ⟨-, hpast, -⟩
        · cases hq'
        · exact hpast.symm
      have hrest : (s.abs G).threads[t']? = some rest := by
        rw [habs]
        simp [settle, hc']
      have hgraph : (s.counting G t' o rest l).graph.threads[t']? = some rest := by
        simp [counting, hd, State.leave, List.getElem?_set_self hlt]
      rw [hgraph, if_pos hc]
      apply congrArg some
      apply settle_of_not_counted
      intro o' ho'
      have howed := owed_of_mem (G := G) hrest ho'
      have hnot := h.not_counted howed
      rw [← hnot]
      apply counted_of_ne hf (h.owed o' howed)
      rintro rfl
      rw [hc'] at hnot
      cases hnot
    · have hgraph : (s.counting G t' o rest l).graph.threads[t']? =
          some (.countDown o :: rest) := by
        simp [counting, hd, ht]
      rw [hgraph]
      rfl
  · rw [List.getElem?_set_ne (Ne.symm htt), getElem?_abs, getElem?_abs, counting_other htt]
    rcases hst : s.graph.threads[t']? with - | st
    · rfl
    · apply congrArg some
      apply settle_congr
      rintro o' rest' rfl
      apply counted_of_ne hf (h.calls _ _ _ hst).1
      rintro rfl
      exact htt ((h.calls _ _ _ ht).2.2 t' rest' hst)

/-- A step of `count_down` is one of the graph machine, or none. -/
theorem abs_latch (h : s.Valid G) (ht : s.graph.threads[t]? = some (.countDown o :: rest))
    (hf : Monitor.Fires LatchImpl.body s.latch (G.latchCall o) e l) :
    (e = .exec .decrement ∧
      Orizzonte.Step (s.abs G) (t, .countDown o) (abs G (s.counting G t o rest l))) ∨
    (e ≠ .exec .decrement ∧ abs G (s.counting G t o rest l) = s.abs G) := by
  obtain ⟨p, q, hp, hq, rfl, -, hcase⟩ := h.latch_cases ht hf
  have hthreads := h.abs_counting_threads ht hf
  have hold := LatchImpl.counted_running hp
  have hnew := LatchImpl.counted_running hq
  rcases hcase with ⟨rfl, rfl, hdata⟩ | ⟨hne, hpast, hdata⟩
  · left
    have habs := getElem?_abs_of_owed (G := G) hold ht
    refine ⟨rfl, Orizzonte.step_iff.mpr ⟨default, _, rest, _, habs, .countDown o, rfl, ?_⟩⟩
    rw [hnew] at hthreads
    simp only [abs, latch_counting, mem_counting] at hthreads ⊢
    rw [hthreads, hdata]
    simp [State.after, Event.counted, LatchImpl.Point.past]
  · right
    refine ⟨fun he => hne (Monitor.Event.exec.inj he), ?_⟩
    have habs : (s.abs G).threads[t]? = some (settle G s.latch (.countDown o :: rest)) := by
      rw [getElem?_abs, ht]
      rfl
    rw [hnew, hpast, ← hold] at hthreads
    have hsame : (abs G (s.counting G t o rest l)).threads = (s.abs G).threads := by
      rw [hthreads]
      obtain ⟨hlt, hget⟩ := List.getElem?_eq_some_iff.mp habs
      rw [show (if LatchImpl.counted s.latch (G.latchCall o) = true then rest
        else .countDown o :: rest) = settle G s.latch (.countDown o :: rest) from rfl, ← hget,
        List.set_getElem_self]
    simp only [abs, latch_counting, mem_counting] at hsame ⊢
    rw [hsame, hdata]

/-- Where the call returns, what the thread goes on with is owed. -/
theorem owed_of_returned (h : s.Valid G)
    (ht : s.graph.threads[t]? = some (.countDown o :: rest))
    (hf : Monitor.Fires LatchImpl.body s.latch (G.latchCall o) e l)
    (hd : l.threads[G.latchCall o]? = some (.running .countedDown)) {o' : Option ℕ}
    (ho' : .countDown o' ∈ rest) :
    Ob.countDown o' ∈ (abs G (s.counting G t o rest l)).owed G := by
  have habs : (s.abs G).threads[t]? = some (settle G s.latch (.countDown o :: rest)) := by
    rw [getElem?_abs, ht]
    rfl
  have hc : LatchImpl.counted l (G.latchCall o) = true := LatchImpl.counted_running hd
  refine owed_of_mem (t := t) ?_ ho'
  rw [h.abs_counting_threads ht hf, if_pos hc]
  exact List.getElem?_set_self (List.getElem?_eq_some_iff.mp habs).1

theorem owed_latch (h : s.Valid G) (ht : s.graph.threads[t]? = some (.countDown o :: rest))
    (hf : Monitor.Fires LatchImpl.body s.latch (G.latchCall o) e l) {o' : Option ℕ}
    (ho' : Ob.countDown o' ∈ (abs G (s.counting G t o rest l)).owed G) : o' ∈ G.latchCalls := by
  rcases h.abs_latch ht hf with ⟨-, hstep⟩ | ⟨-, habs⟩
  · exact h.owed o' ((h.graph.mem_obs_step hstep (by simp)).mp ho').1
  · exact h.owed o' (habs ▸ ho')

/-- The calls that have not taken the counter down are those that the graph machine owes. -/
theorem counted_latch (h : s.Valid G) (ht : s.graph.threads[t]? = some (.countDown o :: rest))
    (hf : Monitor.Fires LatchImpl.body s.latch (G.latchCall o) e l) {o' : Option ℕ}
    (ho' : o' ∈ G.latchCalls) : LatchImpl.counted l (G.latchCall o') = false ↔
      Ob.countDown o' ∈ (abs G (s.counting G t o rest l)).owed G := by
  obtain ⟨p, q, hp, hq, rfl, -, hcase⟩ := h.latch_cases ht hf
  rcases h.abs_latch ht hf with ⟨he, hstep⟩ | ⟨hne, habs⟩
  · have howed := h.graph.mem_obs_step hstep (o := .countDown o') (by simp)
    by_cases heq : o' = o
    · subst heq
      obtain rfl : p = .decrement := Monitor.Event.exec.inj he
      obtain ⟨-, rfl, -⟩ | ⟨hp', -⟩ := hcase
      · rw [LatchImpl.counted_running hq]
        exact iff_of_false (by decide) fun hmem => (howed.mp hmem).2 (by simp [Event.discharges])
      · exact absurd rfl hp'
    · rw [counted_of_ne hf ho' heq, h.counted o' ho']
      refine (howed.trans (and_iff_left ?_)).symm
      simpa [Event.discharges] using heq
  · rw [habs, ← h.counted o' ho']
    by_cases heq : o' = o
    · subst heq
      obtain ⟨rfl, -⟩ | ⟨-, hpast, -⟩ := hcase
      · exact absurd rfl hne
      · rw [LatchImpl.counted_running hp, LatchImpl.counted_running hq, hpast]
    · rw [counted_of_ne hf ho' heq]

/-- A thread in a call that has taken the counter down was in it before. -/
theorem called_before (h : s.Valid G) (ht : s.graph.threads[t]? = some (.countDown o :: rest))
    (hf : Monitor.Fires LatchImpl.body s.latch (G.latchCall o) e l) {o' : Option ℕ}
    (hc : LatchImpl.counted l (G.latchCall o') = true) {t' : ℕ} {rest' : List (Frame α)}
    (hg : (s.counting G t o rest l).graph.threads[t']? = some (.countDown o' :: rest')) :
    s.graph.threads[t']? = some (.countDown o' :: rest') ∧
      l.threads[G.latchCall o']? ≠ some (.running .countedDown) := by
  by_cases htt : t' = t
  · subst htt
    by_cases hd : l.threads[G.latchCall o]? = some (.running .countedDown)
    · have hrest : rest = .countDown o' :: rest' := by
        simpa [counting, hd, State.leave,
          List.getElem?_set_self (List.getElem?_eq_some_iff.mp ht).1] using hg
      have hmem' := h.owed_of_returned ht hf hd (hrest ▸ List.mem_cons_self ..)
      rw [(h.counted_latch ht hf (h.owed_latch ht hf hmem')).mpr hmem'] at hc
      cases hc
    · have hg : s.graph.threads[t']? = some (.countDown o' :: rest') := by
        simpa [counting, hd] using hg
      obtain ⟨he, -⟩ := List.cons.inj (Option.some.inj (ht.symm.trans hg))
      cases he
      exact ⟨hg, hd⟩
  · rw [counting_other htt] at hg
    refine ⟨hg, fun hd => (h.calls _ _ _ hg).2.1 ?_⟩
    refine (LatchImpl.running_other hf fun he => ?_).mp hd
    have ho' := Node.latchCall_inj (h.calls _ _ _ hg).1 he
    exact htt ((h.calls _ _ _ ht).2.2 _ _ (ho' ▸ hg))

theorem latch_step (h : s.Valid G) (ht : s.graph.threads[t]? = some (.countDown o :: rest))
    (hf : Monitor.Fires LatchImpl.body s.latch (G.latchCall o) e l) :
    (s.counting G t o rest l).Valid G := by
  have hinv : Inv Flow.trivial G (abs G (s.counting G t o rest l)) := by
    rcases h.abs_latch ht hf with ⟨-, hstep⟩ | ⟨-, habs⟩
    · exact (h.graph.step hstep trivial).1
    · rw [habs]
      exact h.graph
  refine ⟨hinv, h.latch.step (Monitor.step_iff.mpr hf), fun o' => h.owed_latch ht hf,
    fun o' => h.counted_latch ht hf, ?_, ?_, ?_, h.length.trans_eq length_counting.symm⟩
  · intro t' o' rest' hg
    cases hc : LatchImpl.counted l (G.latchCall o')
    · refine ⟨?_, fun hd => ?_, fun t'' rest'' hg' => ?_⟩
      · exact h.owed_latch ht hf (owed_of_mem (getElem?_abs_of_owed hc hg) (List.mem_cons_self ..))
      · rw [latch_counting, LatchImpl.counted_running hd] at *
        cases hc
      · exact unique_of_mem hinv (getElem?_abs_of_owed hc hg') (List.mem_cons_self ..)
          (getElem?_abs_of_owed hc hg) (List.mem_cons_self ..)
    · obtain ⟨hold, hret⟩ := h.called_before ht hf hc hg
      obtain ⟨hmem, -, huniq⟩ := h.calls _ _ _ hold
      exact ⟨hmem, hret, fun t'' rest'' hg' => huniq t'' rest'' (h.called_before ht hf hc hg').1⟩
  · intro o' ho' p hp hnew hreturned
    by_cases heq : o' = o
    · subst heq
      refine ⟨t, rest, ?_⟩
      have hd : l.threads[G.latchCall o']? ≠ some (.running .countedDown) := fun hd =>
        hreturned (Monitor.Thread.running.inj (Option.some.inj (hp.symm.trans hd)))
      simp [counting, hd, ht]
    · obtain ⟨t', rest', ht'⟩ := h.called o' ho' p
        ((LatchImpl.running_other hf fun he => heq (Node.latchCall_inj ho' he)).mp hp) hnew
        hreturned
      refine ⟨t', rest', ?_⟩
      rw [counting_other, ht']
      rintro rfl
      obtain ⟨he, -⟩ := List.cons.inj (Option.some.inj (ht.symm.trans ht'))
      cases he
      exact heq rfl
  · refine h.waits.imp (fun hw => (LatchImpl.running_other hf ?_).mpr hw) fun h0 => ?_
    · exact (Node.latchCall_lt (h.calls _ _ _ ht).1).ne'
    · rw [counting_other, h0]
      rintro rfl
      cases ht.symm.trans h0

end Latch

/-! ### Steps of `wait` -/

section Wait

variable {e : Monitor.Event LatchImpl.Point} {l : Monitor.State LatchImpl.Point ℤ}

/-- The graph machine does not see a step of `wait`. -/
theorem abs_wait (h : s.Valid G)
    (hf : Monitor.Fires LatchImpl.body s.latch (G.cleanupCount + 1) e l) :
    abs G ⟨s.graph, l⟩ = s.abs G := by
  have hdata : l.data = s.latch.data := by
    cases hf with
    | wake | relock => rfl
    | @exec p i ht hi hm =>
        have hp : ¬ p.OfCountDown := ((h.latch.kept _ _ ht).2 le_rfl).1
        cases p with
        | countDown | decrement | notifyAll | unlock | countedDown => exact absurd True.intro hp
        | wait | done | park | waitUnlock =>
            cases hi
            rfl
        | waited => cases hi
  have hthreads : s.graph.threads.map (settle G l) = s.graph.threads.map (settle G s.latch) := by
    apply List.map_congr_left
    intro st hst
    obtain ⟨t', ht'⟩ := List.mem_iff_getElem?.mp hst
    apply settle_congr
    rintro o rest rfl
    exact LatchImpl.counted_other hf (Node.latchCall_lt (h.calls _ _ _ ht').1).ne
  simp only [abs, hdata, hthreads]

theorem wait_step (h : s.Valid G) (h0 : s.graph.threads[0]? = some [])
    (hf : Monitor.Fires LatchImpl.body s.latch (G.cleanupCount + 1) e l) :
    Valid G ⟨s.graph, l⟩ := by
  have habs := h.abs_wait hf
  have hne : ∀ o ∈ G.latchCalls, G.latchCall o ≠ G.cleanupCount + 1 := fun o ho =>
    (Node.latchCall_lt ho).ne
  refine ⟨habs ▸ h.graph, h.latch.step (Monitor.step_iff.mpr hf), habs ▸ h.owed, ?_, ?_, ?_,
    .inr h0, h.length⟩
  · intro o ho
    rw [habs, ← h.counted o ho, LatchImpl.counted_other hf (hne o ho)]
  · intro t' o rest ht'
    obtain ⟨hmem, hret, huniq⟩ := h.calls t' o rest ht'
    exact ⟨hmem, fun hd => hret ((LatchImpl.running_other hf (hne o hmem)).mp hd), huniq⟩
  · intro o ho p hp
    exact h.called o ho p ((LatchImpl.running_other hf (hne o ho)).mp hp)

end Wait

/-! ### Runs -/

theorem step (h : s.Valid G) (hs : Step G s (t, e) s') : s'.Valid G := by
  cases step_iff.mp hs with
  | graph ht hne hg => exact h.graph_step ht hne hg
  | latch ht hf => exact h.latch_step ht hf
  | wait h0 ht hf => exact h.wait_step (h0 ▸ ht) hf

theorem reached (hm : m.Unengaged) {τ : List (ℕ × ExecEvent α)}
    (hr : Run (Step G) (Execution.start G m x) τ s) : s.Valid G :=
  hr.invariant (I := fun _ s => s.Valid G) (Valid.start hm) fun _ _ _ _ _ h hs => h.step hs

end Valid

end Execution

end Orizzonte
