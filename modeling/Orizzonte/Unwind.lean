/-
Orizzonte/Unwind.lean

An exception on the thread that called `sync_execute`.  Nothing in the library
catches it.  Where the scheduler does not either and a handler encloses the call,
the whole stack of that thread is unwound, and the destructor of
`scoped_int_latch`, which the unwinding runs, waits for the counter.

A state after the exception is a state of the machine without the stack of the
calling thread (`State.unwind`), and its steps are those of the other threads
(`step_unwind_iff`).  So the state that still has the stack is reached by a run in
which the calling thread never moves again, and what the stack owes stays owed:
the counter does not reach zero (`throw_blocks`).
-/
import Orizzonte.Safety

namespace Orizzonte

open Lts

universe u v

variable {α : Type u}

/-- Code of the user runs: the callable of a leaf, `then`, or the scheduler, which may also
fail before it takes the task. -/
def Frame.Throws : Frame α → Prop
  | leafRun _ _ _ _ _ _ | submit _ _ _ _ _ | inScheduler _ _ _ _ _ | thenRun => True
  | _ => False

/-- The innermost node in whose child or scheduling loop that code runs. -/
def Frame.inside? : Frame α → Option ℕ
  | leafRun _ _ _ _ _ K => K.endsAt.map Prod.fst
  | submit _ a _ _ _ | inScheduler _ a _ _ _ => some a
  | _ => none

/-- The stack of the calling thread is unwound, up to the destructor of the latch. -/
def State.unwind (s : State α) : State α := { s with threads := s.threads.set 0 [] }

section Unwind

variable {G : Node α} {s s' : State α} {m : Mem α} {x : Value α} {τ σ : List (ℕ × Event α)}
  {t : ℕ} {e : Event α}

/-! ### The other threads go on -/

theorem State.unwind_threads_of_ne (ht : t ≠ 0) : s.unwind.threads[t]? = s.threads[t]? :=
  List.getElem?_set_ne (Ne.symm ht)

theorem State.unwind_main (h : 0 < s.threads.length) : s.unwind.threads[0]? = some [] :=
  List.getElem?_set_self h

theorem State.unwind_after {fr : Frame α} {rest : List (Frame α)} {o : Outcome α}
    (ht : s.threads[t]? = some (fr :: rest)) (hne : t ≠ 0) :
    (s.after t rest o).unwind = s.unwind.after t rest o := by
  have hlt : 0 < s.threads.length := by
    have := (List.getElem?_eq_some_iff.mp ht).1
    omega
  have hthreads : (s.threads.set t (o.frames ++ rest) ++ o.spawned.map fun fr => [fr]).set 0 [] =
      (s.threads.set 0 []).set t (o.frames ++ rest) ++ o.spawned.map fun fr => [fr] := by
    rw [List.set_append_left _ _ (by simpa using hlt), List.set_comm _ _ hne]
  simp only [unwind, after, hthreads]

/-- The steps of an unwound state are those of the other threads. -/
theorem step_unwind_iff (h : 0 < s.threads.length) :
    Step s.unwind (t, e) s' ↔ t ≠ 0 ∧ ∃ u, Step s (t, e) u ∧ s' = u.unwind := by
  constructor
  · intro hs
    obtain ⟨c, fr, rest, o, ht, hf, he, rfl⟩ := step_iff.mp hs
    have hne : t ≠ 0 := by
      rintro rfl
      rw [State.unwind_main h] at ht
      cases ht
    rw [State.unwind_threads_of_ne hne] at ht
    exact ⟨hne, _, step_iff.mpr ⟨c, fr, rest, o, ht, hf, he, rfl⟩, (State.unwind_after ht hne).symm⟩
  · rintro ⟨hne, u, hs, rfl⟩
    obtain ⟨c, fr, rest, o, ht, hf, he, rfl⟩ := step_iff.mp hs
    rw [State.unwind_after ht hne]
    rw [← State.unwind_threads_of_ne hne] at ht
    exact step_iff.mpr ⟨c, fr, rest, o, ht, hf, he, rfl⟩

/-- A step of another thread leaves the stack of the calling thread alone. -/
theorem Step.main_eq (hs : Step s (t, e) s') (hne : t ≠ 0) (h : 0 < s.threads.length) :
    s'.threads[0]? = s.threads[0]? := by
  obtain ⟨c, fr, rest, o, ht, hf, he, rfl⟩ := step_iff.mp hs
  simp only [State.after]
  rw [List.getElem?_append_left (by simpa using h), List.getElem?_set_ne hne]

/-- While the stack of the calling thread waits, the others can do what they can do without
it. -/
theorem run_unwind {st : List (Frame α)} (h : s.threads[0]? = some st)
    (hr : Run (Only (fun l : ℕ × Event α => l.1 ≠ 0) Step) s σ s') :
    Run Step s.unwind σ s'.unwind ∧ s'.threads[0]? = some st := by
  induction hr with
  | refl => exact ⟨.refl, h⟩
  | @tail σ v l v' _ hl ih =>
      obtain ⟨hrun, hst⟩ := ih
      have hlt : 0 < v.threads.length := (List.getElem?_eq_some_iff.mp hst).1
      have hs : Step v (l.1, l.2) v' := hl.1
      refine ⟨hrun.tail ?_, (hs.main_eq hl.2 hlt).trans hst⟩
      exact (step_unwind_iff hlt).mpr ⟨hl.2, v', hs, rfl⟩

/-- What happens after the exception could happen while the stack waits. -/
theorem exists_waiting_run {st : List (Frame α)} (h : s.threads[0]? = some st)
    (hr : Run Step s.unwind σ s') :
    ∃ u, Run (Only (fun l : ℕ × Event α => l.1 ≠ 0) Step) s σ u ∧
      u.threads[0]? = some st ∧ s' = u.unwind := by
  induction hr with
  | refl => exact ⟨s, .refl, h, rfl⟩
  | @tail σ v l v' _ hl ih =>
      obtain ⟨u, hu, hst, rfl⟩ := ih
      have hlt : 0 < u.threads.length := (List.getElem?_eq_some_iff.mp hst).1
      obtain ⟨hne, u', hs, rfl⟩ := (step_unwind_iff hlt).mp (show Step _ (l.1, l.2) _ from hl)
      exact ⟨u', hu.tail ⟨hs, hne⟩, (hs.main_eq hne hlt).trans hst, rfl⟩

/-! ### What the stack owes stays owed -/

theorem Frame.Throws.obs_ne_zero {fr : Frame α} (h : fr.Throws) : fr.obs ≠ 0 := by
  intro hzero
  obtain ⟨a, y, rfl⟩ := Frame.obs_eq_zero_iff.mp hzero
  exact h

/-- The node in whose child or loop the user's code runs is in use. -/
theorem Inv.engaged_inside {φ : Flow.{u, v} α} (h : Inv φ G s) {st : List (Frame α)}
    (hst : st ∈ s.threads) {fr : Frame α} (hfr : fr ∈ st) {p : ℕ} (hp : fr.inside? = some p) :
    (s.mem p).state.engaged = true := by
  have hok := h.frames st hst fr hfr
  have hle : fr.obs ≤ s.obs (φ.sites G) := State.frame_obs_le hst hfr
  cases fr with
  | leafRun a r f input arg K =>
      obtain ⟨⟨q, i⟩, he, rfl⟩ := Option.map_eq_some_iff.mp hp
      obtain ⟨t, d, hd, hE, -⟩ := hok
      obtain ⟨k, n, fs, K', d', j, rfl, hx⟩ := exists_fork_of_endsAt hd he
      refine h.engaged_of_fetchSub hx (hE q j he) j (Multiset.mem_of_le hle ?_)
      have hgoal := K.goal_mem_obs
      rw [show K.endsAt = some (q, (j : ℕ)) from he] at hgoal
      exact Multiset.mem_add.mpr (.inr hgoal)
  | submit k a fs i K =>
      obtain rfl := Option.some.inj hp
      obtain ⟨d, hd, hc⟩ := hok
      refine h.engaged_of_fetchSub hd hc i.castSucc (Multiset.mem_of_le hle ?_)
      refine Multiset.mem_sum.mpr ⟨i.castSucc, Finset.mem_Ici.mpr le_rfl, ?_⟩
      exact Join.mem_branchObs.mpr (.inr (.inr (.inr (.inl rfl))))
  | inScheduler k a fs i K =>
      obtain rfl := Option.some.inj hp
      obtain ⟨d, hd, hc⟩ := hok
      -- the next child has not been started
      refine h.engaged_of_fetchSub hd hc i.succ (Multiset.mem_of_le hle ?_)
      refine Multiset.mem_add.mpr (.inr (Multiset.mem_sum.mpr ⟨i.succ, ?_, ?_⟩))
      · exact Finset.mem_Ici.mpr le_rfl
      · exact Join.mem_branchObs.mpr (.inr (.inr (.inr (.inl rfl))))
  | _ => cases hp

/-- **An exception on the calling thread blocks `sync_execute` for good.**  Wherever the
user's code throws, the counter is positive in every state after it, so that the destructor
of the latch does not return.  The tasks that were submitted are not disturbed: no assertion
fails, they come to an end after a bounded number of steps, and then none of them has a
frame left.  The innermost node in whose child or scheduling loop the exception was thrown
stays engaged. -/
theorem throw_blocks (hm : m.Unengaged) (hr : Run Step (State.start G m x) τ s)
    {fr : Frame α} {rest : List (Frame α)} (ht : s.threads[0]? = some (fr :: rest))
    (hfr : fr.Throws) (hs : Run Step s.unwind σ s') :
    1 ≤ s'.latch ∧ (∀ t c e, s'.step t c ≠ some (.error e)) ∧
    τ.length + σ.length ≤ G.work + 3 ∧ (∃ ρ s'', Run Step s' ρ s'' ∧ Stuck Step s'') ∧
    (Stuck Step s' → ∀ st ∈ s'.threads, st = []) ∧
    (∀ p, fr.inside? = some p → (s'.mem p).state.engaged = true) := by
  obtain ⟨u, hu, hmain, rfl⟩ := exists_waiting_run ht hs
  have hrun : Run Step (State.start G m x) (τ ++ σ) u := hr.trans (Run.only_iff.mp hu).1
  have h : Inv Flow.trivial G u := Inv.reached hm hrun
  have hlt : 0 < u.threads.length := (List.getElem?_eq_some_iff.mp hmain).1
  have hmem : fr :: rest ∈ u.threads := List.mem_of_getElem? hmain
  have hlive : ∀ {t fr' rest'}, u.unwind.threads[t]? = some (fr' :: rest') →
      t ≠ 0 ∧ u.threads[t]? = some (fr' :: rest') := by
    intro t fr' rest' ht'
    have hne : t ≠ 0 := by
      rintro rfl
      rw [State.unwind_main hlt] at ht'
      cases ht'
    exact ⟨hne, by rwa [State.unwind_threads_of_ne hne] at ht'⟩
  refine ⟨?_, fun t c e he => ?_, ?_, ?_, fun hstuck st hst => ?_, fun p hp => ?_⟩
  · -- the stack that was unwound still owes something
    have hne : u.latch ≠ 0 := by
      intro hl
      have hle : fr.obs ≤ u.owed G := State.frame_obs_le hmem (List.mem_cons_self ..)
      rw [owed_eq_zero_of_latch hm hrun hl] at hle
      exact hfr.obs_ne_zero (le_antisymm hle zero_le)
    show 1 ≤ u.latch
    have hcard := latch_eq hm hrun
    omega
  · rcases hstk : u.unwind.threads[t]? with - | ⟨- | ⟨fr', rest'⟩⟩
    · simp [State.step, hstk] at he
    · simp [State.step, hstk] at he
    · obtain ⟨o, ho⟩ := h.exists_fires (hlive hstk).2 c
      have hstep : fr'.step u.unwind.mem c = .ok o := ho.step
      simp [State.step, hstk, hstep, Except.map] at he
  · have hlen := length_add_remaining hm hrun
    rw [List.length_append] at hlen
    omega
  · have hex : ∃ ρ v, Run (Only (fun l : ℕ × Event α => l.1 ≠ 0) Step) u ρ v ∧
        Stuck (Only (fun l : ℕ × Event α => l.1 ≠ 0) Step) v := by
      refine exists_run_to_stuck (I := Inv Flow.trivial G) (μ := State.remaining G)
        (fun u l u' hu hl => (hu.step (t := l.1) hl.1 trivial).1) (fun u l u' hu hl => ?_) h
      have := hu.remaining_step (t := l.1) hl.1
      omega
    obtain ⟨ρ, v, hv, hstuck⟩ := hex
    obtain ⟨hrun', hmain'⟩ := run_unwind hmain hv
    refine ⟨ρ, v.unwind, hrun', ?_⟩
    rintro ⟨t, e⟩ w hw
    obtain ⟨hne, v', hv', -⟩ :=
      (step_unwind_iff (List.getElem?_eq_some_iff.mp hmain').1).mp hw
    exact hstuck (t, e) v' ⟨hv', hne⟩
  · obtain ⟨t, ht'⟩ := List.mem_iff_getElem?.mp hst
    cases st with
    | nil => rfl
    | cons fr' rest' =>
        obtain ⟨hne, hold⟩ := hlive ht'
        obtain ⟨o, ho⟩ := h.exists_fires hold default
        have hstep : Step u (t, o.event) (u.after t rest' o) :=
          step_iff.mpr ⟨default, fr', rest', o, hold, ho, rfl, rfl⟩
        exact absurd ((step_unwind_iff hlt).mpr ⟨hne, _, hstep, rfl⟩) (hstuck (t, o.event) _)
  · exact h.engaged_inside hmem (List.mem_cons_self ..) hp

/-- The race, up to the point where the calling thread is inside the second leaf. -/
def throwPoint : List (ℕ × Event ℕ) × State ℕ :=
  ((State.syncExecute race Mem.fresh).drive (List.replicate 5 (0, default))).getD default

/-- The second leaf has thrown, and the worker runs the first one to its end. -/
def afterThrow : List (ℕ × Event ℕ) × State ℕ :=
  (throwPoint.2.unwind.drive (List.replicate 9 (1, default))).getD default

theorem run_throwPoint : Run Step (State.start race Mem.fresh .nothing) throwPoint.1 throwPoint.2 :=
  @run_of_drive _ _ _ _ (List.replicate 5 (0, default)) rfl

theorem run_afterThrow : Run Step throwPoint.2.unwind afterThrow.1 afterThrow.2 :=
  @run_of_drive _ _ _ _ (List.replicate 9 (1, default)) rfl

theorem stuck_afterThrow : Stuck Step afterThrow.2 :=
  stuck_of_replicate (show afterThrow.2.threads = List.replicate 2 [] from rfl)

/-- Where the second leaf of the race throws, no step is left after the worker is done, but
the counter is not zero and the storage of the node is engaged. -/
theorem race_throw_blocks :
    ∃ τ s fr rest σ s', Run Step (State.start race Mem.fresh .nothing) τ s ∧
      s.threads[0]? = some (fr :: rest) ∧ fr.Throws ∧ Run Step s.unwind σ s' ∧ Stuck Step s' ∧
      s'.latch ≠ 0 ∧ ¬ s'.mem.Unengaged := by
  refine ⟨_, _, _, _, _, _, run_throwPoint, rfl, True.intro, run_afterThrow, stuck_afterThrow,
    ?_, fun h => ?_⟩
  · exact (show afterThrow.2.latch = 1 from rfl) ▸ one_ne_zero
  · exact absurd (h 0) (show ¬ true = false from Bool.noConfusion)

theorem throw_blocks_race :
    1 ≤ afterThrow.2.latch ∧ (∀ t c e, afterThrow.2.step t c ≠ some (.error e)) ∧
    throwPoint.1.length + afterThrow.1.length ≤ race.work + 3 ∧
    (∃ ρ s'', Run Step afterThrow.2 ρ s'' ∧ Stuck Step s'') ∧
    (∀ st ∈ afterThrow.2.threads, st = []) ∧ (afterThrow.2.mem 0).state.engaged = true := by
  obtain ⟨hlatch, hsafe, hlen, hex, hstuck, heng⟩ :=
    throw_blocks Mem.fresh_unengaged run_throwPoint rfl True.intro run_afterThrow
  exact ⟨hlatch, hsafe, hlen, hex, hstuck stuck_afterThrow, heng 0 rfl⟩

end Unwind

end Orizzonte
