/-
Orizzonte/BoolLatch.lean

`latch_impl` of utility/bool_latch.hpp at the level of its mutex and its condition
variable, as a program of `Monitor`.

Each call of `count_down` and of `wait` is a thread of its own, in any number and any
interleaving.  The counter is what the calls of `count_down` have still to take away
(`Inv.data`), and it is taken away and announced under one lock of the mutex.  So a
`wait` that finds zero finds every `count_down` either through or in possession of the
mutex, which the `wait` itself has: they are all through (`Inv.countedDown_of_zero`).

To its users the latch is a counter with atomic operations (`counts`), the one that
`State` has for the latch of `sync_execute` (`latch_counts`).  The latch on a `bool` is
the latch of one (`bool_latch_iff`).
-/
import Orizzonte.Latch
import Orizzonte.Monitor
import Mathlib.Algebra.Order.BigOperators.Group.List
import Mathlib.Algebra.Order.Group.Int

namespace Orizzonte

open Lts

/-- `detail::decrement` and `detail::done`, each overloaded for `bool`. -/
class Counter (T : Type*) where
  decrement : T → T
  done : T → Bool

/-- An `int`; the counter of a latch never leaves the range of its type (`data_bounds`). -/
instance : Counter ℤ where
  decrement x := x - 1
  done x := x == 0

instance : Counter Bool where
  decrement _ := true
  done x := x == true

namespace LatchImpl

/-- Where a call of `count_down` or of `wait` stands. -/
inductive Point
  | countDown
  | decrement
  | notifyAll
  | unlock
  | countedDown
  | wait
  | done
  | park
  | waitUnlock
  | waited
  deriving DecidableEq

variable {T : Type*} [Counter T]

/-- `count_down` up to `countedDown`, then `wait`.  The destructor of `scoped_latch_impl` is
`wait` again. -/
def body : Monitor.Program Point T := fun p ctr =>
  match p with
  | .countDown => some (.lock .decrement)
  | .decrement => some (.access (Counter.decrement ctr) .notifyAll)
  | .notifyAll => some (.notifyAll .unlock)
  | .unlock => some (.unlock .countedDown)
  | .countedDown => none
  | .wait => some (.lock .done)
  -- `_cv.wait(lk, pred)` is `while(!pred()) _cv.wait(lk)`
  | .done => some (.access ctr (if Counter.done ctr then .waitUnlock else .park))
  | .park => some (.wait .done)
  | .waitUnlock => some (.unlock .waited)
  | .waited => none

/-- `n` calls of `count_down` and `k` calls of `wait`, none of which has begun. -/
def start (ctr : T) (n k : ℕ) : Monitor.State Point T where
  data := ctr
  mtx := none
  threads := .replicate n (.running .countDown) ++ .replicate k (.running .wait)

/-! ### What the program keeps -/

/-- Between these points the call has the mutex. -/
def Point.Holds : Point → Prop
  | countDown | countedDown | wait | waited => False
  | decrement | notifyAll | unlock | done | park | waitUnlock => True

/-- The points of `count_down`. -/
def Point.OfCountDown : Point → Prop
  | countDown | decrement | notifyAll | unlock | countedDown => True
  | wait | done | park | waitUnlock | waited => False

theorem disciplined : Monitor.Disciplined (body (T := T)) Point.Holds where
  lock {p d q} h := by
    cases p <;> cases h
    all_goals exact ⟨id, True.intro⟩
  unlock {p d q} h := by
    cases p <;> cases h
    all_goals exact ⟨True.intro, id⟩
  access {p d d' q} h := by
    cases p <;> cases h
    · exact ⟨True.intro, True.intro⟩
    · refine ⟨True.intro, ?_⟩
      split_ifs <;> exact True.intro
  wait {p d q} h := by
    cases p <;> cases h
    exact ⟨True.intro, True.intro⟩
  notifyAll {p d q} h := by
    cases p <;> cases h
    exact ⟨True.intro, True.intro⟩

/-- What `wait` has found the counter to be. -/
def Found (p : Point) (ctr : ℤ) : Prop :=
  match p with
  | .park => ctr ≠ 0
  | .waitUnlock => ctr = 0
  | _ => True

theorem found_of_done (ctr : ℤ) :
    Found (if Counter.done ctr then .waitUnlock else .park) ctr := by
  split_ifs with h
  · exact eq_of_beq h
  · exact fun h0 => h (beq_iff_eq.mpr h0)

theorem asserted : Monitor.Asserted body Point.Holds Found where
  free {p} hp d := by
    cases p <;> first | exact True.intro | exact absurd True.intro hp
  locked {p d q} h d' := by
    cases p <;> cases h
    all_goals exact True.intro
  resumed {p d q} h d' := by
    cases p <;> cases h
    exact True.intro
  access {p d d' q} _ h := by
    cases p <;> cases h
    · exact True.intro
    · exact found_of_done d
  notifyAll {p d q} _ h := by
    cases p <;> cases h
    exact True.intro

/-- What a call has still to take from the counter. -/
def Point.pending : Point → ℤ
  | countDown | decrement => 1
  | _ => 0

theorem Point.pending_nonneg (p : Point) : 0 ≤ p.pending := by
  cases p <;> decide

theorem balanced : Monitor.Balanced body Point.pending (id : ℤ → ℤ) where
  access {p d d' q} h := by
    cases p <;> cases h
    · show d - 1 + 1 = d + 0
      rw [sub_add_cancel, add_zero]
    · split_ifs <;> rfl
  lock {p d q} h := by
    cases p <;> cases h
    all_goals rfl
  unlock {p d q} h := by
    cases p <;> cases h
    all_goals rfl
  wait {p d q} h := by
    cases p <;> cases h
    rfl
  notifyAll {p d q} h := by
    cases p <;> cases h
    rfl

theorem signals : Monitor.Signals body Found (· = 0) (· = .notifyAll) where
  wait {p d q} hp h := by
    cases p <;> cases h
    exact hp
  access {p d d' q} h hd' := by
    cases p <;> cases h
    · exact .inr rfl
    · exact .inl hd'
  pending {p d i} hp h := by
    subst hp
    cases h
    exact .inl ⟨_, rfl⟩

/-! ### The invariant -/

/-- Threads below `n` are calls of `count_down`, which never wait; the others are calls of
`wait`, which park in one place. -/
def Kept (n t : ℕ) (th : Monitor.Thread Point) : Prop :=
  (t < n → ∃ p, th = .running p ∧ p.OfCountDown) ∧
    (n ≤ t → ¬ th.point.OfCountDown ∧ th.Resumes (· = .done))

theorem Kept.moves {n t : ℕ} {d : ℤ} {th th' : Monitor.Thread Point} (h : Kept n t th)
    (hmove : Monitor.Moves body d th th') : Kept n t th' := by
  constructor
  · intro ht
    obtain ⟨p, rfl, hp⟩ := h.1 ht
    cases hmove with
    | exec hi =>
        cases p <;> cases hi <;> first | exact hp.elim | exact ⟨_, rfl, True.intro⟩
  · intro ht
    obtain ⟨hp, hres⟩ := h.2 ht
    cases hmove with
    | @exec p i hi =>
        cases p <;> cases hi <;> first | exact absurd True.intro hp | skip
        · exact ⟨id, True.intro⟩
        · refine ⟨?_, True.intro⟩
          change ¬ Point.OfCountDown (if _ then _ else _)
          split_ifs <;> exact id
        · exact ⟨id, rfl⟩
        · exact ⟨id, True.intro⟩
    | wake p => exact ⟨hp, hres⟩
    | relock p => exact ⟨hp, True.intro⟩

/-- What holds of the latch in every state. -/
structure Inv (n k : ℕ) (s : Monitor.State Point ℤ) : Prop where
  exclusive : Monitor.Exclusive Point.Holds s
  found : Monitor.Annotated Found s
  signalled : Monitor.Signalled (· = 0) (· = .notifyAll) s
  data : s.data = s.expected Point.pending
  kept : ∀ (t : ℕ) th, s.threads[t]? = some th → Kept n t th
  length : s.threads.length = n + k
  returned : ∀ t' : ℕ, s.threads[t']? = some (.running .waited) →
    ∀ t < n, s.threads[t]? = some (.running .countedDown)

variable {n k t : ℕ} {s s' : Monitor.State Point ℤ} {e : Monitor.Event Point}
  {τ σ : List (ℕ × Monitor.Event Point)}

theorem start_threads {t : ℕ} {th : Monitor.Thread Point}
    (h : (start (n : ℤ) n k).threads[t]? = some th) :
    (t < n ∧ th = .running .countDown) ∨ (n ≤ t ∧ th = .running .wait) := by
  change (List.replicate n _ ++ List.replicate k _)[t]? = some th at h
  rcases lt_or_ge t n with ht | ht
  · rw [List.getElem?_append_left (by simpa using ht), List.getElem?_replicate, if_pos ht] at h
    exact .inl ⟨ht, (Option.some.inj h).symm⟩
  · rw [List.getElem?_append_right (by simpa using ht), List.getElem?_replicate] at h
    split_ifs at h
    exact .inr ⟨ht, (Option.some.inj h).symm⟩

theorem Inv.start (n k : ℕ) : Inv n k (start (n : ℤ) n k) := by
  refine ⟨⟨?_, ?_, ?_⟩, ?_, ?_, ?_, ?_, ?_, ?_⟩
  · intro t th ht
    rcases start_threads ht with ⟨-, rfl⟩ | ⟨-, rfl⟩
    all_goals exact iff_of_false id (by simp [LatchImpl.start])
  · intro t th ht
    rcases start_threads ht with ⟨-, rfl⟩ | ⟨-, rfl⟩
    all_goals exact True.intro
  · exact fun t hm => by simp [LatchImpl.start] at hm
  · intro t th ht
    rcases start_threads ht with ⟨-, rfl⟩ | ⟨-, rfl⟩
    all_goals exact True.intro
  · rintro - ⟨t, p, ht⟩
    rcases start_threads ht with ⟨-, hp⟩ | ⟨-, hp⟩
    all_goals cases hp
  · simp [LatchImpl.start, Monitor.State.expected, Monitor.State.total, Monitor.Thread.point,
      Point.pending]
  · intro t th ht
    rcases start_threads ht with ⟨hlt, rfl⟩ | ⟨hge, rfl⟩
    · exact ⟨fun _ => ⟨_, rfl, True.intro⟩, fun hge => absurd hlt (not_lt.mpr hge)⟩
    · exact ⟨fun hlt => absurd hlt (not_lt.mpr hge), fun _ => ⟨id, True.intro⟩⟩
  · simp [LatchImpl.start]
  · intro t' ht'
    rcases start_threads ht' with ⟨-, hp⟩ | ⟨-, hp⟩
    all_goals cases hp

theorem Inv.exists_countDown (h : Inv n k s) (ht : t < n) :
    ∃ p, s.threads[t]? = some (.running p) ∧ p.OfCountDown := by
  have hlen : t < s.threads.length := h.length ▸ Nat.lt_add_right k ht
  have hth : s.threads[t]? = some s.threads[t] := List.getElem?_eq_getElem hlen
  obtain ⟨p, hp, hof⟩ := (h.kept t _ hth).1 ht
  exact ⟨p, hth.trans (congrArg some hp), hof⟩

theorem Inv.pending_le (h : Inv n k s) {p : Point} (ht : s.threads[t]? = some (.running p)) :
    p.pending ≤ s.data := by
  rw [h.data]
  refine List.single_le_sum ?_ _ (List.mem_map.mpr ⟨_, List.mem_of_getElem? ht, rfl⟩)
  intro x hx
  obtain ⟨th, -, rfl⟩ := List.mem_map.mp hx
  exact th.point.pending_nonneg

/-- Where the counter is zero and no `count_down` has the mutex, all of them have returned. -/
theorem Inv.countedDown_of_zero (h : Inv n k s) (hd : s.data = 0)
    (hm : ∀ t < n, s.mtx ≠ some t) (ht : t < n) :
    s.threads[t]? = some (.running .countedDown) := by
  obtain ⟨p, hth, hof⟩ := h.exists_countDown ht
  have hpend : p.pending ≤ 0 := hd ▸ h.pending_le hth
  have hfree : ¬ p.Holds := fun hp => hm t ht ((h.exclusive.owner t _ hth).mp hp)
  cases p with
  | countedDown => exact hth
  | countDown => simp [Point.pending] at hpend
  | decrement | notifyAll | unlock => exact absurd True.intro hfree
  | wait | done | park | waitUnlock | waited => exact hof.elim

theorem Inv.zero_of_countedDown (h : Inv n k s)
    (hall : ∀ t < n, s.threads[t]? = some (.running .countedDown)) : s.data = 0 := by
  rw [h.data]
  apply List.sum_eq_zero
  intro x hx
  obtain ⟨th, hth, rfl⟩ := List.mem_map.mp hx
  obtain ⟨t, ht⟩ := List.mem_iff_getElem?.mp hth
  rcases lt_or_ge t n with hlt | hge
  · rw [hall t hlt] at ht
    obtain rfl := Option.some.inj ht
    rfl
  · have hp := ((h.kept t th ht).2 hge).1
    cases hpt : th.point <;> rw [hpt] at hp <;> first | rfl | exact absurd True.intro hp

/-- A `wait` returns from where it has the mutex and has found zero. -/
theorem moves_waited {d : ℤ} {th : Monitor.Thread Point}
    (h : Monitor.Moves body d th (.running .waited)) :
    th = .running .waitUnlock ∨ th = .woken .waited := by
  generalize hq : Monitor.Thread.running Point.waited = th' at h
  cases h with
  | @exec p i hp =>
      cases p with
      | waitUnlock => exact .inl rfl
      | done =>
          cases hp
          change _ = Monitor.Thread.running (if _ then _ else _) at hq
          split_ifs at hq <;> cases hq
      | _ => cases hp <;> cases hq
  | wake => cases hq
  | relock p =>
      cases hq
      exact .inr rfl

theorem Inv.countedDown_of_moves (h : Inv n k s) (hf : Monitor.Fires body s t e s')
    (ht : s'.threads[t]? = some (.running .waited)) :
    ∀ t' < n, s.threads[t']? = some (.running .countedDown) := by
  obtain ⟨th, th', hth, hth', hmove⟩ := hf.self
  obtain rfl := Option.some.inj (ht.symm.trans hth')
  rcases moves_waited hmove with rfl | rfl
  · have hown := (h.exclusive.owner t _ hth).mp True.intro
    have hzero : s.data = 0 := h.found t _ hth
    refine fun t' ht' => h.countedDown_of_zero hzero (fun u hu hm => ?_) ht'
    -- the mutex is with this `wait`, hence with no `count_down`
    obtain rfl := Option.some.inj (hown.symm.trans hm)
    obtain ⟨p, hp, hof⟩ := (h.kept t _ hth).1 hu
    cases hp
    exact hof
  · exact (h.exclusive.resumes t _ hth).elim

theorem Inv.step (h : Inv n k s) (hs : Monitor.Step body s (t, e) s') : Inv n k s' := by
  have hf := Monitor.step_iff.mp hs
  refine ⟨hf.exclusive disciplined h.exclusive, hf.annotated disciplined asserted h.exclusive
    h.found, hf.signalled signals h.found h.signalled, ?_,
    hf.forall_threads Kept.moves h.kept, hf.length.trans h.length, ?_⟩
  · have hbal : s'.data + s.expected Point.pending = s.data + s'.expected Point.pending :=
      hf.balance balanced
    rw [h.data, add_comm] at hbal
    exact add_left_cancel hbal
  · intro t' ht' u hu
    apply hf.done rfl
    by_cases hne : t' = t
    · subst hne
      exact h.countedDown_of_moves hf ht' u hu
    · obtain ⟨th, hth, rfl | hn⟩ := hf.before hne ht'
      · exact h.returned t' hth u hu
      · cases th <;> cases hn
        exact h.returned t' hth u hu

theorem Inv.reached (hr : Run (Monitor.Step body) (LatchImpl.start (n : ℤ) n k) τ s) :
    Inv n k s :=
  hr.invariant (I := fun _ => Inv n k) (Inv.start n k) fun _ _ _ _ _ h hs => h.step hs

/-! ### All calls of `count_down` have returned -/

theorem Inv.not_parked (h : Inv n k s)
    (hall : ∀ t < n, s.threads[t]? = some (.running .countedDown)) (t : ℕ) (p : Point) :
    s.threads[t]? ≠ some (.parked p) := by
  intro ht
  obtain ⟨u, q, hu, rfl⟩ := h.signalled (h.zero_of_countedDown hall) ⟨t, p, ht⟩
  rcases lt_or_ge u n with hlt | hge
  · rw [hall u hlt] at hu
    cases hu
  · exact ((h.kept u _ hu).2 hge).1 True.intro

/-- The steps that a call of `wait` still needs where the counter is zero. -/
def rank : Monitor.Thread Point → ℕ
  | .running .wait | .parked _ | .woken _ => 3
  | .running .done => 2
  | .running .waitUnlock => 1
  | .running _ => 0

theorem rank_notify (th : Monitor.Thread Point) : rank th.notify = rank th := by
  cases th <;> rfl

theorem rank_le (th : Monitor.Thread Point) : rank th ≤ 3 := by
  rcases th with p | p | p
  · cases p <;> decide
  all_goals exact le_rfl

theorem Inv.rank_step (h : Inv n k s)
    (hall : ∀ t < n, s.threads[t]? = some (.running .countedDown))
    (hs : Monitor.Step body s (t, e) s') : s'.total rank + 1 = s.total rank := by
  obtain ⟨th, th', hth, hmove, hsum⟩ := (Monitor.step_iff.mp hs).total rank_notify
  suffices hrank : rank th = rank th' + 1 by omega
  have hge : n ≤ t := by
    by_contra hlt
    rw [hall t (not_le.mp hlt)] at hth
    cases hth
    cases hmove with
    | exec hi => cases hi
  obtain ⟨hp, hres⟩ := (h.kept t th hth).2 hge
  cases hmove with
  | @exec p i hi =>
      cases p with
      | wait | waitUnlock =>
          cases hi
          rfl
      | done =>
          cases hi
          have hdone : Counter.done s.data = true :=
            beq_iff_eq.mpr (h.zero_of_countedDown hall)
          rw [hdone]
          rfl
      | park => exact absurd (h.zero_of_countedDown hall) (h.found t _ hth)
      | waited => cases hi
      | _ => exact absurd True.intro hp
  | wake p => exact absurd hth (h.not_parked hall t p)
  | relock p =>
      obtain rfl : p = .done := hres
      rfl

theorem countedDown_step (hall : ∀ t < n, s.threads[t]? = some (.running .countedDown))
    (hs : Monitor.Step body s (t, e) s') :
    ∀ t < n, s'.threads[t]? = some (.running .countedDown) :=
  fun u hu => (Monitor.step_iff.mp hs).done rfl (hall u hu)

/-- From here on each call of `wait` makes three steps at most, and no `count_down` makes any. -/
theorem Inv.run_of_countedDown (h : Inv n k s)
    (hall : ∀ t < n, s.threads[t]? = some (.running .countedDown))
    (hr : Run (Monitor.Step body) s σ s') :
    (∀ t < n, s'.threads[t]? = some (.running .countedDown)) ∧ Inv n k s' ∧
      s'.total rank + σ.length = s.total rank ∧ ∀ l ∈ σ, n ≤ l.1 := by
  induction hr with
  | refl => exact ⟨hall, h, rfl, by simp⟩
  | @tail σ u l u' _ hl ih =>
      obtain ⟨hu, hinv, hsum, hσ⟩ := ih
      obtain ⟨t, e⟩ := l
      refine ⟨countedDown_step hu hl, hinv.step hl, ?_, fun l hmem => ?_⟩
      · have hrank := hinv.rank_step hu hl
        rw [List.length_append, List.length_singleton]
        omega
      · rcases List.mem_append.mp hmem with hmem | hmem
        · exact hσ l hmem
        · obtain rfl := List.mem_singleton.mp hmem
          by_contra hlt
          obtain ⟨i, hi, -⟩ :=
            (Monitor.step_iff.mp hl).exec_of_running (hu t (not_le.mp hlt))
          cases hi

/-- A weight that only the calls of `wait` have. -/
theorem Inv.total_le (h : Inv n k s) {w : Monitor.Thread Point → ℕ} {b : ℕ} (hw : ∀ th, w th ≤ b)
    (hzero : ∀ t < n, ∀ th, s.threads[t]? = some th → w th = 0) : s.total w ≤ b * k := by
  have htake : ((s.threads.take n).map w).sum = 0 := by
    apply List.sum_eq_zero
    intro x hx
    obtain ⟨th, hth, rfl⟩ := List.mem_map.mp hx
    obtain ⟨t, ht⟩ := List.mem_iff_getElem?.mp hth
    have hlt : t < n := by
      have hlen := (List.getElem?_eq_some_iff.mp ht).1
      rw [List.length_take] at hlen
      omega
    rw [List.getElem?_take_of_lt hlt] at ht
    exact hzero t hlt th ht
  have hdrop : ((s.threads.drop n).map w).sum ≤ ((s.threads.drop n).map w).length • b :=
    List.sum_le_card_nsmul _ b fun x hx => by
      obtain ⟨th, -, rfl⟩ := List.mem_map.mp hx
      exact hw th
  rw [List.length_map, List.length_drop, h.length] at hdrop
  have hsplit : s.total w = ((s.threads.take n).map w).sum +
      ((s.threads.drop n).map w).sum := by
    rw [← List.sum_append, ← List.map_append, List.take_append_drop]
    rfl
  rw [hsplit, htake, zero_add]
  simpa [mul_comm] using hdrop

theorem Inv.total_rank_le (h : Inv n k s)
    (hall : ∀ t < n, s.threads[t]? = some (.running .countedDown)) : s.total rank ≤ 3 * k := by
  refine h.total_le rank_le fun t ht th hth => ?_
  obtain rfl := Option.some.inj ((hall t ht).symm.trans hth)
  rfl

/-! ### Where nobody can go on -/

theorem Inv.returned_of_stuck (h : Inv n k s)
    (hs : Stuck (Only (fun l => l.2 ≠ .wake) (Monitor.Step body)) s) :
    ∀ th ∈ s.threads, th = .running .countedDown ∨ th = .running .waited := by
  have hlive : ∀ {p : Point} {d : ℤ}, p.Holds → body p d ≠ none := by
    intro p d hp hb
    cases p <;> first | exact hp | cases hb
  have hfree := Monitor.mtx_free disciplined h.exclusive hlive hs
  have hdone : ∀ {t : ℕ} {p}, s.threads[t]? = some (.running p) →
      p = .countedDown ∨ p = .waited := by
    intro t p ht
    rcases Monitor.done_or_parked disciplined h.exclusive hlive hs ht with ⟨q, hq⟩ | ⟨q, hq, hb⟩
    · cases hq
    · cases hq
      cases p <;> first | exact .inl rfl | exact .inr rfl | cases hb
  have hall : ∀ t < n, s.threads[t]? = some (.running .countedDown) := by
    intro t ht
    obtain ⟨p, hth, hof⟩ := h.exists_countDown ht
    rcases hdone hth with rfl | rfl
    · exact hth
    · exact hof.elim
  intro th hth
  obtain ⟨t, ht⟩ := List.mem_iff_getElem?.mp hth
  rcases Monitor.done_or_parked disciplined h.exclusive hlive hs ht with ⟨p, rfl⟩ | ⟨p, rfl, -⟩
  · exact absurd ht (h.not_parked hall t p)
  · rcases hdone ht with rfl | rfl
    · exact .inl rfl
    · exact .inr rfl

/-! ### The latch as a counter -/

/-- What the users of a latch see of it. -/
inductive Call
  | countDown
  | waited
  deriving DecidableEq

/-- What a latch is for: a counter that `count_down` takes one from, and that is zero where
`wait` returns, each in one step. -/
inductive Counts : ℤ → Call → ℤ → Prop
  | countDown (c) : Counts c .countDown (c - 1)
  | waited : Counts 0 .waited 0

def call? : ℕ × Monitor.Event Point → Option Call
  | (_, .exec .decrement) => some .countDown
  | (_, .exec .waitUnlock) => some .waited
  | _ => none

theorem Inv.counts (h : Inv n k s) (hs : Monitor.Step body s (t, e) s') :
    Run Counts s.data (call? (t, e)).toList s'.data := by
  cases Monitor.step_iff.mp hs with
  | @exec p i ht hi hm =>
      cases p with
      | decrement =>
          cases hi
          exact Run.single (.countDown _)
      | waitUnlock =>
          cases hi
          have hzero : s.data = 0 := h.found t _ ht
          apply Run.single
          show Counts s.data .waited s.data
          rw [hzero]
          exact .waited
      | _ => cases hi <;> exact Run.refl
  | wake | relock => exact Run.refl

/-- **`latch_impl` refines the counter.** -/
theorem counts (hr : Run (Monitor.Step body) (LatchImpl.start (n : ℤ) n k) τ s) :
    Run Counts n (τ.filterMap call?) s.data := by
  induction hr with
  | refl => exact Run.refl
  | @tail τ u l u' hr hl ih =>
      obtain ⟨t, e⟩ := l
      have hone : [(t, e)].filterMap call? = (call? (t, e)).toList := by
        cases hc : call? (t, e) <;> simp [hc]
      rw [List.filterMap_append, hone]
      exact ih.trans ((Inv.reached hr).counts hl)

/-- How often the counter was taken down. -/
def decrements (τ : List (ℕ × Monitor.Event Point)) : ℕ :=
  (τ.filter fun l => l.2 = .exec .decrement).length

theorem data_add_decrements (hr : Run (Monitor.Step body) (LatchImpl.start (n : ℤ) n k) τ s) :
    s.data + decrements τ = n := by
  induction hr with
  | refl => simp [decrements, LatchImpl.start]
  | @tail τ u l u' _ hl ih =>
      obtain ⟨t, e⟩ := l
      have hstep : u'.data + decrements [(t, e)] = u.data := by
        cases Monitor.step_iff.mp hl with
        | @exec p i ht hi hm =>
            cases p with
            | decrement =>
                cases hi
                exact sub_add_cancel u.data 1
            | _ => cases hi <;> exact add_zero u.data
        | wake | relock => exact add_zero u.data
      have happ : decrements (τ ++ [(t, e)]) = decrements τ + decrements [(t, e)] := by
        simp only [decrements, List.filter_append, List.length_append]
      rw [happ]
      push_cast
      omega

theorem data_bounds (hr : Run (Monitor.Step body) (LatchImpl.start (n : ℤ) n k) τ s) :
    0 ≤ s.data ∧ s.data ≤ n := by
  constructor
  · rw [(Inv.reached hr).data]
    apply List.sum_nonneg
    intro x hx
    obtain ⟨th, -, rfl⟩ := List.mem_map.mp hx
    exact th.point.pending_nonneg
  · have hsum := data_add_decrements hr
    omega

/-- **The latch lets nobody through early, and leaves nobody behind.**  Of `n` calls of
`count_down` and `k` calls of `wait` on a latch of `n`, in any order of their steps: a `wait`
returns after the `n`-th decrement; where a `wait` is parked although the counter is zero, a
`count_down` is about to notify it; where every `count_down` has returned no `wait` is parked,
and all of them return within `3 * k` steps; it never comes to a standstill before; and where
some `wait` has returned, every `count_down` has, none has the mutex, and none makes a step any
more. -/
theorem wait_after_all_countDowns
    (hr : Run (Monitor.Step body) (LatchImpl.start (n : ℤ) n k) τ s) :
    (.running .waited ∈ s.threads → decrements τ = n) ∧
    (s.data = 0 → (∃ p, .parked p ∈ s.threads) → .running .notifyAll ∈ s.threads) ∧
    ((∀ t < n, s.threads[t]? = some (.running .countedDown)) →
      (∀ p, .parked p ∉ s.threads) ∧
      ∀ σ s', Run (Monitor.Step body) s σ s' → σ.length ≤ 3 * k) ∧
    (Stuck (Only (fun l => l.2 ≠ .wake) (Monitor.Step body)) s →
      ∀ th ∈ s.threads, th = .running .countedDown ∨ th = .running .waited) ∧
    (.running .waited ∈ s.threads → ∀ t < n,
      s.threads[t]? = some (.running .countedDown) ∧ s.mtx ≠ some t ∧
      ∀ σ s', Run (Monitor.Step body) s σ s' → ∀ l ∈ σ, l.1 ≠ t) := by
  have hinv := Inv.reached hr
  have hall : .running .waited ∈ s.threads →
      ∀ t < n, s.threads[t]? = some (.running .countedDown) := by
    intro hw
    obtain ⟨t, ht⟩ := List.mem_iff_getElem?.mp hw
    exact hinv.returned t ht
  refine ⟨fun hw => ?_, fun hzero => ?_, fun hc => ⟨fun p hp => ?_, fun σ s' hσ => ?_⟩,
    hinv.returned_of_stuck, fun hw t ht => ⟨hall hw t ht, fun hm => ?_, fun σ s' hσ l hl => ?_⟩⟩
  · have hzero := hinv.zero_of_countedDown (hall hw)
    have hsum := data_add_decrements hr
    omega
  · rintro ⟨p, hp⟩
    obtain ⟨t, ht⟩ := List.mem_iff_getElem?.mp hp
    obtain ⟨u, q, hu, rfl⟩ := hinv.signalled hzero ⟨t, p, ht⟩
    exact List.mem_of_getElem? hu
  · obtain ⟨t, ht⟩ := List.mem_iff_getElem?.mp hp
    exact hinv.not_parked hc t p ht
  · obtain ⟨-, -, hsum, -⟩ := hinv.run_of_countedDown hc hσ
    have hle := hinv.total_rank_le hc
    omega
  · exact (hinv.exclusive.owner t _ (hall hw t ht)).mpr hm
  · obtain ⟨-, -, -, hge⟩ := hinv.run_of_countedDown (hall hw) hσ
    exact Nat.ne_of_gt (ht.trans_le (hge l hl))

/-- Two calls of `count_down`, and a `wait` that wakes up once by itself and twice by a
notification. -/
def latchSched : List ℕ := [2, 2, 2, 2, 2, 2, 2, 0, 0, 0, 0, 2, 2, 2, 1, 1, 1, 1, 2, 2, 2]

def latchRun : List (ℕ × Monitor.Event Point) × Monitor.State Point ℤ :=
  (Monitor.drive body (LatchImpl.start 2 2 1) latchSched).getD ([], LatchImpl.start 2 2 1)

theorem run_latchRun :
    Run (Monitor.Step body) (LatchImpl.start ((2 : ℕ) : ℤ) 2 1) latchRun.1 latchRun.2 :=
  Monitor.run_of_drive (show Monitor.drive body (LatchImpl.start 2 2 1) latchSched =
    some (latchRun.1, latchRun.2) from rfl)

theorem wait_after_all_countDowns_run :
    decrements latchRun.1 = 2 ∧ ∀ t < 2,
      latchRun.2.threads[t]? = some (.running .countedDown) ∧ latchRun.2.mtx ≠ some t ∧
      ∀ σ s', Run (Monitor.Step body) latchRun.2 σ s' → ∀ l ∈ σ, l.1 ≠ t :=
  have h := wait_after_all_countDowns run_latchRun
  ⟨h.1 (by decide), h.2.2.2.2 (by decide)⟩

/-! ### How long it takes -/

/-- The steps that a thread pays for: its own, and for a call of `count_down` those of the `k`
calls of `wait` that it may wake up. -/
def credit (k : ℕ) : Monitor.Thread Point → ℕ
  | .running .countDown => 3 * k + 4
  | .running .decrement => 3 * k + 3
  | .running .notifyAll => 3 * k + 2
  | .running .wait | .woken _ => 3
  | .running .done => 2
  | .running .unlock | .running .park | .running .waitUnlock => 1
  | .running .countedDown | .running .waited | .parked _ => 0

/-- One for a thread that a notification wakes up. -/
def parked : Monitor.Thread Point → ℕ
  | .parked _ => 1
  | _ => 0

theorem credit_notify (th : Monitor.Thread Point) :
    credit k th.notify = credit k th + 3 * parked th := by
  cases th <;> rfl

theorem sum_credit_notify (l : List (Monitor.Thread Point)) :
    ((l.map Monitor.Thread.notify).map (credit k)).sum =
      (l.map (credit k)).sum + 3 * (l.map parked).sum := by
  induction l with
  | nil => rfl
  | cons th l ih =>
      simp only [List.map_cons, List.sum_cons, ih, credit_notify]
      omega

theorem Inv.total_parked_le (h : Inv n k s) : s.total parked ≤ k := by
  rw [← one_mul k]
  refine h.total_le (fun th => by cases th <;> simp [parked]) fun t ht th hth => ?_
  obtain ⟨p, rfl, -⟩ := (h.kept t th hth).1 ht
  rfl

/-- Each step costs its thread one at least, and a spontaneous wake-up gives it three more. -/
theorem Inv.credit_step (h : Inv n k s) (hs : Monitor.Step body s (t, e) s') :
    s'.total (credit k) + 1 ≤ s.total (credit k) + if e = .wake then 4 else 0 := by
  have hset : ∀ {th} (w : Monitor.Thread Point → ℕ) th', s.threads[t]? = some th →
      ((s.threads.set t th').map w).sum + w th = s.total w + w th' :=
    fun w th' ht => Tally.sum_map_set w ht th'
  have hpay : ∀ {th th'}, s.threads[t]? = some th → credit k th = credit k th' + 1 →
      ((s.threads.set t th').map (credit k)).sum + 1 = s.total (credit k) := by
    intro th th' ht hcost
    have hsum := hset (credit k) th' ht
    omega
  cases Monitor.step_iff.mp hs with
  | @exec p i ht hi hm =>
      rw [if_neg (by simp), add_zero]
      cases p with
      | countedDown | waited => cases hi
      | notifyAll =>
          -- the calls of `wait` that are parked go on at the expense of this thread
          cases hi
          have hself := hset (credit k) (.running .unlock) ht
          have hwoken := hset parked (.running .unlock) ht
          have hle := h.total_parked_le
          have hnew := sum_credit_notify (k := k) (s.threads.set t (.running .unlock))
          simp only [credit, parked] at hself hwoken
          show (((s.threads.set t (.running .unlock)).map Monitor.Thread.notify).map
            (credit k)).sum + 1 ≤ _
          omega
      | done =>
          cases hi
          apply (hpay ht _).le
          show 2 = credit k (.running (if _ then _ else _)) + 1
          split_ifs <;> rfl
      | _ =>
          cases hi
          exact (hpay ht rfl).le
  | @wake p ht =>
      have hself := hset (credit k) (.woken p) ht
      rw [if_pos rfl]
      exact Nat.succ_le_succ hself.le
  | @relock p ht hm =>
      have hge : n ≤ t := by
        by_contra hlt
        obtain ⟨q, hq, -⟩ := (h.kept t _ ht).1 (not_le.mp hlt)
        cases hq
      obtain rfl : p = .done := ((h.kept t _ ht).2 hge).2
      rw [if_neg (by simp), add_zero]
      exact (hpay ht rfl).le

theorem total_credit_start : (LatchImpl.start (n : ℤ) n k).total (credit k) =
    n * (3 * k + 4) + k * 3 := by
  simp [LatchImpl.start, Monitor.State.total, credit]

/-- How often a thread woke up by itself. -/
def wakes (τ : List (ℕ × Monitor.Event Point)) : ℕ := (τ.filter fun l => l.2 = .wake).length

theorem wakes_concat (τ : List (ℕ × Monitor.Event Point)) (t : ℕ) (e : Monitor.Event Point) :
    wakes (τ ++ [(t, e)]) = wakes τ + if e = .wake then 1 else 0 := by
  unfold wakes
  rw [List.filter_append, List.length_append, List.filter_singleton]
  by_cases he : e = .wake <;> simp [he]

/-- **Every call returns**: the calls of `count_down` and of `wait` make a bounded number of
steps, with four more for each spontaneous wake-up, and from every state all of them can
return without one. -/
theorem calls_return (hr : Run (Monitor.Step body) (LatchImpl.start (n : ℤ) n k) τ s) :
    τ.length ≤ n * (3 * k + 4) + k * 3 + 4 * wakes τ ∧
    ∃ σ s', Run (Only (fun l => l.2 ≠ .wake) (Monitor.Step body)) s σ s' ∧
      ∀ th ∈ s'.threads, th = .running .countedDown ∨ th = .running .waited := by
  constructor
  · have hle := hr.invariant (I := fun τ s => Inv n k s ∧
      τ.length + s.total (credit k) ≤ n * (3 * k + 4) + k * 3 + 4 * wakes τ)
      ⟨Inv.start n k, by simp [total_credit_start, wakes]⟩ ?_
    · omega
    · rintro σ u ⟨t, e⟩ u' - ⟨hinv, hle⟩ hs
      refine ⟨hinv.step hs, ?_⟩
      have hcredit := hinv.credit_step hs
      rw [List.length_append, List.length_singleton, wakes_concat]
      split_ifs at hcredit ⊢ <;> omega
  · have hstep : ∀ u l u', Inv n k u → Only (fun l => l.2 ≠ .wake) (Monitor.Step body) u l u' →
        Inv n k u' := fun u l u' hu hl => hu.step (t := l.1) hl.1
    obtain ⟨σ, s', hσ, hstuck⟩ := exists_run_to_stuck (μ := fun u => u.total (credit k)) hstep
      (fun u l u' hu hl => by
        have hcredit := hu.credit_step (t := l.1) hl.1
        rw [if_neg hl.2] at hcredit
        exact hcredit) (Inv.reached hr)
    have hinv : Inv n k s' := hσ.invariant (I := fun _ => Inv n k) (Inv.reached hr)
      fun _ u l u' _ hu hl => hstep u l u' hu hl
    exact ⟨σ, s', hσ, hinv.returned_of_stuck hstuck⟩

theorem calls_return_run :
    latchRun.1.length ≤ 2 * (3 * 1 + 4) + 1 * 3 + 4 * wakes latchRun.1 ∧
    ∃ σ s', Run (Only (fun l => l.2 ≠ .wake) (Monitor.Step body)) latchRun.2 σ s' ∧
      ∀ th ∈ s'.threads, th = .running .countedDown ∨ th = .running .waited :=
  calls_return run_latchRun

/-! ### `bool_latch` -/

/-- `bool_latch` has counted down where `int_latch` is at zero. -/
def isZero (ctr : ℤ) : Bool := ctr == 0

/-- On a latch of one, `count_down` finds the counter at one. -/
theorem body_isZero (hr : Run (Monitor.Step body) (LatchImpl.start ((1 : ℕ) : ℤ) 1 k) τ s)
    {p : Point} (ht : s.threads[t]? = some (.running p)) :
    body p (isZero s.data) = (body p s.data).map (Monitor.Instr.map isZero) := by
  cases p with
  | decrement =>
      have hone : s.data = 1 := by
        have hle : (1 : ℤ) ≤ s.data := (Inv.reached hr).pending_le ht
        have hsum := data_add_decrements hr
        omega
      rw [hone]
      rfl
  | done =>
      have hdone : Counter.done (isZero s.data) = Counter.done s.data := by
        cases h : isZero s.data <;> exact h.symm
      simp only [body, hdone]
      rfl
  | _ => rfl

/-- **`bool_latch` is `int_latch` of one**, for one call of `count_down`: it has the same runs. -/
theorem bool_latch_iff {u : Monitor.State Point Bool} :
    Run (Monitor.Step body) (LatchImpl.start false 1 k) τ u ↔
      ∃ s, Run (Monitor.Step body) (LatchImpl.start ((1 : ℕ) : ℤ) 1 k) τ s ∧ u = s.map isZero :=
  @Monitor.run_map_iff _ _ _ _ _ _ (LatchImpl.start ((1 : ℕ) : ℤ) 1 k) _ _ fun _ _ _ _ hr ht =>
    body_isZero hr ht

end LatchImpl

/-! ### The latch of `sync_execute` -/

section SyncExecute

universe u

variable {α : Type u} {G : Node α} {s : State α} {m : Mem α} {x : Value α}
  {τ : List (ℕ × Event α)}

/-- The latch that `State` steps on is this counter, from `cleanup_count() + 1` on.  A complete
run calls `count_down` exactly that often, and then `wait` returns. -/
theorem latch_counts (hm : m.Unengaged) (hr : Run Step (State.start G m x) τ s) :
    Run LatchImpl.Counts (G.cleanupCount + 1 : ℕ)
      (List.replicate (countDowns τ).length .countDown) s.latch ∧
    (Stuck Step s → (countDowns τ).length = G.cleanupCount + 1 ∧
      LatchImpl.Counts s.latch .waited s.latch) := by
  have hsum := latch_add_countDowns hr
  have hstart : (State.start G m x).latch = (G.cleanupCount + 1 : ℕ) := rfl
  rw [hstart] at hsum
  constructor
  · have hrun : ∀ (c : ℤ) j, Run LatchImpl.Counts c (List.replicate j .countDown) (c - j) := by
      intro c j
      induction j with
      | zero => simpa using Run.refl
      | succ j ih =>
          rw [List.replicate_succ', Nat.cast_succ, ← sub_sub]
          exact ih.tail (.countDown _)
    have heq : s.latch = (G.cleanupCount + 1 : ℕ) - ((countDowns τ).length : ℤ) := by omega
    rw [heq]
    exact hrun _ _
  · intro hs
    have hzero := latch_zero_of_stuck hm hr hs
    rw [hzero]
    exact ⟨by omega, .waited⟩

end SyncExecute

end Orizzonte
