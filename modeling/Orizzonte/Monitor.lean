/-
Orizzonte/Monitor.lean

Threads that share data under a mutex and wait on a condition variable.

A program says for each program point which primitive the thread performs there and
where it goes on.  The primitives are those of a mutex and a condition variable: to
lock and to unlock, to park (which unlocks, in the same step), and to notify all
parked threads.  A parked thread may also wake up by itself; either way it has to lock
the mutex again before it goes on.

Four rules reduce claims about all interleavings to the text of a program: the mutex
is held by the thread that is where the program holds it (`Fires.exclusive`); what is
asserted at such a point stays true (`Fires.annotated`); no wake-up is lost if the
condition is only made true on the way to a notification (`Fires.signalled`); and a
quantity that every access keeps in balance is conserved (`Fires.balance`).  Where only
spontaneous wake-ups are left, every thread is parked or done (`done_or_parked`).  A
program that does the same on other data has the same runs (`run_map_iff`).
-/
import Orizzonte.Lts
import Orizzonte.Tally

namespace Monitor

open Lts

variable {P D : Type*}

/-! ### Programs and their steps -/

/-- A primitive, and the program point that follows it. -/
inductive Instr (P D : Type*)
  | lock (q : P)
  | unlock (q : P)
  /-- the data is read, and it is `d` afterwards -/
  | access (d : D) (q : P)
  /-- unlock and park in one step; `q` follows when the mutex is locked again -/
  | wait (q : P)
  | notifyAll (q : P)

/-- The primitive at each program point, for the data it finds; none where the thread is
done. -/
abbrev Program (P D : Type*) := P → D → Option (Instr P D)

inductive Thread (P : Type*)
  | running (p : P)
  | parked (p : P)
  /-- no longer parked, about to lock the mutex again -/
  | woken (p : P)
  deriving DecidableEq

/-- What `notify_all` does to a thread. -/
def Thread.notify : Thread P → Thread P
  | parked p => woken p
  | th => th

/-- The data, the thread that holds the mutex, and all threads. -/
structure State (P D : Type*) where
  data : D
  mtx : Option ℕ
  threads : List (Thread P)

/-- A mutex can be locked when it is free. -/
def Instr.enabled : Instr P D → Option ℕ → Bool
  | lock _, mtx => mtx.isNone
  | _, _ => true

/-- What a primitive of thread `t` does. -/
def Instr.effect (s : State P D) (t : ℕ) : Instr P D → State P D
  | lock q => { s with mtx := some t, threads := s.threads.set t (.running q) }
  | unlock q => { s with mtx := none, threads := s.threads.set t (.running q) }
  | access d q => { s with data := d, threads := s.threads.set t (.running q) }
  | wait q => { s with mtx := none, threads := s.threads.set t (.parked q) }
  | notifyAll q => { s with threads := (s.threads.set t (.running q)).map Thread.notify }

inductive Event (P : Type*)
  /-- the primitive at `p` -/
  | exec (p : P)
  /-- a parked thread wakes up by itself -/
  | wake
  /-- a woken thread locks the mutex -/
  | relock
  deriving DecidableEq

/-- The step of thread `t`, when it has one. -/
def step (prog : Program P D) (s : State P D) (t : ℕ) : Option (Event P × State P D) :=
  match s.threads[t]? with
  | none => none
  | some (.running p) =>
      match prog p s.data with
      | none => none
      | some i => if i.enabled s.mtx then some (.exec p, i.effect s t) else none
  | some (.parked p) => some (.wake, { s with threads := s.threads.set t (.woken p) })
  | some (.woken p) =>
      if s.mtx = none then
        some (.relock, { s with mtx := some t, threads := s.threads.set t (.running p) })
      else none

/-- `Step prog s (t, e) s'`: thread `t` does `e`. -/
def Step (prog : Program P D) (s : State P D) (l : ℕ × Event P) (s' : State P D) : Prop :=
  step prog s l.1 = some (l.2, s')

/-- The steps, one rule for each kind of event. -/
inductive Fires (prog : Program P D) (s : State P D) (t : ℕ) : Event P → State P D → Prop
  | exec {p i} (ht : s.threads[t]? = some (.running p)) (hp : prog p s.data = some i)
      (hm : i.enabled s.mtx = true) : Fires prog s t (.exec p) (i.effect s t)
  | wake {p} (ht : s.threads[t]? = some (.parked p)) :
      Fires prog s t .wake { s with threads := s.threads.set t (.woken p) }
  | relock {p} (ht : s.threads[t]? = some (.woken p)) (hm : s.mtx = none) :
      Fires prog s t .relock { s with mtx := some t, threads := s.threads.set t (.running p) }

variable {prog : Program P D} {s s' : State P D} {t t' : ℕ} {e : Event P}

theorem Fires.of_step (h : step prog s t = some (e, s')) : Fires prog s t e s' := by
  unfold step at h
  split at h
  · cases h
  · rename_i p ht
    split at h
    · cases h
    · rename_i i hp
      split_ifs at h with hm
      cases h
      exact .exec ht hp hm
  · rename_i p ht
    cases h
    exact .wake ht
  · rename_i p ht
    split_ifs at h with hm
    cases h
    exact .relock ht hm

theorem Fires.step (h : Fires prog s t e s') : step prog s t = some (e, s') := by
  cases h with
  | exec ht hp hm => simp [Monitor.step, ht, hp, hm]
  | wake ht => simp [Monitor.step, ht]
  | relock ht hm => simp [Monitor.step, ht, hm]

theorem step_iff : Step prog s (t, e) s' ↔ Fires prog s t e s' := ⟨Fires.of_step, Fires.step⟩

/-- Run a schedule, which says whose step comes next. -/
def drive (prog : Program P D) (s : State P D) (sched : List ℕ) :
    Option (List (ℕ × Event P) × State P D) :=
  Lts.drive (fun u t => (step prog u t).map fun r => ((t, r.1), r.2)) s sched

theorem run_of_drive {sched : List ℕ} {τ : List (ℕ × Event P)}
    (h : drive prog s sched = some (τ, s')) : Run (Step prog) s τ s' := by
  refine Lts.run_of_drive (fun u t l u' hnext => ?_) h
  obtain ⟨r, hr, heq⟩ := Option.map_eq_some_iff.mp hnext
  cases heq
  exact hr

/-! ### What a step does to the threads -/

/-- Where a primitive leaves its thread. -/
def Instr.next : Instr P D → Thread P
  | lock q | unlock q | access _ q | notifyAll q => .running q
  | wait q => .parked q

theorem State.set_self {th : Thread P} (ht : s.threads[t]? = some th) (th' : Thread P) :
    (s.threads.set t th')[t]? = some th' :=
  List.getElem?_set_self (List.getElem?_eq_some_iff.mp ht).1

theorem Instr.effect_self (i : Instr P D) {th : Thread P} (ht : s.threads[t]? = some th) :
    (i.effect s t).threads[t]? = some i.next := by
  cases i with
  | notifyAll q =>
      show ((s.threads.set t (.running q)).map Thread.notify)[t]? = some (.running q)
      rw [List.getElem?_map, State.set_self ht]
      rfl
  | _ => exact State.set_self ht _

/-- The other threads stay where they are, unless they are notified. -/
theorem Instr.effect_other (i : Instr P D) (hne : t' ≠ t) :
    (i.effect s t).threads[t']? = s.threads[t']? ∨
      (i.effect s t).threads[t']? = (s.threads[t']?).map Thread.notify := by
  cases i with
  | notifyAll q =>
      right
      show ((s.threads.set t (.running q)).map Thread.notify)[t']? = _
      rw [List.getElem?_map, List.getElem?_set_ne hne.symm]
  | _ => exact .inl (List.getElem?_set_ne hne.symm)

/-- How a thread moves, when the data is `d`. -/
inductive Moves (prog : Program P D) (d : D) : Thread P → Thread P → Prop
  | exec {p i} (hp : prog p d = some i) : Moves prog d (.running p) i.next
  | wake (p) : Moves prog d (.parked p) (.woken p)
  | relock (p) : Moves prog d (.woken p) (.running p)

theorem Fires.self (hf : Fires prog s t e s') :
    ∃ th th', s.threads[t]? = some th ∧ s'.threads[t]? = some th' ∧ Moves prog s.data th th' := by
  cases hf with
  | @exec p i ht hp hm => exact ⟨_, _, ht, i.effect_self ht, .exec hp⟩
  | wake ht => exact ⟨_, _, ht, State.set_self ht _, .wake _⟩
  | relock ht => exact ⟨_, _, ht, State.set_self ht _, .relock _⟩

theorem Fires.other (hf : Fires prog s t e s') (hne : t' ≠ t) :
    s'.threads[t']? = s.threads[t']? ∨
      s'.threads[t']? = (s.threads[t']?).map Thread.notify := by
  cases hf with
  | @exec p i ht hp hm => exact i.effect_other hne
  | wake | relock => exact .inl (List.getElem?_set_ne hne.symm)

/-- Where another thread than the moving one is, it was before, unless it was notified. -/
theorem Fires.before (hf : Fires prog s t e s') (hne : t' ≠ t) {th' : Thread P}
    (h : s'.threads[t']? = some th') :
    ∃ th, s.threads[t']? = some th ∧ (th' = th ∨ th' = th.notify) := by
  rcases hf.other hne with heq | heq
  · exact ⟨th', heq.symm.trans h, .inl rfl⟩
  · obtain ⟨th, hth, hn⟩ := Option.map_eq_some_iff.mp (heq.symm.trans h)
    exact ⟨th, hth, .inr hn.symm⟩

/-- A running thread other than the moving one goes on running at the same point. -/
theorem Fires.running (hf : Fires prog s t e s') (hne : t' ≠ t) {p : P}
    (h : s.threads[t']? = some (.running p)) : s'.threads[t']? = some (.running p) := by
  rcases hf.other hne with heq | heq
  · rw [heq, h]
  · rw [heq, h]
    rfl

/-- **What the program keeps of each thread by itself** holds of all threads. -/
theorem Fires.forall_threads {J : ℕ → Thread P → Prop} (hf : Fires prog s t e s')
    (hJ : ∀ {t d th th'}, J t th → Moves prog d th th' → J t th')
    (h : ∀ t th, s.threads[t]? = some th → J t th) :
    ∀ t th, s'.threads[t]? = some th → J t th := by
  intro t' th' ht'
  by_cases hne : t' = t
  · subst hne
    obtain ⟨th, th'', hth, hth'', hmove⟩ := hf.self
    obtain rfl := Option.some.inj (ht'.symm.trans hth'')
    exact hJ (h _ th hth) hmove
  · obtain ⟨th, hth, rfl | rfl⟩ := hf.before hne ht'
    · exact h t' _ hth
    · cases th with
      | running p | woken p => exact h t' _ hth
      -- to be notified takes a thread where a spontaneous wake-up takes it
      | parked p => exact hJ (d := s.data) (h t' _ hth) (.wake p)

/-! ### The mutex -/

/-- The program locks and unlocks in turn, and `holds` says between which points it has the
mutex; it accesses the data, waits and notifies only there. -/
structure Disciplined (prog : Program P D) (holds : P → Prop) : Prop where
  lock : ∀ {p d q}, prog p d = some (.lock q) → ¬ holds p ∧ holds q
  unlock : ∀ {p d q}, prog p d = some (.unlock q) → holds p ∧ ¬ holds q
  access : ∀ {p d d' q}, prog p d = some (.access d' q) → holds p ∧ holds q
  wait : ∀ {p d q}, prog p d = some (.wait q) → holds p ∧ holds q
  notifyAll : ∀ {p d q}, prog p d = some (.notifyAll q) → holds p ∧ holds q

/-- The thread has the mutex. -/
def Thread.Owns (holds : P → Prop) : Thread P → Prop
  | running p => holds p
  | _ => False

/-- A thread that waits goes on with the mutex. -/
def Thread.Resumes (holds : P → Prop) : Thread P → Prop
  | running _ => True
  | parked p | woken p => holds p

/-- The mutex is held by the thread that is where the program holds it. -/
structure Exclusive (holds : P → Prop) (s : State P D) : Prop where
  owner : ∀ t th, s.threads[t]? = some th → (th.Owns holds ↔ s.mtx = some t)
  resumes : ∀ (t : ℕ) th, s.threads[t]? = some th → th.Resumes holds
  lt_length : ∀ t, s.mtx = some t → t < s.threads.length

variable {holds : P → Prop}

@[simp] theorem Thread.owns_notify (th : Thread P) : th.notify.Owns holds ↔ th.Owns holds := by
  cases th <;> rfl

theorem Moves.resumes (hprog : Disciplined prog holds) {d : D} {th th' : Thread P}
    (h : th.Resumes holds) (hmove : Moves prog d th th') : th'.Resumes holds := by
  cases hmove with
  | @exec p i hp =>
      cases i with
      | wait q => exact (hprog.wait hp).2
      | _ => exact True.intro
  | wake p => exact h
  | relock p => exact True.intro

/-- A primitive leaves its thread with the mutex where the program holds it, and takes it from
no other thread. -/
theorem Instr.owner (hprog : Disciplined prog holds) (h : Exclusive holds s) {p : P}
    (ht : s.threads[t]? = some (.running p)) {i : Instr P D} (hp : prog p s.data = some i)
    (hm : i.enabled s.mtx = true) :
    (i.next.Owns holds ↔ (i.effect s t).mtx = some t) ∧
      ∀ t' ≠ t, ((i.effect s t).mtx = some t' ↔ s.mtx = some t') := by
  have hown : holds p ↔ s.mtx = some t := h.owner t _ ht
  cases i with
  | lock q =>
      have hfree : s.mtx = none := Option.isNone_iff_eq_none.mp hm
      refine ⟨iff_of_true (hprog.lock hp).2 rfl, fun t' hne => ?_⟩
      rw [hfree]
      exact iff_of_false (fun he => hne (Option.some.inj he).symm) (by simp)
  | unlock q =>
      rw [hown.mp (hprog.unlock hp).1]
      refine ⟨iff_of_false (hprog.unlock hp).2 (by simp [effect]), fun t' hne => ?_⟩
      exact iff_of_false (by simp [effect]) fun he => hne (Option.some.inj he).symm
  | access d q =>
      exact ⟨iff_of_true (hprog.access hp).2 (hown.mp (hprog.access hp).1), by simp [effect]⟩
  | wait q =>
      rw [hown.mp (hprog.wait hp).1]
      refine ⟨iff_of_false id (by simp [effect]), fun t' hne => ?_⟩
      exact iff_of_false (by simp [effect]) fun he => hne (Option.some.inj he).symm
  | notifyAll q =>
      exact ⟨iff_of_true (hprog.notifyAll hp).2 (hown.mp (hprog.notifyAll hp).1), by simp [effect]⟩

theorem Fires.owner (hprog : Disciplined prog holds) (h : Exclusive holds s)
    (hf : Fires prog s t e s') :
    (∀ th, s'.threads[t]? = some th → (th.Owns holds ↔ s'.mtx = some t)) ∧
      ∀ t' ≠ t, (s'.mtx = some t' ↔ s.mtx = some t') := by
  cases hf with
  | @exec p i ht hp hm =>
      obtain ⟨hself, hother⟩ := Instr.owner hprog h ht hp hm
      refine ⟨fun th hth => ?_, hother⟩
      rw [i.effect_self ht] at hth
      obtain rfl := Option.some.inj hth
      exact hself
  | @wake p ht =>
      refine ⟨fun th hth => ?_, fun t' _ => Iff.rfl⟩
      rw [State.set_self ht] at hth
      obtain rfl := Option.some.inj hth
      -- neither a parked nor a woken thread has the mutex
      have hpark : (Thread.parked p).Owns holds ↔ s.mtx = some t := h.owner t _ ht
      exact hpark
  | @relock p ht hm =>
      constructor
      · intro th hth
        rw [State.set_self ht] at hth
        obtain rfl := Option.some.inj hth
        exact iff_of_true (h.resumes t _ ht) rfl
      · intro t' hne
        rw [hm]
        exact iff_of_false (fun he => hne (Option.some.inj he).symm) (by simp)

theorem Fires.length (hf : Fires prog s t e s') : s'.threads.length = s.threads.length := by
  cases hf with
  | @exec p i => cases i <;> simp [Instr.effect]
  | wake | relock => exact List.length_set

/-- **Mutual exclusion.** -/
theorem Fires.exclusive (hprog : Disciplined prog holds) (h : Exclusive holds s)
    (hf : Fires prog s t e s') : Exclusive holds s' := by
  obtain ⟨hself, hother⟩ := hf.owner hprog h
  refine ⟨fun t' th' ht' => ?_, hf.forall_threads (Moves.resumes hprog) h.resumes,
    fun t' hm => ?_⟩
  · by_cases hne : t' = t
    · subst hne
      exact hself th' ht'
    · rw [hother t' hne]
      obtain ⟨th, hth, rfl | rfl⟩ := hf.before hne ht'
      · exact h.owner t' _ hth
      · rw [Thread.owns_notify]
        exact h.owner t' th hth
  · rw [hf.length]
    by_cases hne : t' = t
    · subst hne
      obtain ⟨th, -, hth, -⟩ := hf.self
      exact (List.getElem?_eq_some_iff.mp hth).1
    · exact h.lt_length t' ((hother t' hne).mp hm)

/-- Where the mutex is held, there is a thread that holds it. -/
theorem Exclusive.exists_owner (h : Exclusive holds s) (hm : s.mtx = some t) :
    ∃ p, s.threads[t]? = some (.running p) ∧ holds p := by
  obtain ⟨th, hth⟩ : ∃ th, s.threads[t]? = some th :=
    ⟨_, List.getElem?_eq_getElem (h.lt_length t hm)⟩
  have hown := (h.owner t th hth).mpr hm
  cases th with
  | running p => exact ⟨p, hth, hown⟩
  | parked p | woken p => exact hown.elim

/-- Two threads do not hold the mutex at once. -/
theorem Exclusive.eq_of_holds (h : Exclusive holds s) {p p' : P}
    (ht : s.threads[t]? = some (.running p)) (hp : holds p)
    (ht' : s.threads[t']? = some (.running p')) (hp' : holds p') : t = t' := by
  have hm := (h.owner t _ ht).mp hp
  rw [(h.owner t' _ ht').mp hp'] at hm
  exact (Option.some.inj hm).symm

/-! ### Assertions at program points -/

/-- `A p d` is asserted of the data `d` where a thread is at `p`.  The program may rely on it
only while it has the mutex. -/
structure Asserted (prog : Program P D) (holds : P → Prop) (A : P → D → Prop) : Prop where
  free : ∀ {p}, ¬ holds p → ∀ d, A p d
  locked : ∀ {p d q}, prog p d = some (.lock q) → ∀ d', A q d'
  resumed : ∀ {p d q}, prog p d = some (.wait q) → ∀ d', A q d'
  access : ∀ {p d d' q}, A p d → prog p d = some (.access d' q) → A q d'
  notifyAll : ∀ {p d q}, A p d → prog p d = some (.notifyAll q) → A q d

/-- The assertion at the point where the thread is, or at the one where it goes on. -/
def Thread.Sat (A : P → D → Prop) (d : D) : Thread P → Prop
  | running p => A p d
  | parked p | woken p => ∀ d', A p d'

/-- What is asserted is the case. -/
def Annotated (A : P → D → Prop) (s : State P D) : Prop :=
  ∀ (t : ℕ) th, s.threads[t]? = some th → th.Sat A s.data

variable {A : P → D → Prop}

theorem Thread.Sat.notify {d : D} {th : Thread P} (h : th.Sat A d) : th.notify.Sat A d := by
  cases th <;> exact h

/-- The thread that moves. -/
theorem Instr.sat_next (hprog : Disciplined prog holds) (hA : Asserted prog holds A) {p : P}
    (h : A p s.data) {i : Instr P D} (hp : prog p s.data = some i) :
    i.next.Sat A (i.effect s t).data := by
  cases i with
  | lock q => exact hA.locked hp _
  | unlock q => exact hA.free (hprog.unlock hp).2 _
  | access d q => exact hA.access h hp
  | wait q => exact hA.resumed hp
  | notifyAll q => exact hA.notifyAll h hp

/-- A thread that does not move and has no mutex asserts nothing that could change; if it has
the mutex, the data stays the same. -/
theorem Instr.sat_other (hprog : Disciplined prog holds) (hA : Asserted prog holds A)
    (hex : Exclusive holds s) {p : P} (ht : s.threads[t]? = some (.running p)) {i : Instr P D}
    (hp : prog p s.data = some i) (hne : t' ≠ t) {th : Thread P}
    (hth : s.threads[t']? = some th) (h : th.Sat A s.data) : th.Sat A (i.effect s t).data := by
  cases i with
  | access d q =>
      cases th with
      | running p' =>
          refine hA.free (fun hp' => hne ?_) d
          exact hex.eq_of_holds hth hp' ht (hprog.access hp).1
      | parked p' | woken p' => exact h
  | _ => exact h

theorem Fires.annotated (hprog : Disciplined prog holds) (hA : Asserted prog holds A)
    (hex : Exclusive holds s) (h : Annotated A s) (hf : Fires prog s t e s') :
    Annotated A s' := by
  intro t' th' ht'
  by_cases hne : t' = t
  · subst hne
    cases hf with
    | @exec p i ht hp hm =>
        rw [i.effect_self ht] at ht'
        obtain rfl := Option.some.inj ht'
        exact Instr.sat_next hprog hA (h t' _ ht) hp
    | @wake p ht =>
        rw [State.set_self ht] at ht'
        obtain rfl := Option.some.inj ht'
        have hpark : ∀ d', A p d' := h t' _ ht
        exact hpark
    | @relock p ht hm =>
        rw [State.set_self ht] at ht'
        obtain rfl := Option.some.inj ht'
        exact h t' _ ht s.data
  · have hdata : ∀ th, s.threads[t']? = some th → th.Sat A s'.data := by
      intro th hth
      cases hf with
      | @exec p i ht hp hm => exact Instr.sat_other hprog hA hex ht hp hne hth (h t' th hth)
      | wake | relock => exact h t' th hth
    obtain ⟨th, hth, rfl | rfl⟩ := hf.before hne ht'
    · exact hdata _ hth
    · exact (hdata th hth).notify

/-! ### No wake-up is lost -/

/-- A thread that makes the condition `c` true goes through points `N` to a notification, and
nobody parks where `c` may be true. -/
structure Signals (prog : Program P D) (A : P → D → Prop) (c : D → Prop) (N : P → Prop) :
    Prop where
  wait : ∀ {p d q}, A p d → prog p d = some (.wait q) → ¬ c d
  access : ∀ {p d d' q}, prog p d = some (.access d' q) → c d' → c d ∨ N q
  pending : ∀ {p d i}, N p → prog p d = some i →
    (∃ q, i = .notifyAll q) ∨ ∃ d' q, i = .access d' q ∧ N q

/-- Where a thread is parked although `c` is true, another one is about to notify it. -/
def Signalled (c : D → Prop) (N : P → Prop) (s : State P D) : Prop :=
  c s.data → (∃ (t : ℕ) (p : P), s.threads[t]? = some (Thread.parked p)) →
    ∃ (t : ℕ) (p : P), s.threads[t]? = some (Thread.running p) ∧ N p

variable {c : D → Prop} {N : P → Prop}

/-- Only `wait` parks a thread. -/
theorem Moves.parks {d : D} {th : Thread P} {p : P} (h : Moves prog d th (.parked p)) :
    ∃ p₀, th = .running p₀ ∧ prog p₀ d = some (.wait p) := by
  generalize hq : Thread.parked p = th' at h
  cases h with
  | @exec p₀ i hp =>
      cases i with
      | wait q =>
          obtain rfl := Thread.parked.inj hq
          exact ⟨p₀, rfl, hp⟩
      | _ => cases hq
  | wake | relock => cases hq

/-- A thread that is parked after a step was parked before, or the step parked it. -/
theorem Fires.parked_before (hf : Fires prog s t e s') {p : P}
    (h : s'.threads[t']? = some (.parked p)) :
    s.threads[t']? = some (.parked p) ∨ ∃ p₀, s.threads[t]? = some (.running p₀) ∧
      prog p₀ s.data = some (.wait p) := by
  by_cases hne : t' = t
  · subst hne
    obtain ⟨th, th', hth, hth', hmove⟩ := hf.self
    obtain rfl := Option.some.inj (h.symm.trans hth')
    obtain ⟨p₀, rfl, hp⟩ := hmove.parks
    exact .inr ⟨p₀, hth, hp⟩
  · obtain ⟨th, hth, rfl | hn⟩ := hf.before hne h
    · exact .inl hth
    · cases th <;> cases hn

/-- A step of a running thread is the primitive at its point. -/
theorem Fires.exec_of_running (hf : Fires prog s t e s') {p : P}
    (ht : s.threads[t]? = some (.running p)) :
    ∃ i, prog p s.data = some i ∧ s' = i.effect s t := by
  cases hf with
  | @exec p' i ht' hp hm =>
      obtain rfl := Thread.running.inj (Option.some.inj (ht.symm.trans ht'))
      exact ⟨i, hp, rfl⟩
  | wake ht' | relock ht' => cases ht.symm.trans ht'

/-- A thread that is done stays where it is. -/
theorem Fires.done (hf : Fires prog s t e s') {p : P} (hp : prog p s.data = none)
    (h : s.threads[t']? = some (.running p)) : s'.threads[t']? = some (.running p) := by
  by_cases hne : t' = t
  · subst hne
    obtain ⟨i, hi, -⟩ := hf.exec_of_running h
    rw [hp] at hi
    cases hi
  · exact hf.running hne h

/-- The condition was true before a step, unless the step leads on to a notification. -/
theorem Fires.cond_before (hS : Signals prog A c N) (hf : Fires prog s t e s')
    (hc : c s'.data) : c s.data ∨ ∃ q, s'.threads[t]? = some (.running q) ∧ N q := by
  cases hf with
  | @exec p i ht hp hm =>
      cases i with
      | access d q =>
          rcases hS.access hp hc with hold | hq
          · exact .inl hold
          · exact .inr ⟨q, State.set_self ht _, hq⟩
      | _ => exact .inl hc
  | wake | relock => exact .inl hc

/-- After `notify_all` nobody is parked. -/
theorem Instr.not_parked_notifyAll (q p : P) :
    ((notifyAll q).effect s t).threads[t']? ≠ some (.parked p) := by
  intro h
  change ((s.threads.set t (.running q)).map Thread.notify)[t']? = _ at h
  rw [List.getElem?_map] at h
  obtain ⟨th, -, hn⟩ := Option.map_eq_some_iff.mp h
  cases th <;> cases hn

/-- A thread that is about to notify still is after a step, or nobody is parked any more. -/
theorem Fires.pending (hS : Signals prog A c N) (hf : Fires prog s t e s') {q : P}
    (ht' : s.threads[t']? = some (.running q)) (hq : N q) :
    (∃ q', s'.threads[t']? = some (.running q') ∧ N q') ∨
      ∀ (u : ℕ) p, s'.threads[u]? ≠ some (.parked p) := by
  by_cases hne : t' = t
  · subst hne
    obtain ⟨i, hi, rfl⟩ := hf.exec_of_running ht'
    rcases hS.pending hq hi with ⟨q', rfl⟩ | ⟨d, q', rfl, hq'⟩
    · exact .inr fun u p => Instr.not_parked_notifyAll q' p
    · exact .inl ⟨q', State.set_self ht' _, hq'⟩
  · exact .inl ⟨q, hf.running hne ht', hq⟩

/-- **No wake-up is lost.** -/
theorem Fires.signalled (hS : Signals prog A c N) (hA : Annotated A s) (h : Signalled c N s)
    (hf : Fires prog s t e s') : Signalled c N s' := by
  rintro hc ⟨t', p, hp⟩
  rcases hf.parked_before hp with hold | ⟨p₀, ht, hw⟩
  · rcases hf.cond_before hS hc with hcs | ⟨q, ht, hq⟩
    · obtain ⟨u, q, hu, hq⟩ := h hcs ⟨t', p, hold⟩
      rcases hf.pending hS hu hq with ⟨q', hu', hq'⟩ | hnone
      · exact ⟨u, q', hu', hq'⟩
      · exact absurd hp (hnone t' p)
    · exact ⟨t, q, ht, hq⟩
  · -- who parks has seen that the condition is false, and leaves the data as it is
    obtain ⟨i, hi, rfl⟩ := hf.exec_of_running ht
    obtain rfl := Option.some.inj (hw.symm.trans hi)
    exact absurd hc (hS.wait (hA t _ ht) hw)

/-! ### Balance -/

/-- The program point of a thread. -/
def Thread.point : Thread P → P
  | running p | parked p | woken p => p

@[simp] theorem Thread.point_notify (th : Thread P) : th.notify.point = th.point := by
  cases th <;> rfl

/-- What each access takes from the data, measured by `g`, it takes from what is still
expected of its thread, which `f` says by its program point. -/
structure Balanced {M : Type*} [Add M] (prog : Program P D) (f : P → M) (g : D → M) : Prop where
  access : ∀ {p d d' q}, prog p d = some (.access d' q) → g d' + f p = g d + f q
  lock : ∀ {p d q}, prog p d = some (.lock q) → f q = f p
  unlock : ∀ {p d q}, prog p d = some (.unlock q) → f q = f p
  wait : ∀ {p d q}, prog p d = some (.wait q) → f q = f p
  notifyAll : ∀ {p d q}, prog p d = some (.notifyAll q) → f q = f p

/-- A weight summed over the threads. -/
def State.total {M : Type*} [AddCommMonoid M] (w : Thread P → M) (s : State P D) : M :=
  (s.threads.map w).sum

/-- To be notified changes no weight that is the same for parked and woken threads. -/
theorem Instr.total_effect {M : Type*} [AddCommMonoid M] {w : Thread P → M}
    (hw : ∀ th, w th.notify = w th) (i : Instr P D) :
    (i.effect s t).total w = ((s.threads.set t i.next).map w).sum := by
  cases i with
  | notifyAll q =>
      have hcomp : w ∘ Thread.notify = w := funext hw
      show (((s.threads.set t (.running q)).map Thread.notify).map w).sum = _
      rw [List.map_map, hcomp]
      rfl
  | _ => rfl

/-- The moving thread alone changes the sum. -/
theorem Fires.total {M : Type*} [AddCommMonoid M] {w : Thread P → M}
    (hw : ∀ th, w th.notify = w th) (hf : Fires prog s t e s') :
    ∃ th th', s.threads[t]? = some th ∧ Moves prog s.data th th' ∧
      s'.total w + w th = s.total w + w th' := by
  cases hf with
  | @exec p i ht hp hm =>
      refine ⟨_, _, ht, .exec hp, ?_⟩
      rw [i.total_effect hw]
      exact Tally.sum_map_set w ht _
  | wake ht => exact ⟨_, _, ht, .wake _, Tally.sum_map_set w ht _⟩
  | relock ht hm => exact ⟨_, _, ht, .relock _, Tally.sum_map_set w ht _⟩

/-- What is expected of all threads. -/
def State.expected {M : Type*} [AddCommMonoid M] (f : P → M) (s : State P D) : M :=
  s.total fun th => f th.point

variable {M : Type*} [AddCancelCommMonoid M] {f : P → M} {g : D → M}

/-- A step changes both sides by the same: they pass from `x` to `y`. -/
theorem Fires.expected (hB : Balanced prog f g) (hf : Fires prog s t e s') :
    ∃ x y, g s'.data + x = g s.data + y ∧ s'.expected f + x = s.expected f + y := by
  cases hf with
  | @exec p i ht hp hm =>
      refine ⟨f p, f i.next.point, ?_, ?_⟩
      · cases i with
        | lock q => exact congrArg (g s.data + ·) (hB.lock hp).symm
        | unlock q => exact congrArg (g s.data + ·) (hB.unlock hp).symm
        | access d q => exact hB.access hp
        | wait q => exact congrArg (g s.data + ·) (hB.wait hp).symm
        | notifyAll q => exact congrArg (g s.data + ·) (hB.notifyAll hp).symm
      · rw [State.expected, i.total_effect fun th => by rw [th.point_notify]]
        exact Tally.sum_map_set _ ht _
  | @wake p ht => exact ⟨f p, f p, rfl, Tally.sum_map_set _ ht (.woken p)⟩
  | @relock p ht hm => exact ⟨f p, f p, rfl, Tally.sum_map_set _ ht (.running p)⟩

/-- **What is expected of the threads is what the data still has to give.** -/
theorem Fires.balance (hB : Balanced prog f g) (hf : Fires prog s t e s') :
    g s'.data + s.expected f = g s.data + s'.expected f := by
  obtain ⟨x, y, hdata, hexp⟩ := hf.expected hB
  apply add_right_cancel (b := x)
  calc g s'.data + s.expected f + x
      = g s'.data + x + s.expected f := add_right_comm _ _ _
    _ = g s.data + y + s.expected f := by rw [hdata]
    _ = g s.data + (s.expected f + y) := by rw [add_assoc, add_comm y]
    _ = g s.data + (s'.expected f + x) := by rw [hexp]
    _ = g s.data + s'.expected f + x := (add_assoc _ _ _).symm

/-! ### Other data -/

section Map

variable {E : Type*} {prog' : Program P E} {φ : D → E}

def Instr.map (φ : D → E) : Instr P D → Instr P E
  | lock q => lock q
  | unlock q => unlock q
  | access d q => access (φ d) q
  | wait q => wait q
  | notifyAll q => notifyAll q

def State.map (φ : D → E) (s : State P D) : State P E := ⟨φ s.data, s.mtx, s.threads⟩

theorem Instr.enabled_map (i : Instr P D) (mtx : Option ℕ) :
    (i.map φ).enabled mtx = i.enabled mtx := by
  cases i <;> rfl

theorem Instr.effect_map (i : Instr P D) :
    (i.map φ).effect (s.map φ) t = (i.effect s t).map φ := by
  cases i <;> rfl

/-- A program that does the same on the image of the data makes the same step. -/
theorem step_map (h : ∀ p, s.threads[t]? = some (.running p) →
    prog' p (φ s.data) = (prog p s.data).map (Instr.map φ)) :
    step prog' (s.map φ) t = (step prog s t).map fun r => (r.1, r.2.map φ) := by
  rcases hth : s.threads[t]? with - | th
  · simp [step, State.map, hth]
  · cases th with
    | running p =>
        have hp := h p hth
        rcases hi : prog p s.data with - | i
        · rw [hi] at hp
          simp [step, State.map, hth, hi, hp]
        · rw [hi] at hp
          have heff := i.effect_map (s := s) (t := t) (φ := φ)
          simp only [State.map] at heff
          by_cases hm : i.enabled s.mtx
          all_goals simp [step, State.map, hth, hi, hp, Instr.enabled_map, hm, heff]
    | parked p => simp [step, State.map, hth]
    | woken p => by_cases hm : s.mtx = none <;> simp [step, State.map, hth, hm]

/-- Its runs are the images of the runs. -/
theorem run_map_iff {s₀ : State P D} {τ : List (ℕ × Event P)} {u : State P E}
    (h : ∀ τ s (t : ℕ) p, Run (Step prog) s₀ τ s → s.threads[t]? = some (.running p) →
      prog' p (φ s.data) = (prog p s.data).map (Instr.map φ)) :
    Run (Step prog') (s₀.map φ) τ u ↔ ∃ s, Run (Step prog) s₀ τ s ∧ u = s.map φ := by
  constructor
  · intro hr
    induction hr with
    | refl => exact ⟨s₀, .refl, rfl⟩
    | @tail τ v l u' _ hl ih =>
        obtain ⟨s, hr, rfl⟩ := ih
        obtain ⟨t, e⟩ := l
        have hstep : (step prog s t).map (fun r => (r.1, r.2.map φ)) = some (e, u') := by
          rw [← step_map fun p => h τ s t p hr]
          exact hl
        obtain ⟨⟨e', s'⟩, hs, heq⟩ := Option.map_eq_some_iff.mp hstep
        cases heq
        exact ⟨s', hr.tail hs, rfl⟩
  · rintro ⟨s, hr, rfl⟩
    induction hr with
    | refl => exact .refl
    | @tail τ s l s' hr hl ih =>
        obtain ⟨t, e⟩ := l
        apply ih.tail
        show step prog' (s.map φ) t = _
        have hs : step prog s t = some (e, s') := hl
        rw [step_map fun p => h τ s t p hr, hs]
        rfl

end Map

/-! ### Where only spontaneous wake-ups are left -/

/-- A thread with the mutex can always go on, so nobody has it where no other step is left. -/
theorem mtx_free (hprog : Disciplined prog holds) (hex : Exclusive holds s)
    (hlive : ∀ {p d}, holds p → prog p d ≠ none)
    (hs : Stuck (Only (fun l => l.2 ≠ .wake) (Step prog)) s) : s.mtx = none := by
  by_contra hm
  obtain ⟨t, hm⟩ := Option.ne_none_iff_exists'.mp hm
  obtain ⟨p, ht, hp⟩ := hex.exists_owner hm
  obtain ⟨i, hi⟩ := Option.ne_none_iff_exists'.mp (hlive (d := s.data) hp)
  have hen : i.enabled s.mtx = true := by
    cases i with
    | lock q => exact absurd hp (hprog.lock hi).1
    | _ => rfl
  exact hs (t, .exec p) _ ⟨step_iff.mpr (.exec ht hi hen), fun he => by cases he⟩

theorem done_or_parked (hprog : Disciplined prog holds) (hex : Exclusive holds s)
    (hlive : ∀ {p d}, holds p → prog p d ≠ none)
    (hs : Stuck (Only (fun l => l.2 ≠ .wake) (Step prog)) s) {th : Thread P}
    (ht : s.threads[t]? = some th) :
    (∃ p, th = .parked p) ∨ ∃ p, th = .running p ∧ prog p s.data = none := by
  have hfree := mtx_free hprog hex hlive hs
  cases th with
  | parked p => exact .inl ⟨p, rfl⟩
  | running p =>
      refine .inr ⟨p, rfl, ?_⟩
      by_contra hi
      obtain ⟨i, hi⟩ := Option.ne_none_iff_exists'.mp hi
      have hen : i.enabled s.mtx = true := by
        rw [hfree]
        cases i <;> rfl
      exact hs (t, .exec p) _ ⟨step_iff.mpr (.exec ht hi hen), fun he => by cases he⟩
  | woken p =>
      exact absurd ⟨step_iff.mpr (.relock ht hfree), fun he => by cases he⟩ (hs (t, .relock) _)

end Monitor
