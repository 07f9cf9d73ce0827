/-
Orizzonte/Reuse.lean

One graph object, run again and again.  A call finds every storage unengaged and the
members `_values` as the earlier calls left them, and the threads of the earlier calls
may not have ended.  `Session` is the machine of all calls on one object.

What is left in `_values` does not matter: an object is read from there only after it
was written in the same call (`Inv.source_ready`), so a run can be replayed, event by
event, from any other contents (`replay`).  Together with what the latch guarantees
about the threads that go on (`latch_zero_quiet`), every call on a used object does
what a call on a fresh one can do, and the other way round (`reuse`).
-/
import Orizzonte.Latch
import Orizzonte.Eval

namespace Orizzonte

open Lts

universe u v

variable {α : Type u}

/-! ### Read after written -/

/-- The object that a program point reads next. -/
def Frame.source? : Frame α → Option (Src α)
  | exec _ _ x _ => some x
  | leafRun _ true _ x _ _ => some x
  | allWrite _ _ _ x _ => some x
  | anyFetchSub _ _ _ _ x _ => some x
  | anyWrite _ _ _ _ x _ => some x
  | thenCall x => some x
  | _ => none

/-- All parts of the object were written: `T` is what the run owed at its start and `O`
what it owes now. -/
def Src.Ready (T O : Multiset Ob) (m : Mem α) : Src α → Prop
  | temp _ => True
  | input p => Ob.construct p ∈ T ∧ Ob.construct p ∉ O ∧ (m p).state.engaged = true
  | slots a n => ∀ i < n, Ob.slotWrite a i ∈ T ∧ Ob.slotWrite a i ∉ O
  | alt a => Ob.variantWrite a ∈ T ∧ Ob.variantWrite a ∉ O

section Ready

variable {φ : Flow.{u, v} α} {G : Node α} {s : State α}

/-- An object passed as the result of a call is no `_state->_input`. -/
theorem Src.Valid.ready {O : Multiset Ob} {m : Mem α} {x : Src α} (h : x.Valid φ G O .root) :
    x.Ready G.total O m := by
  cases x with
  | temp y => exact True.intro
  | input p =>
      obtain ⟨i, hi⟩ := h
      cases hi
  | slots a n =>
      obtain ⟨n', fs, K, d, rfl, hx, hw⟩ := h
      intro i hi
      refine ⟨mem_total_of_own hx ?_, hw i hi⟩
      refine Multiset.mem_add.mpr (.inr (Multiset.mem_sum.mpr ⟨⟨i, hi⟩, Finset.mem_univ _, ?_⟩))
      simp [Join.childObs]
  | alt a =>
      obtain ⟨n, fs, K, d, hx, hw⟩ := h
      exact ⟨mem_total_of_own hx (by simp [Join.own, Join.firstObs]), hw⟩

/-- **What is read next has been written in this run.** -/
theorem Inv.source_ready (h : Inv φ G s) {st : List (Frame α)} (hst : st ∈ s.threads)
    {fr : Frame α} (hfr : fr ∈ st) {x : Src α} (hx : fr.source? = some x) :
    x.Ready G.total (s.obs (φ.sites G)) s.mem := by
  have hok := h.frames st hst fr hfr
  -- the input of a call is a result, or the input of the node the call is a child of
  have hargs : ∀ {g : Node α} {a K d}, ⟨g, a, K, d⟩ ∈ φ.sites G →
      K.Entered (s.obs (φ.sites G)) → x.Valid φ G (s.obs (φ.sites G)) K →
      (∀ p, x = .input p → (s.mem p).state.engaged = true) →
      x.Ready G.total (s.obs (φ.sites G)) s.mem := by
    intro g a K d hsite hE hv heng
    cases x with
    | temp | slots | alt => exact Src.Valid.ready (φ := φ) hv
    | input p =>
        obtain ⟨i, hi⟩ := hv
        obtain ⟨k, n, fs, K', d', j, -, hp⟩ := exists_fork_of_endsAt hsite hi
        exact ⟨mem_total_of_own hp (Join.construct_mem_own k p n), hE p i hi, heng p rfl⟩
  cases fr with
  | exec g a y K =>
      obtain rfl := Option.some.inj hx
      obtain ⟨d, hd, hE, hv, -⟩ := hok
      refine hargs hd hE hv fun p hp => ?_
      subst hp
      exact h.engaged_of_uses hst hfr rfl
  | leafRun a r f y arg K =>
      cases r with
      | false => cases hx
      | true =>
          obtain rfl := Option.some.inj hx
          obtain ⟨t, d, hd, hE, -, hv⟩ := hok
          refine hargs hd hE (hv rfl).1 fun p hp => ?_
          subst hp
          exact h.engaged_of_uses hst hfr rfl
  | allWrite a n i y K =>
      obtain rfl := Option.some.inj hx
      obtain ⟨fs, d, j, -, -, -, hv, -⟩ := hok
      exact hv.ready
  | anyFetchSub a n i t y K | anyWrite a n i t y K =>
      obtain rfl := Option.some.inj hx
      obtain ⟨fs, d, j, -, -, -, -, hv, -⟩ := hok
      exact hv.ready
  | thenCall y =>
      obtain rfl := Option.some.inj hx
      exact hok.1.ready
  | _ => cases hx

end Ready

/-! ### Memories that a run cannot tell apart -/

/-- The same storages, as far as they can be read. -/
def Mem.SameState (m m' : Mem α) : Prop :=
  ∀ a, (m' a).state.engaged = (m a).state.engaged ∧
    ((m a).state.engaged = true → (m' a).state.bytes = (m a).state.bytes)

/-- The same storages, and the same members `_values` where the run has written them. -/
structure Mem.Agree (T O : Multiset Ob) (m m' : Mem α) : Prop where
  state : m.SameState m'
  slots : ∀ a i, Ob.slotWrite a i ∈ T → Ob.slotWrite a i ∉ O → (m' a).slots i = (m a).slots i
  alt : ∀ a, Ob.variantWrite a ∈ T → Ob.variantWrite a ∉ O → (m' a).alt = (m a).alt

theorem Mem.Agree.read_eq {T O : Multiset Ob} {m m' : Mem α} (h : m.Agree T O m') {x : Src α}
    (hx : x.Ready T O m) : x.read m' = x.read m := by
  cases x with
  | temp y => rfl
  | input p =>
      show (m' p).state.bytes.input = (m p).state.bytes.input
      rw [(h.state p).2 hx.2.2]
  | slots a n =>
      have heq : ∀ i : Fin n, (m' a).slots i = (m a).slots i := by
        intro i
        obtain ⟨hT, hO⟩ := hx i i.isLt
        exact h.slots a i hT hO
      simp [Src.read, heq]
  | alt a => exact h.alt a hx.1 hx.2

section SameState

variable {m m' : Mem α} {x : Src α} {c : Choice α}

theorem Mem.SameState.moveFrom (h : m.SameState m') :
    (x.moveFrom m c).SameState (x.moveFrom m' c) := by
  intro a
  rw [Src.moveFrom_state, Src.moveFrom_state]
  exact h a

theorem Mem.SameState.setState (h : m.SameState m') (a : ℕ)
    (st : AlignedStorageFor (SharedState α)) : (m.setState a st).SameState (m'.setState a st) := by
  intro b
  rw [Mem.setState_state, Mem.setState_state]
  split_ifs
  · exact ⟨rfl, fun _ => rfl⟩
  · exact h b

theorem Mem.SameState.setSlots (h : m.SameState m') (a : ℕ) (f f' : ℕ → Value α) :
    (m.setSlots a f).SameState (m'.setSlots a f') := by
  intro b
  rw [Mem.setSlots_state, Mem.setSlots_state]
  exact h b

theorem Mem.SameState.setAlt (h : m.SameState m') (a : ℕ) (y y' : Value α) :
    (m.setAlt a y).SameState (m'.setAlt a y') := by
  intro b
  rw [Mem.setAlt_state, Mem.setAlt_state]
  exact h b

/-- What a consumer leaves behind does not depend on what was there. -/
theorem Src.moveFrom_slots_eq {a i : ℕ} (h : (m' a).slots i = (m a).slots i) :
    (x.moveFrom m' c a).slots i = (x.moveFrom m c a).slots i := by
  cases x with
  | temp | input => exact h
  | slots b n =>
      simp only [moveFrom, Mem.setSlots_slots]
      split_ifs
      · rfl
      · exact h
  | alt b => simpa [moveFrom] using h

theorem Src.moveFrom_alt_eq {a : ℕ} (h : (m' a).alt = (m a).alt) :
    (x.moveFrom m' c a).alt = (x.moveFrom m c a).alt := by
  cases x with
  | temp | input => exact h
  | slots b n => simpa [moveFrom] using h
  | alt b =>
      simp only [moveFrom, Mem.setAlt_alt]
      split_ifs
      · rfl
      · exact h

end SameState

/-! ### Replaying a step -/

/-- `o'` does from `m'` what `o` does from `m`. -/
structure Outcome.Like (m m' : Mem α) (o o' : Outcome α) : Prop where
  event : o'.event = o.event
  frames : o'.frames = o.frames
  spawned : o'.spawned = o.spawned
  state : o.mem.SameState o'.mem
  slots : ∀ a i, (m' a).slots i = (m a).slots i ∨ Ob.slotWrite a i ∈ o.event.discharges →
    (o'.mem a).slots i = (o.mem a).slots i
  alt : ∀ a, (m' a).alt = (m a).alt ∨ Ob.variantWrite a ∈ o.event.discharges →
    (o'.mem a).alt = (o.mem a).alt

/-- Most steps write no member `_values`. -/
theorem Outcome.Like.of_no_write {m m' : Mem α} {o o' : Outcome α} (he : o'.event = o.event)
    (hf : o'.frames = o.frames) (hsp : o'.spawned = o.spawned) (hst : o.mem.SameState o'.mem)
    (hw : ∀ a i, Ob.slotWrite a i ∉ o.event.discharges ∧ Ob.variantWrite a ∉ o.event.discharges)
    (hs : ∀ a i, (m' a).slots i = (m a).slots i → (o'.mem a).slots i = (o.mem a).slots i)
    (ha : ∀ a, (m' a).alt = (m a).alt → (o'.mem a).alt = (o.mem a).alt) : Like m m' o o' := by
  refine ⟨he, hf, hsp, hst, fun a i h => ?_, fun a h => ?_⟩
  · rcases h with h | h
    · exact hs a i h
    · exact absurd h (hw a i).1
  · rcases h with h | h
    · exact ha a h
    · exact absurd h (hw a 0).2

/-- Many leave the memory as it is. -/
theorem Outcome.Like.of_mem {m m' : Mem α} (hm : m.SameState m') {e : Event α}
    {frames spawned : List (Frame α)}
    (hw : ∀ a i, Ob.slotWrite a i ∉ e.discharges ∧ Ob.variantWrite a ∉ e.discharges) :
    Like m m' ⟨e, m, frames, spawned⟩ ⟨e, m', frames, spawned⟩ :=
  .of_no_write rfl rfl rfl hm hw (fun _ _ h => h) fun _ h => h

/-- Others pass an object on, which a consumer may move from. -/
theorem Outcome.Like.of_moveFrom {m m' : Mem α} (hm : m.SameState m') (x : Src α) (c : Choice α)
    {e : Event α} {frames spawned : List (Frame α)}
    (hw : ∀ a i, Ob.slotWrite a i ∉ e.discharges ∧ Ob.variantWrite a ∉ e.discharges) :
    Like m m' ⟨e, x.moveFrom m c, frames, spawned⟩ ⟨e, x.moveFrom m' c, frames, spawned⟩ :=
  .of_no_write rfl rfl rfl hm.moveFrom hw (fun _ _ h => Src.moveFrom_slots_eq h)
    fun _ h => Src.moveFrom_alt_eq h

/-- A storage that is overwritten in both memories is the same afterwards. -/
theorem Outcome.Like.setState {m m' : Mem α} {o o' : Outcome α} (h : Like m m' o o') (a : ℕ)
    (st : AlignedStorageFor (SharedState α)) :
    Like m m' { o with mem := o.mem.setState a st } { o' with mem := o'.mem.setState a st } := by
  refine ⟨h.event, h.frames, h.spawned, h.state.setState a st, fun b i hb => ?_, fun b hb => ?_⟩
  · rw [Mem.setState_slots, Mem.setState_slots]
    exact h.slots b i hb
  · rw [Mem.setState_alt, Mem.setState_alt]
    exact h.alt b hb

/-- **A step is a function of what it reads**: from a memory with the same storages, in
which its source is the same, a frame does the same. -/
theorem Fires.replay {m m' : Mem α} {c : Choice α} {fr : Frame α} {o : Outcome α}
    (hf : Fires m c fr o) (hm : m.SameState m')
    (hx : ∀ x, fr.source? = some x → x.read m' = x.read m) :
    ∃ o' : Outcome α, Fires m' c fr o' ∧ Outcome.Like m m' o o' := by
  have heng : ∀ {a}, (m a).state.engaged = true → (m' a).state.engaged = true :=
    fun {a} h => (hm a).1.trans h
  have hbytes : ∀ {a}, (m a).state.engaged = true →
      (m' a).state.bytes = (m a).state.bytes := fun {a} h => (hm a).2 h
  cases hf with
  | leafCall t r f a input K =>
      refine ⟨_, .leafCall t r f a input K, ?_⟩
      rw [hx input rfl]
      cases r with
      | false => exact .of_moveFrom hm input c (by simp [Event.discharges])
      | true => exact .of_mem hm (by simp [Event.discharges])
  | construct k fs a input K h =>
      have h' : (input.moveFrom m' c a).state.engaged = false := by
        rw [Src.moveFrom_state] at h ⊢
        exact (hm a).1.trans h
      refine ⟨_, .construct k fs a input K h', ?_⟩
      rw [hx input rfl]
      exact (Outcome.Like.of_moveFrom hm input c (by simp [Event.discharges])).setState a _
  | leafRet a r f input arg K =>
      have harg : (if r then input.read m' else arg) = if r then input.read m else arg := by
        cases r
        · rfl
        · exact hx input rfl
      refine ⟨_, .leafRet a r f input arg K, ?_⟩
      rw [harg]
      exact .of_mem hm (by simp [Event.discharges])
  | slotWrite a n i out K =>
      -- the slot that is written gets the same value, the others keep theirs
      refine ⟨_, .slotWrite a n i out K, rfl, rfl, rfl, hm.moveFrom.setSlots a _ _, ?_, ?_⟩
      · intro b j h
        rw [hx out rfl]
        simp only [Mem.setSlots_slots, Event.discharges, Multiset.mem_singleton] at h ⊢
        by_cases hb : b = a
        · subst hb
          rw [if_pos rfl, if_pos rfl]
          by_cases hj : j = i
          · subst hj
            rw [Function.update_self, Function.update_self]
          · rw [Function.update_of_ne hj, Function.update_of_ne hj]
            rcases h with h | h
            · exact Src.moveFrom_slots_eq h
            · exact absurd (Ob.slotWrite.inj h).2 hj
        · rw [if_neg hb, if_neg hb]
          rcases h with h | h
          · exact Src.moveFrom_slots_eq h
          · exact absurd (Ob.slotWrite.inj h).1 hb
      · intro b h
        rw [Mem.setSlots_alt, Mem.setSlots_alt]
        rcases h with h | h
        · exact Src.moveFrom_alt_eq h
        · simp [Event.discharges] at h
  | variantWrite a n i t out K =>
      refine ⟨_, .variantWrite a n i t out K, rfl, rfl, rfl, hm.moveFrom.setAlt a _ _, ?_, ?_⟩
      · intro b j h
        rw [Mem.setAlt_slots, Mem.setAlt_slots]
        rcases h with h | h
        · exact Src.moveFrom_slots_eq h
        · simp [Event.discharges] at h
      · intro b h
        rw [hx out rfl]
        simp only [Mem.setAlt_alt, Event.discharges, Multiset.mem_singleton] at h ⊢
        split_ifs with hb
        · rfl
        · rcases h with h | h
          · exact Src.moveFrom_alt_eq h
          · exact absurd (Ob.variantWrite.inj h) hb
  | thenCall res =>
      refine ⟨_, .thenCall res, ?_⟩
      rw [hx res rfl]
      exact .of_moveFrom hm res c (by simp [Event.discharges])
  | allFetchSub a n i K h =>
      refine ⟨_, .allFetchSub a n i K (heng h), ?_⟩
      rw [hbytes h, (hm a).1]
      exact (Outcome.Like.of_mem hm (by simp [Event.discharges])).setState a _
  | anyFetchSub a n i t out K h =>
      refine ⟨_, .anyFetchSub a n i t out K (heng h), ?_⟩
      rw [hbytes h, (hm a).1]
      exact (Outcome.Like.of_mem hm (by simp [Event.discharges])).setState a _
  | allDestroy a n K h =>
      refine ⟨_, .allDestroy a n K (heng h), ?_⟩
      rw [hbytes h]
      exact (Outcome.Like.of_mem hm (by simp [Event.discharges])).setState a _
  | anyDestroy a n h =>
      refine ⟨_, .anyDestroy a n (heng h), ?_⟩
      rw [hbytes h]
      exact (Outcome.Like.of_mem hm (by simp [Event.discharges])).setState a _
  | seqExec A B a input K =>
      exact ⟨_, .seqExec A B a input K, .of_mem hm (by simp [Event.discharges])⟩
  | tempDrop a out => exact ⟨_, .tempDrop a out, .of_mem hm (by simp [Event.discharges])⟩
  | submitInline k a fs i K h =>
      exact ⟨_, .submitInline k a fs i K h, .of_mem hm (by simp [Event.discharges])⟩
  | submitThread k a fs i K h =>
      exact ⟨_, .submitThread k a fs i K h, .of_mem hm (by simp [Event.discharges])⟩
  | schedRet k a fs i K =>
      exact ⟨_, .schedRet k a fs i K, .of_mem hm (by simp [Event.discharges])⟩
  | inputRead k a fs i K h =>
      exact ⟨_, .inputRead k a fs i K (heng h), .of_mem hm (by simp [Event.discharges])⟩
  | cleanup a => exact ⟨_, .cleanup a, .of_mem hm (by simp [Event.discharges])⟩
  | thenRet => exact ⟨_, .thenRet, .of_mem hm (by simp [Event.discharges])⟩
  | countDown q => exact ⟨_, .countDown q, .of_mem hm (by simp [Event.discharges])⟩

/-! ### Replaying a run -/

section Replay

variable {φ : Flow.{u, v} α} {G : Node α} {s : State α} {m m' : Mem α} {x : Value α}
  {τ : List (ℕ × Event α)}

/-- Memories that agree on what was written still do after the same step. -/
theorem Inv.agree_after (h : Inv φ G s) {t : ℕ} {c : Choice α} {fr : Frame α}
    {rest : List (Frame α)} {o : Outcome α} (ht : s.threads[t]? = some (fr :: rest))
    (hf : Fires s.mem c fr o) (hA : s.mem.Agree G.total (s.obs (φ.sites G)) m') :
    ∃ o' : Outcome α, Fires m' c fr o' ∧ o'.event = o.event ∧ o'.frames = o.frames ∧
      o'.spawned = o.spawned ∧
      o.mem.Agree G.total ((s.after t rest o).obs (φ.sites G)) o'.mem := by
  have T := h.transfer ht hf
  obtain ⟨o', hf', hlike⟩ := hf.replay hA.state fun y hy =>
    hA.read_eq (h.source_ready (List.mem_of_getElem? ht) (List.mem_cons_self ..) hy)
  refine ⟨o', hf', hlike.event, hlike.frames, hlike.spawned, hlike.state,
    fun a i hT hO => ?_, fun a hT hO => ?_⟩
  · apply hlike.slots a i
    by_cases hold : Ob.slotWrite a i ∈ s.obs (φ.sites G)
    · exact .inr (T.lost hold hO (by simp))
    · exact .inl (hA.slots a i hT hold)
  · apply hlike.alt a
    by_cases hold : Ob.variantWrite a ∈ s.obs (φ.sites G)
    · exact .inr (T.lost hold hO (by simp))
    · exact .inl (hA.alt a hT hold)

/-- **A run can be replayed from any other contents of `_values`**: with the same events,
so with the same arguments and results, and on the same threads. -/
theorem replay (hm : m.Unengaged) (hm' : m'.Unengaged)
    (hr : Run Step (State.start G m x) τ s) :
    ∃ s', Run Step (State.start G m' x) τ s' ∧ s'.threads = s.threads ∧ s'.latch = s.latch ∧
      s.mem.Agree G.total (s.owed G) s'.mem := by
  have h := hr.invariant (I := fun τ s => Inv Flow.trivial G s ∧
    ∃ s', Run Step (State.start G m' x) τ s' ∧ s'.threads = s.threads ∧ s'.latch = s.latch ∧
      s.mem.Agree G.total (s.owed G) s'.mem) ⟨Inv.start hm trivial, ?_⟩ ?_
  · exact h.2
  · refine ⟨State.start G m' x, .refl, rfl, rfl, fun a => ⟨?_, fun he => ?_⟩,
      fun a i hT hO => ?_, fun a hT hO => ?_⟩
    · exact (hm' a).trans (hm a).symm
    · exact absurd he (by rw [show (State.start G m x).mem = m from rfl, hm a]; simp)
    · rw [State.owed, State.obs_start hm] at hO
      exact absurd hT hO
    · rw [State.owed, State.obs_start hm] at hO
      exact absurd hT hO
  · rintro σ u ⟨t, e⟩ u' - ⟨hu, u₁, hr₁, hth, hlatch, hA⟩ hstep
    refine ⟨(hu.step hstep trivial).1, ?_⟩
    obtain ⟨c, fr, rest, o, ht, hf, rfl, rfl⟩ := step_iff.mp hstep
    obtain ⟨o', hf', he, hfr, hsp, hA'⟩ := hu.agree_after ht hf hA
    -- the same frame of the same thread moves
    refine ⟨u₁.after t rest o', hr₁.tail ?_, ?_, ?_, hA'⟩
    · exact step_iff.mpr ⟨c, fr, rest, o', by rw [hth]; exact ht, hf', he, rfl⟩
    · simp only [State.after, hth, hfr, hsp]
    · simp only [State.after, hlatch, he]

end Replay

/-! ### Successive calls -/

/-- A graph object in use: the call of `sync_execute` that is in progress, or was the last
one, and what is left of the earlier calls.  The memory is the one of the former. -/
structure Session (α : Type u) where
  call : State α
  past : List (State α)

/-- What happens to a graph object in use. -/
inductive Use (α : Type u)
  /-- a step of the call -/
  | now (l : ℕ × Event α)
  /-- a step of a thread of the `j`-th call, which has returned -/
  | late (j : ℕ) (l : ℕ × Event α)
  /-- the call returns, and the next one is made -/
  | again

/-- Threads of earlier calls run against the same memory. -/
inductive Session.Step (G : Node α) : Session α → Use α → Session α → Prop
  | now {u : Session α} {l s'} (h : Orizzonte.Step u.call l s') :
      Step G u (.now l) ⟨s', u.past⟩
  | late {u : Session α} {j v l v'} (hj : u.past[j]? = some v)
      (h : Orizzonte.Step { v with mem := u.call.mem } l v') :
      Step G u (.late j l) ⟨{ u.call with mem := v'.mem }, u.past.set j v'⟩
  | again {u : Session α} (h : u.call.Returns) :
      Step G u .again ⟨State.syncExecute G u.call.mem, u.past ++ [u.call]⟩

/-- The first call on a graph object. -/
def Session.start (G : Node α) (m : Mem α) : Session α := ⟨State.syncExecute G m, []⟩

/-- The events of the call in progress. -/
def thisCall (ρ : List (Use α)) : List (ℕ × Event α) :=
  ρ.foldl (fun τ l => match l with
    | .now e => τ ++ [e]
    | .late _ _ => τ
    | .again => []) []

@[simp] theorem thisCall_nil : thisCall ([] : List (Use α)) = [] := rfl

@[simp] theorem thisCall_now (ρ : List (Use α)) (l : ℕ × Event α) :
    thisCall (ρ ++ [.now l]) = thisCall ρ ++ [l] := by
  rw [thisCall, List.foldl_append]
  rfl

@[simp] theorem thisCall_late (ρ : List (Use α)) (j : ℕ) (l : ℕ × Event α) :
    thisCall (ρ ++ [.late j l]) = thisCall ρ := by
  rw [thisCall, List.foldl_append]
  rfl

@[simp] theorem thisCall_again (ρ : List (Use α)) : thisCall (ρ ++ [.again]) = [] := by
  rw [thisCall, List.foldl_append]
  rfl

/-- What a run of a call shows until no step is left. -/
def State.traces (s : State α) : Set (List (ℕ × Event α)) :=
  {τ | ∃ s', Run Orizzonte.Step s τ s' ∧ Stuck Orizzonte.Step s'}

/-- What the next call on a graph object in use shows until no step of it is left. -/
def Session.nextTraces (G : Node α) (u : Session α) : Set (List (ℕ × Event α)) :=
  {τ | ∃ ρ v, Run (Session.Step G) u (.again :: ρ) v ∧ .again ∉ ρ ∧ thisCall ρ = τ ∧
    Stuck Orizzonte.Step v.call}

/-- All parts of the object were written in the run `τ`. -/
def Src.WrittenIn (τ : List (ℕ × Event α)) : Src α → Prop
  | temp _ => True
  | input p => ∃ t, (t, Event.construct p) ∈ τ
  | slots a n => ∀ i < n, ∃ t, (t, Event.slotWrite a i) ∈ τ
  | alt a => ∃ t, (t, Event.variantWrite a) ∈ τ

section Reuse

variable {G : Node α} {s s' : State α} {m m' : Mem α} {x : Value α} {τ : List (ℕ × Event α)}
  {ρ : List (Use α)} {u : Session α}

theorem Src.Ready.writtenIn (hm : m.Unengaged) (hr : Run Step (State.start G m x) τ s)
    {y : Src α} (hy : y.Ready G.total (s.owed G) s.mem) : y.WrittenIn τ := by
  -- an action that was owed at the start and is not owed now is in the run
  have hdone : ∀ o : Ob, (∀ q, o ≠ .read q) → o ∈ G.total ∧ o ∉ s.owed G →
      ∃ l ∈ τ, o ∈ l.2.discharges := by
    rintro o ho ⟨hT, hO⟩
    rw [mem_owed_iff hm hr ho, and_iff_right hT] at hO
    push Not at hO
    exact hO
  cases y with
  | temp y => exact True.intro
  | input p =>
      obtain ⟨⟨t, e⟩, hl, he⟩ := hdone (.construct p) (by simp) ⟨hy.1, hy.2.1⟩
      cases e <;> simp [Event.discharges] at he
      subst he
      exact ⟨t, hl⟩
  | slots a n =>
      intro i hi
      obtain ⟨⟨t, e⟩, hl, he⟩ := hdone (.slotWrite a i) (by simp) (hy i hi)
      cases e <;> simp [Event.discharges] at he
      obtain ⟨rfl, rfl⟩ := he
      exact ⟨t, hl⟩
  | alt a =>
      obtain ⟨⟨t, e⟩, hl, he⟩ := hdone (.variantWrite a) (by simp) hy
      cases e <;> simp [Event.discharges] at he
      subst he
      exact ⟨t, hl⟩

/-- A run of one call is a run of the object in use. -/
theorem Session.run_now (hr : Run Orizzonte.Step s τ s') (past : List (State α)) :
    Run (Session.Step G) ⟨s, past⟩ (τ.map .now) ⟨s', past⟩ := by
  induction hr with
  | refl => exact .refl
  | @tail σ v l v' _ hl ih =>
      rw [List.map_append]
      exact ih.tail (.now (u := ⟨v, past⟩) hl)

theorem thisCall_map_now (τ : List (ℕ × Event α)) : thisCall (τ.map .now) = τ := by
  induction τ using List.reverseRecOn with
  | nil => rfl
  | append_singleton τ l ih =>
      rw [List.map_append, List.map_singleton, thisCall_now, ih]

theorem thisCall_append_again (ρ₀ : List (Use α)) :
    thisCall (ρ₀ ++ .again :: ρ) = thisCall ρ := by
  rw [thisCall, List.foldl_append, List.foldl_cons]
  rfl

/-- Each call is a run from a memory without engaged storages, and the threads of the earlier
ones are quiet. -/
theorem Session.call_run (hm : m.Unengaged)
    (hr : Run (Session.Step G) (Session.start G m) ρ u) :
    (∃ m', m'.Unengaged ∧ Run Orizzonte.Step (State.syncExecute G m') (thisCall ρ) u.call) ∧
      ∀ v ∈ u.past, v.Quiet := by
  refine hr.invariant (I := fun ρ u => (∃ m', m'.Unengaged ∧
    Run Orizzonte.Step (State.syncExecute G m') (thisCall ρ) u.call) ∧ ∀ v ∈ u.past, v.Quiet)
    ⟨⟨m, hm, .refl⟩, by simp [Session.start]⟩ ?_
  rintro σ u l u' - ⟨⟨m', hm', hcall⟩, hpast⟩ hstep
  cases hstep with
  | now h =>
      refine ⟨⟨m', hm', ?_⟩, hpast⟩
      rw [thisCall_now]
      exact hcall.tail h
  | @late j v l v' hj h =>
      -- a quiet thread does not touch the memory
      have hq : ({ v with mem := u.call.mem } : State α).Quiet := hpast v (List.mem_of_getElem? hj)
      obtain ⟨hq', -, hmem, -⟩ := hq.step (t := l.1) h
      have hmem' : v'.mem = u.call.mem := hmem
      refine ⟨⟨m', hm', ?_⟩, fun w hw => ?_⟩
      · rw [thisCall_late, hmem']
        exact hcall
      · rcases List.mem_or_eq_of_mem_set hw with hw | rfl
        · exact hpast w hw
        · exact hq'
  | again h =>
      refine ⟨⟨u.call.mem, ?_, ?_⟩, fun v hv => ?_⟩
      · exact unengaged_of_latch hm' hcall h.2
      · rw [thisCall_again]
        exact .refl
      · rcases List.mem_append.mp hv with hv | hv
        · exact hpast v hv
        · obtain rfl := List.mem_singleton.mp hv
          exact quiet_of_owed_eq_zero (owed_eq_zero_of_latch hm' hcall h.2)

/-- Whether a step is left can be seen from the threads. -/
theorem stuck_of_threads_eq (hm : m.Unengaged) (hr : Run Step (State.start G m x) τ s)
    (hs : Stuck Step s) (h : s'.threads = s.threads) : Stuck Step s' := by
  apply stuck_of_returned
  rw [h]
  exact (Inv.reached hm hr).stuck_iff.mp hs

theorem Session.traces_subset (hm : m.Unengaged) (hm' : m'.Unengaged) :
    (State.start G m x).traces ⊆ (State.start G m' x).traces := by
  rintro τ ⟨s, hr, hs⟩
  obtain ⟨s', hr', hth, -, -⟩ := replay hm hm' hr
  exact ⟨s', hr', stuck_of_threads_eq hm hr hs hth⟩

/-- **A graph can be used again.**  Whatever earlier calls did, and wherever their threads
are, the events of a call are those of a run on a fresh graph object, with the same
threads, the same counter and the same storages.  What a program point reads next was
written in this call; no assertion of a storage fails; `_left` is the arity less the
number of children that were counted in this call; when the call returns no storage is
engaged, and the complete runs of the next call show exactly what those of a fresh object
show. -/
theorem reuse (hm : m.Unengaged) (hr : Run (Session.Step G) (Session.start G m) ρ u) :
    (∃ s, Run Orizzonte.Step (State.syncExecute G Mem.fresh) (thisCall ρ) s ∧
      s.threads = u.call.threads ∧ s.latch = u.call.latch ∧ u.call.mem.SameState s.mem) ∧
    (∀ st ∈ u.call.threads, ∀ fr ∈ st, ∀ y, fr.source? = some y → y.WrittenIn (thisCall ρ)) ∧
    (∀ v ∈ u.past, v.Quiet) ∧ (∀ t c e, u.call.step t c ≠ some (.error e)) ∧
    (∀ a N, (a, N) ∈ G.forks 0 → a ∈ constructs (thisCall ρ) →
      (u.call.mem a).state.bytes.left = N - (fetchSubs a (thisCall ρ)).length) ∧
    (u.call.Returns → u.call.mem.Unengaged ∧
      u.nextTraces G = (State.syncExecute G Mem.fresh).traces) := by
  obtain ⟨⟨m', hm', hcall⟩, hpast⟩ := Session.call_run hm hr
  refine ⟨?_, fun st hst fr hfr y hy => ?_, hpast,
    (Inv.reached hm' hcall).no_assertion, fun a N hN ha => ?_, fun hret => ?_⟩
  · obtain ⟨s, hs, hth, hl, hA⟩ := replay hm' Mem.fresh_unengaged hcall
    exact ⟨s, hs, hth, hl, hA.state⟩
  · exact ((Inv.reached hm' hcall).source_ready hst hfr hy).writtenIn hm' hcall
  · have hc : Ob.construct a ∉ u.call.owed G := by
      rw [mem_owed_iff hm' hcall (by simp), done_iff_mem_observed fun _ => mem_discharges_construct]
      exact fun h => h.2 ha
    exact (fetchSubs_count_down hm' hcall hN).left hc
  · have hmem : u.call.mem.Unengaged := (latch_zero_quiet hm' hcall hret.2).2.2
    refine ⟨hmem, Set.Subset.antisymm ?_ ?_⟩
    · -- a call on the used object can be replayed on a fresh one
      rintro τ ⟨σ, v, hv, -, rfl, hs⟩
      obtain ⟨⟨m₁, hm₁, hcall₁⟩, -⟩ := Session.call_run hm (hr.trans hv)
      rw [thisCall_append_again] at hcall₁
      exact Session.traces_subset hm₁ Mem.fresh_unengaged ⟨v.call, hcall₁, hs⟩
    · -- and the other way round
      intro τ hτ
      obtain ⟨s, hs, hstuck⟩ := Session.traces_subset Mem.fresh_unengaged hmem hτ
      refine ⟨τ.map .now, ⟨s, u.past ++ [u.call]⟩, ?_, by simp, thisCall_map_now τ, hstuck⟩
      exact .head (.again hret) (Session.run_now hs _)

/-- A second race on the graph object that the first one left. -/
def raceAgain : List (ℕ × Event ℕ) × State ℕ :=
  ((State.syncExecute race raceRun.2.mem).drive
    (List.replicate 12 (0, default) ++ List.replicate 8 (1, default))).getD default

theorem run_raceAgain :
    Run (Session.Step race) (Session.start race Mem.fresh)
      (raceRun.1.map .now ++ (.again :: raceAgain.1.map .now)) ⟨raceAgain.2, [raceRun.2]⟩ := by
  apply (Session.run_now run_raceRun []).trans
  apply Run.head (.again ⟨rfl, rfl⟩)
  apply Session.run_now
  exact @run_of_drive _ _ _ _ (List.replicate 12 (0, default) ++ List.replicate 8 (1, default)) rfl

theorem reuse_race :
    (∃ s, Run Orizzonte.Step (State.syncExecute race Mem.fresh)
        (thisCall (raceRun.1.map .now ++ (.again :: raceAgain.1.map .now))) s ∧
      s.threads = raceAgain.2.threads ∧ s.latch = raceAgain.2.latch ∧
      raceAgain.2.mem.SameState s.mem) ∧
    (∀ st ∈ raceAgain.2.threads, ∀ fr ∈ st, ∀ y, fr.source? = some y →
      y.WrittenIn (thisCall (raceRun.1.map .now ++ (.again :: raceAgain.1.map .now)))) ∧
    (∀ v ∈ [raceRun.2], v.Quiet) ∧ (∀ t c e, raceAgain.2.step t c ≠ some (.error e)) ∧
    (∀ a N, (a, N) ∈ race.forks 0 →
      a ∈ constructs (thisCall (raceRun.1.map .now ++ (.again :: raceAgain.1.map .now))) →
      (raceAgain.2.mem a).state.bytes.left = N - (fetchSubs a
        (thisCall (raceRun.1.map .now ++ (.again :: raceAgain.1.map .now)))).length) ∧
    raceAgain.2.mem.Unengaged ∧
    Session.nextTraces race ⟨raceAgain.2, [raceRun.2]⟩ =
      (State.syncExecute race Mem.fresh).traces := by
  obtain ⟨hcall, hwritten, hpast, hsafe, hleft, hnext⟩ := reuse Mem.fresh_unengaged run_raceAgain
  exact ⟨hcall, hwritten, hpast, hsafe, hleft, hnext ⟨rfl, rfl⟩⟩

end Reuse

end Orizzonte
