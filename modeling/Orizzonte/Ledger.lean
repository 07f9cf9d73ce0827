/-
Orizzonte/Ledger.lean

The balance of a step.  What a state owes is what the frames on its stacks owe and
what the engaged all and any nodes owe (`State.obs`).  A step discharges the
obligation its event stands for and moves the others: from a frame to the frames
that replace it, to a new thread, into the memory of a node (`construct`), or out
of it (the first or the last `fetch_sub`).  Nothing else is lost but rights to read
a `_values` that a consumer gives up (`Fires.balance`).

The moves in and out of memory are right only while the counter of the node is in
range, which is `Frame.Fits`; that it is, for every reachable state, is proved in
the next module from the ledger itself.
-/
import Orizzonte.Fires
import Orizzonte.Site

namespace Orizzonte

variable {α D : Type*}

/-! ### What a state owes -/

/-- What `_state` of an all or any node with `n + 1` children and continuation `K`
owes: everything its last `fetch_sub` will hand out, and before the first one, in an
any node, what that one will. -/
def Join.owes (k : Join) (a n : ℕ) (K : Cont α) (st : AlignedStorageFor (SharedState α)) :
    Multiset Ob :=
  if st.engaged = true ∧ 1 ≤ st.bytes.left then
    match k with
    | all => all.lastObs a + K.obs
    | any => any.lastObs a + if st.bytes.left = n + 1 then any.firstObs a + K.obs else 0
  else 0

def Site.owes (m : Mem α) (x : Site α D) : Multiset Ob :=
  match x.node with
  | @Node.fork _ k n _ => k.owes x.addr n x.cont (m x.addr).state
  | _ => 0

/-- What the nodes of a graph owe, for the sites `l` of the graph. -/
def Mem.obs (l : List (Site α D)) (m : Mem α) : Multiset Ob := (l.map (Site.owes m)).sum

def stackObs (st : List (Frame α)) : Multiset Ob := (st.map Frame.obs).sum

def State.obs (l : List (Site α D)) (s : State α) : Multiset Ob :=
  (s.threads.map stackObs).sum + s.mem.obs l

/-! ### Members of a node that a memory operation leaves alone -/

namespace Mem

variable (m : Mem α) (a b : ℕ)

/-- A field of a node, after the node at `a` was replaced. -/
theorem field_update {β : Type*} (f : NodeMem α → β) (x : NodeMem α) :
    f (Function.update m a x b) = if b = a then f x else f (m b) := by
  rw [Function.update_apply, apply_ite f]

/-- A field that is the same in the new node is the same everywhere. -/
theorem field_update_of_eq {β : Type*} (f : NodeMem α → β) {x : NodeMem α} (h : f x = f (m a)) :
    f (Function.update m a x b) = f (m b) := by
  rw [field_update m a b f x]
  split_ifs with hb
  · rw [h, hb]
  · rfl

@[simp] theorem setState_state (st : AlignedStorageFor (SharedState α)) :
    (m.setState a st b).state = if b = a then st else (m b).state :=
  field_update m a b NodeMem.state _

@[simp] theorem setState_slots (st : AlignedStorageFor (SharedState α)) :
    (m.setState a st b).slots = (m b).slots :=
  field_update_of_eq m a b NodeMem.slots rfl

@[simp] theorem setState_alt (st : AlignedStorageFor (SharedState α)) :
    (m.setState a st b).alt = (m b).alt :=
  field_update_of_eq m a b NodeMem.alt rfl

@[simp] theorem setSlots_state (f : ℕ → Value α) :
    (m.setSlots a f b).state = (m b).state :=
  field_update_of_eq m a b NodeMem.state rfl

@[simp] theorem setSlots_slots (f : ℕ → Value α) :
    (m.setSlots a f b).slots = if b = a then f else (m b).slots :=
  field_update m a b NodeMem.slots _

@[simp] theorem setSlots_alt (f : ℕ → Value α) : (m.setSlots a f b).alt = (m b).alt :=
  field_update_of_eq m a b NodeMem.alt rfl

@[simp] theorem setAlt_state (x : Value α) : (m.setAlt a x b).state = (m b).state :=
  field_update_of_eq m a b NodeMem.state rfl

@[simp] theorem setAlt_slots (x : Value α) : (m.setAlt a x b).slots = (m b).slots :=
  field_update_of_eq m a b NodeMem.slots rfl

@[simp] theorem setAlt_alt (x : Value α) :
    (m.setAlt a x b).alt = if b = a then x else (m b).alt :=
  field_update m a b NodeMem.alt _

end Mem

@[simp] theorem Src.moveFrom_state (x : Src α) (m : Mem α) (c : Choice α) (b : ℕ) :
    (x.moveFrom m c b).state = (m b).state := by
  cases x <;> simp [moveFrom]

/-- Only an object that was passed as an rvalue is changed by its consumer. -/
theorem Src.moveFrom_slots (x : Src α) (m : Mem α) (c : Choice α) {q : ℕ}
    (h : Ob.read q ∉ x.obs) : (x.moveFrom m c q).slots = (m q).slots := by
  cases x with
  | temp | input => rfl
  | slots a n =>
      have hq : q ≠ a := fun e => h (by simp [obs, e])
      simp [moveFrom, hq]
  | alt a => simp [moveFrom]

theorem Src.moveFrom_alt (x : Src α) (m : Mem α) (c : Choice α) {q : ℕ}
    (h : Ob.read q ∉ x.obs) : (x.moveFrom m c q).alt = (m q).alt := by
  cases x with
  | temp | input => rfl
  | slots a n => simp [moveFrom]
  | alt a =>
      have hq : q ≠ a := fun e => h (by simp [obs, e])
      simp [moveFrom, hq]

theorem Src.exists_read_of_mem_obs {x : Src α} {o : Ob} (h : o ∈ x.obs) : ∃ q, o = .read q := by
  cases x with
  | temp | input => simp [obs] at h
  | slots a n => exact ⟨a, by simpa [obs] using h⟩
  | alt a => exact ⟨a, by simpa [obs] using h⟩

/-! ### What a node owes before and after its counter changes -/

section Owes

variable {k : Join} {a n : ℕ} {K : Cont α} {st : AlignedStorageFor (SharedState α)}

/-- An all node owes its continuation until the last `fetch_sub`. -/
theorem Join.owes_all : all.owes a n K st =
    if st.engaged = true ∧ 1 ≤ st.bytes.left then all.lastObs a + K.obs else 0 := rfl

/-- An any node owes its continuation until the first `fetch_sub`. -/
theorem Join.owes_any : any.owes a n K st =
    if st.engaged = true ∧ 1 ≤ st.bytes.left then
      any.lastObs a + if st.bytes.left = n + 1 then any.firstObs a + K.obs else 0
    else 0 := rfl

theorem Join.owes_of_not_engaged (h : st.engaged = false) : k.owes a n K st = 0 := by
  simp [owes, h]

theorem Join.owes_of_left_lt (h : st.bytes.left < 1) : k.owes a n K st = 0 := by
  simp only [owes]
  exact if_neg fun hst => absurd hst.2 (not_le.mpr h)

/-- After `construct`, a node owes its continuation and all its own actions. -/
theorem Join.owes_construct (x : Value α) :
    k.owes a n K ⟨⟨x, n + 1⟩, true⟩ = k.firstObs a + k.lastObs a + K.obs := by
  have h : (1 : ℤ) ≤ (n : ℤ) + 1 := by omega
  cases k with
  | all => simp [owes, h, firstObs]
  | any => simp [owes, h, add_comm, add_assoc]

/-- The last `fetch_sub` on an all node takes everything it owed. -/
theorem Join.owes_all_fetchSub (h : st.engaged = true) (hl : 1 ≤ st.bytes.left) :
    all.owes a n K st = (if st.bytes.left = 1 then all.lastObs a + K.obs else 0) +
      all.owes a n K ⟨⟨st.bytes.input, st.bytes.left - 1⟩, st.engaged⟩ := by
  by_cases h1 : st.bytes.left = 1
  · simp [owes, h, h1]
  · have h2 : 1 ≤ st.bytes.left - 1 := by omega
    simp only [owes, h, hl, h1, h2, true_and, if_true, if_false, zero_add]

/-- The first `fetch_sub` on an any node takes its continuation, the last one the rest. -/
theorem Join.owes_any_fetchSub (h : st.engaged = true) (hl : 1 ≤ st.bytes.left)
    (hu : st.bytes.left ≤ n + 1) :
    any.owes a n K st = (if st.bytes.left = n + 1 then any.firstObs a + K.obs else 0) +
      (if st.bytes.left = 1 then any.lastObs a else 0) +
      any.owes a n K ⟨⟨st.bytes.input, st.bytes.left - 1⟩, st.engaged⟩ := by
  have hne : st.bytes.left - 1 ≠ n + 1 := by omega
  by_cases h1 : st.bytes.left = 1
  · simp [owes, h, h1, add_comm]
  · have h2 : 1 ≤ st.bytes.left - 1 := by omega
    simp only [owes, h, hl, h1, h2, true_and, if_true, if_false, hne, add_zero]
    exact add_comm _ _

end Owes

/-! ### The memory of a graph -/

section Mem

variable {out : Node α → ℕ → D → D} {G : Node α} {d₀ d : D} {m m' : Mem α}

theorem Mem.obs_congr {l : List (Site α D)} (h : ∀ a, (m' a).state = (m a).state) :
    m'.obs l = m.obs l := by
  unfold obs
  congr 1
  apply List.map_congr_left
  intro x _
  unfold Site.owes
  split <;> simp [h]

/-- Only the node whose `_state` changes owes something else afterwards. -/
theorem Mem.obs_setState {k : Join} {n : ℕ} {fs : Fin (n + 1) → Node α} {a : ℕ} {K : Cont α}
    (hx : ⟨.fork k fs, a, K, d⟩ ∈ G.sites out 0 .root d₀)
    (st : AlignedStorageFor (SharedState α)) :
    (m.setState a st).obs (G.sites out 0 .root d₀) + k.owes a n K (m a).state =
      m.obs (G.sites out 0 .root d₀) + k.owes a n K st := by
  have hoff : ∀ y ∈ G.sites out 0 .root d₀, y ≠ ⟨.fork k fs, a, K, d⟩ →
      y.owes (m.setState a st) = y.owes m := by
    rintro ⟨g, b, K', d'⟩ hy hne
    cases g with
    | leaf | seq => rfl
    | fork k' fs' =>
        have hb : b ≠ a := fun e => hne (Node.fork_site_ext (e ▸ hy) hx |>.symm ▸ e ▸ rfl)
        simp [Site.owes, hb]
  have h := Tally.sum_map_of_eq_off (G.nodup_sites 0 .root d₀) hx hoff
  simpa [Mem.obs, Site.owes] using h

section Operations

variable {n : ℕ} {fs : Fin (n + 1) → Node α} {a : ℕ} {K : Cont α}

/-- `construct` puts the continuation and the node's own actions into the memory. -/
theorem Mem.obs_construct {k : Join} (hx : ⟨.fork k fs, a, K, d⟩ ∈ G.sites out 0 .root d₀)
    (h : (m a).state.engaged = false) (x : Value α) :
    (m.setState a ⟨⟨x, n + 1⟩, true⟩).obs (G.sites out 0 .root d₀) =
      m.obs (G.sites out 0 .root d₀) + (k.firstObs a + k.lastObs a + K.obs) := by
  have hset := Mem.obs_setState hx (m := m) ⟨⟨x, n + 1⟩, true⟩
  rwa [Join.owes_of_not_engaged h, add_zero, Join.owes_construct] at hset

/-- `fetch_sub` on an all node. -/
theorem Mem.obs_allFetchSub (hx : ⟨.all fs, a, K, d⟩ ∈ G.sites out 0 .root d₀)
    (h : (m a).state.engaged = true) (hl : 1 ≤ (m a).state.bytes.left) :
    m.obs (G.sites out 0 .root d₀) =
      (if (m a).state.bytes.left = 1 then Join.all.lastObs a + K.obs else 0) +
        (m.setState a ⟨⟨(m a).state.bytes.input, (m a).state.bytes.left - 1⟩,
          (m a).state.engaged⟩).obs (G.sites out 0 .root d₀) := by
  have hset := Mem.obs_setState hx (m := m)
    ⟨⟨(m a).state.bytes.input, (m a).state.bytes.left - 1⟩, (m a).state.engaged⟩
  rw [Join.owes_all_fetchSub h hl, ← add_assoc] at hset
  rw [← add_right_cancel hset, add_comm]

/-- `fetch_sub` on an any node. -/
theorem Mem.obs_anyFetchSub (hx : ⟨.any fs, a, K, d⟩ ∈ G.sites out 0 .root d₀)
    (h : (m a).state.engaged = true) (hl : 1 ≤ (m a).state.bytes.left)
    (hu : (m a).state.bytes.left ≤ n + 1) :
    m.obs (G.sites out 0 .root d₀) =
      (if (m a).state.bytes.left = n + 1 then Join.any.firstObs a + K.obs else 0) +
        (if (m a).state.bytes.left = 1 then Join.any.lastObs a else 0) +
        (m.setState a ⟨⟨(m a).state.bytes.input, (m a).state.bytes.left - 1⟩,
          (m a).state.engaged⟩).obs (G.sites out 0 .root d₀) := by
  have hset := Mem.obs_setState hx (m := m)
    ⟨⟨(m a).state.bytes.input, (m a).state.bytes.left - 1⟩, (m a).state.engaged⟩
  rw [Join.owes_any_fetchSub h hl hu, ← add_assoc] at hset
  rw [← add_right_cancel hset, add_comm]

/-- After the last `fetch_sub`, `destroy` takes nothing. -/
theorem Mem.obs_destroy {k : Join} (hx : ⟨.fork k fs, a, K, d⟩ ∈ G.sites out 0 .root d₀)
    (hl : (m a).state.bytes.left < 1) :
    (m.setState a ⟨(m a).state.bytes, false⟩).obs (G.sites out 0 .root d₀) =
      m.obs (G.sites out 0 .root d₀) := by
  have hset := Mem.obs_setState hx (m := m) ⟨(m a).state.bytes, false⟩
  rwa [Join.owes_of_left_lt hl, Join.owes_of_not_engaged rfl, add_zero, add_zero] at hset

end Operations

/-- Members `_values` owe nothing. -/
@[simp] theorem Mem.obs_moveFrom (l : List (Site α D)) (x : Src α) (c : Choice α) :
    (x.moveFrom m c).obs l = m.obs l :=
  Mem.obs_congr (x.moveFrom_state m c)

@[simp] theorem Mem.obs_setSlots (l : List (Site α D)) (a : ℕ) (f : ℕ → Value α) :
    (m.setSlots a f).obs l = m.obs l :=
  Mem.obs_congr fun b => m.setSlots_state a b f

@[simp] theorem Mem.obs_setAlt (l : List (Site α D)) (a : ℕ) (x : Value α) :
    (m.setAlt a x).obs l = m.obs l :=
  Mem.obs_congr fun b => m.setAlt_state a b x

end Mem

/-! ### The balance -/

/-- The frame belongs to a node of the graph, and if it moves obligations in or out of
the memory of that node, the counter there is in range. -/
def Frame.Fits (l : List (Site α D)) (m : Mem α) : Frame α → Prop
  | exec (@Node.fork _ k _ fs) a _ K => ∃ d, ⟨.fork k fs, a, K, d⟩ ∈ l
  | allFetchSub a n _ K =>
      (∃ (fs : Fin (n + 1) → Node α) (d : D), ⟨.all fs, a, K, d⟩ ∈ l) ∧
        1 ≤ (m a).state.bytes.left
  | allDestroy a n K =>
      (∃ (fs : Fin (n + 1) → Node α) (d : D), ⟨.all fs, a, K, d⟩ ∈ l) ∧
        (m a).state.bytes.left < 1
  | anyFetchSub a n _ _ _ K =>
      (∃ (fs : Fin (n + 1) → Node α) (d : D), ⟨.any fs, a, K, d⟩ ∈ l) ∧
        1 ≤ (m a).state.bytes.left ∧ (m a).state.bytes.left ≤ n + 1
  | anyDestroy a n =>
      (∃ (fs : Fin (n + 1) → Node α) (K : Cont α) (d : D), ⟨.any fs, a, K, d⟩ ∈ l) ∧
        (m a).state.bytes.left < 1
  | _ => True

section Balance

variable {out : Node α → ℕ → D → D} {G : Node α} {d₀ : D} {m : Mem α} {c : Choice α}
  {fr : Frame α} {o : Outcome α}

@[simp] theorem stackObs_nil : stackObs ([] : List (Frame α)) = 0 := rfl

@[simp] theorem stackObs_cons (fr : Frame α) (st : List (Frame α)) :
    stackObs (fr :: st) = fr.obs + stackObs st := rfl

@[simp] theorem stackObs_append (st st' : List (Frame α)) :
    stackObs (st ++ st') = stackObs st + stackObs st' := by
  simp [stackObs]

/-- A frame and the memory owe what the event discharges, what the new frames and the new
memory owe, and the rights to read `ρ`, which are given up.  Where no right was given up
and nothing was written, `_values` is unchanged. -/
structure Outcome.Balances (m : Mem α) (l : List (Site α D)) (fr : Frame α) (o : Outcome α)
    (ρ : Multiset Ob) : Prop where
  reads : ∀ x ∈ ρ, ∃ q, x = .read q
  obs : fr.obs + m.obs l =
    o.event.discharges + ρ + (stackObs o.frames + stackObs o.spawned) + o.mem.obs l
  slots : ∀ q j, .read q ∉ ρ → .slotWrite q j ∉ o.event.discharges →
    (o.mem q).slots j = (m q).slots j
  alt : ∀ q, .read q ∉ ρ → .variantWrite q ∉ o.event.discharges → (o.mem q).alt = (m q).alt

theorem not_read_zero : ∀ x ∈ (0 : Multiset Ob), ∃ q, x = .read q := by simp

/-- A step that leaves the memory as it is. -/
theorem Outcome.Balances.of_mem {l : List (Site α D)} (hmem : o.mem = m)
    (h : fr.obs = o.event.discharges + (stackObs o.frames + stackObs o.spawned)) :
    o.Balances m l fr 0 := by
  refine ⟨not_read_zero, ?_, fun _ _ _ _ => by rw [hmem], fun _ _ _ => by rw [hmem]⟩
  rw [hmem, h, add_zero]

/-- A step that moves from an object, and gives up the right to read it. -/
theorem Outcome.Balances.of_moveFrom {l : List (Site α D)} {x : Src α}
    (hmem : o.mem = x.moveFrom m c)
    (h : fr.obs = o.event.discharges + x.obs + (stackObs o.frames + stackObs o.spawned)) :
    o.Balances m l fr x.obs := by
  refine ⟨fun _ => Src.exists_read_of_mem_obs, ?_, fun q j hq _ => ?_, fun q hq _ => ?_⟩
  · rw [hmem, h, Mem.obs_moveFrom]
  · rw [hmem, x.moveFrom_slots m c hq]
  · rw [hmem, x.moveFrom_alt m c hq]

/-- **The balance of a step.** -/
theorem Fires.balance (hf : Fires m c fr o) (hfit : fr.Fits (G.sites out 0 .root d₀) m) :
    ∃ ρ, o.Balances m (G.sites out 0 .root d₀) fr ρ := by
  cases hf with
  | leafCall t r f a input K =>
      -- a by-value parameter is initialised from the input, which gives up the right to read it
      cases r with
      | true =>
          refine ⟨0, .of_mem rfl ?_⟩
          simp only [Frame.obs, Node.obs, Event.discharges, stackObs_cons, stackObs_nil, if_true]
          abel
      | false =>
          refine ⟨input.obs, .of_moveFrom rfl ?_⟩
          simp only [Frame.obs, Node.obs, Event.discharges, stackObs_cons, stackObs_nil,
            Bool.false_eq_true, if_false]
          abel
  | seqExec A B a input K =>
      refine ⟨0, .of_mem rfl ?_⟩
      simp only [Frame.obs, Node.obs, Cont.obs, Event.discharges, stackObs_cons, stackObs_nil]
      abel
  | @construct k n fs a input K h =>
      -- the storage becomes engaged: the memory takes over what its last `fetch_sub` hands out
      obtain ⟨d, hd⟩ := hfit
      refine ⟨input.obs, fun x => Src.exists_read_of_mem_obs, ?_,
        fun q j h _ => by simp [input.moveFrom_slots m c h],
        fun q h _ => by simp [input.moveFrom_alt m c h]⟩
      have hIci : Finset.Ici (0 : Fin (n + 1)) = Finset.univ := by ext; simp
      simp only [stackObs_cons, stackObs_nil, scheduleIfLast_obs, Mem.obs_construct hd h,
        Mem.obs_moveFrom, hIci]
      simp only [Frame.obs, Node.obs_fork, Event.discharges]
      abel
  | leafRet a r f input arg K =>
      refine ⟨if r then input.obs else 0, ?_, ?_, fun _ _ _ _ => rfl, fun _ _ _ => rfl⟩
      · intro x hx
        split at hx
        · exact Src.exists_read_of_mem_obs hx
        · exact not_read_zero x hx
      · simp only [stackObs_cons, stackObs_nil, Cont.invoke_obs]
        simp only [Frame.obs, Event.discharges, Src.obs]
        abel
  | tempDrop a x => exact ⟨0, .of_mem rfl rfl⟩
  | submitInline k a fs i K h =>
      refine ⟨0, .of_mem rfl ?_⟩
      simp only [Frame.obs, Join.sum_branchObs_castSucc, Event.discharges, stackObs_cons,
        stackObs_nil]
      abel
  | submitThread k a fs i K h =>
      refine ⟨0, .of_mem rfl ?_⟩
      simp only [Frame.obs, Join.sum_branchObs_castSucc, Event.discharges, stackObs_cons,
        stackObs_nil]
      abel
  | schedRet k a fs i K =>
      refine ⟨0, .of_mem rfl ?_⟩
      simp only [stackObs_cons, stackObs_nil, scheduleIfLast_obs]
      simp only [Frame.obs, Event.discharges]
      abel
  | inputRead k a fs i K h =>
      refine ⟨0, .of_mem rfl ?_⟩
      simp only [Frame.obs, Join.taskObs, Cont.obs, Src.obs, Event.discharges, stackObs_cons,
        stackObs_nil]
      abel
  | slotWrite a n i out' K =>
      -- writing a slot changes no storage
      refine ⟨out'.obs, fun x => Src.exists_read_of_mem_obs, ?_, ?_,
        fun q h _ => by simp [out'.moveFrom_alt m c h]⟩
      · simp only [Frame.obs, Event.discharges, stackObs_cons, stackObs_nil, Mem.obs_setSlots,
          Mem.obs_moveFrom]
        abel
      · intro q j hq hj
        have hne : ¬ (q = a ∧ j = i) := fun e => hj (by simp [Event.discharges, e.1, e.2])
        by_cases ha : q = a
        · subst ha
          have hji : j ≠ i := fun e => hne ⟨rfl, e⟩
          simp [hji, out'.moveFrom_slots m c hq]
        · simp [ha, out'.moveFrom_slots m c hq]
  | allFetchSub a n i K h =>
      -- the last child takes the continuation out of the memory, the others take nothing
      obtain ⟨⟨fs, d, hd⟩, hl⟩ := hfit
      refine ⟨0, not_read_zero, ?_, fun _ _ _ _ => by simp, fun _ _ _ => by simp⟩
      rw [Mem.obs_allFetchSub hd h hl]
      simp only [Frame.obs, Event.discharges]
      split_ifs <;> simp only [stackObs_cons, stackObs_nil, Frame.obs, Join.lastObs] <;> abel
  | allDestroy a n K h =>
      obtain ⟨⟨fs, d, hd⟩, hl⟩ := hfit
      refine ⟨0, not_read_zero, ?_, fun _ _ _ _ => by simp, fun _ _ _ => by simp⟩
      simp only [stackObs_cons, stackObs_nil, Cont.invoke_obs, Mem.obs_destroy hd hl]
      simp only [Frame.obs, Event.discharges, Src.obs]
      abel
  | anyFetchSub a n i t out' K h =>
      -- the first child takes the continuation, the last one the cleanup; the `out` of the
      -- others dies
      obtain ⟨⟨fs, d, hd⟩, hl, hu⟩ := hfit
      refine ⟨if (m a).state.bytes.left = n + 1 then 0 else out'.obs, ?_, ?_,
        fun _ _ _ _ => by simp, fun _ _ _ => by simp⟩
      · intro x hx
        split at hx
        · exact not_read_zero x hx
        · exact Src.exists_read_of_mem_obs hx
      · rw [Mem.obs_anyFetchSub hd h hl hu]
        simp only [Frame.obs, Event.discharges, stackObs_append]
        split_ifs <;> simp only [stackObs_cons, stackObs_nil, Frame.obs, Join.firstObs,
          Join.lastObs] <;> abel
  | variantWrite a n i t out' K =>
      refine ⟨out'.obs, fun x => Src.exists_read_of_mem_obs, ?_,
        fun q j h _ => by simp [out'.moveFrom_slots m c h], ?_⟩
      · simp only [stackObs_cons, stackObs_nil, Cont.invoke_obs, Mem.obs_setAlt, Mem.obs_moveFrom]
        simp only [Frame.obs, Event.discharges, Src.obs]
        abel
      · intro q hq hj
        have hne : q ≠ a := fun e => hj (by simp [Event.discharges, e])
        simp [hne, out'.moveFrom_alt m c hq]
  | anyDestroy a n h =>
      obtain ⟨⟨fs, K, d, hd⟩, hl⟩ := hfit
      refine ⟨0, not_read_zero, ?_, fun _ _ _ _ => by simp, fun _ _ _ => by simp⟩
      simp only [Frame.obs, Event.discharges, stackObs_cons, stackObs_nil, Mem.obs_destroy hd hl]
      abel
  | cleanup a =>
      refine ⟨0, .of_mem rfl ?_⟩
      simp only [Frame.obs, Event.discharges, stackObs_cons, stackObs_nil]
      abel
  | thenCall res =>
      refine ⟨res.obs, .of_moveFrom rfl ?_⟩
      simp only [Frame.obs, Event.discharges, stackObs_cons, stackObs_nil]
      abel
  | thenRet =>
      refine ⟨0, .of_mem rfl ?_⟩
      simp only [Frame.obs, Event.discharges, stackObs_cons, stackObs_nil]
      abel
  | countDown x =>
      refine ⟨0, .of_mem rfl ?_⟩
      simp only [Frame.obs, Event.discharges, stackObs_nil]
      abel

end Balance

end Orizzonte
