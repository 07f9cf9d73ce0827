/-
Orizzonte/Overlap.lean

Calls of `sync_execute` on one graph object that overlap.  The `_state` of an all or any
node serves one call at a time: where a second call comes to the node before the first one
has destroyed it, `construct` finds the storage engaged.  So overlapping calls are free of
failing assertions exactly for the graphs without such nodes (`overlap_safe_iff`), and
there each call runs as if it were alone.
-/
import Orizzonte.Safety

namespace Orizzonte

open Lts

universe u

variable {α : Type u}

/-- Calls of `sync_execute` on one graph object.  All of them step on `mem`. -/
structure Overlap (α : Type u) where
  mem : Mem α
  calls : List (State α)

namespace Overlap

/-- The `j`-th call. -/
def call (u : Overlap α) (j : ℕ) : Option (State α) :=
  u.calls[j]?.map fun s => { s with mem := u.mem }

/-- A thread of call `l.1` makes the step `l.2`. -/
def Step (u : Overlap α) (l : ℕ × ℕ × Event α) (u' : Overlap α) : Prop :=
  ∃ s s', u.call l.1 = some s ∧ Orizzonte.Step s l.2 s' ∧ u' = ⟨s'.mem, u.calls.set l.1 s'⟩

/-- `N` calls on a graph object with memory `m`. -/
def start (N : ℕ) (G : Node α) (m : Mem α) : Overlap α :=
  ⟨m, List.replicate N (State.syncExecute G m)⟩

/-- An assertion of a storage fails in the next step of some thread. -/
def Fails (u : Overlap α) : Prop :=
  ∃ j s t c e, u.call j = some s ∧ s.step t c = some (.error e)

/-- The steps of the `j`-th call. -/
def own (j : ℕ) (ρ : List (ℕ × ℕ × Event α)) : List (ℕ × Event α) :=
  ρ.filterMap fun l => if l.1 = j then some l.2 else none

end Overlap

/-! ### Graphs without all and any nodes -/

/-- Only leaves are ahead. -/
def Cont.Plain : Cont α → Prop
  | root => True
  | seqK B b K => B.forkAddrs b = [] ∧ K.Plain
  | joinK _ _ _ _ _ _ => False

def Src.Plain : Src α → Prop
  | temp _ => True
  | _ => False

def Frame.Plain : Frame α → Prop
  | exec g a input K => g.forkAddrs a = [] ∧ input.Plain ∧ K.Plain
  | leafRun _ _ _ input _ K => input.Plain ∧ K.Plain
  | thenCall res => res.Plain
  | leafTemp _ _ | thenRun | countDown _ => True
  | _ => False

def State.Plain (s : State α) : Prop := ∀ st ∈ s.threads, ∀ fr ∈ st, fr.Plain

variable {G : Node α} {s s' : State α} {m : Mem α} {c : Choice α} {fr : Frame α} {o : Outcome α}
  {l : ℕ × Event α} {N j : ℕ} {u u' : Overlap α} {ρ : List (ℕ × ℕ × Event α)}

theorem Node.forkAddrs_seq (A B : Node α) (a : ℕ) :
    (seq A B).forkAddrs a = A.forkAddrs a ++ B.forkAddrs (a + A.size) := rfl

theorem Src.Plain.moveFrom {r : Src α} (h : r.Plain) : r.moveFrom m c = m := by
  cases r with
  | temp x => rfl
  | _ => exact h.elim

theorem Cont.Plain.invoke {K : Cont α} {out : Src α} (h : K.Plain) (hout : out.Plain) :
    (K.invoke out).Plain := by
  cases K with
  | root => exact hout
  | seqK B b K => exact ⟨h.1, hout, h.2⟩
  | joinK => exact h.elim

/-- Leaves do not touch the memory of the graph. -/
theorem Fires.plain (hf : Fires m c fr o) (h : fr.Plain) :
    o.mem = m ∧ (∀ fr' ∈ o.frames, fr'.Plain) ∧ o.spawned = [] := by
  cases hf with
  | leafCall t r f a input K =>
      refine ⟨?_, by simpa [Frame.Plain] using h.2, rfl⟩
      show (if r then m else input.moveFrom m c) = m
      rw [h.2.1.moveFrom, ite_self]
  | seqExec A B a input K =>
      obtain ⟨hfree, hin, hK⟩ := h
      rw [Node.forkAddrs_seq] at hfree
      obtain ⟨hA, hB⟩ := List.append_eq_nil_iff.mp hfree
      exact ⟨rfl, by simpa [Frame.Plain, Cont.Plain] using ⟨hA, hin, hB, hK⟩, rfl⟩
  | construct k fs a input K =>
      cases h.1
  | leafRet a r f input arg K =>
      refine ⟨rfl, fun fr' hfr' => ?_, rfl⟩
      rcases List.mem_pair.mp hfr' with rfl | rfl
      · exact h.2.invoke True.intro
      · exact True.intro
  | thenCall res => exact ⟨h.moveFrom, by simp [Frame.Plain], rfl⟩
  | tempDrop | thenRet | countDown => exact ⟨rfl, by simp [Frame.Plain], rfl⟩
  | _ => exact h.elim

theorem State.Plain.step (h : s.Plain) (hs : Step s l s') : s'.Plain ∧ s'.mem = s.mem := by
  rcases l with ⟨t, e⟩
  obtain ⟨c, fr, rest, o, ht, hf, rfl, rfl⟩ := step_iff.mp hs
  have hmem := List.mem_of_getElem? ht
  obtain ⟨hm, hframes, hsp⟩ := hf.plain (h _ hmem fr (List.mem_cons_self ..))
  refine ⟨fun st hst fr' hfr' => ?_, hm⟩
  obtain ⟨t', ht'⟩ := List.mem_iff_getElem?.mp hst
  rcases State.getElem?_after ht ht' with ⟨-, rfl⟩ | ⟨-, hold⟩ | ⟨-, sp, hmem', -⟩
  · rcases List.mem_append.mp hfr' with hfr' | hfr'
    · exact hframes fr' hfr'
    · exact h _ hmem fr' (List.mem_cons_of_mem _ hfr')
  · exact h st (List.mem_of_getElem? hold) fr' hfr'
  · rw [hsp] at hmem'
    exact absurd hmem' List.not_mem_nil

theorem State.plain_start (hG : G.forkAddrs 0 = []) : (State.syncExecute G m).Plain := by
  intro st hst fr hfr
  obtain rfl := List.mem_singleton.mp hst
  obtain rfl := List.mem_singleton.mp hfr
  exact ⟨hG, True.intro, True.intro⟩

/-! ### The first all or any node -/

/-- The calling thread can come to `fr` without touching the memory of the graph. -/
def State.Gets (s : State α) (fr : Frame α) : Prop :=
  ∃ τ s' rest, Run Step s τ s' ∧ s'.mem = s.mem ∧ s'.threads[0]? = some (fr :: rest)

theorem State.Gets.resume (h : s.Gets fr) : ∃ (s' : State α) (rest : List (Frame α)),
    s'.threads[0]? = some (fr :: rest) ∧ ∀ fr', s'.Gets fr' → s.Gets fr' := by
  obtain ⟨τ, s₁, rest, hr, hm, ht⟩ := h
  refine ⟨s₁, rest, ht, fun fr' h' => ?_⟩
  obtain ⟨σ, s₂, rest', hr', hm', ht'⟩ := h'
  exact ⟨τ ++ σ, s₂, rest', hr.trans hr', hm'.trans hm, ht'⟩

theorem State.gets_of_fires {rest more : List (Frame α)} {fr' : Frame α}
    (ht : s.threads[0]? = some (fr :: rest)) (hf : Fires s.mem c fr o) (hm : o.mem = s.mem)
    (ho : o.frames = fr' :: more) : s.Gets fr' := by
  have hlt : 0 < s.threads.length := (List.getElem?_eq_some_iff.mp ht).1
  refine ⟨_, s.after 0 rest o, more ++ rest,
    .single (step_iff.mpr ⟨c, fr, rest, o, ht, hf, rfl, rfl⟩), hm, ?_⟩
  show (s.threads.set 0 (o.frames ++ rest) ++ _)[0]? = _
  rw [List.getElem?_append_left (by rwa [List.length_set]), List.getElem?_set_self hlt, ho]
  rfl

theorem State.gets_seq {A B : Node α} {a : ℕ} {x : Value α} {K : Cont α} {rest : List (Frame α)}
    (ht : s.threads[0]? = some (.exec (.seq A B) a (.temp x) K :: rest)) :
    s.Gets (.exec A a (.temp x) (.seqK B (a + A.size) K)) :=
  State.gets_of_fires (c := default) ht (.seqExec A B a (.temp x) K) rfl rfl

/-- A part of the graph without such nodes passes a result on. -/
theorem Node.gets_invoke {g : Node α} {a : ℕ} (hg : g.forkAddrs a = []) {x : Value α}
    {K : Cont α} {rest : List (Frame α)}
    (ht : s.threads[0]? = some (.exec g a (.temp x) K :: rest)) :
    ∃ y, s.Gets (K.invoke (.temp y)) := by
  induction g generalizing a x K rest s with
  | leaf t r f =>
      have hrun : s.Gets (.leafRun a r f (.temp x) x K) :=
        State.gets_of_fires (c := default) ht (.leafCall t r f a (.temp x) K) (ite_self _) rfl
      obtain ⟨s₁, rest₁, ht₁, hresume⟩ := hrun.resume
      exact ⟨_, hresume _ (State.gets_of_fires (c := default) ht₁
        (.leafRet a r f (.temp x) x K) rfl rfl)⟩
  | seq A B ihA ihB =>
      rw [forkAddrs_seq] at hg
      obtain ⟨hA, hB⟩ := List.append_eq_nil_iff.mp hg
      obtain ⟨s₁, rest₁, ht₁, hresume₁⟩ := (State.gets_seq ht).resume
      obtain ⟨y, hy⟩ := ihA hA ht₁
      obtain ⟨s₂, rest₂, ht₂, hresume₂⟩ := hy.resume
      obtain ⟨z, hz⟩ := ihB hB ht₂
      exact ⟨z, hresume₁ _ (hresume₂ _ hz)⟩
  | fork k fs => cases hg

/-- A graph with such nodes has a first one. -/
theorem Node.exists_first {g : Node α} {a : ℕ} (hg : g.forkAddrs a ≠ []) :
    ∃ (b : ℕ) (k : Join) (n : ℕ) (fs : Fin (n + 1) → Node α), ∀ (s : State α) x K rest,
      s.threads[0]? = some (.exec g a (.temp x) K :: rest) →
      ∃ x' K', s.Gets (.exec (.fork k fs) b (.temp x') K') := by
  induction g generalizing a with
  | leaf t r f => exact absurd rfl hg
  | seq A B ihA ihB =>
      by_cases hA : A.forkAddrs a = []
      · have hB : B.forkAddrs (a + A.size) ≠ [] := by
          intro hB
          rw [forkAddrs_seq, hA, hB] at hg
          exact hg rfl
        obtain ⟨b, k, n, fs, hfirst⟩ := ihB hB
        refine ⟨b, k, n, fs, fun s x K rest ht => ?_⟩
        obtain ⟨s₁, rest₁, ht₁, hresume₁⟩ := (State.gets_seq ht).resume
        obtain ⟨y, hy⟩ := Node.gets_invoke hA ht₁
        obtain ⟨s₂, rest₂, ht₂, hresume₂⟩ := hy.resume
        obtain ⟨x', K', h⟩ := hfirst s₂ y K rest₂ ht₂
        exact ⟨x', K', hresume₁ _ (hresume₂ _ h)⟩
      · obtain ⟨b, k, n, fs, hfirst⟩ := ihA hA
        refine ⟨b, k, n, fs, fun s x K rest ht => ?_⟩
        obtain ⟨s₁, rest₁, ht₁, hresume₁⟩ := (State.gets_seq ht).resume
        obtain ⟨x', K', h⟩ := hfirst s₁ x _ rest₁ ht₁
        exact ⟨x', K', hresume₁ _ h⟩
  | @fork k n fs ih =>
      exact ⟨a, k, n, fs, fun s x K rest ht => ⟨x, K, [], s, rest, .refl, rfl, ht⟩⟩

/-! ### Overlapping calls -/

namespace Overlap

theorem call_start (hj : j < N) : (start N G m).call j = some (State.syncExecute G m) := by
  unfold call start
  rw [List.getElem?_replicate, if_pos hj]
  rfl

theorem call_of_ne {i : ℕ} (hne : i ≠ j) (s : State α) :
    (⟨s.mem, u.calls.set j s⟩ : Overlap α).calls[i]? = u.calls[i]? :=
  List.getElem?_set_ne hne.symm

theorem call_self (h : u.call j = some s) (s' : State α) :
    (⟨s'.mem, u.calls.set j s'⟩ : Overlap α).call j = some s' := by
  obtain ⟨v, hv, -⟩ := Option.map_eq_some_iff.mp h
  have hset : (u.calls.set j s')[j]? = some s' :=
    List.getElem?_set_self (List.getElem?_eq_some_iff.mp hv).1
  exact congrArg (Option.map _) hset

/-- A call may run while the others stand still. -/
theorem exists_run {τ : List (ℕ × Event α)} (hj : u.call j = some s)
    (hr : Run Orizzonte.Step s τ s') : ∃ ρ u', Run Step u ρ u' ∧ u'.call j = some s' ∧
      u'.mem = s'.mem ∧ ∀ i, i ≠ j → u'.calls[i]? = u.calls[i]? := by
  induction hr with
  | refl =>
      obtain ⟨v, -, rfl⟩ := Option.map_eq_some_iff.mp hj
      exact ⟨[], u, .refl, hj, rfl, fun _ _ => rfl⟩
  | @tail τ v l v' _ hl ih =>
      obtain ⟨ρ, u', hρ, hv, -, hother⟩ := ih
      refine ⟨ρ ++ [(j, l)], ⟨v'.mem, u'.calls.set j v'⟩, hρ.tail ⟨v, v', hv, hl, rfl⟩,
        call_self hv v', rfl, fun i hne => ?_⟩
      rw [call_of_ne hne, hother i hne]

theorem own_concat (j : ℕ) (ρ : List (ℕ × ℕ × Event α)) (l : ℕ × ℕ × Event α) :
    own j (ρ ++ [l]) = own j ρ ++ if l.1 = j then [l.2] else [] := by
  rw [own, List.filterMap_append]
  by_cases hj : l.1 = j <;> simp [hj, own]

/-- Calls on a graph of leaves do not meet. -/
theorem run_own (hG : G.forkAddrs 0 = []) (hr : Run Step (start N G m) ρ u) :
    u.mem = m ∧ ∀ j s, u.call j = some s →
      Run Orizzonte.Step (State.syncExecute G m) (own j ρ) s ∧ s.Plain := by
  refine hr.invariant (I := fun ρ u => u.mem = m ∧ ∀ j s, u.call j = some s →
    Run Orizzonte.Step (State.syncExecute G m) (own j ρ) s ∧ s.Plain) ⟨rfl, fun j s hs => ?_⟩ ?_
  · obtain ⟨v, hv, rfl⟩ := Option.map_eq_some_iff.mp hs
    obtain rfl := List.eq_of_mem_replicate (List.mem_of_getElem? hv)
    exact ⟨.refl, State.plain_start hG⟩
  · rintro σ u ⟨i, l⟩ u' - ⟨hmem, hcalls⟩ ⟨s, s', hs, hstep, rfl⟩
    obtain ⟨hrun, hplain⟩ := hcalls i s hs
    obtain ⟨hplain', hmem'⟩ := hplain.step hstep
    have hsame : s'.mem = u.mem := by
      obtain ⟨v, -, rfl⟩ := Option.map_eq_some_iff.mp hs
      exact hmem'
    refine ⟨hsame.trans hmem, fun j v hv => ?_⟩
    rw [own_concat]
    by_cases hij : i = j
    · subst hij
      obtain rfl : s' = v := Option.some.inj ((call_self hs s').symm.trans hv)
      rw [if_pos rfl]
      exact ⟨hrun.tail hstep, hplain'⟩
    · have hold : u.call j = some v := by
        unfold call at hv ⊢
        rwa [call_of_ne (Ne.symm hij), hsame] at hv
      rw [if_neg hij, List.append_nil]
      exact hcalls j v hold

/-- Where there is such a node, the second call to come to it fails. -/
theorem exists_fails (hm : m.Unengaged) (hN : 1 < N) (hG : G.forkAddrs 0 ≠ []) :
    ∃ ρ u, Run Step (start N G m) ρ u ∧ u.Fails := by
  obtain ⟨b, k, n, fs, hfirst⟩ := Node.exists_first hG
  -- the first call comes to the node, and constructs its state
  obtain ⟨x₁, K₁, τ₁, s₁, rest₁, hr₁, hm₁, ht₁⟩ :=
    hfirst (State.syncExecute G m) .nothing .root [] rfl
  have hfree : ((Src.temp x₁).moveFrom s₁.mem default b).state.engaged = false := by
    show (s₁.mem b).state.engaged = false
    rw [hm₁]
    exact hm b
  have hcons := Fires.construct (c := default) k fs b (.temp x₁) K₁ hfree
  obtain ⟨ρ₁, u₁, hρ₁, -, hmem₁, hother⟩ := exists_run (call_start (G := G) (m := m)
    (Nat.lt_of_succ_lt hN)) (hr₁.tail (step_iff.mpr ⟨_, _, rest₁, _, ht₁, hcons, rfl, rfl⟩))
  have heng : (u₁.mem b).state.engaged = true := by
    rw [hmem₁]
    simp [State.after]
  -- the second one comes to it next
  have hcall : u₁.call 1 = some (State.syncExecute G u₁.mem) := by
    unfold call
    rw [hother 1 Nat.one_ne_zero, start, List.getElem?_replicate, if_pos hN]
    rfl
  obtain ⟨x₂, K₂, τ₂, s₂, rest₂, hr₂, hm₂, ht₂⟩ :=
    hfirst (State.syncExecute G u₁.mem) .nothing .root [] rfl
  obtain ⟨ρ₂, u₂, hρ₂, hcall₂, -, -⟩ := exists_run hcall hr₂
  refine ⟨_, u₂, hρ₁.trans hρ₂, 1, s₂, 0, default, .unengaged, hcall₂, ?_⟩
  have heng₂ : (s₂.mem b).state.engaged = true := by
    rw [hm₂]
    exact heng
  simp only [State.step, ht₂, Frame.step, Src.moveFrom, AlignedStorageFor.construct, heng₂,
    if_true]
  rfl

/-- **Calls on one graph object may overlap exactly where it has no all or any node.**  Two or
more calls that start together never fail an assertion of a storage, whatever the schedule, if
and only if the graph has none; and there every call runs as if it were alone. -/
theorem overlap_safe_iff (hm : m.Unengaged) (hN : 1 < N) :
    ((∀ ρ u, Run Step (start N G m) ρ u → ¬ u.Fails) ↔ G.forkAddrs 0 = []) ∧
    (G.forkAddrs 0 = [] → ∀ ρ u, Run Step (start N G m) ρ u → ∀ j s, u.call j = some s →
      Run Orizzonte.Step (State.syncExecute G m) (own j ρ) s) := by
  have halone : G.forkAddrs 0 = [] → ∀ ρ u, Run Step (start N G m) ρ u → ∀ j s,
      u.call j = some s → Run Orizzonte.Step (State.syncExecute G m) (own j ρ) s :=
    fun hG ρ u hr j s hs => ((run_own hG hr).2 j s hs).1
  refine ⟨⟨fun hsafe => ?_, ?_⟩, halone⟩
  · by_contra hG
    obtain ⟨ρ, u, hr, hfails⟩ := exists_fails hm hN hG
    exact hsafe ρ u hr hfails
  · rintro hG ρ u hr ⟨j, s, t, c, e, hs, herr⟩
    exact (Inv.reached hm (halone hG ρ u hr j s hs)).no_assertion t c e herr

theorem overlap_safe_race :
    ((∀ ρ u, Run Step (start 2 race Mem.fresh) ρ u → ¬ u.Fails) ↔ race.forkAddrs 0 = []) ∧
    (race.forkAddrs 0 = [] → ∀ ρ u, Run Step (start 2 race Mem.fresh) ρ u → ∀ j s,
      u.call j = some s →
        Run Orizzonte.Step (State.syncExecute race Mem.fresh) (own j ρ) s) :=
  overlap_safe_iff Mem.fresh_unengaged Nat.one_lt_two

end Overlap

end Orizzonte
