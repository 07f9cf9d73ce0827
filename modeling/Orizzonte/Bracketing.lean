/-
Orizzonte/Bracketing.lean

The bracketing of `seq` is unobservable.  Two graphs that differ by it (`Node.Assoc`)
have the same nodes at the same addresses; their executions differ in the calls of
`seq::execute` and in how the closures passed as `then` are nested.

The comparison goes through a normal form: `Node.norm` nests a graph to the right,
`Cont.nf` does the same to a continuation, and `Frame.nf` to a program point, where a
call of `seq::execute` is taken as done.  A step that is no such call is the same for a
frame and for its normal form (`Frame.step_nf`), so states with equal normal forms
simulate each other, thread by thread (`Similar.simulate`).  A chain of calls of `then`
builds a `seq` that is nested to the left (`Node.chain_eq`).
-/
import Orizzonte.Latch

namespace Orizzonte

open Lts

universe u

variable {α : Type u}

/-! ### Graphs up to bracketing -/

/-- Equal up to the bracketing of `seq`, anywhere in the graph. -/
inductive Node.Assoc : Node α → Node α → Prop
  | refl (g : Node α) : Assoc g g
  | symm {g h : Node α} : Assoc g h → Assoc h g
  | trans {g h i : Node α} : Assoc g h → Assoc h i → Assoc g i
  | assoc (A B C : Node α) : Assoc (seq (seq A B) C) (seq A (seq B C))
  | seq {A A' B B' : Node α} : Assoc A A' → Assoc B B' → Assoc (seq A B) (seq A' B')
  | fork (k : Join) {n : ℕ} {fs fs' : Fin (n + 1) → Node α} :
      (∀ i, Assoc (fs i) (fs' i)) → Assoc (fork k fs) (fork k fs')

/-- `g`, nested to the right, followed by `Z`. -/
def Node.before : Node α → Option (Node α) → Node α
  | leaf t r f, none => leaf t r f
  | leaf t r f, some Z => seq (leaf t r f) Z
  | seq A B, Z => A.before (some (B.before Z))
  | fork k fs, none => fork k fun i => (fs i).before none
  | fork k fs, some Z => seq (fork k fun i => (fs i).before none) Z

/-- The graph, nested to the right. -/
def Node.norm (g : Node α) : Node α := g.before none

namespace Node

theorem Assoc.before_eq {g g' : Node α} (h : Assoc g g') (Z : Option (Node α)) :
    g.before Z = g'.before Z := by
  induction h generalizing Z with
  | refl => rfl
  | symm _ ih => exact (ih Z).symm
  | trans _ _ ih ih' => exact (ih Z).trans (ih' Z)
  | assoc => rfl
  | seq _ _ ihA ihB =>
      simp only [before]
      rw [ihA, ihB]
  | fork k _ ih => cases Z <;> simp only [before, ih]

theorem size_before (g : Node α) (Z : Option (Node α)) :
    (g.before Z).size = g.size + Z.elim 0 size := by
  induction g generalizing Z with
  | leaf => cases Z <;> rfl
  | seq A B ihA ihB =>
      simp only [before, ihA, ihB, size, Option.elim_some]
      omega
  | fork k fs ih => cases Z <;> simp [before, size, ih]

theorem outType_before (g : Node α) (Z : Option (Node α)) :
    (g.before Z).outType = Z.elim g.outType outType := by
  induction g generalizing Z with
  | leaf => cases Z <;> rfl
  | seq A B ihA ihB =>
      cases Z <;> simp only [before, ihA, ihB, outType, Option.elim_some, Option.elim_none]
  | fork k fs ih => cases Z <;> cases k <;> simp [before, outType, ih]

theorem cleanupCount_before (g : Node α) (Z : Option (Node α)) :
    (g.before Z).cleanupCount = g.cleanupCount + Z.elim 0 cleanupCount := by
  induction g generalizing Z with
  | leaf => cases Z <;> simp [before, cleanupCount]
  | seq A B ihA ihB =>
      simp only [before, ihA, ihB, cleanupCount, Option.elim_some]
      omega
  | fork k fs ih => cases Z <;> cases k <;> simp [before, cleanupCount, ih]

/-- What is nested to the right stays so. -/
theorem before_before (g : Node α) (Z Y : Option (Node α)) :
    (g.before Z).before Y = g.before (Z.elim Y fun Z => some (Z.before Y)) := by
  induction g generalizing Z Y with
  | leaf => cases Z <;> rfl
  | seq A B ihA ihB =>
      show (A.before (some (B.before Z))).before Y = A.before (some (B.before _))
      rw [ihA, Option.elim_some, ihB]
  | fork k fs ih =>
      have hfs : (fun i => ((fs i).before none).before none) = fun i => (fs i).before none :=
        funext fun i => ih i none none
      cases Z <;> cases Y <;> simp only [before, hfs, Option.elim_some, Option.elim_none]

@[simp] theorem norm_norm (g : Node α) : g.norm.norm = g.norm := g.before_before none none

@[simp] theorem size_norm (g : Node α) : g.norm.size = g.size := g.size_before none

@[simp] theorem outType_norm (g : Node α) : g.norm.outType = g.outType := g.outType_before none

theorem cleanupCount_norm (g : Node α) : g.norm.cleanupCount = g.cleanupCount :=
  g.cleanupCount_before none

@[simp] theorem childAddr_norm {n : ℕ} (fs : Fin (n + 1) → Node α) (a : ℕ) (i : Fin (n + 1)) :
    childAddr (fun j => (fs j).norm) a i = childAddr fs a i := by
  simp only [childAddr, size_norm]

theorem Assoc.norm_eq {g g' : Node α} (h : Assoc g g') : g.norm = g'.norm := h.before_eq none

end Node

/-! ### Normal forms of continuations -/

/-- Continue with the parts of `g`, which starts at `a`, one after the other. -/
def Cont.push : Node α → ℕ → Cont α → Cont α
  | .leaf t r f, a, K => .seqK (.leaf t r f) a K
  | .seq A B, a, K => push A a (push B (a + A.size) K)
  | .fork k fs, a, K => .seqK (.fork k fun i => (fs i).norm) a K

def Cont.nf : Cont α → Cont α
  | root => root
  | seqK B b K => push B b K.nf
  | joinK k a n i t K => joinK k a n i t K.nf

theorem Cont.push_before (g : Node α) (Z : Option (Node α)) (a : ℕ) (K : Cont α) :
    push (g.before Z) a K = push g a (Z.elim K fun Z => push Z (a + g.size) K) := by
  induction g generalizing Z a K with
  | leaf => cases Z <;> rfl
  | seq A B ihA ihB =>
      show push (A.before (some (B.before Z))) a K = push A a (push B (a + A.size) _)
      rw [ihA, Option.elim_some, ihB, Node.size]
      simp only [Nat.add_assoc]
  | fork k fs ih =>
      have hfs : (fun i => ((fs i).before none).norm) = fun i => (fs i).norm :=
        funext fun i => (fs i).norm_norm
      have hsize : (Node.fork k fun i => (fs i).before none).size = (Node.fork k fs).size :=
        (Node.fork k fs).size_before none
      cases Z
      · simp only [Node.before, push, hfs, Option.elim_none]
      · simp only [Node.before, push, hfs, hsize, Option.elim_some]

@[simp] theorem Cont.push_norm (g : Node α) (a : ℕ) (K : Cont α) : push g.norm a K = push g a K :=
  push_before g none a K

theorem Cont.nf_push (g : Node α) (a : ℕ) (K : Cont α) : (push g a K).nf = push g a K.nf := by
  induction g generalizing a K with
  | leaf => rfl
  | seq A B ihA ihB => simp only [push, ihA, ihB]
  | fork k fs => simp only [push, nf, Node.norm_norm]

@[simp] theorem Cont.nf_nf (K : Cont α) : K.nf.nf = K.nf := by
  induction K with
  | root => rfl
  | seqK B b K ih => rw [nf, nf_push, ih]
  | joinK k a n i t K ih => simp only [nf, ih]

/-! ### Normal forms of program points -/

/-- A call of `execute` goes to the first part of the graph that is no `seq`. -/
def Frame.nf : Frame α → Frame α
  | exec g a x K => (Cont.push g a K.nf).invoke x
  | leafRun a r f x y K => leafRun a r f x y K.nf
  | leafTemp a y => leafTemp a y
  | submit k a fs i K => submit k a (fun j => (fs j).norm) i K.nf
  | inScheduler k a fs i K => inScheduler k a (fun j => (fs j).norm) i K.nf
  | computation k a fs i K => computation k a (fun j => (fs j).norm) i K.nf
  | allWrite a n i x K => allWrite a n i x K.nf
  | allFetchSub a n i K => allFetchSub a n i K.nf
  | allDestroy a n K => allDestroy a n K.nf
  | anyFetchSub a n i t x K => anyFetchSub a n i t x K.nf
  | anyWrite a n i t x K => anyWrite a n i t x K.nf
  | anyDestroy a n => anyDestroy a n
  | cleanup a => cleanup a
  | thenCall x => thenCall x
  | thenRun => thenRun
  | countDown o => countDown o

def Outcome.nf (o : Outcome α) : Outcome α where
  event := o.event
  mem := o.mem
  frames := o.frames.map Frame.nf
  spawned := o.spawned.map Frame.nf

@[simp] theorem Cont.nf_invoke (K : Cont α) (x : Src α) : (K.invoke x).nf = K.nf.invoke x := by
  cases K with
  | joinK k => cases k <;> rfl
  | _ => rfl

@[simp] theorem nf_scheduleIfLast (k : Join) (a : ℕ) {n : ℕ} (fs : Fin (n + 1) → Node α)
    (i : Fin (n + 1)) (K : Cont α) :
    (scheduleIfLast k a fs i K).nf = scheduleIfLast k a (fun j => (fs j).norm) i K.nf := by
  unfold scheduleIfLast
  split <;> rfl

/-- The next step is not a call of `seq::execute`. -/
def Frame.Ready : Frame α → Prop
  | exec (.seq _ _) _ _ _ => False
  | _ => True

theorem Except.map_bind {ε : Type*} {β γ δ : Type u} (x : Except ε β) (f : β → Except ε γ)
    (g : γ → δ) : (x >>= f).map g = x >>= fun y => (f y).map g := by
  cases x <;> rfl

/-- **A frame and its normal form make the same step.** -/
theorem Frame.step_nf (m : Mem α) (c : Choice α) {fr : Frame α} (h : fr.Ready) :
    (fr.nf.step m c).map Outcome.nf = (fr.step m c).map Outcome.nf := by
  -- most points keep their shape; only continuations and children are in normal form
  cases fr with
  | exec g a x K =>
      cases g with
      | seq => exact h.elim
      | leaf t r f => simp [nf, Cont.push, Cont.invoke, step, Except.map, Outcome.nf]
      | fork k fs =>
          simp only [nf, Cont.push, Cont.invoke, step, Except.map_bind]
          congr 1
          funext st
          simp [Except.map, Outcome.nf]
  | computation k a fs i K =>
      simp only [nf, step, Except.map_bind]
      congr 1
      funext sh
      simp [Except.map, Outcome.nf, nf, Cont.nf]
  | allFetchSub a n i K | anyFetchSub a n i t x K =>
      simp only [nf, step, Except.map_bind]
      congr 1
      funext sh
      simp only [Except.map, Outcome.nf]
      split_ifs <;> simp [nf]
  | allDestroy a n K =>
      show ((allDestroy a n K.nf).step m c).map Outcome.nf = _
      simp only [step, Except.map_bind]
      congr 1
      funext st
      simp [Except.map, Outcome.nf]
  | submit k a fs i K =>
      simp only [nf, step, Except.map, Outcome.nf]
      split_ifs <;> simp [nf]
  | leafRun a r f x y K =>
      show ((leafRun a r f x y K.nf).step m c).map Outcome.nf = _
      simp [step, Except.map, Outcome.nf]
  | inScheduler k a fs i K =>
      show ((inScheduler k a (fun j => (fs j).norm) i K.nf).step m c).map Outcome.nf = _
      simp [step, Except.map, Outcome.nf]
  | anyWrite a n i t x K =>
      show ((anyWrite a n i t x K.nf).step m c).map Outcome.nf = _
      simp [step, Except.map, Outcome.nf]
  | allWrite a n i x K =>
      show ((allWrite a n i x K.nf).step m c).map Outcome.nf = _
      simp [step, Except.map, Outcome.nf, nf]
  | leafTemp | anyDestroy | cleanup | thenCall | thenRun | countDown => rfl

/-! ### States with the same normal form -/

/-- The same memory and counter, and threads at the same program points up to bracketing. -/
structure Similar (s s' : State α) : Prop where
  mem : s'.mem = s.mem
  latch : s'.latch = s.latch
  threads : s'.threads.map (List.map Frame.nf) = s.threads.map (List.map Frame.nf)

/-- Everything but the calls of `seq::execute`. -/
def Event.visible : Event α → Bool
  | seqExec _ => false
  | _ => true

/-- The observable part of a run: what was done, by which thread. -/
def visible (τ : List (ℕ × Event α)) : List (ℕ × Event α) := τ.filter fun l => l.2.visible

theorem visible_append (τ σ : List (ℕ × Event α)) : visible (τ ++ σ) = visible τ ++ visible σ :=
  List.filter_append ..

variable {s s' : State α} {t : ℕ}

theorem Similar.symm (h : Similar s s') : Similar s' s :=
  ⟨h.mem.symm, h.latch.symm, h.threads.symm⟩

theorem Similar.trans {s'' : State α} (h : Similar s s') (h' : Similar s' s'') : Similar s s'' :=
  ⟨h'.mem.trans h.mem, h'.latch.trans h.latch, h'.threads.trans h.threads⟩

/-- A thread has a counterpart, frame by frame. -/
theorem Similar.exists_thread (h : Similar s s') {fr : Frame α} {rest : List (Frame α)}
    (ht : s.threads[t]? = some (fr :: rest)) :
    ∃ fr' rest', s'.threads[t]? = some (fr' :: rest') ∧ fr'.nf = fr.nf ∧
      rest'.map Frame.nf = rest.map Frame.nf := by
  have hget : (s'.threads[t]?).map (List.map Frame.nf) =
      (s.threads[t]?).map (List.map Frame.nf) := by
    rw [← List.getElem?_map, ← List.getElem?_map, h.threads]
  rw [ht, Option.map_some, List.map_cons] at hget
  obtain ⟨st, hst, heq⟩ := Option.map_eq_some_iff.mp hget
  obtain ⟨fr', rest', rfl, hfr, hrest⟩ := List.map_eq_cons_iff.mp heq
  exact ⟨fr', rest', hst, hfr, hrest⟩

/-- Similar states stay so after similar outcomes of their threads. -/
theorem Similar.after (h : Similar s s') {rest rest' : List (Frame α)} {o o' : Outcome α}
    (hrest : rest'.map Frame.nf = rest.map Frame.nf) (ho : o'.nf = o.nf) :
    Similar (s.after t rest o) (s'.after t rest' o') := by
  obtain ⟨hev, hmem, hframes, hspawned⟩ := Outcome.mk.inj ho
  refine ⟨hmem, ?_, ?_⟩
  · simp only [State.after, h.latch, hev]
  · have hsp : (o'.spawned.map fun fr => [fr]).map (List.map Frame.nf) =
        (o.spawned.map fun fr => [fr]).map (List.map Frame.nf) := by
      have key : ∀ l : List (Frame α), (l.map fun fr => [fr]).map (List.map Frame.nf) =
          (l.map Frame.nf).map fun fr => [fr] := by simp
      rw [key, key, hspawned]
    simp only [State.after, List.map_append, List.map_set, h.threads, hframes, hrest, hsp]

/-- A call of `seq::execute` leads to a similar state. -/
theorem similar_seqExec {A B : Node α} {a : ℕ} {x : Src α} {K : Cont α} {rest : List (Frame α)}
    {c : Choice α} {o : Outcome α} (ht : s.threads[t]? = some (.exec (.seq A B) a x K :: rest))
    (hf : Fires s.mem c (.exec (.seq A B) a x K) o) :
    o.event = .seqExec (a + A.size) ∧ Similar s (s.after t rest o) ∧
      (s.after t rest o).threads[t]? =
        some (.exec A a x (.seqK B (a + A.size) K) :: rest) := by
  obtain ⟨hlt, hget⟩ := List.getElem?_eq_some_iff.mp ht
  cases hf with
  | seqExec =>
      refine ⟨rfl, ⟨rfl, ?_, ?_⟩, ?_⟩
      · simp [State.after, Event.counted]
      · -- the two program points have the same normal form
        have hnf : (Frame.exec A a x (.seqK B (a + A.size) K) :: rest).map Frame.nf =
            (s.threads[t]).map Frame.nf := by
          rw [hget]
          rfl
        simp only [State.after, List.map_nil, List.append_nil, List.map_set,
          List.singleton_append, hnf]
        rw [← List.map_set, List.set_getElem_self]
      · simp [State.after, hlt]

/-- The calls of `seq::execute` that are due on a thread can be made, and change nothing that
is observable. -/
theorem exists_ready (g : Node α) {a : ℕ} {x : Src α} {K : Cont α} {rest : List (Frame α)}
    (ht : s.threads[t]? = some (.exec g a x K :: rest)) :
    ∃ σ s' fr, Run Step s σ s' ∧ visible σ = [] ∧ Similar s s' ∧
      s'.threads[t]? = some (fr :: rest) ∧ fr.Ready ∧ fr.nf = (Frame.exec g a x K).nf := by
  induction g generalizing s a K with
  | leaf | fork => exact ⟨[], s, _, .refl, rfl, ⟨rfl, rfl, rfl⟩, ht, True.intro, rfl⟩
  | seq A B ihA _ =>
      have hf := Fires.seqExec (m := s.mem) (c := default) A B a x K
      obtain ⟨-, hsim, ht'⟩ := similar_seqExec ht hf
      obtain ⟨σ, s', fr, hr, hσ, hs, ht', hready, hnf⟩ := ihA ht'
      have hstep := step_iff.mpr ⟨default, _, rest, _, ht, hf, rfl, rfl⟩
      exact ⟨_, s', fr, .head hstep hr, hσ, hsim.trans hs, ht', hready, hnf⟩

/-- **Similar states simulate each other.** -/
theorem Similar.simulate (h : Similar s s') {e : Event α} {u : State α} (hs : Step s (t, e) u) :
    ∃ σ u', Run Step s' σ u' ∧ visible σ = visible [(t, e)] ∧ Similar u u' := by
  obtain ⟨c, fr, rest, o, ht, hf, rfl, rfl⟩ := step_iff.mp hs
  by_cases hready : fr.Ready
  · obtain ⟨fr', rest', ht', hfr, hrest⟩ := h.exists_thread ht
    -- first the calls of `seq::execute` that this thread is behind
    have hex : ∃ σ u₁ fr₁, Run Step s' σ u₁ ∧ visible σ = [] ∧ Similar s' u₁ ∧
        u₁.threads[t]? = some (fr₁ :: rest') ∧ fr₁.Ready ∧ fr₁.nf = fr'.nf := by
      by_cases hr' : fr'.Ready
      · exact ⟨[], s', fr', .refl, rfl, ⟨rfl, rfl, rfl⟩, ht', hr', rfl⟩
      · cases fr' with
        | exec g a x K => exact exists_ready g ht'
        | _ => exact absurd True.intro hr'
    obtain ⟨σ, u₁, fr₁, hr, hσ, hsim, ht₁, hready₁, hnf⟩ := hex
    have h₁ := h.trans hsim
    have hstep : (fr₁.step u₁.mem c).map Outcome.nf = .ok o.nf := by
      rw [← Frame.step_nf _ _ hready₁, hnf, hfr, Frame.step_nf _ _ hready, h₁.mem, hf.step]
      rfl
    obtain ⟨o₁, ho₁, hnf₁⟩ : ∃ o₁, fr₁.step u₁.mem c = .ok o₁ ∧ o₁.nf = o.nf := by
      rcases hcase : fr₁.step u₁.mem c with e | o₁
      · rw [hcase] at hstep
        cases hstep
      · rw [hcase] at hstep
        exact ⟨o₁, rfl, Except.ok.inj hstep⟩
    have hev : o₁.event = o.event := (Outcome.mk.inj hnf₁).1
    refine ⟨σ ++ [(t, o.event)], u₁.after t rest' o₁, hr.tail ?_, ?_, h₁.after hrest hnf₁⟩
    · exact step_iff.mpr ⟨c, fr₁, rest', o₁, ht₁, .of_step ho₁, hev, rfl⟩
    · rw [visible_append, hσ, List.nil_append]
  · cases fr with
    | exec g a x K =>
        cases g with
        | seq A B =>
            obtain ⟨he, hsim, -⟩ := similar_seqExec ht hf
            refine ⟨[], s', .refl, ?_, hsim.symm.trans h⟩
            rw [he]
            rfl
        | _ => exact absurd True.intro hready
    | _ => exact absurd True.intro hready

/-- A run can be answered by a run that shows the same. -/
theorem Similar.run (h : Similar s s') {τ : List (ℕ × Event α)} {u : State α}
    (hr : Run Step s τ u) : ∃ σ u', Run Step s' σ u' ∧ visible σ = visible τ ∧ Similar u u' :=
  Run.simulate visible_append visible_append
    (fun _ l _ _ hl hsim => hsim.simulate (t := l.1) hl) hr h

/-- In similar states the same threads have returned. -/
theorem Similar.returned (h : Similar s s') (hs : ∀ st ∈ s.threads, st = []) :
    ∀ st ∈ s'.threads, st = [] := by
  intro st hst
  have hmem : st.map Frame.nf ∈ s.threads.map (List.map Frame.nf) := by
    rw [← h.threads]
    exact List.mem_map_of_mem hst
  obtain ⟨st₀, hst₀, heq⟩ := List.mem_map.mp hmem
  rw [hs st₀ hst₀, List.map_nil] at heq
  exact List.map_eq_nil_iff.mp heq.symm

/-! ### Bracketing is unobservable -/

section Bracketing

variable {G G' : Node α} {m : Mem α} {x : Value α}

/-- What can be observed of the runs of `execute`. -/
def Node.observables (G : Node α) (m : Mem α) (x : Value α) : Set (List (ℕ × Event α)) :=
  {ω | ∃ τ s, Run Step (State.start G m x) τ s ∧ visible τ = ω}

/-- What can be observed of the complete runs. -/
def Node.completeObservables (G : Node α) (m : Mem α) (x : Value α) :
    Set (List (ℕ × Event α)) :=
  {ω | ∃ τ s, Run Step (State.start G m x) τ s ∧ Stuck Step s ∧ visible τ = ω}

theorem Node.Assoc.push_eq (h : G.Assoc G') (a : ℕ) (K : Cont α) :
    Cont.push G a K = Cont.push G' a K := by
  rw [← Cont.push_norm G, ← Cont.push_norm G', h.norm_eq]

theorem Node.Assoc.cleanupCount_eq (h : G.Assoc G') : G.cleanupCount = G'.cleanupCount := by
  rw [← G.cleanupCount_norm, ← G'.cleanupCount_norm, h.norm_eq]

theorem Node.Assoc.similar_start (h : G.Assoc G') (m : Mem α) (x : Value α) :
    Similar (State.start G m x) (State.start G' m x) := by
  refine ⟨rfl, ?_, ?_⟩
  · show (G'.cleanupCount : ℤ) + 1 = G.cleanupCount + 1
    rw [h.cleanupCount_eq]
  · show [[(Cont.push G' 0 .root).invoke (.temp x)]] = [[(Cont.push G 0 .root).invoke (.temp x)]]
    rw [h.push_eq]

theorem Node.Assoc.observables_subset (h : G.Assoc G') (m : Mem α) (x : Value α) :
    G.observables m x ⊆ G'.observables m x := by
  rintro ω ⟨τ, s, hr, rfl⟩
  obtain ⟨σ, s', hr', hσ, -⟩ := (h.similar_start m x).run hr
  exact ⟨σ, s', hr', hσ⟩

theorem Node.Assoc.completeObservables_subset (h : G.Assoc G') (hm : m.Unengaged) (x : Value α) :
    G.completeObservables m x ⊆ G'.completeObservables m x := by
  rintro ω ⟨τ, s, hr, hs, rfl⟩
  obtain ⟨σ, s', hr', hσ, hsim⟩ := (h.similar_start m x).run hr
  refine ⟨σ, s', hr', ?_, hσ⟩
  exact stuck_of_returned (hsim.returned ((Inv.reached hm hr).stuck_iff.mp hs))

/-- The graph that `g.then(x1).then(x2)...` builds. -/
def Node.chain (g : Node α) (xs : List (Link α)) : Option (Node α) := xs.foldlM thenLink g

/-- The `seq` of nodes, nested to the left. -/
def Node.nestLeft (g : Node α) (xs : List (Node α)) : Node α := xs.foldl seq g

/-- The `seq` of nodes, nested to the right. -/
def Node.nest (g : Node α) : List (Node α) → Node α
  | [] => g
  | x :: xs => seq g (nest x xs)

/-- **A chain of calls of `then` on a leaf or a seq builds the left-nested `seq`**, whatever its
length. -/
theorem Node.chain_eq {g : Node α} (hg : g.hasThen = true) (xs : List (Link α)) :
    g.chain xs = some (g.nestLeft (xs.map Link.toNode)) := by
  induction xs generalizing g with
  | nil => rfl
  | cons l xs ih =>
      -- what the first call builds is a seq
      have hseq : (seq g l.toNode).hasThen = true := rfl
      rw [chain, List.foldlM_cons, thenLink_eq, if_pos hg]
      exact ih hseq

theorem Node.assoc_nest (g x : Node α) (xs : List (Node α)) :
    Assoc ((seq g x).nest xs) (seq g (x.nest xs)) := by
  cases xs with
  | nil => exact .refl _
  | cons y ys => exact .assoc g x (nest y ys)

theorem Node.assoc_nestLeft (g : Node α) (xs : List (Node α)) :
    Assoc (g.nestLeft xs) (g.nest xs) := by
  induction xs generalizing g with
  | nil => exact .refl _
  | cons x xs ih => exact .trans (ih (seq g x)) (assoc_nest g x xs)

/-- **The bracketing of `seq` is unobservable.**  Graphs that differ by it have the same
`cleanup_count` and can be observed to do the same, event by event and thread by thread, in
their runs and in their complete runs; what the scheduler did with each task is among the
events, so this holds for every scheduler.  In particular a chain of calls of `then` on a leaf
or a seq, of nodes and of callables, builds the left-nested `seq` of the nodes, and this holds
for it and the right-nested one. -/
theorem bracketing_unobservable (hm : m.Unengaged) (x : Value α) :
    (∀ G G' : Node α, G.Assoc G' → G.cleanupCount = G'.cleanupCount ∧
      G.observables m x = G'.observables m x ∧
      G.completeObservables m x = G'.completeObservables m x) ∧
    (∀ (g : Node α) (xs : List (Node.Link α)), g.hasThen = true → ∃ h, g.chain xs = some h ∧
      h = g.nestLeft (xs.map Node.Link.toNode) ∧
      h.cleanupCount = (g.nest (xs.map Node.Link.toNode)).cleanupCount ∧
      h.observables m x = (g.nest (xs.map Node.Link.toNode)).observables m x ∧
      h.completeObservables m x =
        (g.nest (xs.map Node.Link.toNode)).completeObservables m x) := by
  have key : ∀ G G' : Node α, G.Assoc G' → G.cleanupCount = G'.cleanupCount ∧
      G.observables m x = G'.observables m x ∧
      G.completeObservables m x = G'.completeObservables m x := fun G G' h =>
    ⟨h.cleanupCount_eq,
      Set.Subset.antisymm (h.observables_subset m x) (h.symm.observables_subset m x),
      Set.Subset.antisymm (h.completeObservables_subset hm x)
        (h.symm.completeObservables_subset hm x)⟩
  exact ⟨key, fun g xs hg => ⟨g.nestLeft (xs.map Node.Link.toNode), Node.chain_eq hg xs, rfl,
    key _ _ (Node.assoc_nestLeft g _)⟩⟩

/-- A leaf that adds one. -/
def addOne : Node ℕ :=
  .leaf (.obj 0) false fun
    | [.obj v] => some (.obj (v + 1))
    | _ => some (.obj 1)

/-- `all{leaf.then(race).then(leaf), leaf}`. -/
def chained : Node ℕ := .all ![.seq (.seq addOne race) addOne, addOne]

/-- `all{seq{leaf, seq{race, leaf}}, leaf}`. -/
def unchained : Node ℕ := .all ![.seq addOne (.seq race addOne), addOne]

theorem chained_ne : chained ≠ unchained := by
  intro h
  have h0 := congrFun (eq_of_heq (Node.fork.inj h).2.2) 0
  cases (Node.seq.inj h0).1

theorem assoc_chained : chained.Assoc unchained := by
  refine .fork .all fun i => ?_
  match i with
  | 0 => exact .assoc addOne race addOne
  | 1 => exact .refl addOne

theorem bracketing_unobservable_chained :
    (chained ≠ unchained ∧ chained.cleanupCount = unchained.cleanupCount ∧
      chained.observables Mem.fresh .nothing = unchained.observables Mem.fresh .nothing ∧
      chained.completeObservables Mem.fresh .nothing =
        unchained.completeObservables Mem.fresh .nothing) ∧
    ∃ h, addOne.chain [.node race, .callable (.obj 0) false fun _ => some (.obj 5)] = some h ∧
      h = .seq (.seq addOne race) (.leaf (.obj 0) false fun _ => some (.obj 5)) ∧
      h.cleanupCount = 1 ∧
      h.observables Mem.fresh .nothing =
        (Node.seq addOne (.seq race (.leaf (.obj 0) false fun _ => some (.obj 5)))).observables
          Mem.fresh .nothing ∧
      h.completeObservables Mem.fresh .nothing =
        (Node.seq addOne
          (.seq race (.leaf (.obj 0) false fun _ => some (.obj 5)))).completeObservables
          Mem.fresh .nothing := by
  obtain ⟨hassoc, hchain⟩ := bracketing_unobservable (Mem.fresh_unengaged (α := ℕ)) .nothing
  exact ⟨⟨chained_ne, hassoc chained unchained assoc_chained⟩,
    hchain addOne [.node race, .callable (.obj 0) false fun _ => some (.obj 5)] rfl⟩

end Bracketing

end Orizzonte
