/-
Orizzonte/Eval.lean

The sequential meaning of a graph.  `Node.eval w` says what a graph computes when
`w` tells the winner of each any node: a leaf applies its callable, `seq` composes,
`all` feeds one input to every child and pairs up the results, `any` takes the
result of the winner.  `Node.leafArgs w` lists the calls of leaves on the way, those
of losing branches included.

`Flow.winners w` is this evaluator as a flow, so every run whose races are won as
`w` says computes it.  The winners of a run are those its own `fetch_sub`s
determine (`winner`), which gives the refinement (`run_computes_eval`).
-/
import Orizzonte.Safety

namespace Orizzonte

open Lts

universe u

variable {α : Type u}

/-! ### The evaluator -/

/-- The result of a graph, given the winners of its any nodes. -/
def Node.eval (w : ℕ → ℕ) : Node α → ℕ → Value α → Value α
  | leaf _ _ f, _, x => f.call x
  | seq A B, a, x => B.eval w (a + A.size) (A.eval w a x)
  | @fork _ .all n fs, a, x =>
      .tuple (List.ofFn fun i : Fin (n + 1) => (fs i).eval w (childAddr fs a i) x)
  | @fork _ .any n fs, a, x =>
      let i := Fin.ofNat (n + 1) (w a)
      .variant (fs i).outType ((fs i).eval w (childAddr fs a i) x)

/-- The calls of leaves, with their arguments. -/
def Node.leafArgs (w : ℕ → ℕ) : Node α → ℕ → Value α → List (ℕ × Value α)
  | leaf _ _ _, a, x => [(a, x)]
  | seq A B, a, x => A.leafArgs w a x ++ B.leafArgs w (a + A.size) (A.eval w a x)
  | @fork _ _ n fs, a, x =>
      (List.finRange (n + 1)).flatMap fun i => (fs i).leafArgs w (childAddr fs a i) x

/-- The evaluator only asks for the winners of any nodes of the graph. -/
theorem Node.eval_congr {w w' : ℕ → ℕ} (g : Node α) (a : ℕ) (x : Value α)
    (h : ∀ b ∈ g.anyAddrs a, w b = w' b) : g.eval w a x = g.eval w' a x := by
  unfold anyAddrs at h
  induction g generalizing a x with
  | leaf => rfl
  | seq A B ihA ihB =>
      simp only [collect, List.nil_append, List.mem_append] at h
      show B.eval w (a + A.size) (A.eval w a x) = B.eval w' (a + A.size) (A.eval w' a x)
      rw [ihA a x fun b hb => h b (.inl hb), ihB (a + A.size) _ fun b hb => h b (.inr hb)]
  | @fork k n fs ih =>
      have hch : ∀ i : Fin (n + 1),
          (fs i).eval w (childAddr fs a i) x = (fs i).eval w' (childAddr fs a i) x := by
        intro i
        apply ih
        intro b hb
        apply h
        exact List.mem_append_right _ (List.mem_flatMap.mpr ⟨i, List.mem_finRange i, hb⟩)
      cases k with
      | all =>
          show Value.tuple _ = Value.tuple _
          rw [funext hch]
      | any =>
          have hw : w a = w' a := h a (by simp [collect])
          show Value.variant _ _ = Value.variant _ _
          rw [hw, hch]

theorem Node.leafArgs_congr {w w' : ℕ → ℕ} (g : Node α) (a : ℕ) (x : Value α)
    (h : ∀ b ∈ g.anyAddrs a, w b = w' b) : g.leafArgs w a x = g.leafArgs w' a x := by
  unfold anyAddrs at h
  induction g generalizing a x with
  | leaf => rfl
  | seq A B ihA ihB =>
      simp only [collect, List.nil_append, List.mem_append] at h
      show A.leafArgs w a x ++ B.leafArgs w (a + A.size) (A.eval w a x) =
        A.leafArgs w' a x ++ B.leafArgs w' (a + A.size) (A.eval w' a x)
      rw [ihA a x fun b hb => h b (.inl hb), ihB (a + A.size) _ fun b hb => h b (.inr hb),
        A.eval_congr a x fun b hb => h b (.inl hb)]
  | @fork k n fs ih =>
      have hch : ∀ i : Fin (n + 1),
          (fs i).leafArgs w (childAddr fs a i) x = (fs i).leafArgs w' (childAddr fs a i) x := by
        intro i
        apply ih
        intro b hb
        apply h
        exact List.mem_append_right _ (List.mem_flatMap.mpr ⟨i, List.mem_finRange i, hb⟩)
      show List.flatMap _ _ = List.flatMap _ _
      rw [funext hch]

/-- Every leaf is called once. -/
theorem Node.map_fst_leafArgs (w : ℕ → ℕ) (g : Node α) (a : ℕ) (x : Value α) :
    (g.leafArgs w a x).map Prod.fst = g.leafAddrs a := by
  unfold leafAddrs
  induction g generalizing a x with
  | leaf => rfl
  | seq A B ihA ihB => simp [leafArgs, collect, ihA, ihB]
  | fork k fs ih => simp [leafArgs, collect, List.map_flatMap, ih]

/-- The annotation of a leaf, when each call is annotated with its input, is the argument the
evaluator gives it. -/
theorem Node.mem_leafArgs_of_site (w : ℕ → ℕ) {g : Node α} {a b : ℕ} {K K' : Cont α}
    {x y : Value α} {t : Ty} {r : Bool} {f : Callable α}
    (h : ⟨leaf t r f, b, K', y⟩ ∈ g.sites (eval w) a K x) : (b, y) ∈ g.leafArgs w a x := by
  induction g generalizing a K x with
  | leaf =>
      simp only [sites, List.mem_singleton] at h
      cases h
      exact List.mem_singleton_self _
  | seq A B ihA ihB =>
      rcases mem_sites_seq.mp h with h | h | h
      · cases h
      · exact List.mem_append_left _ (ihA h)
      · exact List.mem_append_right _ (ihB h)
  | fork k fs ih =>
      rcases mem_sites_fork.mp h with h | ⟨i, h⟩
      · cases h
      · exact List.mem_flatMap.mpr ⟨i, List.mem_finRange i, ih i h⟩

/-! ### The evaluator as a flow -/

/-- The races of the run are won as `w` says. -/
def Event.WonBy (w : ℕ → ℕ) : Event α → Prop
  | fetchSub a n i r => r = n + 1 → i = w a
  | _ => True

/-- Every call has the input the evaluator gives it. -/
def Flow.winners (w : ℕ → ℕ) (x : Value α) : Flow α where
  D := Value α
  d₀ := x
  out := Node.eval w
  holds := fun d y => y = d
  allowed := Event.WonBy w
  leaf_rule := by
    rintro t r f a d y - rfl
    rfl
  seq_rule := fun h => h
  all_rule := by
    intro n fs a d ys h
    show Value.tuple _ = Value.tuple _
    rw [funext h]
  any_rule := by
    rintro n fs a d y i hw rfl
    have hi : Fin.ofNat (n + 1) (w a) = i := by
      rw [← hw rfl]
      exact Fin.ofNat_val_eq_self i
    show Value.variant _ _ = Value.variant _ _
    rw [hi]

/-- The child of the node at `a` whose `fetch_sub` came first. -/
def winner (τ : List (ℕ × Event α)) (a : ℕ) : ℕ := ((fetchSubs a τ).map Prod.fst).headD 0

variable {G : Node α} {s s' : State α} {m m' : Mem α} {x : Value α} {τ τ' : List (ℕ × Event α)}

/-- A `fetch_sub` is made on an all or any node of the graph, for one of its children. -/
theorem mem_forks_of_fetchSub (hm : m.Unengaged) (hr : Run Step (State.start G m x) τ s)
    {t a n i : ℕ} {r : ℤ} (hl : (t, .fetchSub a n i r) ∈ τ) :
    (a, n + 1) ∈ G.forks 0 ∧ i < n + 1 := by
  obtain ⟨σ, ρ, rfl⟩ := List.append_of_mem hl
  obtain ⟨u, u', hu, hstep⟩ := hr.exists_step (σ := σ) ⟨ρ, by rw [List.append_assoc]; rfl⟩
  obtain ⟨c, fr, rest, o, ht, hf, he, rfl⟩ := step_iff.mp hstep
  rcases hf.touches a with ⟨-, -, hno, -⟩ | ⟨_, _, _, _, _, -, he', -⟩ |
    ⟨n', i', K, hfr, he', -⟩ | ⟨_, -, he', -⟩
  · exact absurd (by rw [he]; exact Multiset.mem_singleton_self _) (hno i)
  · cases he.symm.trans he'
  · obtain ⟨-, rfl, rfl, -⟩ := Event.fetchSub.inj (he.symm.trans he')
    obtain ⟨k, fs, d, j, rfl, hd, -⟩ := (Inv.reached hm hu).fetchSub_frame ht hfr
    exact ⟨mem_forks_of_site hd, j.isLt⟩
  · cases he.symm.trans he'

/-- A `fetch_sub` that returned the arity was the first one on its node. -/
theorem wonBy_winner (hm : m.Unengaged) (hr : Run Step (State.start G m x) τ s) :
    ∀ l ∈ τ, l.2.WonBy (winner τ) := by
  rintro ⟨t, e⟩ hl
  cases e with
  | fetchSub a n i r =>
      rintro rfl
      have hfork := (mem_forks_of_fetchSub hm hr hl).1
      obtain ⟨σ, ρ, rfl⟩ := List.append_of_mem hl
      -- the value returned by the `j`-th call is `n + 1 - j`
      have hcount := (fetchSubs_count_down hm hr hfork).values
      have happ : fetchSubs a (σ ++ (t, .fetchSub a n i (n + 1)) :: ρ) =
          fetchSubs a σ ++ (i, (n + 1 : ℤ)) :: fetchSubs a ρ := by
        simp [fetchSubs, observed, Event.fetchSub?]
      have hnil : fetchSubs a σ = [] := by
        have hat : ((fetchSubs a (σ ++ (t, .fetchSub a n i (n + 1)) :: ρ)).map Prod.snd)[
            (fetchSubs a σ).length]? = some (n + 1 : ℤ) := by
          rw [happ, List.map_append, List.map_cons]
          rw [List.getElem?_append_right (by simp)]
          simp
        rw [hcount, List.getElem?_map, List.getElem?_range (by rw [happ]; simp)] at hat
        have := Option.some.inj hat
        push_cast at this
        exact List.length_eq_zero_iff.mp (by omega)
      unfold winner
      rw [happ, hnil]
      rfl
  | _ => exact True.intro

/-! ### Runs compute the evaluator -/

/-- Every call a run makes has the argument of the evaluator. -/
theorem calls_of_wonBy {w : ℕ → ℕ} (hm : m.Unengaged) (hr : Run Step (State.start G m x) τ s)
    (hw : ∀ l ∈ τ, l.2.WonBy w) :
    (∀ p ∈ leafCalls τ, p ∈ G.leafArgs w 0 x) ∧ ∀ y ∈ thenCalls τ, y = G.eval w 0 x := by
  have hOK := (@Inv.run _ (Flow.winners w x) _ _ _ _ _ hm rfl hr hw).2
  constructor
  · rintro ⟨a, y⟩ hp
    obtain ⟨l, hl, hlp⟩ := List.mem_filterMap.mp hp
    have hl := hOK l hl
    cases he : l.2 with
    | leafCall b z =>
        rw [he] at hlp hl
        cases hlp
        obtain ⟨t, r, f, K, d, hd, hz⟩ := hl
        obtain rfl : y = d := hz
        exact Node.mem_leafArgs_of_site w hd
    | _ => rw [he] at hlp; cases hlp
  · intro y hp
    obtain ⟨l, hl, hlp⟩ := List.mem_filterMap.mp hp
    have hl := hOK l hl
    cases he : l.2 with
    | thenCall z =>
        rw [he] at hlp hl
        cases hlp
        exact hl
    | _ => rw [he] at hlp; cases hlp

/-- **A complete run computes the sequential evaluation of the graph** under its own winners:
it calls the leaves with exactly these arguments, and `then` with exactly this result. -/
theorem run_computes_eval (hm : m.Unengaged) (hr : Run Step (State.start G m x) τ s)
    (hs : Stuck Step s) :
    (leafCalls τ).Perm (G.leafArgs (winner τ) 0 x) ∧ thenCalls τ = [G.eval (winner τ) 0 x] := by
  have hcalls := calls_of_wonBy hm hr (wonBy_winner hm hr)
  have hperm := leafCalls_addrs_perm hm hr hs
  have hnd := hperm.nodup_iff.mpr (G.nodup_leafAddrs 0)
  constructor
  · apply Tally.perm_of_subset_of_map _ hnd hcalls.1
    rw [Node.map_fst_leafArgs]
    exact hperm
  · obtain ⟨y, hy⟩ := List.length_eq_one_iff.mp (thenCalls_length hm hr hs)
    rw [hy, hcalls.2 y (by rw [hy]; exact List.mem_singleton_self y)]

/-- Two runs with the same winners agree. -/
theorem runs_agree (hm : m.Unengaged) (hm' : m'.Unengaged)
    (hr : Run Step (State.start G m x) τ s) (hs : Stuck Step s)
    (hr' : Run Step (State.start G m' x) τ' s') (hs' : Stuck Step s')
    (hw : ∀ a ∈ G.anyAddrs 0, winner τ a = winner τ' a) :
    (leafCalls τ).Perm (leafCalls τ') ∧ thenCalls τ = thenCalls τ' := by
  obtain ⟨hleaf, hthen⟩ := run_computes_eval hm hr hs
  obtain ⟨hleaf', hthen'⟩ := run_computes_eval hm' hr' hs'
  rw [G.leafArgs_congr 0 x hw] at hleaf
  rw [hthen, hthen', G.eval_congr 0 x hw]
  exact ⟨hleaf.trans hleaf'.symm, rfl⟩

end Orizzonte
