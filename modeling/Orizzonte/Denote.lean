/-
Orizzonte/Denote.lean

The meaning of a graph as a relation between its input and its results, without
addresses, winners or runs: `Node.results`.  It is what `then` may be called with
(`thenValues_eq_results`), and it composes: graphs with the same results and the same
`out_type` can be exchanged in every graph, and no others can
(`interchangeable_iff`, and `interchangeable_seq_fork` for an instance).  The results
have the `out_type`, if the callables have the ones that their leaves state
(`types_sound`).
-/
import Orizzonte.Concurrent

namespace Orizzonte

open Lts

universe u

variable {α : Type u}

/-! ### Results -/

/-- The results that a graph may have. -/
def Node.results : Node α → Value α → Set (Value α)
  | leaf _ _ f, x => {f.call x}
  | seq A B, x => {z | ∃ y ∈ A.results x, z ∈ B.results y}
  | @fork _ .all n fs, x => {z | ∃ ys : Fin (n + 1) → Value α,
      (∀ i, ys i ∈ (fs i).results x) ∧ z = .tuple (List.ofFn ys)}
  | @fork _ .any n fs, x => {z | ∃ i : Fin (n + 1), ∃ y ∈ (fs i).results x,
      z = .variant (fs i).outType y}

/-- Whatever the winners, the evaluator yields a result of the graph. -/
theorem Node.eval_mem_results (w : ℕ → ℕ) (g : Node α) (a : ℕ) (x : Value α) :
    g.eval w a x ∈ g.results x := by
  induction g generalizing a x with
  | leaf => rfl
  | seq A B ihA ihB => exact ⟨_, ihA a x, ihB _ _⟩
  | fork k fs ih =>
      cases k with
      | all => exact ⟨_, fun i => ih i _ x, rfl⟩
      | any => exact ⟨_, _, ih _ _ x, rfl⟩

/-- `w` names a child of each any node of the graph at `a`. -/
def Node.Wins (w : ℕ → ℕ) : Node α → ℕ → Prop
  | leaf _ _ _, _ => True
  | seq A B, a => A.Wins w a ∧ B.Wins w (a + A.size)
  | @fork _ k n fs, a => (k = .any → w a < n + 1) ∧ ∀ i, (fs i).Wins w (childAddr fs a i)

variable {w w' : ℕ → ℕ} {g : Node α} {a : ℕ}

theorem Node.wins_zero (g : Node α) (a : ℕ) : g.Wins (fun _ => 0) a := by
  induction g generalizing a with
  | leaf => exact True.intro
  | seq A B ihA ihB => exact ⟨ihA _, ihB _⟩
  | fork k fs ih => exact ⟨fun _ => Nat.succ_pos _, fun i => ih i _⟩

/-- Winners that agree on the addresses of a graph are as good. -/
theorem Node.wins_congr (h : ∀ b, a ≤ b → b < a + g.size → w b = w' b) (hw : g.Wins w a) :
    g.Wins w' a := by
  induction g generalizing a with
  | leaf => exact True.intro
  | seq A B ihA ihB =>
      refine ⟨ihA (fun b hb hb' => h b hb ?_) hw.1, ihB (fun b hb hb' => h b ?_ ?_) hw.2⟩
      · show b < a + (A.size + B.size)
        omega
      · exact (Nat.le_add_right _ _).trans hb
      · show b < a + (A.size + B.size)
        omega
  | @fork k n fs ih =>
      refine ⟨fun hk => ?_, fun i => ih i (fun b hb hb' => h b ?_ ?_) (hw.2 i)⟩
      · rw [← h a le_rfl (Nat.lt_add_of_pos_right (size_pos _))]
        exact hw.1 hk
      · exact (lt_childAddr fs a i).le.trans hb
      · exact hb'.trans_le (childAddr_add_size_le fs a k i)

theorem Node.eval_congr_range (h : ∀ b, a ≤ b → b < a + g.size → w b = w' b) (x : Value α) :
    g.eval w a x = g.eval w' a x :=
  g.eval_congr a x fun b hb => h b (mem_range_of_mem_anyAddrs hb).1 (mem_range_of_mem_anyAddrs hb).2

/-- Winners for the children and for the node itself, put together. -/
theorem exists_glue {n : ℕ} (fs : Fin (n + 1) → Node α) (a i : ℕ) (ws : Fin (n + 1) → ℕ → ℕ) :
    ∃ w : ℕ → ℕ, w a = i ∧ ∀ j b, Node.childAddr fs a j ≤ b →
      b < Node.childAddr fs a j + (fs j).size → w b = ws j b := by
  classical
  refine ⟨fun b => if h : ∃ j, Node.childAddr fs a j ≤ b ∧
    b < Node.childAddr fs a j + (fs j).size then ws h.choose b else i, ?_, ?_⟩
  · apply dif_neg
    rintro ⟨j, hj, -⟩
    exact absurd hj (not_le.mpr (Node.lt_childAddr fs a j))
  · intro j b hlo hhi
    have h : ∃ j, Node.childAddr fs a j ≤ b ∧ b < Node.childAddr fs a j + (fs j).size :=
      ⟨j, hlo, hhi⟩
    have hj : h.choose = j :=
      Node.childAddr_inj fs a h.choose_spec.1 h.choose_spec.2 hlo hhi
    show dite _ _ _ = _
    rw [dif_pos h, hj]

/-- Every result is the one for some winners. -/
theorem Node.exists_eval {x v : Value α} (hv : v ∈ g.results x) (a : ℕ) :
    ∃ w, g.Wins w a ∧ g.eval w a x = v := by
  induction g generalizing a x v with
  | leaf =>
      obtain rfl := hv
      exact ⟨fun _ => 0, True.intro, rfl⟩
  | seq A B ihA ihB =>
      obtain ⟨y, hy, hv⟩ := hv
      obtain ⟨wA, hwA, rfl⟩ := ihA hy a
      obtain ⟨wB, hwB, rfl⟩ := ihB hv (a + A.size)
      have hA : ∀ b, a ≤ b → b < a + A.size →
          wA b = if b < a + A.size then wA b else wB b := fun b _ hb => (if_pos hb).symm
      have hB : ∀ b, a + A.size ≤ b → b < a + A.size + B.size →
          wB b = if b < a + A.size then wA b else wB b :=
        fun b hb _ => (if_neg (not_lt.mpr hb)).symm
      refine ⟨fun b => if b < a + A.size then wA b else wB b,
        ⟨wins_congr hA hwA, wins_congr hB hwB⟩, ?_⟩
      show B.eval _ _ (A.eval _ a x) = _
      rw [← eval_congr_range hA, ← eval_congr_range hB]
  | @fork k n fs ih =>
      cases k with
      | all =>
          obtain ⟨ys, hys, rfl⟩ := hv
          choose ws hws heval using fun i => ih i (hys i) (childAddr fs a i)
          obtain ⟨w, -, hw⟩ := exists_glue fs a 0 ws
          refine ⟨w, ⟨fun hk => (by cases hk), fun i => ?_⟩, ?_⟩
          · exact wins_congr (fun b hlo hhi => (hw i b hlo hhi).symm) (hws i)
          · show Value.tuple _ = Value.tuple _
            congr 2
            funext i
            rw [eval_congr_range (hw i), heval i]
      | any =>
          obtain ⟨i, y, hy, rfl⟩ := hv
          obtain ⟨wi, hwi, rfl⟩ := ih i hy (childAddr fs a i)
          obtain ⟨w, hwa, hw⟩ := exists_glue fs a i (Function.update (fun _ _ => 0) i wi)
          have hi : ∀ b, childAddr fs a i ≤ b → b < childAddr fs a i + (fs i).size →
              w b = wi b := by
            intro b hlo hhi
            rw [hw i b hlo hhi, Function.update_self]
          refine ⟨w, ⟨fun _ => hwa ▸ i.isLt, fun j => ?_⟩, ?_⟩
          · by_cases hj : j = i
            · subst hj
              exact wins_congr (fun b hlo hhi => (hi b hlo hhi).symm) hwi
            · apply wins_congr _ (wins_zero (fs j) _)
              intro b hlo hhi
              rw [hw j b hlo hhi, Function.update_of_ne hj]
          · have hwin : Fin.ofNat (n + 1) (w a) = i := by
              rw [hwa]
              exact Fin.ofNat_val_eq_self i
            show Value.variant _ _ = Value.variant _ _
            rw [hwin, eval_congr_range hi]

theorem Node.Wins.lt {G : Node α} (h : G.Wins w 0) {a N : ℕ} (hN : (a, N) ∈ G.forks 0)
    (ha : a ∈ G.anyAddrs 0) : w a < N := by
  have hsub : ∀ x ∈ (Flow.trivial (α := α)).sites G, x.node.Wins w x.addr := by
    apply Node.sites_induction
    · exact h
    · exact fun A B a K d _ ih => ih.1
    · exact fun A B a K d _ ih => ih.2
    · exact fun k n fs a K d i _ ih => ih.2 i
  obtain ⟨n, fs, K, d, hx⟩ := exists_site_of_mem_anyAddrs Flow.trivial ha
  rw [forks_unique hN (mem_forks_of_site hx)]
  exact (hsub _ hx).1 rfl

/-! ### Runs -/

/-- What `then` may be called with in the complete runs. -/
def Node.thenValues (G : Node α) (m : Mem α) (x : Value α) : Set (Value α) :=
  {v | ∃ τ s, Run Step (State.start G m x) τ s ∧ Stuck Step s ∧ thenCalls τ = [v]}

variable {G : Node α} {m : Mem α} {x v : Value α}

theorem mem_thenValues (hm : m.Unengaged) : v ∈ G.thenValues m x ↔ v ∈ G.results x := by
  constructor
  · rintro ⟨τ, s, hr, hs, hv⟩
    have h := (run_computes_eval hm hr hs).2
    rw [hv] at h
    rw [(List.cons.inj h).1]
    exact G.eval_mem_results _ 0 x
  · intro hv
    obtain ⟨w, hw, rfl⟩ := Node.exists_eval hv 0
    obtain ⟨τ, s, hr, hs, -, hwin⟩ := exists_run_with_winners hm x fun a N hN ha => hw.lt hN ha
    refine ⟨τ, s, hr, hs, ?_⟩
    rw [(run_computes_eval hm hr hs).2, G.eval_congr 0 x hwin]

/-- **`then` is called with a result of the graph, and with any of them.** -/
theorem thenValues_eq_results (hm : m.Unengaged) (G : Node α) (x : Value α) :
    G.thenValues m x = G.results x := by
  ext v
  exact mem_thenValues hm

theorem thenValues_eq_results_race :
    race.thenValues Mem.fresh .nothing = race.results .nothing :=
  thenValues_eq_results Mem.fresh_unengaged race .nothing

/-! ### Contexts -/

/-- A graph with a hole in it. -/
inductive Ctx (α : Type u)
  | hole
  | fst (C : Ctx α) (B : Node α)
  | snd (A : Node α) (C : Ctx α)
  | child (k : Join) {n : ℕ} (fs : Fin (n + 1) → Node α) (i : Fin (n + 1)) (C : Ctx α)

/-- The context with `g` in the hole. -/
def Ctx.plug (g : Node α) : Ctx α → Node α
  | hole => g
  | fst C B => .seq (C.plug g) B
  | snd A C => .seq A (C.plug g)
  | child k fs i C => .fork k (Function.update fs i (C.plug g))

/-- The same `out_type`, and for each input the same results. -/
structure Node.Alike (g g' : Node α) : Prop where
  outType : g.outType = g'.outType
  results : ∀ x, g.results x = g'.results x

theorem Node.alike_fork (k : Join) {n : ℕ} {fs fs' : Fin (n + 1) → Node α}
    (h : ∀ i, (fs i).Alike (fs' i)) : (fork k fs).Alike (fork k fs') := by
  have hout : (fun i => (fs i).outType) = fun i => (fs' i).outType :=
    funext fun i => (h i).outType
  have hres : ∀ i x, (fs i).results x = (fs' i).results x := fun i => (h i).results
  cases k with
  | all =>
      refine ⟨?_, fun x => ?_⟩
      · simp only [outType, hout]
      · simp only [results, hres]
  | any =>
      refine ⟨?_, fun x => ?_⟩
      · simp only [outType, hout]
      · simp only [results, hres, (h _).outType]

/-- Graphs that are alike are so in every context. -/
theorem Node.Alike.plug {g g' : Node α} (h : g.Alike g') (C : Ctx α) :
    (C.plug g).Alike (C.plug g') := by
  induction C with
  | hole => exact h
  | fst C B ih =>
      refine ⟨rfl, fun x => ?_⟩
      simp only [Ctx.plug, Node.results, ih.results]
  | snd A C ih =>
      refine ⟨ih.outType, fun x => ?_⟩
      simp only [Ctx.plug, Node.results, ih.results]
  | child k fs i C ih =>
      apply alike_fork
      intro j
      by_cases hj : j = i
      · subst hj
        rw [Function.update_self, Function.update_self]
        exact ih
      · rw [Function.update_of_ne hj, Function.update_of_ne hj]
        exact ⟨rfl, fun _ => rfl⟩

variable (I : ℕ → Set α)

/-- The objects of a type, where those of the user types are given. -/
inductive Value.Of : Ty → Value α → Prop
  | nothing : Of .nothing .nothing
  | obj {k : ℕ} {x : α} : x ∈ I k → Of (.obj k) (.obj x)
  | tuple {ts : List Ty} {xs : List (Value α)} : xs.length = ts.length →
      (∀ (i : ℕ) (h : i < xs.length) (h' : i < ts.length), Of ts[i] xs[i]) →
      Of (.tuple ts) (.tuple xs)
  | variant {ts : List Ty} {cur : Ty} {y : Value α} : cur ∈ ts → Of cur y →
      Of (.variant ts) (.variant cur y)

/-- Given an input of type `t`, every callable yields an object of the type that its leaf
states. -/
def Node.Accepts : Node α → Ty → Prop
  | leaf out _ f, t => ∀ x, x.Of I t → (f.call x).Of I out
  | seq A B, t => A.Accepts t ∧ B.Accepts A.outType
  | fork _ fs, t => ∀ i, (fs i).Accepts t

/-- The leaves of a graph with the types of their inputs. -/
def Node.leafTypes : Node α → ℕ → Ty → List (ℕ × Ty)
  | leaf _ _ _, a, t => [(a, t)]
  | seq A B, a, t => A.leafTypes a t ++ B.leafTypes (a + A.size) A.outType
  | @fork _ _ n fs, a, t =>
      (List.finRange (n + 1)).flatMap fun i => (fs i).leafTypes (childAddr fs a i) t

variable {I} {t : Ty}

theorem Node.Accepts.eval (h : g.Accepts I t) (hx : x.Of I t) (w : ℕ → ℕ) (a : ℕ) :
    (g.eval w a x).Of I g.outType := by
  induction g generalizing t a x with
  | leaf => exact h x hx
  | seq A B ihA ihB => exact ihB h.2 (ihA h.1 hx a) _
  | @fork k n fs ih =>
      cases k with
      | all =>
          apply Value.Of.tuple
          · rw [List.length_ofFn, List.length_ofFn]
          · intro i hi hi'
            rw [List.getElem_ofFn, List.getElem_ofFn]
            exact ih _ (h _) hx _
      | any =>
          refine .variant ?_ (ih _ (h _) hx _)
          exact List.mem_ofFn.mpr ⟨_, rfl⟩

theorem Node.Accepts.leafArgs (h : g.Accepts I t) (hx : x.Of I t) (w : ℕ → ℕ) (a : ℕ) :
    ∀ p ∈ g.leafArgs w a x, ∃ t', (p.1, t') ∈ g.leafTypes a t ∧ p.2.Of I t' := by
  induction g generalizing t a x with
  | leaf =>
      intro p hp
      obtain rfl := List.mem_singleton.mp hp
      exact ⟨t, List.mem_singleton_self _, hx⟩
  | seq A B ihA ihB =>
      intro p hp
      rcases List.mem_append.mp hp with hp | hp
      · obtain ⟨t', ht', hp⟩ := ihA h.1 hx a p hp
        exact ⟨t', List.mem_append_left _ ht', hp⟩
      · obtain ⟨t', ht', hp⟩ := ihB h.2 (h.1.eval hx w a) _ p hp
        exact ⟨t', List.mem_append_right _ ht', hp⟩
  | fork k fs ih =>
      intro p hp
      obtain ⟨i, hi, hp⟩ := List.mem_flatMap.mp hp
      obtain ⟨t', ht', hp⟩ := ih i (h i) hx _ p hp
      exact ⟨t', List.mem_flatMap.mpr ⟨i, hi, ht'⟩, hp⟩

/-- **The types are right.**  If every callable yields an object of the type that its leaf states,
then in every run the leaves are called with objects of the types that the graph passes
them, and `then` with an object of the `out_type` of the graph.  A node passes its input on to
its children as it is. -/
theorem types_sound (hm : m.Unengaged) (hG : G.Accepts I t) (hx : x.Of I t)
    {τ : List (ℕ × Event α)} {s : State α} (hr : Run Step (State.start G m x) τ s) :
    (∀ p ∈ leafCalls τ, ∃ t', (p.1, t') ∈ G.leafTypes 0 t ∧ p.2.Of I t') ∧
      ∀ y ∈ thenCalls τ, y.Of I G.outType := by
  obtain ⟨hleaf, hthen⟩ := calls_of_wonBy hm hr (wonBy_winner hm hr)
  constructor
  · exact fun p hp => hG.leafArgs hx _ 0 p (hleaf p hp)
  · intro y hy
    rw [hthen y hy]
    exact hG.eval hx _ 0

theorem accepts_race : race.Accepts (fun _ => Set.univ) .nothing := by
  refine Fin.forall_fin_two.mpr ⟨?_, ?_⟩
  all_goals
    rintro x ⟨⟩
    exact .obj (Set.mem_univ _)

theorem types_sound_race :
    (∀ p ∈ leafCalls raceRun.1, ∃ t', (p.1, t') ∈ race.leafTypes 0 .nothing ∧
      p.2.Of (fun _ => Set.univ) t') ∧
      ∀ y ∈ thenCalls raceRun.1, y.Of (fun _ => Set.univ) race.outType :=
  types_sound Mem.fresh_unengaged accepts_race .nothing run_raceRun

end Orizzonte
