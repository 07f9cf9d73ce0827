/-
Orizzonte/Site.lean

The calls of `execute` that a run of a graph makes.  `execute` is called once on
every node, with a continuation that depends on the place of the node in the graph
and on nothing else, so the calls can be listed in advance: a `Site` is a node, its
address and its continuation.

A site also carries an annotation `ann`, computed along the graph by a parameter
`out`: the children of a node get its own annotation, and the second part of a
`seq` gets `out` of the first.  The annotation of a site says what is known of the
input of the call (its value, or that it is made at all), and `out` what is known
of the result.
-/
import Orizzonte.Obligation

namespace Orizzonte

variable {α D : Type*}

/-- A call of `execute`. -/
structure Site (α D : Type*) where
  node : Node α
  addr : ℕ
  cont : Cont α
  ann : D

/-- The calls made by `g.execute` at address `a` with continuation `K`. -/
def Node.sites (out : Node α → ℕ → D → D) : Node α → ℕ → Cont α → D → List (Site α D)
  | leaf t r f, a, K, d => [⟨leaf t r f, a, K, d⟩]
  | seq A B, a, K, d =>
      ⟨seq A B, a, K, d⟩ :: (A.sites out a (.seqK B (a + A.size) K) d ++
        B.sites out (a + A.size) K (out A a d))
  | @fork _ k n fs, a, K, d =>
      ⟨fork k fs, a, K, d⟩ :: (List.finRange (n + 1)).flatMap fun i =>
        (fs i).sites out (childAddr fs a i) (.joinK k a n i (fs i).outType K) d

/-- The first action of a call, which names it. -/
def Node.first : Node α → ℕ → Ob
  | leaf _ _ _, a => .leafCall a
  | seq A _, a => .seqExec (a + A.size)
  | fork _ _, a => .construct a

def Site.first (x : Site α D) : Ob := x.node.first x.addr

variable {out : Node α → ℕ → D → D} {g : Node α} {a : ℕ} {K : Cont α} {d : D}

/-! ### Sites inside sites -/

theorem Node.mem_sites_self : ⟨g, a, K, d⟩ ∈ g.sites out a K d := by
  cases g <;> simp [sites]

theorem Node.mem_sites_seq {A B : Node α} {x : Site α D} :
    x ∈ (seq A B).sites out a K d ↔ x = ⟨seq A B, a, K, d⟩ ∨
      x ∈ A.sites out a (.seqK B (a + A.size) K) d ∨
      x ∈ B.sites out (a + A.size) K (out A a d) := by
  simp [sites]

theorem Node.mem_sites_fork {k : Join} {n : ℕ} {fs : Fin (n + 1) → Node α} {x : Site α D} :
    x ∈ (fork k fs).sites out a K d ↔ x = ⟨fork k fs, a, K, d⟩ ∨
      ∃ i, x ∈ (fs i).sites out (childAddr fs a i)
        (.joinK k a n (i : ℕ) (fs i).outType K) d := by
  simp [sites]

/-- The sites of a site are sites. -/
theorem Node.mem_sites_trans {x y : Site α D} (hx : x ∈ g.sites out a K d)
    (hy : y ∈ x.node.sites out x.addr x.cont x.ann) : y ∈ g.sites out a K d := by
  induction g generalizing a K d with
  | leaf t r f =>
      obtain rfl : x = _ := by simpa [sites] using hx
      exact hy
  | seq A B ihA ihB =>
      rcases mem_sites_seq.mp hx with rfl | hx | hx
      · exact hy
      · exact mem_sites_seq.mpr (.inr (.inl (ihA hx)))
      · exact mem_sites_seq.mpr (.inr (.inr (ihB hx)))
  | fork k fs ih =>
      rcases mem_sites_fork.mp hx with rfl | ⟨i, hx⟩
      · exact hy
      · exact mem_sites_fork.mpr (.inr ⟨i, ih i hx⟩)

section Rules

variable {G : Node α} {d₀ : D}

theorem Node.mem_sites_fst {A B : Node α}
    (h : ⟨seq A B, a, K, d⟩ ∈ G.sites out 0 .root d₀) :
    ⟨A, a, .seqK B (a + A.size) K, d⟩ ∈ G.sites out 0 .root d₀ :=
  mem_sites_trans h (mem_sites_seq.mpr (.inr (.inl mem_sites_self)))

theorem Node.mem_sites_snd {A B : Node α}
    (h : ⟨seq A B, a, K, d⟩ ∈ G.sites out 0 .root d₀) :
    ⟨B, a + A.size, K, out A a d⟩ ∈ G.sites out 0 .root d₀ :=
  mem_sites_trans h (mem_sites_seq.mpr (.inr (.inr mem_sites_self)))

theorem Node.mem_sites_child {k : Join} {n : ℕ} {fs : Fin (n + 1) → Node α}
    (h : ⟨fork k fs, a, K, d⟩ ∈ G.sites out 0 .root d₀) (i : Fin (n + 1)) :
    ⟨fs i, childAddr fs a i, .joinK k a n i (fs i).outType K, d⟩ ∈ G.sites out 0 .root d₀ :=
  mem_sites_trans h (mem_sites_fork.mpr (.inr ⟨i, mem_sites_self⟩))

/-- Induction along the calls: from a call to the calls it makes. -/
theorem Node.sites_induction {P : Site α D → Prop} (root : P ⟨G, 0, .root, d₀⟩)
    (fst : ∀ A B a K d, ⟨seq A B, a, K, d⟩ ∈ G.sites out 0 .root d₀ →
      P ⟨seq A B, a, K, d⟩ → P ⟨A, a, .seqK B (a + A.size) K, d⟩)
    (snd : ∀ A B a K d, ⟨seq A B, a, K, d⟩ ∈ G.sites out 0 .root d₀ →
      P ⟨seq A B, a, K, d⟩ → P ⟨B, a + A.size, K, out A a d⟩)
    (child : ∀ (k : Join) (n : ℕ) (fs : Fin (n + 1) → Node α) a K d i,
      ⟨fork k fs, a, K, d⟩ ∈ G.sites out 0 .root d₀ → P ⟨fork k fs, a, K, d⟩ →
      P ⟨fs i, childAddr fs a i, .joinK k a n i (fs i).outType K, d⟩) :
    ∀ x ∈ G.sites out 0 .root d₀, P x := by
  -- for every call of the graph, along the graph it calls
  have key : ∀ g a K d, ⟨g, a, K, d⟩ ∈ G.sites out 0 .root d₀ → P ⟨g, a, K, d⟩ →
      ∀ x ∈ g.sites out a K d, P x := by
    intro g
    induction g with
    | leaf t r f =>
        intro a K d _ hP x hx
        obtain rfl : x = _ := by simpa [sites] using hx
        exact hP
    | seq A B ihA ihB =>
        intro a K d hmem hP x hx
        rcases mem_sites_seq.mp hx with rfl | hx | hx
        · exact hP
        · exact ihA _ _ _ (mem_sites_fst hmem) (fst A B a K d hmem hP) x hx
        · exact ihB _ _ _ (mem_sites_snd hmem) (snd A B a K d hmem hP) x hx
    | @fork k n fs ih =>
        intro a K d hmem hP x hx
        rcases mem_sites_fork.mp hx with rfl | ⟨i, hx⟩
        · exact hP
        · exact ih i _ _ _ (mem_sites_child hmem i) (child k n fs a K d i hmem hP) x hx
  exact key G 0 .root d₀ mem_sites_self root

end Rules

/-! ### A site is determined by its first action -/

theorem Node.first_mem_obs (g : Node α) (a : ℕ) : g.first a ∈ g.obs a := by
  cases g <;> simp [first, obs]

/-- A site owes part of what the graph owes. -/
theorem Node.obs_le_of_mem_sites {x : Site α D} (h : x ∈ g.sites out a K d) :
    x.node.obs x.addr ≤ g.obs a := by
  induction g generalizing a K d with
  | leaf t r f =>
      obtain rfl : x = _ := by simpa [sites] using h
      exact le_rfl
  | seq A B ihA ihB =>
      rcases mem_sites_seq.mp h with rfl | h | h
      · exact le_rfl
      · exact (ihA h).trans ((Multiset.le_add_right _ _).trans (Multiset.le_add_left _ _))
      · exact (ihB h).trans ((Multiset.le_add_left _ _).trans (Multiset.le_add_left _ _))
  | @fork k n fs ih =>
      rcases mem_sites_fork.mp h with rfl | ⟨i, h⟩
      · exact le_rfl
      · calc x.node.obs x.addr
            ≤ (fs i).obs (childAddr fs a i) := ih i h
          _ ≤ k.branchObs a fs i :=
              (Multiset.le_add_left _ _).trans (Multiset.le_add_left _ _)
          _ ≤ ∑ i, k.branchObs a fs i :=
              Finset.single_le_sum_of_canonicallyOrdered (Finset.mem_univ i)
          _ ≤ (fork k fs).obs a := Multiset.le_add_left _ _

/-- The sites of a graph have different first actions, all of them owed. -/
theorem Node.map_first_le (g : Node α) (a : ℕ) (K : Cont α) (d : D) :
    ((g.sites out a K d).map Site.first : Multiset Ob) ≤ g.obs a := by
  induction g generalizing a K d with
  | leaf t r f => simp [sites, Site.first, first, obs]
  | seq A B ihA ihB =>
      simp only [sites, List.map_cons, List.map_append, ← Multiset.cons_coe, ← Multiset.coe_add,
        ← Multiset.singleton_add, obs]
      exact add_le_add le_rfl (add_le_add (ihA _ _ _) (ihB _ _ _))
  | @fork k n fs ih =>
      have hbr : ∀ i, ((((fs i).sites out (childAddr fs a i)
          (.joinK k a n i (fs i).outType K) d).map Site.first : List Ob) : Multiset Ob) ≤
          k.branchObs a fs i := fun i =>
        (ih i _ _ _).trans ((Multiset.le_add_left _ _).trans (Multiset.le_add_left _ _))
      simp only [sites, List.map_cons, List.map_flatMap, ← Multiset.cons_coe,
        ← Multiset.singleton_add, obs_fork, Tally.coe_flatMap, Tally.sum_finRange]
      exact add_le_add (Multiset.le_add_right _ _) (Finset.sum_le_sum fun i _ => hbr i)

theorem Node.nodup_map_first (g : Node α) (a : ℕ) (K : Cont α) (d : D) :
    ((g.sites out a K d).map Site.first).Nodup :=
  Multiset.coe_nodup.mp (Multiset.nodup_of_le (g.map_first_le a K d) (g.nodup_obs a))

/-- **A site is determined by its first action.** -/
theorem Node.site_ext {x y : Site α D} (hx : x ∈ g.sites out a K d)
    (hy : y ∈ g.sites out a K d) (h : x.first = y.first) : x = y :=
  List.inj_on_of_nodup_map (g.nodup_map_first a K d) hx hy h

theorem Node.nodup_sites (g : Node α) (a : ℕ) (K : Cont α) (d : D) :
    (g.sites out a K d).Nodup :=
  List.Nodup.of_map _ (g.nodup_map_first a K d)

/-- An all or any node is determined by its address. -/
theorem Node.fork_site_ext {k k' : Join} {n n' : ℕ} {fs : Fin (n + 1) → Node α}
    {fs' : Fin (n' + 1) → Node α} {b : ℕ} {K₁ K₂ : Cont α} {d₁ d₂ : D}
    (h₁ : ⟨fork k fs, b, K₁, d₁⟩ ∈ g.sites out a K d)
    (h₂ : ⟨fork k' fs', b, K₂, d₂⟩ ∈ g.sites out a K d) :
    (⟨fork k fs, b, K₁, d₁⟩ : Site α D) = ⟨fork k' fs', b, K₂, d₂⟩ :=
  site_ext h₁ h₂ rfl

/-! ### What a call owes itself -/

/-- The actions of an all or any node with `n + 1` children itself. -/
def Join.own (k : Join) (a n : ℕ) : Multiset Ob :=
  {.construct a} + (k.firstObs a + k.lastObs a) +
    ∑ i : Fin (n + 1), ((if (i : ℕ) < n then {.submit a i} + {.schedRet a i} else 0) +
      ({.inputRead a i} + k.childObs a i))

/-- The actions of a call itself, without those of the calls it makes. -/
def Node.own : Node α → ℕ → Multiset Ob
  | leaf _ _ _, a => {.leafCall a} + {.leafRet a}
  | seq A _, a => {.seqExec (a + A.size)}
  | @fork _ k n _, a => k.own a n

@[simp] theorem Node.own_leaf (t : Ty) (r : Bool) (f : Callable α) (a : ℕ) :
    (leaf t r f).own a = {.leafCall a} + {.leafRet a} := rfl

@[simp] theorem Node.own_seq (A B : Node α) (a : ℕ) :
    (seq A B).own a = {.seqExec (a + A.size)} := rfl

@[simp] theorem Node.own_fork (k : Join) {n : ℕ} (fs : Fin (n + 1) → Node α) (a : ℕ) :
    (fork k fs).own a = k.own a n := rfl

theorem Node.obs_fork_own (k : Join) {n : ℕ} (fs : Fin (n + 1) → Node α) (a : ℕ) :
    (fork k fs).obs a = k.own a n + ∑ i, (fs i).obs (childAddr fs a i) := by
  simp only [Join.own, obs_fork, Join.branchObs, Join.taskObs, Finset.sum_add_distrib]
  abel

/-- **What a graph owes is what its calls owe themselves.** -/
theorem Node.obs_eq_sum_own (out : Node α → ℕ → D → D) (g : Node α) (a : ℕ) (K : Cont α)
    (d : D) : g.obs a = ((g.sites out a K d).map fun x => x.node.own x.addr).sum := by
  induction g generalizing a K d with
  | leaf t r f => simp [sites, obs]
  | seq A B ihA ihB =>
      simp only [sites, List.map_cons, List.map_append, List.sum_cons, List.sum_append, own_seq,
        obs, ← ihA, ← ihB]
  | @fork k n fs ih =>
      simp only [sites, List.map_cons, List.sum_cons, own_fork, obs_fork_own, Tally.sum_map_flatMap,
        ← ih, Tally.sum_finRange]

/-- Every obligation belongs to a call. -/
theorem Node.exists_site_of_mem_obs (out : Node α → ℕ → D → D) {o : Ob} (h : o ∈ g.obs a)
    (K : Cont α) (d : D) :
    ∃ x ∈ g.sites out a K d, o ∈ x.node.own x.addr := by
  rw [obs_eq_sum_own out g a K d] at h
  exact Tally.mem_sum_map.mp h

/-- The all or any node whose member an action touches. -/
def Ob.home? : Ob → Option ℕ
  | construct a | submit a _ | schedRet a _ | inputRead a _ | slotWrite a _ | fetchSub a _
  | variantWrite a | destroy a | cleanup a | countDown (some a) | read a => some a
  | _ => none

theorem Join.home_of_mem_own {k : Join} {n : ℕ} {o : Ob} (h : o ∈ k.own a n) :
    o.home? = some a := by
  simp only [own, Multiset.mem_add, Multiset.mem_singleton, Multiset.mem_sum] at h
  rcases h with (rfl | h | h) | ⟨i, -, h⟩
  · rfl
  · cases k <;> simp [firstObs] at h
    rcases h with rfl | rfl <;> rfl
  · cases k <;> simp [lastObs] at h
    · rcases h with rfl | rfl <;> rfl
    · rcases h with rfl | rfl | rfl <;> rfl
  · rcases h with h | rfl | h
    · split_ifs at h <;> simp at h
      rcases h with rfl | rfl <;> rfl
    · rfl
    · cases k <;> simp [childObs] at h
      · rcases h with rfl | rfl <;> rfl
      · subst h
        rfl

/-- A call owes one first action itself, its own. -/
theorem Node.first_eq_of_mem_own {h : Node α} {b : ℕ} (ho : h.first b ∈ g.own a) :
    h.first b = g.first a := by
  cases g with
  | leaf =>
      rcases Multiset.mem_add.mp ho with ho | ho
      · exact Multiset.mem_singleton.mp ho
      · cases h <;> cases Multiset.mem_singleton.mp ho
  | seq => exact Multiset.mem_singleton.mp ho
  | fork k fs =>
      have hh := Join.home_of_mem_own ho
      cases h with
      | leaf | seq => cases hh
      | fork k' fs' => rw [first, first, Option.some.inj hh]

/-- An action of an all or any node is owed together with the rest of that node. -/
theorem Node.exists_fork_of_mem_obs (out : Node α → ℕ → D → D) {o : Ob} {p : ℕ}
    (h : o ∈ g.obs a) (hp : o.home? = some p) (K : Cont α) (d : D) :
    ∃ (k : Join) (n : ℕ) (fs : Fin (n + 1) → Node α) (K' : Cont α) (d' : D),
      ⟨fork k fs, p, K', d'⟩ ∈ g.sites out a K d ∧ o ∈ k.own p n := by
  obtain ⟨⟨g', a', K', d'⟩, hx, ho⟩ := exists_site_of_mem_obs out h K d
  cases g' with
  | leaf t r f =>
      simp only [own_leaf, Multiset.mem_add, Multiset.mem_singleton] at ho
      rcases ho with rfl | rfl <;> cases hp
  | seq A B =>
      rw [own_seq, Multiset.mem_singleton] at ho
      subst ho
      cases hp
  | @fork k n fs =>
      obtain rfl : a' = p := by
        have hw := Join.home_of_mem_own ho
        rw [hp] at hw
        exact (Option.some.inj hw).symm
      exact ⟨k, n, fs, K', d', hx, ho⟩

theorem Node.construct_mem_obs {o : Ob} {p : ℕ} (h : o ∈ g.obs a) (hp : o.home? = some p) :
    Ob.construct p ∈ g.obs a := by
  obtain ⟨k, n, fs, K, d, hx, -⟩ :=
    exists_fork_of_mem_obs (fun _ _ _ => ()) h hp .root ()
  exact Multiset.mem_of_le (obs_le_of_mem_sites hx) (first_mem_obs (fork k fs) p)

end Orizzonte
