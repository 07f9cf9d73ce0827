/-
Orizzonte/Precedence.lean

The order that a graph puts on the actions of its execution, without looking at any
run.  `Precedes G w o o'` lists what comes immediately before an action: what makes a
call of `execute` (`Called`), the loop of an all or any node over its children, the way
from the result of a child through its `fetch_sub` to the result of the node, and from
there to `then`, to `cleanup` and to `count_down`.  `w` names the winner of each any
node; the other children come after it.

Two facts about the shape of this order are needed: everything that reads the input of
a node lies between the `inputRead` of a child and its `fetch_sub` (`Called.spine`), and
everything comes before some `count_down` (`exists_countDown_after`).
-/
import Orizzonte.Runs
import Mathlib.Logic.Relation

namespace Orizzonte

open Relation

universe u

variable {α : Type u}

/-! ### Calls and what makes them -/

/-- The action that yields the result of a graph. -/
def Node.last : Node α → ℕ → Ob
  | leaf _ _ _, a => .leafRet a
  | seq A B, a => B.last (a + A.size)
  | fork .all _, a => .destroy a
  | fork .any _, a => .variantWrite a

/-- The action after which the loop of `execute` comes to child `i`. -/
def Ob.turn (a : ℕ) : ℕ → Ob
  | 0 => .construct a
  | i + 1 => .schedRet a i

/-- `execute` is called on `g` at `a` with continuation `K`, right after the action `p`. -/
inductive Called (G : Node α) : Node α → ℕ → Cont α → Option Ob → Prop
  | root : Called G G 0 .root none
  | fst {A B a K p} : Called G (.seq A B) a K p →
      Called G A a (.seqK B (a + A.size) K) (some (.seqExec (a + A.size)))
  | snd {A B a K p} : Called G (.seq A B) a K p → Called G B (a + A.size) K (some (A.last a))
  | child {k : Join} {n : ℕ} {fs : Fin (n + 1) → Node α} {a K p} (i : Fin (n + 1)) :
      Called G (.fork k fs) a K p →
      Called G (fs i) (Node.childAddr fs a i) (.joinK k a n i (fs i).outType K)
        (some (.inputRead a i))

/-- What comes immediately before an action. -/
inductive Precedes (G : Node α) (w : ℕ → ℕ) : Ob → Ob → Prop
  | leafCall {t r f a K o} : Called G (.leaf t r f) a K (some o) → Precedes G w o (.leafCall a)
  | seqExec {A B a K o} : Called G (.seq A B) a K (some o) →
      Precedes G w o (.seqExec (a + A.size))
  | construct {k : Join} {n : ℕ} {fs : Fin (n + 1) → Node α} {a K o} :
      Called G (.fork k fs) a K (some o) → Precedes G w o (.construct a)
  | leafRet {t r f a K p} : Called G (.leaf t r f) a K p →
      Precedes G w (.leafCall a) (.leafRet a)
  /-- child `i` is submitted when it is its turn, -/
  | submit {k : Join} {n : ℕ} {fs : Fin (n + 1) → Node α} {a K p} (i : Fin n) :
      Called G (.fork k fs) a K p → Precedes G w (.turn a i) (.submit a i)
  | schedRet {k : Join} {n : ℕ} {fs : Fin (n + 1) → Node α} {a K p} (i : Fin n) :
      Called G (.fork k fs) a K p → Precedes G w (.submit a i) (.schedRet a i)
  /-- and begins at any time from then on; -/
  | task {k : Join} {n : ℕ} {fs : Fin (n + 1) → Node α} {a K p} (i : Fin n) :
      Called G (.fork k fs) a K p → Precedes G w (.submit a i) (.inputRead a i)
  /-- the last child begins when it is its turn -/
  | lastTask {k : Join} {n : ℕ} {fs : Fin (n + 1) → Node α} {a K p} :
      Called G (.fork k fs) a K p → Precedes G w (.turn a n) (.inputRead a n)
  | slotWrite {n : ℕ} {fs : Fin (n + 1) → Node α} {a K p} (i : Fin (n + 1)) :
      Called G (.all fs) a K p →
      Precedes G w ((fs i).last (Node.childAddr fs a i)) (.slotWrite a i)
  | allFetchSub {n : ℕ} {fs : Fin (n + 1) → Node α} {a K p} (i : Fin (n + 1)) :
      Called G (.all fs) a K p → Precedes G w (.slotWrite a i) (.fetchSub a i)
  | anyFetchSub {n : ℕ} {fs : Fin (n + 1) → Node α} {a K p} (i : Fin (n + 1)) :
      Called G (.any fs) a K p →
      Precedes G w ((fs i).last (Node.childAddr fs a i)) (.fetchSub a i)
  | race {n : ℕ} {fs : Fin (n + 1) → Node α} {a K p} (i j : Fin (n + 1)) :
      Called G (.any fs) a K p → w a = i → j ≠ i → Precedes G w (.fetchSub a i) (.fetchSub a j)
  | variantWrite {n : ℕ} {fs : Fin (n + 1) → Node α} {a K p} (i : Fin (n + 1)) :
      Called G (.any fs) a K p → w a = i → Precedes G w (.fetchSub a i) (.variantWrite a)
  | destroy {k : Join} {n : ℕ} {fs : Fin (n + 1) → Node α} {a K p} (i : Fin (n + 1)) :
      Called G (.fork k fs) a K p → Precedes G w (.fetchSub a i) (.destroy a)
  | cleanup {n : ℕ} {fs : Fin (n + 1) → Node α} {a K p} :
      Called G (.any fs) a K p → Precedes G w (.destroy a) (.cleanup a)
  | countDown {n : ℕ} {fs : Fin (n + 1) → Node α} {a K p} :
      Called G (.any fs) a K p → Precedes G w (.cleanup a) (.countDown (some a))
  | thenCall : Precedes G w (G.last 0) .thenCall
  | thenRet : Precedes G w .thenCall .thenRet
  | countDownRoot : Precedes G w .thenRet (.countDown none)

variable {G g g' : Node α} {w : ℕ → ℕ} {a a' : ℕ} {K K' : Cont α} {p p' : Option Ob}

/-! ### Calls are the sites of the graph -/

theorem Called.mem_sites (h : Called G g a K p) :
    (⟨g, a, K, ()⟩ : Site α Unit) ∈ Flow.trivial.sites G := by
  induction h with
  | root => exact Node.mem_sites_self
  | fst _ ih => exact Node.mem_sites_fst ih
  | snd _ ih => exact Node.mem_sites_snd ih
  | child i _ ih => exact Node.mem_sites_child ih i

/-- The first action of each call, and what makes the call. -/
def Node.triggers : Node α → ℕ → Option Ob → List (Ob × Option Ob)
  | leaf t r f, a, p => [((leaf t r f).first a, p)]
  | seq A B, a, p => ((seq A B).first a, p) :: (A.triggers a (some (.seqExec (a + A.size))) ++
      B.triggers (a + A.size) (some (A.last a)))
  | @fork _ k n fs, a, p => ((fork k fs).first a, p) :: (List.finRange (n + 1)).flatMap fun i =>
      (fs i).triggers (childAddr fs a i) (some (.inputRead a i))

theorem Node.map_fst_triggers (g : Node α) (a : ℕ) (p : Option Ob) (K : Cont α) :
    (g.triggers a p).map Prod.fst =
      (g.sites (fun _ _ _ => ()) a K ()).map Site.first := by
  induction g generalizing a p K with
  | leaf => rfl
  | seq A B ihA ihB =>
      simp only [triggers, sites, List.map_cons, List.map_append]
      rw [ihA a _ (.seqK B (a + A.size) K), ihB _ _ K]
      rfl
  | @fork k n fs ih =>
      simp only [triggers, sites, List.map_cons, List.map_flatMap]
      congr 1
      exact congrArg (fun h => List.flatMap h _)
        (funext fun i => ih i _ _ (.joinK k a n i (fs i).outType K))

theorem Node.mem_triggers_self (g : Node α) (a : ℕ) (p : Option Ob) :
    (g.first a, p) ∈ g.triggers a p := by
  cases g <;> exact List.mem_cons_self ..

theorem Called.triggers_subset (h : Called G g a K p) :
    g.triggers a p ⊆ G.triggers 0 none := by
  induction h with
  | root => exact fun _ h => h
  | fst _ ih =>
      exact fun x hx => ih (List.mem_cons_of_mem _ (List.mem_append_left _ hx))
  | snd _ ih =>
      exact fun x hx => ih (List.mem_cons_of_mem _ (List.mem_append_right _ hx))
  | child i _ ih =>
      exact fun x hx =>
        ih (List.mem_cons_of_mem _ (List.mem_flatMap.mpr ⟨i, List.mem_finRange i, hx⟩))

/-- **A call is made by one action.** -/
theorem Called.trigger_unique (h : Called G g a K p) (h' : Called G g' a' K' p')
    (he : g.first a = g'.first a') : p = p' := by
  have hnd : ((G.triggers 0 none).map Prod.fst).Nodup := by
    rw [G.map_fst_triggers 0 none .root]
    exact G.nodup_map_first 0 .root ()
  have hmem := h.triggers_subset (g.mem_triggers_self a p)
  have hmem' := h'.triggers_subset (g'.mem_triggers_self a' p')
  exact (Prod.mk.inj (List.inj_on_of_nodup_map hnd hmem hmem' he)).2

theorem Called.site_ext (h : Called G g a K p) (h' : Called G g' a' K' p')
    (he : g.first a = g'.first a') : g = g' ∧ a = a' ∧ K = K' ∧ p = p' := by
  have hsite := Node.site_ext h.mem_sites h'.mem_sites he
  cases hsite
  exact ⟨rfl, rfl, rfl, h.trigger_unique h' he⟩

theorem called_of_mem_sites : ∀ x ∈ (Flow.trivial (α := α)).sites G,
    ∃ p, Called G x.node x.addr x.cont p := by
  refine Node.sites_induction ?_ ?_ ?_ ?_
  · exact ⟨none, .root⟩
  · rintro A B a K d - ⟨p, h⟩
    exact ⟨_, h.fst⟩
  · rintro A B a K d - ⟨p, h⟩
    exact ⟨_, h.snd⟩
  · rintro k n fs a K d i - ⟨p, h⟩
    exact ⟨_, h.child i⟩

/-! ### Where a result goes -/

/-- The continuation goes on right after the action `o`. -/
def Cont.After (G : Node α) (o : Ob) : Cont α → Prop
  | root => o = G.last 0
  | seqK B b K => Called G B b K (some o)
  | joinK k a n i _ K => ∃ (fs : Fin (n + 1) → Node α) (j : Fin (n + 1)) (p : Option Ob),
      (j : ℕ) = i ∧ Called G (.fork k fs) a K p ∧ o = (fs j).last (Node.childAddr fs a j)

theorem Called.after (h : Called G g a K p) : K.After G (g.last a) := by
  induction h with
  | root => rfl
  | fst h _ => exact h.snd
  | snd _ ih => exact ih
  | child i h _ => exact ⟨_, i, _, rfl, h, rfl⟩

/-! ### Through a graph -/

theorem Precedes.call {o : Ob} (h : Called G g a K (some o)) : Precedes G w o (g.first a) := by
  cases g with
  | leaf => exact .leafCall h
  | seq => exact .seqExec h
  | fork => exact .construct h

/-- Only what makes a call comes immediately before its first action. -/
theorem Precedes.eq_trigger {o o' : Ob} (h : Precedes G w o o') (hc : Called G g a K p)
    (he : o' = g.first a) : p = some o := by
  cases h with
  | leafCall h' | seqExec h' | construct h' => exact hc.trigger_unique h' he.symm
  | _ => cases g <;> cases he

/-- `w` names a child of each any node. -/
def Winning (G : Node α) (w : ℕ → ℕ) : Prop :=
  ∀ ⦃n : ℕ⦄ ⦃fs : Fin (n + 1) → Node α⦄ ⦃a K p⦄, Called G (.any fs) a K p → w a < n + 1

section Fork

variable {k : Join} {n : ℕ} {fs : Fin (n + 1) → Node α}

theorem Called.turn_of_construct (h : Called G (.fork k fs) a K p) {i : ℕ} (hi : i ≤ n) :
    ReflTransGen (Precedes G w) (.construct a) (.turn a i) := by
  induction i with
  | zero => exact .refl
  | succ i ih =>
      exact ((ih (Nat.le_of_succ_le hi)).tail (.submit ⟨i, hi⟩ h)).tail (.schedRet ⟨i, hi⟩ h)

theorem Called.inputRead_of_turn (h : Called G (.fork k fs) a K p) (i : Fin (n + 1)) :
    TransGen (Precedes G w) (.turn a i) (.inputRead a i) := by
  rcases i.eq_castSucc_or_eq_last with ⟨i, rfl⟩ | rfl
  · exact .tail (.single (.submit i h)) (.task i h)
  · exact .single (.lastTask h)

/-- Every child comes after the node was constructed. -/
theorem Called.inputRead_of_construct (h : Called G (.fork k fs) a K p) (i : Fin (n + 1)) :
    TransGen (Precedes G w) (.construct a) (.inputRead a i) :=
  TransGen.trans_right (h.turn_of_construct i.is_le) (h.inputRead_of_turn i)

/-- The `fetch_sub` of a child comes after its result. -/
theorem Called.fetchSub_of_last (h : Called G (.fork k fs) a K p) (i : Fin (n + 1)) :
    TransGen (Precedes G w) ((fs i).last (Node.childAddr fs a i)) (.fetchSub a i) := by
  cases k with
  | all => exact .tail (.single (.slotWrite i h)) (.allFetchSub i h)
  | any => exact .single (.anyFetchSub i h)

end Fork

/-- The result of a call comes after its beginning. -/
theorem Called.last_of_first (hw : Winning G w) (h : Called G g a K p) :
    ReflTransGen (Precedes G w) (g.first a) (g.last a) := by
  induction g generalizing a K p with
  | leaf t r f => exact .single (.leafRet h)
  | seq A B ihA ihB =>
      exact (((ReflTransGen.single (.call h.fst)).trans (ihA h.fst)).tail (.call h.snd)).trans
        (ihB h.snd)
  | @fork k n fs ih =>
      have hchild : ∀ i : Fin (n + 1), TransGen (Precedes G w) (.construct a) (.fetchSub a i) := by
        intro i
        have hfirst := (h.inputRead_of_construct i).tail (Precedes.call (w := w) (h.child i))
        exact (hfirst.trans_left (ih i (h.child i))).trans (h.fetchSub_of_last i)
      cases k with
      | all => exact ((hchild 0).tail (.destroy 0 h)).to_reflTransGen
      | any =>
          exact ((hchild ⟨w a, hw h⟩).tail (.variantWrite ⟨w a, hw h⟩ h rfl)).to_reflTransGen

theorem Called.last_of_fst {A B : Node α} (hw : Winning G w) (h : Called G (.seq A B) a K p) :
    ReflTransGen (Precedes G w) (A.last a) ((Node.seq A B).last a) :=
  ReflTransGen.head (.call h.snd) (h.snd.last_of_first hw)

/-- **A call lies between its first action and the end of its continuation.**  Up to the parts
of `seq`, that is the whole execution, or the task of a child, from its `inputRead` to its
`fetch_sub`. -/
theorem Called.spine (hw : Winning G w) (h : Called G g a K p) :
    match K.endsAt with
    | none => ReflTransGen (Precedes G w) (g.last a) (G.last 0)
    | some (q, i) => ∃ (k : Join) (n : ℕ) (fs : Fin (n + 1) → Node α) (K' : Cont α)
        (p' : Option Ob) (j : Fin (n + 1)), (j : ℕ) = i ∧ Called G (.fork k fs) q K' p' ∧
        TransGen (Precedes G w) (.inputRead q i) (g.first a) ∧
        TransGen (Precedes G w) (g.last a) (.fetchSub q i) := by
  induction h with
  | root => exact .refl
  | @fst A B a K p h ih =>
      have hlast := h.last_of_fst hw
      simp only [Cont.endsAt] at ih ⊢
      split at ih
      · exact hlast.trans ih
      · obtain ⟨k, n, fs, K', p', j, hj, hq, hfirst, hend⟩ := ih
        exact ⟨k, n, fs, K', p', j, hj, hq, hfirst.tail (.call h.fst),
          TransGen.trans_right hlast hend⟩
  | @snd A B a K p h ih =>
      have hfirst' : TransGen (Precedes G w) (.seqExec (a + A.size)) (B.first (a + A.size)) :=
        ((TransGen.single (.call h.fst)).trans_left (h.fst.last_of_first hw)).tail (.call h.snd)
      split at ih
      · exact ih
      · obtain ⟨k, n, fs, K', p', j, hj, hq, hfirst, hend⟩ := ih
        exact ⟨k, n, fs, K', p', j, hj, hq, hfirst.trans hfirst', hend⟩
  | @child k n fs a K p i h _ =>
      exact ⟨k, n, fs, K, p, i, rfl, h, .single (.call (h.child i)), h.fetchSub_of_last i⟩

/-! ### Everything leads to a `count_down` -/

theorem Called.countDown_of_last (hw : Winning G w) (h : Called G g a K p) :
    ∃ c, TransGen (Precedes G w) (g.last a) (.countDown c) := by
  induction h with
  | root => exact ⟨none, ((TransGen.single .thenCall).tail .thenRet).tail .countDownRoot⟩
  | @fst A B a K p h ih =>
      obtain ⟨c, hc⟩ := ih
      exact ⟨c, TransGen.trans_right (h.last_of_fst hw) hc⟩
  | snd _ ih => exact ih
  | @child k n fs a K p i h ih =>
      have hdestroy := (h.fetchSub_of_last (w := w) i).tail (.destroy i h)
      cases k with
      | all =>
          obtain ⟨c, hc⟩ := ih
          exact ⟨c, hdestroy.trans hc⟩
      | any => exact ⟨some a, (hdestroy.tail (.cleanup h)).tail (.countDown h)⟩

/-- **Every action of a graph comes before some `count_down`**, or is one. -/
theorem Called.exists_countDown (hw : Winning G w) (h : Called G g a K p) {o : Ob}
    (ho : o ∈ g.obs a) (hread : ∀ q, o ≠ .read q) :
    ∃ c, ReflTransGen (Precedes G w) o (.countDown c) := by
  have hback : ∀ {o o'}, ReflTransGen (Precedes G w) o o' →
      (∃ c, ReflTransGen (Precedes G w) o' (.countDown c)) →
      ∃ c, ReflTransGen (Precedes G w) o (.countDown c) := by
    rintro o o' h ⟨c, hc⟩
    exact ⟨c, h.trans hc⟩
  have hlast : ∀ {g a K p}, Called G g a K p →
      ∃ c, ReflTransGen (Precedes G w) (g.last a) (.countDown c) := by
    intro g a K p h
    obtain ⟨c, hc⟩ := h.countDown_of_last hw
    exact ⟨c, hc.to_reflTransGen⟩
  induction g generalizing a K p with
  | leaf t r f =>
      simp only [Node.obs, Multiset.mem_add, Multiset.mem_singleton] at ho
      rcases ho with rfl | rfl
      · exact hback (h.last_of_first hw) (hlast h)
      · exact hlast h
  | seq A B ihA ihB =>
      simp only [Node.obs, Multiset.mem_add, Multiset.mem_singleton] at ho
      rcases ho with rfl | ho | ho
      · exact hback (h.last_of_first hw) (hlast h)
      · exact ihA h.fst ho
      · exact ihB h.snd ho
  | @fork k n fs ih =>
      have hdestroy : ∃ c, ReflTransGen (Precedes G w) (.destroy a) (.countDown c) := by
        cases k with
        | all => exact hlast h
        | any => exact ⟨some a, (ReflTransGen.single (.cleanup h)).tail (.countDown h)⟩
      have hfetch : ∀ i : Fin (n + 1),
          ∃ c, ReflTransGen (Precedes G w) (.fetchSub a i) (.countDown c) :=
        fun i => hback (.single (.destroy i h)) hdestroy
      have htask : ∀ i : Fin (n + 1),
          ∃ c, ReflTransGen (Precedes G w) (.inputRead a i) (.countDown c) := by
        intro i
        have hchild := (ReflTransGen.single (Precedes.call (w := w) (h.child i))).trans
          ((h.child i).last_of_first hw)
        exact hback (hchild.trans (h.fetchSub_of_last i).to_reflTransGen) (hfetch i)
      rcases Node.mem_obs_fork.mp ho with rfl | ho | ⟨i, ho⟩
      · exact hback (h.last_of_first hw) (hlast h)
      · rcases Join.mem_nodeObs.mp ho with rfl | rfl | ⟨rfl, rfl | rfl | rfl⟩
        · exact hdestroy
        · exact absurd rfl (hread a)
        · exact hlast h
        · exact ⟨some a, .single (.countDown h)⟩
        · exact ⟨some a, .refl⟩
      · rcases Join.mem_branchObs.mp ho with ⟨hi, rfl | rfl⟩ | rfl | ⟨rfl, rfl⟩ | rfl | ho
        · exact hback (.single (.task ⟨i, hi⟩ h)) (htask i)
        · have hnext := (h.inputRead_of_turn (w := w) ⟨i + 1, Nat.succ_lt_succ hi⟩)
          exact hback hnext.to_reflTransGen (htask _)
        · exact htask i
        · exact hback (.single (.allFetchSub i h)) (hfetch i)
        · exact hfetch i
        · exact ih i (h.child i) ho

/-! ### The actions that are ordered -/

theorem Called.mem_total (h : Called G g a K p) {o : Ob} (ho : o ∈ g.obs a) : o ∈ G.total :=
  Multiset.mem_add.mpr (.inl (Multiset.mem_of_le (Node.obs_le_of_mem_sites h.mem_sites) ho))

/-- What has something before it is an action of the graph. -/
theorem Precedes.mem_total {o o' : Ob} (h : Precedes G w o o') : o' ∈ G.total := by
  have hbranch : ∀ {k : Join} {n : ℕ} {fs : Fin (n + 1) → Node α} {a K p},
      Called G (.fork k fs) a K p → ∀ {i : Fin (n + 1)} {o}, o ∈ k.branchObs a fs i →
      o ∈ G.total :=
    fun h i o ho => h.mem_total (Node.mem_obs_fork.mpr (.inr (.inr ⟨i, ho⟩)))
  have hnode : ∀ {k : Join} {n : ℕ} {fs : Fin (n + 1) → Node α} {a K p},
      Called G (.fork k fs) a K p → ∀ {o}, o ∈ k.firstObs a + k.lastObs a → o ∈ G.total :=
    fun h o ho => h.mem_total (Node.mem_obs_fork.mpr (.inr (.inl ho)))
  cases h with
  | leafCall h | seqExec h | construct h => exact h.mem_total (Node.first_mem_obs _ _)
  | leafRet h => exact h.mem_total (by simp [Node.obs])
  | submit i h =>
      exact hbranch h (i := i.castSucc) (Join.mem_branchObs.mpr (.inl ⟨i.isLt, .inl rfl⟩))
  | schedRet i h =>
      exact hbranch h (i := i.castSucc) (Join.mem_branchObs.mpr (.inl ⟨i.isLt, .inr rfl⟩))
  | task i h => exact hbranch h (i := i.castSucc) (Join.mem_branchObs.mpr (.inr (.inl rfl)))
  | @lastTask _ n _ _ _ _ h =>
      exact hbranch h (i := Fin.last n) (Join.mem_branchObs.mpr (.inr (.inl rfl)))
  | slotWrite i h =>
      exact hbranch h (i := i) (Join.mem_branchObs.mpr (.inr (.inr (.inl ⟨rfl, rfl⟩))))
  | allFetchSub i h | anyFetchSub i h | race _ i h =>
      exact hbranch h (i := i) (Join.mem_branchObs.mpr (.inr (.inr (.inr (.inl rfl)))))
  | variantWrite i h => exact hnode h (Join.mem_nodeObs.mpr (.inr (.inr ⟨rfl, .inl rfl⟩)))
  | destroy i h => exact hnode h (Join.mem_nodeObs.mpr (.inl rfl))
  | cleanup h => exact hnode h (Join.mem_nodeObs.mpr (.inr (.inr ⟨rfl, .inr (.inl rfl)⟩)))
  | countDown h => exact hnode h (Join.mem_nodeObs.mpr (.inr (.inr ⟨rfl, .inr (.inr rfl)⟩)))
  | thenCall | thenRet | countDownRoot =>
      exact Multiset.mem_add.mpr (.inr (by simp [Cont.obs]))

/-- Everything leads to a `count_down`, in the whole execution. -/
theorem exists_countDown_of_mem_total (hw : Winning G w) {o : Ob} (ho : o ∈ G.total)
    (hread : ∀ q, o ≠ .read q) :
    ∃ c, ReflTransGen (Precedes G w) o (.countDown c) ∧ Ob.countDown c ∈ G.total := by
  have hmem : ∀ {c}, ReflTransGen (Precedes G w) o (.countDown c) → Ob.countDown c ∈ G.total := by
    intro c h
    rcases h.cases_tail with rfl | ⟨o', -, h⟩
    · exact ho
    · exact h.mem_total
  have hroot : Precedes G w .thenRet (.countDown none) := .countDownRoot
  suffices ∃ c, ReflTransGen (Precedes G w) o (.countDown c) by
    obtain ⟨c, hc⟩ := this
    exact ⟨c, hc, hmem hc⟩
  rcases Multiset.mem_add.mp ho with ho | ho
  · exact Called.root.exists_countDown hw ho hread
  · simp only [Cont.obs, Multiset.mem_add, Multiset.mem_singleton] at ho
    rcases ho with (rfl | rfl) | rfl
    · exact ⟨none, (ReflTransGen.single .thenRet).tail hroot⟩
    · exact ⟨none, .single hroot⟩
    · exact ⟨none, .refl⟩

end Orizzonte
