/-
Orizzonte/Frontier.lean

What can be done next.  An action that is owed is the next action of some frame, or
something that is owed comes immediately before it in the order of the graph: in a call
(`Called.first_or_precedes`), in a continuation (`Cont.After.precedes`), in a frame
(`Frame.Informed.next_or_precedes`), in the memory (`Inv.precedes_of_mem`), and so in a
state (`Inv.next_or_precedes`).
-/
import Orizzonte.HappensBefore
import Orizzonte.Concurrent

namespace Orizzonte

open Lts

universe u

variable {α : Type u} {G : Node α} {w : ℕ → ℕ}

/-! ### What comes before an owed action -/

theorem Node.last_mem_obs (g : Node α) (a : ℕ) : g.last a ∈ g.obs a := by
  induction g generalizing a with
  | leaf => simp [last, obs]
  | seq A B _ ihB => exact Multiset.mem_add.mpr (.inr (Multiset.mem_add.mpr (.inr (ihB _))))
  | fork k fs =>
      cases k with
      | all => exact mem_obs_fork.mpr (.inr (.inl (Join.mem_nodeObs.mpr (.inl rfl))))
      | any =>
          apply mem_obs_fork.mpr
          exact .inr (.inl (Join.mem_nodeObs.mpr (.inr (.inr ⟨rfl, .inl rfl⟩))))

section Fork

variable {k : Join} {n : ℕ} {fs : Fin (n + 1) → Node α} {a : ℕ} {K : Cont α} {p : Option Ob}

theorem Join.mem_taskObs {i : Fin (n + 1)} {o : Ob} : o ∈ k.taskObs a fs i ↔
    o = .inputRead a i ∨ (k = .all ∧ o = .slotWrite a i) ∨ o = .fetchSub a i ∨
      o ∈ (fs i).obs (Node.childAddr fs a i) := by
  have hchild : o ∈ k.childObs a i ↔ (k = .all ∧ o = .slotWrite a i) ∨ o = .fetchSub a i := by
    cases k <;> simp [childObs]
  simp only [taskObs, Multiset.mem_add, Multiset.mem_singleton, hchild, or_assoc]

/-- In the task of a child, the `inputRead` is first. -/
theorem Join.precedes_task (hc : Called G (.fork k fs) a K p) (i : Fin (n + 1))
    (ih : ∀ {o}, o ∈ (fs i).obs (Node.childAddr fs a i) → (∀ q, o ≠ .read q) →
      o = (fs i).first (Node.childAddr fs a i) ∨
        ∃ q ∈ (fs i).obs (Node.childAddr fs a i), Precedes G w q o) {o : Ob}
    (ho : o ∈ k.taskObs a fs i) (hread : ∀ q, o ≠ .read q) :
    o = .inputRead a i ∨ ∃ q ∈ k.taskObs a fs i, Precedes G w q o := by
  have hlast : (fs i).last (Node.childAddr fs a i) ∈ k.taskObs a fs i :=
    Join.mem_taskObs.mpr (.inr (.inr (.inr (Node.last_mem_obs _ _))))
  rcases Join.mem_taskObs.mp ho with rfl | ⟨rfl, rfl⟩ | rfl | ho
  · exact .inl rfl
  · exact .inr ⟨_, hlast, .slotWrite i hc⟩
  · refine .inr ?_
    cases k with
    | all => exact ⟨_, Join.mem_taskObs.mpr (.inr (.inl ⟨rfl, rfl⟩)), .allFetchSub i hc⟩
    | any => exact ⟨_, hlast, .anyFetchSub i hc⟩
  · refine .inr ?_
    rcases ih ho hread with rfl | ⟨q, hq, hqo⟩
    · exact ⟨_, Join.mem_taskObs.mpr (.inl rfl), .call (hc.child i)⟩
    · exact ⟨q, Join.mem_taskObs.mpr (.inr (.inr (.inr hq))), hqo⟩

/-- How child `i` of `n + 1` is begun when it is its turn. -/
def Ob.start (a n i : ℕ) : Ob := if i < n then .submit a i else .inputRead a i

theorem precedes_start (hc : Called G (.fork k fs) a K p) (i : Fin (n + 1)) :
    Precedes G w (.turn a i) (.start a n i) := by
  unfold Ob.start
  split_ifs with hi
  · exact .submit ⟨i, hi⟩ hc
  · obtain rfl : i = Fin.last n := Fin.ext (le_antisymm i.is_le (not_lt.mp hi))
    exact .lastTask hc

/-- In the call for a child, the child is begun first. -/
theorem Join.precedes_branch (hc : Called G (.fork k fs) a K p) (i : Fin (n + 1))
    (ih : ∀ {o}, o ∈ (fs i).obs (Node.childAddr fs a i) → (∀ q, o ≠ .read q) →
      o = (fs i).first (Node.childAddr fs a i) ∨
        ∃ q ∈ (fs i).obs (Node.childAddr fs a i), Precedes G w q o) {o : Ob}
    (ho : o ∈ k.branchObs a fs i) (hread : ∀ q, o ≠ .read q) :
    o = .start a n i ∨ ∃ q ∈ k.branchObs a fs i, Precedes G w q o := by
  have htask : k.taskObs a fs i ≤ k.branchObs a fs i := Multiset.le_add_left _ _
  rcases Join.mem_branchObs.mp ho with ⟨hi, rfl | rfl⟩ | h
  · exact .inl (if_pos hi).symm
  · exact .inr ⟨_, Join.mem_branchObs.mpr (.inl ⟨hi, .inl rfl⟩), .schedRet ⟨i, hi⟩ hc⟩
  · rcases Join.precedes_task hc i ih (Join.mem_taskObs.mpr h) hread with rfl | ⟨q, hq, hqo⟩
    · rcases lt_or_ge (i : ℕ) n with hi | hi
      · exact .inr ⟨_, Join.mem_branchObs.mpr (.inl ⟨hi, .inl rfl⟩), .task ⟨i, hi⟩ hc⟩
      · exact .inl (if_neg (not_lt.mpr hi)).symm
    · exact .inr ⟨q, Multiset.mem_of_le htask hq, hqo⟩

end Fork

/-- In a call, the first action is first. -/
theorem Called.first_or_precedes {g : Node α} {a : ℕ} {K : Cont α} {p : Option Ob}
    (hw : Winning G w) (hc : Called G g a K p) {o : Ob} (ho : o ∈ g.obs a)
    (hread : ∀ q, o ≠ .read q) : o = g.first a ∨ ∃ q ∈ g.obs a, Precedes G w q o := by
  induction g generalizing a K p o with
  | leaf t r f =>
      simp only [Node.obs, Multiset.mem_add, Multiset.mem_singleton] at ho ⊢
      rcases ho with rfl | rfl
      · exact .inl rfl
      · exact .inr ⟨_, .inl rfl, .leafRet hc⟩
  | seq A B ihA ihB =>
      simp only [Node.obs, Multiset.mem_add, Multiset.mem_singleton] at ho ⊢
      rcases ho with rfl | ho | ho
      · exact .inl rfl
      · rcases ihA hc.fst ho hread with rfl | ⟨q, hq, hqo⟩
        · exact .inr ⟨_, .inl rfl, .call hc.fst⟩
        · exact .inr ⟨q, .inr (.inl hq), hqo⟩
      · rcases ihB hc.snd ho hread with rfl | ⟨q, hq, hqo⟩
        · exact .inr ⟨_, .inr (.inl (A.last_mem_obs a)), .call hc.snd⟩
        · exact .inr ⟨q, .inr (.inr hq), hqo⟩
  | @fork k n fs ih =>
      have hnode : ∀ {o}, o ∈ k.firstObs a + k.lastObs a → o ∈ (Node.fork k fs).obs a :=
        fun h => Node.mem_obs_fork.mpr (.inr (.inl h))
      have hfetch : ∀ i : Fin (n + 1), Ob.fetchSub a i ∈ (Node.fork k fs).obs a := fun i =>
        Node.mem_obs_fork.mpr (.inr (.inr ⟨i, Join.mem_branchObs.mpr
          (.inr (.inr (.inr (.inl rfl))))⟩))
      rcases Node.mem_obs_fork.mp ho with rfl | ho | ⟨i, ho⟩
      · exact .inl rfl
      · refine .inr ?_
        rcases Join.mem_nodeObs.mp ho with rfl | rfl | ⟨rfl, rfl | rfl | rfl⟩
        · exact ⟨_, hfetch 0, .destroy 0 hc⟩
        · exact absurd rfl (hread a)
        · exact ⟨_, hfetch ⟨w a, hw hc⟩, .variantWrite _ hc rfl⟩
        · exact ⟨_, hnode (Join.mem_nodeObs.mpr (.inl rfl)), .cleanup hc⟩
        · exact ⟨_, hnode (Join.mem_nodeObs.mpr (.inr (.inr ⟨rfl, .inr (.inl rfl)⟩))),
            .countDown hc⟩
      · refine .inr ?_
        rcases Join.precedes_branch hc i (fun ho hread => ih i (hc.child i) ho hread) ho hread with
          rfl | ⟨q, hq, hqo⟩
        · refine ⟨_, ?_, precedes_start hc i⟩
          rcases i with ⟨- | i, hi⟩
          · exact Node.mem_obs_fork.mpr (.inl rfl)
          · exact Node.mem_obs_fork.mpr (.inr (.inr ⟨⟨i, Nat.lt_of_succ_lt hi⟩,
              Join.mem_branchObs.mpr (.inl ⟨Nat.lt_of_succ_lt_succ hi, .inr rfl⟩)⟩))
        · exact ⟨q, Node.mem_obs_fork.mpr (.inr (.inr ⟨i, hq⟩)), hqo⟩

/-- In a continuation, what follows the result `x` is first. -/
theorem Cont.After.precedes {K : Cont α} {x : Ob} (hw : Winning G w) (hK : K.After G x) {o : Ob}
    (ho : o ∈ K.obs) (hread : ∀ q, o ≠ .read q) :
    Precedes G w x o ∨ ∃ q ∈ K.obs, Precedes G w q o := by
  induction K generalizing x with
  | root =>
      obtain rfl : x = G.last 0 := hK
      simp only [Cont.obs, Multiset.mem_add, Multiset.mem_singleton] at ho ⊢
      rcases ho with (rfl | rfl) | rfl
      · exact .inl .thenCall
      · exact .inr ⟨_, .inl (.inl rfl), .thenRet⟩
      · exact .inr ⟨_, .inl (.inr rfl), .countDownRoot⟩
  | seqK B b K ih =>
      have hB : Called G B b K (some x) := hK
      simp only [Cont.obs, Multiset.mem_add] at ho ⊢
      rcases ho with ho | ho
      · rcases hB.first_or_precedes hw ho hread with rfl | ⟨q, hq, hqo⟩
        · exact .inl (.call hB)
        · exact .inr ⟨q, .inl hq, hqo⟩
      · rcases ih hB.after ho with h | ⟨q, hq, hqo⟩
        · exact .inr ⟨_, .inl (B.last_mem_obs b), h⟩
        · exact .inr ⟨q, .inr hq, hqo⟩
  | joinK k a n i t K =>
      obtain ⟨fs, j, p, rfl, hc, rfl⟩ := hK
      cases k with
      | all =>
          simp only [Cont.obs, Join.childObs, Multiset.mem_add, Multiset.mem_singleton] at ho ⊢
          rcases ho with rfl | rfl
          · exact .inl (.slotWrite j hc)
          · exact .inr ⟨_, .inl rfl, .allFetchSub j hc⟩
      | any =>
          obtain rfl := Multiset.mem_singleton.mp ho
          exact .inl (.anyFetchSub j hc)

/-! ### Frames -/

section Fork

variable {k : Join} {n : ℕ} {fs : Fin (n + 1) → Node α} {a : ℕ} {K : Cont α} {p : Option Ob}

/-- In the loop over the children from `i` on, child `i` is begun first. -/
theorem Join.precedes_branches (hw : Winning G w) (hc : Called G (.fork k fs) a K p)
    (i : Fin (n + 1)) {o : Ob} (ho : o ∈ ∑ j ∈ Finset.Ici i, k.branchObs a fs j)
    (hread : ∀ q, o ≠ .read q) :
    o = .start a n i ∨ ∃ q ∈ ∑ j ∈ Finset.Ici i, k.branchObs a fs j, Precedes G w q o := by
  obtain ⟨j, hj, ho⟩ := Multiset.mem_sum.mp ho
  rcases Join.precedes_branch hc j (fun ho hread => (hc.child j).first_or_precedes hw ho hread) ho
    hread with rfl | ⟨q, hq, hqo⟩
  · rcases eq_or_lt_of_le (Finset.mem_Ici.mp hj) with rfl | hlt
    · exact .inl rfl
    · -- the child before is in the loop as well
      rcases j with ⟨- | j, hj'⟩
      · exact absurd hlt (Nat.not_lt_zero _)
      · refine .inr ⟨.schedRet a j, Multiset.mem_sum.mpr ⟨⟨j, Nat.lt_of_succ_lt hj'⟩, ?_, ?_⟩,
          precedes_start hc ⟨j + 1, hj'⟩⟩
        · exact Finset.mem_Ici.mpr (Nat.le_of_lt_succ hlt)
        · exact Join.mem_branchObs.mpr (.inl ⟨Nat.lt_of_succ_lt_succ hj', .inr rfl⟩)
  · exact .inr ⟨q, Multiset.mem_sum.mpr ⟨j, hj, hq⟩, hqo⟩

end Fork

theorem Src.ne_of_mem_obs {r : Src α} {o : Ob} (ho : o ∈ r.obs) (hread : ∀ q, o ≠ .read q) :
    False := by
  obtain ⟨q, rfl⟩ := Src.exists_read_of_mem_obs ho
  exact hread q rfl

/-- **In what a frame owes, its next action is first.** -/
theorem Frame.Informed.next_or_precedes {w' : ℕ → ℕ} {P : Ob → Prop} {fr : Frame α}
    (hw : Winning G w) (h : fr.Informed G w' P) {o : Ob} (ho : o ∈ fr.obs)
    (hread : ∀ q, o ≠ .read q) : fr.next = some o ∨ ∃ q ∈ fr.obs, Precedes G w q o := by
  cases fr with
  | exec g a input K =>
      obtain ⟨p, hc, -⟩ := h
      simp only [Frame.obs, Multiset.mem_add] at ho ⊢
      rcases ho with (ho | ho) | ho
      · rcases hc.first_or_precedes hw ho hread with rfl | ⟨q, hq, hqo⟩
        · exact .inl rfl
        · exact .inr ⟨q, .inl (.inl hq), hqo⟩
      · exact (Src.ne_of_mem_obs ho hread).elim
      · rcases hc.after.precedes hw ho hread with h | ⟨q, hq, hqo⟩
        · exact .inr ⟨_, .inl (.inl (g.last_mem_obs a)), h⟩
        · exact .inr ⟨q, .inr hq, hqo⟩
  | leafRun a r f input arg K =>
      obtain ⟨⟨t, r', f', p, hc⟩, -⟩ := h
      simp only [Frame.obs, Multiset.mem_add, Multiset.mem_singleton] at ho ⊢
      rcases ho with (rfl | ho) | ho
      · exact .inl rfl
      · split_ifs at ho
        · exact (Src.ne_of_mem_obs ho hread).elim
        · exact absurd ho (Multiset.notMem_zero o)
      · rcases hc.after.precedes hw ho hread with h | ⟨q, hq, hqo⟩
        · exact .inr ⟨_, .inl (.inl rfl), h⟩
        · exact .inr ⟨q, .inr hq, hqo⟩
  | leafTemp => exact absurd ho (Multiset.notMem_zero o)
  | submit k a fs i K =>
      obtain ⟨⟨p, hc⟩, -⟩ := h
      refine (Join.precedes_branches hw hc i.castSucc ho hread).imp_left ?_
      rintro rfl
      show _ = some (if (i : ℕ) < _ then _ else _)
      rw [if_pos i.isLt]
      rfl
  | inScheduler k a fs i K =>
      obtain ⟨⟨p, hc⟩, -⟩ := h
      simp only [Frame.obs, Multiset.mem_add, Multiset.mem_singleton] at ho ⊢
      rcases ho with rfl | ho
      · exact .inl rfl
      · refine .inr ?_
        rcases Join.precedes_branches hw hc i.succ ho hread with rfl | ⟨q, hq, hqo⟩
        · exact ⟨_, .inl rfl, precedes_start hc i.succ⟩
        · exact ⟨q, .inr hq, hqo⟩
  | computation k a fs i K =>
      obtain ⟨⟨p, hc⟩, -⟩ := h
      refine (Join.precedes_task hc i (fun ho hread => (hc.child i).first_or_precedes hw ho hread)
        ho hread).imp_left ?_
      rintro rfl
      rfl
  | allWrite a n i out K =>
      obtain ⟨fs, j, p, rfl, hc, -⟩ := h
      simp only [Frame.obs, Multiset.mem_add, Multiset.mem_singleton] at ho ⊢
      rcases ho with (rfl | rfl) | ho
      · exact .inl rfl
      · exact .inr ⟨_, .inl (.inl rfl), .allFetchSub j hc⟩
      · exact (Src.ne_of_mem_obs ho hread).elim
  | allFetchSub a n i K =>
      obtain rfl := Multiset.mem_singleton.mp ho
      exact .inl rfl
  | allDestroy a n K =>
      obtain ⟨⟨fs, p, hc⟩, -⟩ := h
      simp only [Frame.obs, Multiset.mem_add, Multiset.mem_singleton] at ho ⊢
      rcases ho with (rfl | rfl) | ho
      · exact .inl rfl
      · exact absurd rfl (hread a)
      · rcases hc.after.precedes hw ho hread with h | ⟨q, hq, hqo⟩
        · exact .inr ⟨_, .inl (.inl rfl), h⟩
        · exact .inr ⟨q, .inr hq, hqo⟩
  | anyFetchSub a n i t out K =>
      simp only [Frame.obs, Multiset.mem_add, Multiset.mem_singleton] at ho
      rcases ho with rfl | ho
      · exact .inl rfl
      · exact (Src.ne_of_mem_obs ho hread).elim
  | anyWrite a n i t out K =>
      obtain ⟨⟨fs, p, hc⟩, -⟩ := h
      simp only [Frame.obs, Multiset.mem_add, Multiset.mem_singleton] at ho ⊢
      rcases ho with ((rfl | rfl) | ho) | ho
      · exact .inl rfl
      · exact absurd rfl (hread a)
      · exact (Src.ne_of_mem_obs ho hread).elim
      · rcases hc.after.precedes hw ho hread with h | ⟨q, hq, hqo⟩
        · exact .inr ⟨_, .inl (.inl (.inl rfl)), h⟩
        · exact .inr ⟨q, .inr hq, hqo⟩
  | anyDestroy a n =>
      obtain ⟨⟨fs, K, p, hc⟩, -⟩ := h
      simp only [Frame.obs, Multiset.mem_add, Multiset.mem_singleton] at ho ⊢
      rcases ho with (rfl | rfl) | rfl
      · exact .inl rfl
      · exact .inr ⟨_, .inl (.inl rfl), .cleanup hc⟩
      · exact .inr ⟨_, .inl (.inr rfl), .countDown hc⟩
  | cleanup a =>
      obtain ⟨⟨n, fs, K, p, hc⟩, -⟩ := h
      simp only [Frame.obs, Multiset.mem_add, Multiset.mem_singleton] at ho ⊢
      rcases ho with rfl | rfl
      · exact .inl rfl
      · exact .inr ⟨_, .inl rfl, .countDown hc⟩
  | thenCall res =>
      simp only [Frame.obs, Multiset.mem_add, Multiset.mem_singleton] at ho ⊢
      rcases ho with ((rfl | rfl) | rfl) | ho
      · exact .inl rfl
      · exact .inr ⟨_, .inl (.inl (.inl rfl)), .thenRet⟩
      · exact .inr ⟨_, .inl (.inl (.inr rfl)), .countDownRoot⟩
      · exact (Src.ne_of_mem_obs ho hread).elim
  | thenRun =>
      simp only [Frame.obs, Multiset.mem_add, Multiset.mem_singleton] at ho ⊢
      rcases ho with rfl | rfl
      · exact .inl rfl
      · exact .inr ⟨_, .inl rfl, .countDownRoot⟩
  | countDown o' =>
      obtain rfl := Multiset.mem_singleton.mp ho
      exact .inl rfl

/-! ### The memory -/

section State

variable {s : State α}

/-- **In what the memory owes, nothing is first.** -/
theorem Inv.precedes_of_mem (h : Inv Flow.trivial G s) (hw : Winning G w) {o : Ob}
    (ho : o ∈ s.mem.obs (Flow.trivial.sites G)) (hread : ∀ q, o ≠ .read q) :
    ∃ q ∈ s.owed G, Precedes G w q o := by
  obtain ⟨⟨g, a, K, d⟩, hx, ho⟩ := Tally.mem_sum_map.mp ho
  have hle : Site.owes s.mem ⟨g, a, K, d⟩ ≤ s.owed G :=
    (List.le_sum_of_mem (List.mem_map_of_mem hx)).trans (Multiset.le_add_left _ _)
  obtain ⟨p, hc⟩ := called_of_mem_sites _ hx
  cases g with
  | leaf | seq => exact absurd ho (Multiset.notMem_zero o)
  | @fork k n fs =>
      change o ∈ k.owes a n K (s.mem a).state at ho
      change k.owes a n K (s.mem a).state ≤ s.owed G at hle
      have hst : (s.mem a).state.engaged = true ∧ 1 ≤ (s.mem a).state.bytes.left := by
        by_contra hno
        cases k <;> simp [Join.owes_all, Join.owes_any, if_neg hno] at ho
      have hcon := ((h.engaged_iff a).mp hst.1).1
      have hleft := (h.nodes hx).left hcon
      have hpos : 0 < (pending (s.obs (Flow.trivial.sites G)) a n).card := by omega
      -- a child is pending, so `destroy` waits for its `fetch_sub`
      obtain ⟨j, hj⟩ := Finset.card_pos.mp hpos
      have hdestroy : ∃ q ∈ s.owed G, Precedes G w q (.destroy a) :=
        ⟨_, mem_pending.mp hj, .destroy j hc⟩
      cases k with
      | all =>
          rw [Join.owes_all, if_pos hst] at ho hle
          have hd : Ob.destroy a ∈ s.owed G :=
            Multiset.mem_of_le hle (Multiset.mem_add.mpr (.inl (by simp [Join.lastObs])))
          have hK : K.obs ≤ s.owed G := (Multiset.le_add_left _ _).trans hle
          rcases Multiset.mem_add.mp ho with hmem | hmem
          · simp only [Join.lastObs, Multiset.mem_add, Multiset.mem_singleton] at hmem
            rcases hmem with rfl | rfl
            · exact hdestroy
            · exact absurd rfl (hread a)
          · rcases hc.after.precedes hw hmem hread with hq | ⟨q, hq, hqo⟩
            · exact ⟨_, hd, hq⟩
            · exact ⟨q, Multiset.mem_of_le hK hq, hqo⟩
      | any =>
          rw [Join.owes_any, if_pos hst] at ho hle
          have hmem : ∀ {q}, q ∈ Join.any.lastObs a → q ∈ s.owed G :=
            fun hq => Multiset.mem_of_le hle (Multiset.mem_add.mpr (.inl hq))
          rcases Multiset.mem_add.mp ho with hlast | hfirst
          · simp only [Join.lastObs, Multiset.mem_add, Multiset.mem_singleton] at hlast hmem
            rcases hlast with (rfl | rfl) | rfl
            · exact hdestroy
            · exact ⟨_, hmem (.inl (.inl rfl)), .cleanup hc⟩
            · exact ⟨_, hmem (.inl (.inr rfl)), .countDown hc⟩
          · by_cases hfull : (s.mem a).state.bytes.left = n + 1
            · rw [if_pos hfull] at hfirst hle
              have hle' := (Multiset.le_add_left _ _).trans hle
              rcases Multiset.mem_add.mp hfirst with hfirst | hK
              · simp only [Join.firstObs, Multiset.mem_add, Multiset.mem_singleton] at hfirst
                rcases hfirst with rfl | rfl
                · have hwin := h.fetchSub_mem_of_left hx hcon hfull ⟨w a, hw hc⟩
                  exact ⟨_, hwin, .variantWrite _ hc rfl⟩
                · exact absurd rfl (hread a)
              · rcases hc.after.precedes hw hK hread with hq | ⟨q, hq, hqo⟩
                · refine ⟨_, Multiset.mem_of_le hle' ?_, hq⟩
                  exact Multiset.mem_add.mpr (.inl (by simp [Node.last, Join.firstObs]))
                · exact ⟨q, Multiset.mem_of_le ((Multiset.le_add_left _ _).trans hle') hq, hqo⟩
            · rw [if_neg hfull] at hfirst
              exact absurd hfirst (Multiset.notMem_zero o)

/-- **Of what is owed, only the next actions of the frames are first.** -/
theorem Inv.next_or_precedes {w' : ℕ → ℕ} {σ : List (Label α)} (h : Inv Flow.trivial G s)
    (hw : Winning G w) (hs : s.Informed G w' σ) {o : Ob} (ho : o ∈ s.owed G)
    (hread : ∀ q, o ≠ .read q) :
    (∃ (t : ℕ) (st : List (Frame α)), s.threads[t]? = some st ∧ ∃ fr ∈ st, fr.next = some o) ∨
      ∃ q ∈ s.owed G, Precedes G w q o := by
  rcases Multiset.mem_add.mp ho with ho | ho
  · obtain ⟨st, hst, ho⟩ := Tally.mem_sum_map.mp ho
    obtain ⟨fr, hfr, ho⟩ := Tally.mem_sum_map.mp ho
    obtain ⟨t, ht⟩ := List.mem_iff_getElem?.mp hst
    rcases (hs t st ht fr hfr).next_or_precedes hw ho hread with hn | ⟨q, hq, hqo⟩
    · exact .inl ⟨t, st, ht, fr, hfr, hn⟩
    · exact .inr ⟨q, Multiset.mem_of_le (State.frame_obs_le hst hfr) hq, hqo⟩
  · exact .inr (h.precedes_of_mem hw ho hread)

end State

end Orizzonte
