/-
Orizzonte/Obligation.lean

What is still to be done.  Every action that a run of a graph performs, whichever
children win the races, is known in advance: `Node.obs` collects the actions that
executing a graph owes, each named by an `Ob`, and `Cont.obs` and `Frame.obs`
those that a continuation and a program point owe.  An action is owed in one
place at a time.

The continuation of an all or any node is not owed by its children, each of which
owes just its own `fetch_sub`; it is owed by the node itself, that is by its
`_state`, until the first (any) or the last (all) `fetch_sub` hands it to a child
(`Join.owes` in the next module).

`read a` is not an action.  It is the right to refer to `_values` of the node at
`a`, and is dropped, not performed.
-/
import Orizzonte.Execute
import Orizzonte.Tally

namespace Orizzonte

variable {α : Type*}

/-- Actions of a run, without the values they carry. -/
inductive Ob
  | leafCall (a : ℕ)
  | leafRet (a : ℕ)
  | seqExec (b : ℕ)
  | construct (a : ℕ)
  | submit (a i : ℕ)
  | schedRet (a i : ℕ)
  | inputRead (a i : ℕ)
  | slotWrite (a i : ℕ)
  | fetchSub (a i : ℕ)
  | variantWrite (a : ℕ)
  | destroy (a : ℕ)
  | cleanup (a : ℕ)
  | thenCall
  | thenRet
  | countDown (o : Option ℕ)
  | read (a : ℕ)
  deriving DecidableEq

/-- The obligation an event discharges; the destruction of a leaf's result is not
accounted for. -/
def Event.discharges : Event α → Multiset Ob
  | leafCall a _ => {.leafCall a}
  | leafRet a _ => {.leafRet a}
  | tempDrop _ => 0
  | seqExec b => {.seqExec b}
  | construct a => {.construct a}
  | submit a i _ => {.submit a i}
  | schedRet a i => {.schedRet a i}
  | inputRead a i => {.inputRead a i}
  | slotWrite a i => {.slotWrite a i}
  | fetchSub a _ i _ => {.fetchSub a i}
  | variantWrite a => {.variantWrite a}
  | destroy a => {.destroy a}
  | cleanup a => {.cleanup a}
  | thenCall _ => {.thenCall}
  | thenRet => {.thenRet}
  | countDown o => {.countDown o}

/-- The continuation of child `i`, up to its `fetch_sub`. -/
def Join.childObs (a i : ℕ) : Join → Multiset Ob
  | all => {.slotWrite a i} + {.fetchSub a i}
  | any => {.fetchSub a i}

/-- What the first `fetch_sub` on a node hands out, before its continuation. -/
def Join.firstObs (a : ℕ) : Join → Multiset Ob
  | all => 0
  | any => {.variantWrite a} + {.read a}

/-- What the last `fetch_sub` on a node hands out, before its continuation. -/
def Join.lastObs (a : ℕ) : Join → Multiset Ob
  | all => {.destroy a} + {.read a}
  | any => {.destroy a} + {.cleanup a} + {.countDown (some a)}

/-- Everything that executing a graph owes, apart from its continuation. -/
def Node.obs : Node α → ℕ → Multiset Ob
  | leaf _ _ _, a => {.leafCall a} + {.leafRet a}
  | seq A B, a => {.seqExec (a + A.size)} + (A.obs a + B.obs (a + A.size))
  | @fork _ k n fs, a =>
      {.construct a} + (k.firstObs a + k.lastObs a) +
        ∑ i : Fin (n + 1), ((if (i : ℕ) < n then {.submit a i} + {.schedRet a i} else 0) +
          ({.inputRead a i} + k.childObs a i + (fs i).obs (childAddr fs a i)))

def Src.obs : Src α → Multiset Ob
  | temp _ => 0
  | input _ => 0
  | slots a _ => {.read a}
  | alt a => {.read a}

def Cont.obs : Cont α → Multiset Ob
  | root => {.thenCall} + {.thenRet} + {.countDown none}
  | seqK B b K => B.obs b + K.obs
  | joinK k a _ i _ _ => k.childObs a i

/-- The body of `computation` for child `i`. -/
def Join.taskObs (k : Join) (a : ℕ) {n : ℕ} (fs : Fin (n + 1) → Node α) (i : Fin (n + 1)) :
    Multiset Ob :=
  {.inputRead a i} + k.childObs a i + (fs i).obs (Node.childAddr fs a i)

/-- The call of `schedule_if_last` for child `i`. -/
def Join.branchObs (k : Join) (a : ℕ) {n : ℕ} (fs : Fin (n + 1) → Node α) (i : Fin (n + 1)) :
    Multiset Ob :=
  (if (i : ℕ) < n then {.submit a i} + {.schedRet a i} else 0) + k.taskObs a fs i

def Frame.obs : Frame α → Multiset Ob
  | exec g a input K => g.obs a + input.obs + K.obs
  | leafRun a byRef _ input _ K => {.leafRet a} + (if byRef then input.obs else 0) + K.obs
  | leafTemp _ _ => 0
  | submit k a fs i _ => ∑ j ∈ Finset.Ici i.castSucc, k.branchObs a fs j
  | inScheduler k a fs i _ => {.schedRet a i} + ∑ j ∈ Finset.Ici i.succ, k.branchObs a fs j
  | computation k a fs i _ => k.taskObs a fs i
  | allWrite a _ i out _ => {.slotWrite a i} + {.fetchSub a i} + out.obs
  | allFetchSub a _ i _ => {.fetchSub a i}
  | allDestroy a _ K => {.destroy a} + {.read a} + K.obs
  | anyFetchSub a _ i _ out _ => {.fetchSub a i} + out.obs
  | anyWrite a _ _ _ out K => {.variantWrite a} + {.read a} + out.obs + K.obs
  | anyDestroy a _ => {.destroy a} + {.cleanup a} + {.countDown (some a)}
  | cleanup a => {.cleanup a} + {.countDown (some a)}
  | thenCall res => {.thenCall} + {.thenRet} + {.countDown none} + res.obs
  | thenRun => {.thenRet} + {.countDown none}
  | countDown o => {.countDown o}

/-! ### How obligations move inside a thread -/

theorem Node.obs_fork (k : Join) {n : ℕ} (fs : Fin (n + 1) → Node α) (a : ℕ) :
    (fork k fs).obs a =
      {.construct a} + (k.firstObs a + k.lastObs a) + ∑ i, k.branchObs a fs i := rfl

@[simp] theorem Cont.invoke_obs (K : Cont α) (out : Src α) :
    (K.invoke out).obs = K.obs + out.obs := by
  cases K with
  | root => rfl
  | seqK B b K => simp only [invoke, Frame.obs, obs]; abel
  | joinK k a n i t K => cases k <;> rfl

theorem Fin.Ici_castSucc {n : ℕ} (i : Fin n) :
    Finset.Ici i.castSucc = insert i.castSucc (Finset.Ici i.succ) := by
  ext j
  simp only [Finset.mem_Ici, Finset.mem_insert, Fin.le_def, Fin.ext_iff, Fin.val_castSucc,
    Fin.val_succ]
  omega

/-- Submitting child `i` splits off its task. -/
theorem Join.sum_branchObs_castSucc (k : Join) (a : ℕ) {n : ℕ} (fs : Fin (n + 1) → Node α)
    (i : Fin n) :
    ∑ j ∈ Finset.Ici i.castSucc, k.branchObs a fs j =
      {.submit a i} + {.schedRet a i} + k.taskObs a fs i.castSucc +
        ∑ j ∈ Finset.Ici i.succ, k.branchObs a fs j := by
  rw [Fin.Ici_castSucc, Finset.sum_insert (by simp [Fin.le_def])]
  simp [branchObs]

@[simp] theorem scheduleIfLast_obs (k : Join) (a : ℕ) {n : ℕ} (fs : Fin (n + 1) → Node α)
    (i : Fin (n + 1)) (K : Cont α) :
    (scheduleIfLast k a fs i K).obs = ∑ j ∈ Finset.Ici i, k.branchObs a fs j := by
  unfold scheduleIfLast
  split
  · rfl
  · rename_i h
    have hi : i = Fin.last n := Fin.ext (by simp [Fin.last]; omega)
    have hIci : Finset.Ici (Fin.last n) = {Fin.last n} := by
      ext j
      simp [Fin.last_le_iff]
    subst hi
    simp [hIci, Frame.obs, Join.branchObs]

/-! ### Where the obligations of a graph live -/

/-- `o` belongs to a node of a graph that occupies `[lo, hi)`.  A `seq` is named by
the address of its second part. -/
def Ob.Within (lo hi : ℕ) : Ob → Prop
  | leafCall a | leafRet a | construct a | submit a _ | schedRet a _ | inputRead a _
  | slotWrite a _ | fetchSub a _ | variantWrite a | destroy a | cleanup a | read a
  | countDown (some a) => lo ≤ a ∧ a < hi
  | seqExec b => lo < b ∧ b < hi
  | thenCall | thenRet | countDown none => False

theorem Ob.Within.mono {lo hi lo' hi' : ℕ} {o : Ob} (h : o.Within lo hi) (hlo : lo' ≤ lo)
    (hhi : hi ≤ hi') : o.Within lo' hi' := by
  rcases o with _ | _ | _ | _ | _ | _ | _ | _ | _ | _ | _ | _ | _ | _ | (_ | _) | _ <;>
    simp only [Within] at * <;> omega

/-- Graphs that do not overlap share no obligation. -/
theorem Ob.Within.disjoint {lo hi lo' hi' : ℕ} {o : Ob} (h : o.Within lo hi)
    (h' : o.Within lo' hi') (hle : hi ≤ lo') : False := by
  rcases o with _ | _ | _ | _ | _ | _ | _ | _ | _ | _ | _ | _ | _ | _ | (_ | _) | _ <;>
    simp only [Within] at * <;> omega

variable {k : Join} {n : ℕ} {fs : Fin (n + 1) → Node α} {a : ℕ} {i : Fin (n + 1)} {o : Ob}

/-- The obligations of an all or any node itself, with child index `i`. -/
theorem Join.mem_branchObs : o ∈ k.branchObs a fs i ↔
    ((i : ℕ) < n ∧ (o = .submit a i ∨ o = .schedRet a i)) ∨ o = .inputRead a i ∨
      (k = .all ∧ o = .slotWrite a i) ∨ o = .fetchSub a i ∨
      o ∈ (fs i).obs (Node.childAddr fs a i) := by
  have hchild : o ∈ k.childObs a i ↔ (k = .all ∧ o = .slotWrite a i) ∨ o = .fetchSub a i := by
    cases k <;> simp [childObs]
  unfold branchObs taskObs
  split_ifs with h
  · simp only [Multiset.mem_add, Multiset.mem_singleton, hchild, h, true_and]
    tauto
  · simp [h, hchild, or_assoc]

theorem Join.mem_nodeObs : o ∈ k.firstObs a + k.lastObs a ↔
    o = .destroy a ∨ o = .read a ∨
      (k = .any ∧ (o = .variantWrite a ∨ o = .cleanup a ∨ o = .countDown (some a))) := by
  cases k
  · simp [firstObs, lastObs]
  · simp only [firstObs, lastObs, Multiset.mem_add, Multiset.mem_singleton, true_and]
    tauto

theorem Node.mem_obs_fork : o ∈ (fork k fs).obs a ↔
    o = .construct a ∨ o ∈ k.firstObs a + k.lastObs a ∨ ∃ i, o ∈ k.branchObs a fs i := by
  rw [obs_fork, Multiset.mem_add, Multiset.mem_add, Multiset.mem_singleton, Multiset.mem_sum,
    or_assoc]
  simp

theorem Node.within_of_mem_obs (g : Node α) {a : ℕ} {o : Ob} (h : o ∈ g.obs a) :
    o.Within a (a + g.size) := by
  induction g generalizing a with
  | leaf out r f =>
      simp only [obs, Multiset.mem_add, Multiset.mem_singleton] at h
      rcases h with rfl | rfl <;> simp [Ob.Within, size]
  | seq A B ihA ihB =>
      have hA := A.size_pos
      have hB := B.size_pos
      simp only [obs, Multiset.mem_add, Multiset.mem_singleton] at h
      rcases h with rfl | h | h
      · exact ⟨by omega, by simp only [size]; omega⟩
      · exact (ihA h).mono le_rfl (by simp only [size]; omega)
      · exact (ihB h).mono (by omega) (by simp only [size]; omega)
  | fork k fs ih =>
      have hpos := (fork k fs).size_pos
      rcases mem_obs_fork.mp h with rfl | h | ⟨i, h⟩
      · exact ⟨le_rfl, by omega⟩
      · rcases Join.mem_nodeObs.mp h with rfl | rfl | ⟨-, rfl | rfl | rfl⟩ <;>
          exact ⟨le_rfl, by omega⟩
      · rcases Join.mem_branchObs.mp h with ⟨-, rfl | rfl⟩ | rfl | ⟨-, rfl⟩ | rfl | h
        iterate 5 exact ⟨le_rfl, by omega⟩
        exact (ih i h).mono (lt_childAddr fs a i).le (childAddr_add_size_le fs a k i)

/-! ### No obligation is owed twice -/

/-- The child an obligation of an all or any node is about. -/
def Ob.child? : Ob → Option ℕ
  | submit _ i | schedRet _ i | inputRead _ i | slotWrite _ i | fetchSub _ i => some i
  | _ => none

/-- A branch owes actions of the node itself about this child, and actions inside the
child. -/
theorem Join.own_or_child (h : o ∈ k.branchObs a fs i) :
    (o.Within a (a + 1) ∧ o.child? = some (i : ℕ)) ∨
      o ∈ (fs i).obs (Node.childAddr fs a i) := by
  rcases mem_branchObs.mp h with ⟨-, rfl | rfl⟩ | rfl | ⟨-, rfl⟩ | rfl | h
  iterate 5 exact .inl ⟨⟨le_rfl, Nat.lt_succ_self a⟩, rfl⟩
  exact .inr h

/-- The node itself is not inside a child. -/
theorem Node.not_mem_child (h : o.Within a (a + 1)) : o ∉ (fs i).obs (childAddr fs a i) :=
  fun hmem => h.disjoint ((fs i).within_of_mem_obs hmem) (lt_childAddr fs a i)

theorem Join.within_of_mem_nodeObs (h : o ∈ k.firstObs a + k.lastObs a) :
    o.Within a (a + 1) ∧ o.child? = none := by
  rcases mem_nodeObs.mp h with rfl | rfl | ⟨-, rfl | rfl | rfl⟩ <;>
    exact ⟨⟨le_rfl, Nat.lt_succ_self a⟩, rfl⟩

theorem Join.disjoint_branchObs {i j : Fin (n + 1)} (hij : i ≠ j) :
    Disjoint (k.branchObs a fs i) (k.branchObs a fs j) := by
  apply Multiset.disjoint_left.mpr
  intro o hi hj
  rcases own_or_child hi with ⟨hw, hc⟩ | hi <;> rcases own_or_child hj with ⟨hw', hc'⟩ | hj
  · exact hij (Fin.ext (Option.some.inj (hc.symm.trans hc')))
  · exact Node.not_mem_child hw hj
  · exact Node.not_mem_child hw' hi
  · have wi := (fs i).within_of_mem_obs hi
    have wj := (fs j).within_of_mem_obs hj
    rcases lt_or_gt_of_ne hij with h | h
    · exact wi.disjoint wj (Node.childAddr_add_size_le_childAddr fs a h)
    · exact wj.disjoint wi (Node.childAddr_add_size_le_childAddr fs a h)

theorem Join.nodup_branchObs (h : ((fs i).obs (Node.childAddr fs a i)).Nodup) :
    (k.branchObs a fs i).Nodup := by
  have hown : ((if (i : ℕ) < n then {Ob.submit a i} + {Ob.schedRet a i} else 0) +
      ({Ob.inputRead a i} + k.childObs a i)).Nodup := by
    cases k <;> split_ifs <;> simp [childObs]
  have hsplit : k.branchObs a fs i =
      (if (i : ℕ) < n then {Ob.submit a i} + {Ob.schedRet a i} else 0) +
        ({Ob.inputRead a i} + k.childObs a i) + (fs i).obs (Node.childAddr fs a i) := by
    simp only [branchObs, taskObs, add_assoc]
  rw [hsplit, Multiset.nodup_add]
  refine ⟨hown, h, Multiset.disjoint_left.mpr fun {o} ho => ?_⟩
  -- the actions of the node itself are not inside the child
  apply Node.not_mem_child
  rcases Multiset.mem_add.mp ho with ho | ho
  · split_ifs at ho
    · rcases Multiset.mem_add.mp ho with ho | ho <;>
        (rw [Multiset.mem_singleton.mp ho]; exact ⟨le_rfl, Nat.lt_succ_self a⟩)
    · exact absurd ho (Multiset.notMem_zero o)
  · rcases Multiset.mem_add.mp ho with ho | ho
    · rw [Multiset.mem_singleton.mp ho]
      exact ⟨le_rfl, Nat.lt_succ_self a⟩
    · cases k with
      | all =>
          rcases Multiset.mem_add.mp ho with ho | ho <;>
            (rw [Multiset.mem_singleton.mp ho]; exact ⟨le_rfl, Nat.lt_succ_self a⟩)
      | any =>
          rw [Multiset.mem_singleton.mp ho]
          exact ⟨le_rfl, Nat.lt_succ_self a⟩

/-- **No obligation is owed twice**: an execution of a graph performs each action of
each of its nodes at most once. -/
theorem Node.nodup_obs (g : Node α) (a : ℕ) : (g.obs a).Nodup := by
  induction g generalizing a with
  | leaf out r f => simp [obs]
  | seq A B ihA ihB =>
      have hA := A.size_pos
      have disj : Disjoint (A.obs a) (B.obs (a + A.size)) :=
        Multiset.disjoint_left.mpr fun ho ho' =>
          (A.within_of_mem_obs ho).disjoint (B.within_of_mem_obs ho') le_rfl
      have hseq : Ob.seqExec (a + A.size) ∉ A.obs a + B.obs (a + A.size) := by
        intro h
        rcases Multiset.mem_add.mp h with h | h
        · exact absurd (A.within_of_mem_obs h).2 (lt_irrefl _)
        · exact absurd (B.within_of_mem_obs h).1 (lt_irrefl _)
      simp only [obs, Multiset.nodup_add, Multiset.nodup_singleton, true_and]
      exact ⟨⟨ihA a, ihB _, disj⟩, Multiset.singleton_disjoint.mpr hseq⟩
  | @fork k n fs ih =>
      -- the node itself, and its children one by one
      have hnode : (k.firstObs a + k.lastObs a).Nodup := by
        cases k <;> simp [Join.firstObs, Join.lastObs]
      have hsum : (∑ i, k.branchObs a fs i).Nodup :=
        Tally.nodup_finsetSum (fun i _ => Join.nodup_branchObs (ih i _))
          fun i _ j _ hij => Join.disjoint_branchObs hij
      have hown : ∀ o : Ob, o.Within a (a + 1) → o.child? = none →
          o ∉ ∑ i, k.branchObs a fs i := by
        intro o hw hc h
        obtain ⟨i, -, hi⟩ := Multiset.mem_sum.mp h
        rcases Join.own_or_child hi with ⟨-, hc'⟩ | hi
        · simp [hc] at hc'
        · exact not_mem_child hw hi
      rw [obs_fork, Multiset.nodup_add, Multiset.nodup_add]
      refine ⟨⟨Multiset.nodup_singleton _, hnode, ?_⟩, hsum, ?_⟩
      · apply Multiset.singleton_disjoint.mpr
        intro h
        rcases Join.mem_nodeObs.mp h with h | h | ⟨-, h | h | h⟩ <;> cases h
      · apply Multiset.disjoint_left.mpr
        intro o ho
        rcases Multiset.mem_add.mp ho with ho | ho
        · rw [Multiset.mem_singleton.mp ho]
          exact hown _ ⟨le_rfl, Nat.lt_succ_self a⟩ rfl
        · exact hown o (Join.within_of_mem_nodeObs ho).1 (Join.within_of_mem_nodeObs ho).2

end Orizzonte
