/-
Orizzonte/Inline.lean

Schedulers that run each task inside the call that hands it to them.  Then nothing is
left of concurrency: `execute` is a sequential program, on the thread that called it,
and does what `Node.script` lists, in this order (`inline_script`).

The script of a graph contains the script of its continuation once: an all node has it
after its last child, an any node after its first one, before the other children.  So the
children of a node come to their `fetch_sub` in the order of the pack
(`Node.turns_script`), and the first child wins each any node.
-/
import Orizzonte.Linearize

namespace Orizzonte

open Lts

universe u

variable {α : Type u}

/-- The scheduler runs a task inside its call. -/
def Event.inline : Event α → Bool
  | submit _ _ inline => inline
  | _ => true

/-! ### What is done, and in which order -/

/-- The continuation of child `i` of a node with `n + 1` children and continuation `k`, where the
children finish in order. -/
def Join.script (a n i : ℕ) (k : List Ob) : Join → List Ob
  | all => .slotWrite a i :: .fetchSub a i :: if i = n then .destroy a :: k else []
  | any => .fetchSub a i :: ((if i = 0 then .variantWrite a :: k else []) ++
      if i = n then [.destroy a, .cleanup a, .countDown (some a)] else [])

/-- `execute`, with continuation `k`. -/
def Node.script : Node α → ℕ → List Ob → List Ob
  | leaf _ _ _, a, k => .leafCall a :: .leafRet a :: k
  | seq A B, a, k => .seqExec (a + A.size) :: A.script a (B.script (a + A.size) k)
  | @fork _ j n fs, a, k => .construct a :: (List.finRange (n + 1)).flatMap fun i : Fin (n + 1) =>
      if (i : ℕ) < n then
        .submit a i :: .inputRead a i :: ((fs i).script (childAddr fs a i) (j.script a n i k) ++
          [.schedRet a i])
      else .inputRead a i :: (fs i).script (childAddr fs a i) (j.script a n i k)

/-- The body of `computation` for child `i`. -/
def Join.taskScript (j : Join) (a : ℕ) {n : ℕ} (fs : Fin (n + 1) → Node α) (k : List Ob)
    (i : Fin (n + 1)) : List Ob :=
  .inputRead a i :: (fs i).script (Node.childAddr fs a i) (j.script a n i k)

/-- The call of `schedule_if_last` for child `i`. -/
def Join.branchScript (j : Join) (a : ℕ) {n : ℕ} (fs : Fin (n + 1) → Node α) (k : List Ob)
    (i : Fin (n + 1)) : List Ob :=
  if (i : ℕ) < n then .submit a i :: (j.taskScript a fs k i ++ [.schedRet a i])
  else j.taskScript a fs k i

/-- The calls of `schedule_if_last` from child `i` on. -/
def Join.loopScript (j : Join) (a : ℕ) {n : ℕ} (fs : Fin (n + 1) → Node α) (k : List Ob) (i : ℕ) :
    List Ob :=
  ((List.finRange (n + 1)).drop i).flatMap (j.branchScript a fs k)

def Cont.script : Cont α → List Ob
  | root => [.thenCall, .thenRet, .countDown none]
  | seqK B b K => B.script b K.script
  | joinK j a n i _ K => j.script a n i K.script

def Frame.script : Frame α → List Ob
  | exec g a _ K => g.script a K.script
  | leafRun a _ _ _ _ K => .leafRet a :: K.script
  | leafTemp _ _ => []
  | submit j a fs i K => j.loopScript a fs K.script i
  | inScheduler j a fs i K => .schedRet a i :: j.loopScript a fs K.script (i + 1)
  | computation j a fs i K => j.taskScript a fs K.script i
  | allWrite a n i _ K => Join.all.script a n i K.script
  | allFetchSub a n i K => .fetchSub a i :: if i = n then .destroy a :: K.script else []
  | allDestroy a _ K => .destroy a :: K.script
  | anyFetchSub a n i _ _ K => Join.any.script a n i K.script
  | anyWrite a _ _ _ _ K => .variantWrite a :: K.script
  | anyDestroy a _ => [.destroy a, .cleanup a, .countDown (some a)]
  | cleanup a => [.cleanup a, .countDown (some a)]
  | thenCall _ => [.thenCall, .thenRet, .countDown none]
  | thenRun => [.thenRet, .countDown none]
  | countDown o => [.countDown o]

def stackScript (st : List (Frame α)) : List Ob := st.flatMap Frame.script

@[simp] theorem stackScript_cons (fr : Frame α) (st : List (Frame α)) :
    stackScript (fr :: st) = fr.script ++ stackScript st := rfl

@[simp] theorem stackScript_append (st st' : List (Frame α)) :
    stackScript (st ++ st') = stackScript st ++ stackScript st' := List.flatMap_append

theorem stackScript_ite (p : Prop) [Decidable p] (fr : Frame α) :
    stackScript (if p then [fr] else []) = if p then fr.script else [] := by
  split_ifs
  · exact List.append_nil _
  · rfl

/-! ### Frames -/

theorem Node.script_fork (j : Join) {n : ℕ} (fs : Fin (n + 1) → Node α) (a : ℕ) (k : List Ob) :
    (fork j fs).script a k = .construct a :: j.loopScript a fs k 0 := rfl

@[simp] theorem Cont.invoke_script (K : Cont α) (out : Src α) :
    (K.invoke out).script = K.script := by
  cases K with
  | root => rfl
  | seqK B b K => rfl
  | joinK k a n i t K => cases k <;> rfl

theorem Join.loopScript_eq (j : Join) (a : ℕ) {n : ℕ} (fs : Fin (n + 1) → Node α) (k : List Ob)
    (i : Fin (n + 1)) :
    j.loopScript a fs k i = j.branchScript a fs k i ++ j.loopScript a fs k (i + 1) := by
  have hlt : (i : ℕ) < (List.finRange (n + 1)).length := by
    rw [List.length_finRange]
    exact i.isLt
  unfold loopScript
  rw [List.drop_eq_getElem_cons hlt, List.flatMap_cons, List.getElem_finRange]
  rfl

theorem Join.loopScript_last (j : Join) (a : ℕ) {n : ℕ} (fs : Fin (n + 1) → Node α)
    (k : List Ob) : j.loopScript a fs k n = j.taskScript a fs k (Fin.last n) := by
  have h := j.loopScript_eq a fs k (Fin.last n)
  have hend : j.loopScript a fs k (n + 1) = [] := by
    unfold loopScript
    rw [List.drop_of_length_le (by simp)]
    rfl
  simpa [branchScript, hend] using h

@[simp] theorem scheduleIfLast_script (j : Join) (a : ℕ) {n : ℕ} (fs : Fin (n + 1) → Node α)
    (i : Fin (n + 1)) (K : Cont α) :
    (scheduleIfLast j a fs i K).script = j.loopScript a fs K.script i := by
  unfold scheduleIfLast
  split
  · rfl
  · rename_i h
    obtain rfl : i = Fin.last n := Fin.ext (by simp only [Fin.val_last]; omega)
    exact (j.loopScript_last a fs K.script).symm

/-- A step does the next action of the script, where children finish in order. -/
theorem Fires.script {m : Mem α} {c : Choice α} {fr : Frame α} {o : Outcome α}
    (hf : Fires m c fr o) (hin : o.event.inline)
    (hleft : ∀ a n i r, o.event = .fetchSub a n i r → r = n + 1 - i) :
    fr.script = o.event.action?.toList ++ stackScript o.frames ∧ o.spawned = [] := by
  cases hf with
  | submitThread k a fs i K h => cases hin
  | construct k fs a input K h =>
      refine ⟨?_, rfl⟩
      show _ = .construct a :: ((scheduleIfLast k a fs 0 K).script ++ [])
      rw [scheduleIfLast_script, List.append_nil]
      exact Node.script_fork k fs a K.script
  | schedRet k a fs i K =>
      refine ⟨?_, rfl⟩
      show _ = .schedRet a i :: ((scheduleIfLast k a fs i.succ K).script ++ [])
      rw [scheduleIfLast_script, List.append_nil]
      rfl
  | submitInline k a fs i K h =>
      refine ⟨?_, rfl⟩
      have hlt : ((i.castSucc : Fin _) : ℕ) < _ := i.isLt
      have hloop := k.loopScript_eq a fs K.script i.castSucc
      simp only [Join.branchScript, hlt, if_true] at hloop
      simpa [Frame.script, stackScript, Event.action?] using hloop
  | allFetchSub a n i K h =>
      have hlast : (m a).state.bytes.left = 1 ↔ i = n := by
        rw [hleft a n i _ rfl]
        omega
      refine ⟨?_, rfl⟩
      simp only [hlast, stackScript_ite]
      rfl
  | anyFetchSub a n i t out K h =>
      have hlast : (m a).state.bytes.left = 1 ↔ i = n := by
        rw [hleft a n i _ rfl]
        omega
      have hfirst : (m a).state.bytes.left = n + 1 ↔ i = 0 := by
        rw [hleft a n i _ rfl]
        omega
      refine ⟨?_, rfl⟩
      simp only [hlast, hfirst, stackScript_append, stackScript_ite]
      rfl
  | leafRet a r f input arg K =>
      refine ⟨?_, rfl⟩
      show _ = .leafRet a :: ((K.invoke _).script ++ [])
      rw [Cont.invoke_script, List.append_nil]
      rfl
  | allDestroy a n K h =>
      refine ⟨?_, rfl⟩
      show _ = .destroy a :: ((K.invoke _).script ++ [])
      rw [Cont.invoke_script, List.append_nil]
      rfl
  | variantWrite a n i t out K =>
      refine ⟨?_, rfl⟩
      show _ = .variantWrite a :: ((K.invoke _).script ++ [])
      rw [Cont.invoke_script, List.append_nil]
      rfl
  | _ =>
      refine ⟨?_, rfl⟩
      simp [Frame.script, stackScript, Event.action?, Node.script, Cont.script, Join.script,
        Join.taskScript]

/-! ### The order of the `fetch_sub`s -/

/-- The child of the node at `a` that a `fetch_sub` is the one of. -/
def Ob.turn? (a : ℕ) : Ob → Option ℕ
  | fetchSub b i => if b = a then some i else none
  | _ => none

/-- The children of the node at `a`, in the order of their `fetch_sub`s. -/
def turns (a : ℕ) (L : List Ob) : List ℕ := L.filterMap (Ob.turn? a)

/-- The child that goes on with the continuation of the node. -/
def Join.heir (n : ℕ) : Join → Fin (n + 1)
  | all => Fin.last n
  | any => ⟨0, n.succ_pos⟩

variable {a p N : ℕ} {k : List Ob}

@[simp] theorem turns_append (L L' : List Ob) : turns a (L ++ L') = turns a L ++ turns a L' :=
  List.filterMap_append

theorem turns_cons_of_none {o : Ob} (h : o.turn? a = none) (L : List Ob) :
    turns a (o :: L) = turns a L :=
  List.filterMap_cons_none h

theorem turns_fetchSub (i : ℕ) (L : List Ob) :
    turns p (.fetchSub a i :: L) = (if a = p then [i] else []) ++ turns p L := by
  unfold turns
  split_ifs with h
  · exact List.filterMap_cons_some (if_pos h)
  · exact List.filterMap_cons_none (if_neg h)

theorem Join.turns_script (j : Join) {n : ℕ} (i : Fin (n + 1)) :
    turns p (j.script a n i k) =
      (if a = p then [(i : ℕ)] else []) ++ if i = j.heir n then turns p k else [] := by
  cases j with
  | all =>
      have hi : i = Join.all.heir n ↔ (i : ℕ) = n := Fin.ext_iff
      unfold script
      rw [turns_cons_of_none rfl, turns_fetchSub]
      simp only [hi]
      split_ifs <;> rfl
  | any =>
      have hi : i = Join.any.heir n ↔ (i : ℕ) = 0 := Fin.ext_iff
      have hend : turns p (if (i : ℕ) = n then [.destroy a, .cleanup a, .countDown (some a)]
          else []) = [] := by
        split_ifs <;> rfl
      unfold script
      rw [turns_fetchSub, turns_append, hend, List.append_nil]
      simp only [hi]
      split_ifs <;> rfl

theorem Join.turns_branchScript (j : Join) {n : ℕ} (fs : Fin (n + 1) → Node α) (i : Fin (n + 1)) :
    turns p (j.branchScript a fs k i) =
      turns p ((fs i).script (Node.childAddr fs a i) (j.script a n i k)) := by
  unfold branchScript taskScript
  split_ifs
  · rw [turns_cons_of_none rfl, turns_append, turns_cons_of_none rfl]
    exact List.append_nil _
  · exact turns_cons_of_none rfl _

theorem Node.turns_script_fork (j : Join) {n : ℕ} (fs : Fin (n + 1) → Node α) :
    turns p ((fork j fs).script a k) = (List.finRange (n + 1)).flatMap fun i =>
      turns p ((fs i).script (childAddr fs a i) (j.script a n i k)) := by
  rw [script_fork, turns_cons_of_none rfl]
  unfold Join.loopScript
  rw [List.drop_zero, turns, List.filterMap_flatMap]
  exact List.flatMap_congr fun i _ => j.turns_branchScript fs i

theorem flatMap_ite {β γ : Type*} [DecidableEq β] {l : List β} (hl : l.Nodup) {b : β} (hb : b ∈ l)
    (L : List γ) : (l.flatMap fun i => if i = b then L else []) = L := by
  induction l with
  | nil => cases hb
  | cons c l ih =>
      obtain ⟨hc, hl⟩ := List.nodup_cons.mp hl
      rw [List.flatMap_cons]
      by_cases hcb : c = b
      · subst hcb
        rw [if_pos rfl, List.flatMap_eq_nil_iff.mpr, List.append_nil]
        intro i hi
        exact if_neg (ne_of_mem_of_not_mem hi hc)
      · rw [if_neg hcb, List.nil_append]
        exact ih hl ((List.mem_cons.mp hb).resolve_left (Ne.symm hcb))

/-- A graph has no `fetch_sub`s on nodes outside of it, and has the continuation once. -/
theorem Node.turns_script_of_notMem {g : Node α} (h : p < a ∨ a + g.size ≤ p) :
    turns p (g.script a k) = turns p k := by
  induction g generalizing a k with
  | leaf => rfl
  | seq A B ihA ihB =>
      simp only [size] at h
      show turns p (A.script a (B.script (a + A.size) k)) = _
      rw [ihA (by omega), ihB (by omega)]
  | @fork j n fs ih =>
      have hne : a ≠ p := by
        have := (fork j fs).size_pos
        omega
      rw [turns_script_fork]
      refine Eq.trans (List.flatMap_congr fun i _ => ?_) (flatMap_ite (List.nodup_finRange (n + 1))
        (List.mem_finRange (j.heir n)) _)
      have hlo := lt_childAddr fs a i
      have hhi := childAddr_add_size_le fs a j i
      rw [ih i (by omega), Join.turns_script, if_neg hne, List.nil_append]

theorem Node.forks_seq (A B : Node α) (a : ℕ) :
    (seq A B).forks a = A.forks a ++ B.forks (a + A.size) := rfl

theorem Node.forks_fork (j : Join) {n : ℕ} (fs : Fin (n + 1) → Node α) (a : ℕ) :
    (fork j fs).forks a = (a, n + 1) :: (List.finRange (n + 1)).flatMap fun i =>
      (fs i).forks (childAddr fs a i) := rfl

/-- **The children of a node come to their `fetch_sub` in the order of the pack.** -/
theorem Node.turns_script {g : Node α} (h : (p, N) ∈ g.forks a) (hk : turns p k = []) :
    turns p (g.script a k) = List.range N := by
  induction g generalizing a k with
  | leaf => exact absurd h List.not_mem_nil
  | seq A B ihA ihB =>
      show turns p (A.script a (B.script (a + A.size) k)) = _
      rw [forks_seq] at h
      rcases List.mem_append.mp h with h | h
      · have hp := mem_range_of_mem_forks h
        exact ihA h ((turns_script_of_notMem (.inl hp.2)).trans hk)
      · have hp := mem_range_of_mem_forks h
        rw [turns_script_of_notMem (.inr hp.1)]
        exact ihB h hk
  | @fork j n fs ih =>
      have hjoin : ∀ i : Fin (n + 1),
          turns p (j.script a n i k) = if a = p then [(i : ℕ)] else [] := by
        intro i
        rw [Join.turns_script, hk, ite_self, List.append_nil]
      rw [turns_script_fork]
      rw [forks_fork] at h
      rcases List.mem_cons.mp h with h | h
      · cases h
        rw [← List.map_coe_finRange_eq_range, List.map_eq_flatMap]
        refine List.flatMap_congr fun i _ => ?_
        rw [turns_script_of_notMem (.inl (lt_childAddr fs _ i)), hjoin, if_pos rfl]
      · obtain ⟨i, -, h⟩ := List.mem_flatMap.mp h
        have hp := mem_range_of_mem_forks h
        have hne : a ≠ p := (lt_childAddr fs a i).trans_le hp.1 |>.ne
        refine Eq.trans (List.flatMap_congr fun i' _ => ?_) (flatMap_ite
          (List.nodup_finRange (n + 1)) (List.mem_finRange i) (List.range N))
        split_ifs with hi
        · subst hi
          exact ih i' h ((hjoin i').trans (if_neg hne))
        · have hout : p < childAddr fs a i' ∨ childAddr fs a i' + (fs i').size ≤ p := by
            by_contra hin
            rw [not_or, not_lt, not_le] at hin
            exact hi (childAddr_inj fs a hin.1 hin.2 hp.1 hp.2)
          rw [turns_script_of_notMem hout, hjoin, if_neg hne]

/-! ### Runs -/

section Runs

variable {G : Node α} {s s' : State α} {m : Mem α} {x : Value α} {τ : List (ℕ × Event α)}

/-- What a run of `sync_execute` does. -/
def Node.inlineScript (G : Node α) : List Ob := G.script 0 (Cont.root : Cont α).script

theorem turns_actions (τ : List (ℕ × Event α)) (a : ℕ) :
    turns a (actions τ) = (fetchSubs a τ).map Prod.fst := by
  unfold turns actions fetchSubs observed
  rw [List.filterMap_filterMap, List.map_filterMap]
  refine List.filterMap_congr fun l _ => ?_
  obtain ⟨t, e⟩ := l
  cases e with
  | fetchSub b n i r =>
      show (if b = a then some i else none) = (if b = a then some (i, r) else none).map Prod.fst
      split_ifs <;> rfl
  | _ => rfl

theorem actions_concat (τ : List (ℕ × Event α)) (t : ℕ) (e : Event α) :
    actions (τ ++ [(t, e)]) = actions τ ++ e.action?.toList :=
  Tally.filterMap_concat _ τ (t, e)

/-- A child that comes to its `fetch_sub` finds the children before it done, and no others. -/
theorem length_fetchSubs_of_script {a n i : ℕ} {L : List Ob} (ha : (a, n + 1) ∈ G.forks 0)
    (hL : actions τ ++ .fetchSub a i :: L = G.inlineScript) : (fetchSubs a τ).length = i := by
  have hturns := congrArg (turns a) hL
  rw [Node.inlineScript, Node.turns_script ha rfl, turns_append, turns_fetchSub, if_pos rfl,
    turns_actions] at hturns
  have hlen : ((fetchSubs a τ).map Prod.fst).length = (fetchSubs a τ).length := List.length_map _
  have hget : (List.range (n + 1))[(fetchSubs a τ).length]? = some i := by
    rw [← hturns, ← hlen, List.getElem?_append_right le_rfl, Nat.sub_self]
    rfl
  obtain ⟨hlt, hi⟩ := List.getElem?_eq_some_iff.mp hget
  rwa [List.getElem_range] at hi

/-- **With an inline scheduler, `execute` does what the script lists.** -/
theorem inline_script (hm : m.Unengaged) (hr : Run Step (State.start G m x) τ s)
    (hin : ∀ l ∈ τ, l.2.inline) :
    ∃ st, s.threads = [st] ∧ actions τ ++ stackScript st = G.inlineScript := by
  induction hr with
  | refl => exact ⟨_, rfl, List.append_nil _⟩
  | @tail τ u l u' hr hl ih =>
      obtain ⟨st, hst, hscript⟩ := ih fun l hl => hin l (List.mem_append_left _ hl)
      obtain ⟨t, e⟩ := l
      have hin' := hin (t, e) (List.mem_append_right _ (List.mem_singleton_self _))
      obtain ⟨c, fr, rest, o, ht, hf, rfl, rfl⟩ := step_iff.mp hl
      obtain ⟨rfl, rfl⟩ : t = 0 ∧ st = fr :: rest := by
        rw [hst] at ht
        rcases t with - | t
        · exact ⟨rfl, Option.some.inj ht⟩
        · cases ht
      rw [stackScript_cons] at hscript
      have hleft : ∀ a n i r, o.event = .fetchSub a n i r → r = n + 1 - i := by
        intro a n i r he
        rcases hf.touches a with ⟨-, -, hno, -⟩ | ⟨_, _, _, _, _, -, he', -⟩ |
          ⟨n', i', K, hfr, he', -⟩ | ⟨_, -, he', -⟩
        · exact absurd (by rw [he]; exact Multiset.mem_singleton_self _) (hno i)
        · cases he.symm.trans he'
        · obtain ⟨-, rfl, rfl, rfl⟩ := Event.fetchSub.inj (he.symm.trans he')
          obtain ⟨k, fs, d, j, -, hx, hc, -⟩ := (Inv.reached hm hr).fetchSub_frame ht hfr
          have ha : (a, n + 1) ∈ G.forks 0 := mem_forks_of_site hx
          rw [(fetchSubs_count_down hm hr ha).left hc]
          obtain ⟨L, hL⟩ : ∃ L, fr.script = .fetchSub a i :: L := by
            rcases hfr with rfl | ⟨t, out, rfl⟩ <;> exact ⟨_, rfl⟩
          rw [hL] at hscript
          rw [length_fetchSubs_of_script ha hscript]
          push_cast
          rfl
        · cases he.symm.trans he'
      obtain ⟨hfr, hspawned⟩ := hf.script hin' hleft
      refine ⟨o.frames ++ rest, ?_, ?_⟩
      · simp [State.after, hst, hspawned]
      · rw [actions_concat, stackScript_append, ← hscript, hfr, List.append_assoc,
          List.append_assoc]

/-- A scheduler may always run a task at once. -/
theorem Inv.exists_inline (h : Inv Flow.trivial G s) {t : ℕ} {fr : Frame α}
    {rest : List (Frame α)} (ht : s.threads[t]? = some (fr :: rest)) :
    ∃ l s', Step s l s' ∧ l.2.inline := by
  obtain ⟨o, ho⟩ := h.exists_fires ht { (default : Choice α) with inline := true }
  refine ⟨(t, o.event), _, step_iff.mpr ⟨_, fr, rest, o, ht, ho, rfl, rfl⟩, ?_⟩
  cases ho with
  | submitThread k a fs i K hi => cases hi
  | _ => rfl

theorem winner_of_inline (hm : m.Unengaged) (hr : Run Step (State.start G m x) τ s)
    (hin : ∀ l ∈ τ, l.2.inline) (a : ℕ) : winner τ a = 0 := by
  obtain ⟨st, -, hscript⟩ := inline_script hm hr hin
  unfold winner
  rw [← turns_actions]
  rcases hturns : turns a (actions τ) with - | ⟨i, L⟩
  · rfl
  · obtain ⟨N, ha⟩ : ∃ N, (a, N) ∈ G.forks 0 := by
      obtain ⟨o, ho, hi⟩ := List.mem_filterMap.mp
        (show i ∈ turns a (actions τ) by rw [hturns]; exact List.mem_cons_self ..)
      obtain ⟨⟨t, e⟩, hl, he⟩ := List.mem_filterMap.mp ho
      cases e with
      | fetchSub b n i' r =>
          cases he
          simp only [Ob.turn?] at hi
          split_ifs at hi with hb
          exact ⟨_, hb ▸ (mem_forks_of_fetchSub hm hr hl).1⟩
      | _ => cases he <;> cases hi
    have hrange := congrArg (turns a) hscript
    rw [turns_append, hturns, Node.inlineScript, Node.turns_script ha rfl] at hrange
    have hget : (List.range N)[0]? = some i := by
      rw [← hrange]
      rfl
    obtain ⟨hlt, hi⟩ := List.getElem?_eq_some_iff.mp hget
    rw [List.getElem_range] at hi
    exact hi.symm

/-- **An inline scheduler makes `execute` a sequential program.**  All is done on the calling
thread, in the order of the script; the first child wins each any node; and where the calling
thread is through, so is everything, and the latch lets it pass.  The script is what some run
does. -/
theorem inline_sequential (hm : m.Unengaged) (hr : Run Step (State.start G m x) τ s)
    (hin : ∀ l ∈ τ, l.2.inline) :
    (∀ l ∈ τ, l.1 = 0) ∧ actions τ <+: G.inlineScript ∧
    (s.threads[0]? = some [] → Stuck Step s ∧ s.latch = 0 ∧ actions τ = G.inlineScript ∧
      (leafCalls τ).Perm (G.leafArgs (fun _ => 0) 0 x) ∧
      thenCalls τ = [G.eval (fun _ => 0) 0 x]) ∧
    ∃ σ s', Run Step s σ s' ∧ s'.threads[0]? = some [] ∧ ∀ l ∈ σ, l.2.inline := by
  obtain ⟨st, hst, hscript⟩ := inline_script hm hr hin
  refine ⟨?_, ⟨_, hscript⟩, fun h0 => ?_, ?_⟩
  · refine hr.invariant (I := fun τ _ => (∀ l ∈ τ, l.2.inline) → ∀ l ∈ τ, l.1 = 0)
      (fun _ => by simp) ?_ hin
    rintro σ u ⟨t, e⟩ u' hu ih hl hσ l hmem
    have hσ' : ∀ l ∈ σ, l.2.inline := fun l h => hσ l (List.mem_append_left _ h)
    rcases List.mem_append.mp hmem with hmem | hmem
    · exact ih hσ' l hmem
    · obtain rfl := List.mem_singleton.mp hmem
      obtain ⟨st', hst', -⟩ := inline_script hm hu hσ'
      obtain ⟨c, fr, rest, o, ht, -⟩ := step_iff.mp hl
      rw [hst'] at ht
      rcases t with - | t
      · rfl
      · cases ht
  · obtain rfl : st = [] := by simpa [hst] using h0
    have hstuck : Stuck Step s := stuck_of_returned (by simp [hst])
    have hwin := winner_of_inline hm hr hin
    obtain ⟨hleaf, hthen⟩ := run_computes_eval hm hr hstuck
    refine ⟨hstuck, latch_zero_of_stuck hm hr hstuck, by simpa [stackScript] using hscript, ?_, ?_⟩
    · rwa [G.leafArgs_congr 0 x fun a _ => hwin a] at hleaf
    · rw [hthen, G.eval_congr 0 x fun a _ => hwin a]
  · have hinv := Inv.reached hm hr
    have hmeasure : ∀ u l u', Inv Flow.trivial G u →
        Only (fun l : ℕ × Event α => l.2.inline) Step u l u' → u'.remaining G < u.remaining G :=
      fun u l u' hu hl => (hu.remaining_step (t := l.1) hl.1).ge
    obtain ⟨σ, s', hσ, hstuck⟩ := exists_run_to_stuck
      (fun u l u' hu hl => (hu.step (t := l.1) hl.1 trivial).1) hmeasure hinv
    obtain ⟨hσ, hin'⟩ := Run.only_iff.mp hσ
    obtain ⟨st', hst', -⟩ := inline_script hm (hr.trans hσ) fun l hl =>
      (List.mem_append.mp hl).elim (hin l) (hin' l)
    refine ⟨σ, s', hσ, ?_, hin'⟩
    rcases st' with - | ⟨fr, rest⟩
    · rw [hst']
      rfl
    · have ht : s'.threads[0]? = some (fr :: rest) := by
        rw [hst']
        rfl
      obtain ⟨l, u, hl, hinl⟩ := (Inv.reached hm (hr.trans hσ)).exists_inline ht
      exact absurd ⟨hl, hinl⟩ (hstuck l u)

/-- The race, with a scheduler that runs the first child at once. -/
def inlineRun : List (ℕ × Event ℕ) × State ℕ :=
  ((State.syncExecute race Mem.fresh).drive
    (List.replicate 20 (0, { (default : Choice ℕ) with inline := true }))).getD default

theorem run_inlineRun : Run Step (State.start race Mem.fresh .nothing) inlineRun.1 inlineRun.2 :=
  @run_of_drive _ _ _ _ (List.replicate 20 (0, { (default : Choice ℕ) with inline := true })) rfl

theorem inline_sequential_race :
    (∀ l ∈ inlineRun.1, l.1 = 0) ∧ actions inlineRun.1 <+: race.inlineScript ∧
    (Stuck Step inlineRun.2 ∧ inlineRun.2.latch = 0 ∧
      actions inlineRun.1 = race.inlineScript ∧
      (leafCalls inlineRun.1).Perm (race.leafArgs (fun _ => 0) 0 .nothing) ∧
      thenCalls inlineRun.1 = [race.eval (fun _ => 0) 0 .nothing]) ∧
    ∃ σ s', Run Step inlineRun.2 σ s' ∧ s'.threads[0]? = some [] ∧ ∀ l ∈ σ, l.2.inline := by
  obtain ⟨hmain, hprefix, hend, hex⟩ :=
    inline_sequential Mem.fresh_unengaged run_inlineRun (by decide)
  exact ⟨hmain, hprefix, hend rfl, hex⟩

end Runs

end Orizzonte
