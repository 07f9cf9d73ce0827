/-
Orizzonte/Informed.lean

What a frame knows.  Where a frame is on a stack, its thread knows of the actions that
the order of the graph puts immediately before the next action of the frame
(`Frame.Informed`).  This is stated for any notion `P` of knowledge, and a step keeps it
as long as a thread knows what it did itself, and the last `fetch_sub` on a node makes
its thread know of all the others (`Fires.informed`).
-/
import Orizzonte.Eval
import Orizzonte.Precedence

namespace Orizzonte

universe u

variable {α : Type u}

/-! ### The next action of a frame -/

/-- The action that the next step of a frame does. -/
def Frame.next : Frame α → Option Ob
  | exec g a _ _ => some (g.first a)
  | leafRun a _ _ _ _ _ => some (.leafRet a)
  | leafTemp _ _ => none
  | submit _ a _ i _ => some (.submit a i)
  | inScheduler _ a _ i _ => some (.schedRet a i)
  | computation _ a _ i _ => some (.inputRead a i)
  | allWrite a _ i _ _ => some (.slotWrite a i)
  | allFetchSub a _ i _ => some (.fetchSub a i)
  | allDestroy a _ _ => some (.destroy a)
  | anyFetchSub a _ i _ _ _ => some (.fetchSub a i)
  | anyWrite a _ _ _ _ _ => some (.variantWrite a)
  | anyDestroy a _ => some (.destroy a)
  | cleanup a => some (.cleanup a)
  | thenCall _ => some .thenCall
  | thenRun => some .thenRet
  | countDown o => some (.countDown o)

theorem Fires.discharges_eq {m : Mem α} {c : Choice α} {fr : Frame α} {o : Outcome α}
    (hf : Fires m c fr o) : o.event.discharges = (fr.next.toList : Multiset Ob) := by
  cases hf <;> rfl

theorem Fires.mem_discharges {m : Mem α} {c : Choice α} {fr : Frame α} {o : Outcome α}
    (hf : Fires m c fr o) {x : Ob} : x ∈ o.event.discharges ↔ fr.next = some x := by
  rw [hf.discharges_eq, Multiset.mem_coe, Option.mem_toList]

/-! ### What the thread of a frame knows -/

variable (G : Node α) (w : ℕ → ℕ) (P : Ob → Prop)

/-- `P` holds of what comes immediately before the next action of the frame. -/
def Frame.Informed : Frame α → Prop
  | exec g a _ K => ∃ p, Called G g a K p ∧ ∀ x, p = some x → P x
  | leafRun a _ _ _ _ K => (∃ t r f p, Called G (.leaf t r f) a K p) ∧ P (.leafCall a)
  | leafTemp _ _ => True
  | submit k a fs i K => (∃ p, Called G (.fork k fs) a K p) ∧ P (.turn a i)
  | inScheduler k a fs i K => (∃ p, Called G (.fork k fs) a K p) ∧ P (.submit a i)
  | @computation _ k a n fs i K => (∃ p, Called G (.fork k fs) a K p) ∧
      P (if (i : ℕ) < n then .submit a i else .turn a i)
  | allWrite a n i _ K => ∃ (fs : Fin (n + 1) → Node α) (j : Fin (n + 1)) (p : Option Ob),
      (j : ℕ) = i ∧ Called G (.all fs) a K p ∧ P ((fs j).last (Node.childAddr fs a j))
  | allFetchSub a n i K => (∃ (fs : Fin (n + 1) → Node α) (p : Option Ob),
      Called G (.all fs) a K p) ∧ P (.slotWrite a i)
  | allDestroy a n K => (∃ (fs : Fin (n + 1) → Node α) (p : Option Ob),
      Called G (.all fs) a K p) ∧ ∀ i : Fin (n + 1), P (.fetchSub a i)
  | anyFetchSub a n i _ _ K => ∃ (fs : Fin (n + 1) → Node α) (j : Fin (n + 1)) (p : Option Ob),
      (j : ℕ) = i ∧ Called G (.any fs) a K p ∧ P ((fs j).last (Node.childAddr fs a j))
  | anyWrite a n i _ _ K => (∃ (fs : Fin (n + 1) → Node α) (p : Option Ob),
      Called G (.any fs) a K p) ∧ P (.fetchSub a i) ∧ i = w a
  | anyDestroy a n => (∃ (fs : Fin (n + 1) → Node α) (K : Cont α) (p : Option Ob),
      Called G (.any fs) a K p) ∧ ∀ i : Fin (n + 1), P (.fetchSub a i)
  | cleanup a => (∃ (n : ℕ) (fs : Fin (n + 1) → Node α) (K : Cont α) (p : Option Ob),
      Called G (.any fs) a K p) ∧ P (.destroy a)
  | thenCall _ => P (G.last 0)
  | thenRun => P .thenCall
  | countDown none => P .thenRet
  | countDown (some a) => P (.cleanup a)

variable {G w P} {Q : Ob → Prop}

theorem computation_informed {k : Join} {n : ℕ} {fs : Fin (n + 1) → Node α} {a : ℕ}
    {K : Cont α} (hc : ∃ p, Called G (.fork k fs) a K p) {i : Fin n} (h : P (.submit a i)) :
    (Frame.computation k a fs i.castSucc K).Informed G w P := by
  refine ⟨hc, ?_⟩
  rwa [Fin.val_castSucc, if_pos i.isLt]

theorem scheduleIfLast_informed {k : Join} {n : ℕ} {fs : Fin (n + 1) → Node α} {a : ℕ}
    {K : Cont α} {p : Option Ob} (hc : Called G (.fork k fs) a K p) {i : Fin (n + 1)}
    (h : P (.turn a i)) : (scheduleIfLast k a fs i K).Informed G w P := by
  unfold scheduleIfLast
  split
  · exact ⟨⟨p, hc⟩, h⟩
  · rename_i hi
    refine ⟨⟨p, hc⟩, ?_⟩
    rwa [if_neg hi]

/-- A continuation is informed when it is called right after what comes before it. -/
theorem Cont.invoke_informed {K : Cont α} {x : Ob} (hK : K.After G x) (h : P x) (out : Src α) :
    (K.invoke out).Informed G w P := by
  cases K with
  | root =>
      obtain rfl : x = G.last 0 := hK
      exact h
  | seqK B b K => exact ⟨_, hK, fun y hy => Option.some.inj hy ▸ h⟩
  | joinK k a n i t K =>
      obtain ⟨fs, j, p, hj, hc, rfl⟩ := hK
      cases k with
      | all => exact ⟨fs, j, p, hj, hc, h⟩
      | any => exact ⟨fs, j, p, hj, hc, h⟩

/-- **A step informs the frames it leaves.** -/
theorem Fires.informed {m : Mem α} {c : Choice α} {fr : Frame α} {o : Outcome α}
    (hf : Fires m c fr o) (h : fr.Informed G w P)
    (hown : ∀ x, fr.next = some x → Q x)
    (hlast : ∀ a n i, o.event = .fetchSub a n i 1 → ∀ j : Fin (n + 1), Q (.fetchSub a j))
    (hwin : o.event.WonBy w) {fr' : Frame α} (hfr' : fr' ∈ o.frames ∨ fr' ∈ o.spawned) :
    fr'.Informed G w Q := by
  cases hf with
  | leafCall t r f a input K =>
      obtain rfl := eq_of_new hfr'
      obtain ⟨p, hc, -⟩ := h
      exact ⟨⟨t, r, f, p, hc⟩, hown _ rfl⟩
  | seqExec A B a input K =>
      obtain rfl := eq_of_new hfr'
      obtain ⟨p, hc, -⟩ := h
      exact ⟨_, hc.fst, fun x hx => Option.some.inj hx ▸ hown _ rfl⟩
  | construct k fs a input K =>
      obtain rfl := eq_of_new hfr'
      obtain ⟨p, hc, -⟩ := h
      exact scheduleIfLast_informed hc (hown _ rfl)
  | leafRet a r f input arg K =>
      obtain ⟨⟨t, r', f', p, hc⟩, -⟩ := h
      rcases hfr' with hfr' | hfr'
      · rcases List.mem_cons.mp hfr' with rfl | hfr'
        · exact Cont.invoke_informed hc.after (hown _ rfl) _
        · obtain rfl := List.mem_singleton.mp hfr'
          exact True.intro
      · exact absurd hfr' List.not_mem_nil
  | tempDrop | countDown => simp at hfr'
  | submitInline k a fs i K hi =>
      obtain ⟨hc, -⟩ := h
      rcases hfr' with hfr' | hfr'
      · rcases List.mem_cons.mp hfr' with rfl | hfr'
        · exact computation_informed hc (hown _ rfl)
        · obtain rfl := List.mem_singleton.mp hfr'
          exact ⟨hc, hown _ rfl⟩
      · exact absurd hfr' List.not_mem_nil
  | submitThread k a fs i K hi =>
      obtain ⟨hc, -⟩ := h
      rcases hfr' with hfr' | hfr'
      · obtain rfl := List.mem_singleton.mp hfr'
        exact ⟨hc, hown _ rfl⟩
      · obtain rfl := List.mem_singleton.mp hfr'
        exact computation_informed hc (hown _ rfl)
  | schedRet k a fs i K =>
      obtain rfl := eq_of_new hfr'
      obtain ⟨⟨p, hc⟩, -⟩ := h
      apply scheduleIfLast_informed hc
      exact hown _ rfl
  | inputRead k a fs i K =>
      obtain rfl := eq_of_new hfr'
      obtain ⟨⟨p, hc⟩, -⟩ := h
      exact ⟨_, hc.child i, fun x hx => Option.some.inj hx ▸ hown _ rfl⟩
  | slotWrite a n i out K =>
      obtain rfl := eq_of_new hfr'
      obtain ⟨fs, j, p, -, hc, -⟩ := h
      exact ⟨⟨fs, p, hc⟩, hown _ rfl⟩
  | allFetchSub a n i K =>
      obtain ⟨hc, -⟩ := h
      by_cases hl : (m a).state.bytes.left = 1
      · simp only [hl, if_true] at hfr'
        obtain rfl := eq_of_new hfr'
        exact ⟨hc, hlast a n i (by rw [hl])⟩
      · simp [hl] at hfr'
  | allDestroy a n K =>
      obtain rfl := eq_of_new hfr'
      obtain ⟨⟨fs, p, hc⟩, -⟩ := h
      exact Cont.invoke_informed hc.after (hown _ rfl) _
  | anyFetchSub a n i t out K =>
      obtain ⟨fs, j, p, -, hc, -⟩ := h
      rcases hfr' with hfr' | hfr'
      · rcases List.mem_append.mp hfr' with hfr' | hfr'
        · split_ifs at hfr' with hl
          · obtain rfl := List.mem_singleton.mp hfr'
            exact ⟨⟨fs, p, hc⟩, hown _ rfl, hwin hl⟩
          · exact absurd hfr' List.not_mem_nil
        · split_ifs at hfr' with hl
          · obtain rfl := List.mem_singleton.mp hfr'
            exact ⟨⟨fs, K, p, hc⟩, hlast a n i (by rw [hl])⟩
          · exact absurd hfr' List.not_mem_nil
      · exact absurd hfr' List.not_mem_nil
  | variantWrite a n i t out K =>
      obtain rfl := eq_of_new hfr'
      obtain ⟨⟨fs, p, hc⟩, -⟩ := h
      exact Cont.invoke_informed hc.after (hown _ rfl) _
  | anyDestroy a n =>
      obtain rfl := eq_of_new hfr'
      obtain ⟨⟨fs, K, p, hc⟩, -⟩ := h
      exact ⟨⟨n, fs, K, p, hc⟩, hown _ rfl⟩
  | cleanup | thenCall | thenRet =>
      obtain rfl := eq_of_new hfr'
      exact hown _ rfl

theorem Frame.Informed.mono {fr : Frame α} (h : fr.Informed G w P) (hP : ∀ x, P x → Q x) :
    fr.Informed G w Q := by
  cases fr with
  | exec =>
      obtain ⟨p, hc, h⟩ := h
      exact ⟨p, hc, fun x hx => hP x (h x hx)⟩
  | leafTemp => exact True.intro
  | leafRun | submit | inScheduler | computation | allFetchSub | cleanup =>
      exact ⟨h.1, hP _ h.2⟩
  | allWrite | anyFetchSub =>
      obtain ⟨fs, j, p, hj, hc, h⟩ := h
      exact ⟨fs, j, p, hj, hc, hP _ h⟩
  | allDestroy | anyDestroy => exact ⟨h.1, fun i => hP _ (h.2 i)⟩
  | anyWrite => exact ⟨h.1, hP _ h.2.1, h.2.2⟩
  | thenCall | thenRun => exact hP _ h
  | countDown o => cases o <;> exact hP _ h

/-- The one thing that its thread need not know before an action: that the winner of an any
node was there first. -/
def Ob.Races (w : ℕ → ℕ) : Ob → Ob → Prop
  | fetchSub a i, fetchSub b j => a = b ∧ i = w a ∧ j ≠ w a
  | _, _ => False

/-- **An informed frame knows what comes before its next action.** -/
theorem Frame.Informed.known {fr : Frame α} (h : fr.Informed G w P) {x y : Ob}
    (hn : fr.next = some y) (hxy : Precedes G w x y) : P x ∨ x.Races w y := by
  cases fr with
  | exec g a input K =>
      obtain ⟨p, hc, hP⟩ := h
      exact .inl (hP x (hxy.eq_trigger hc (Option.some.inj hn).symm))
  | leafTemp => cases hn
  | leafRun | cleanup | thenCall | thenRun =>
      cases hxy <;> cases hn
      first | exact .inl h | exact .inl h.2
  | countDown o =>
      cases hxy <;> cases hn
      all_goals exact .inl h
  | submit k a fs i K =>
      cases hxy with
      | submit i' hc =>
          obtain ⟨rfl, hi⟩ := Ob.submit.inj (Option.some.inj hn)
          exact .inl (hi ▸ h.2)
      | _ => cases hn
  | inScheduler k a fs i K =>
      cases hxy with
      | schedRet i' hc =>
          obtain ⟨rfl, hi⟩ := Ob.schedRet.inj (Option.some.inj hn)
          exact .inl (hi ▸ h.2)
      | _ => cases hn
  | computation k a fs i K =>
      obtain ⟨⟨p, hc⟩, hP⟩ := h
      cases hxy with
      | task i' hc' =>
          obtain ⟨rfl, hi⟩ := Ob.inputRead.inj (Option.some.inj hn)
          obtain ⟨he, -, -, -⟩ := hc.site_ext hc' rfl
          cases he
          rw [hi, if_pos i'.isLt] at hP
          exact .inl hP
      | lastTask hc' =>
          obtain ⟨rfl, hi⟩ := Ob.inputRead.inj (Option.some.inj hn)
          obtain ⟨he, -, -, -⟩ := hc.site_ext hc' rfl
          cases he
          rw [hi, if_neg (lt_irrefl _)] at hP
          exact .inl hP
      | _ => cases hn
  | allWrite a n i out K =>
      obtain ⟨fs, j, p, hj, hc, hP⟩ := h
      cases hxy with
      | slotWrite i' hc' =>
          obtain ⟨rfl, hi⟩ := Ob.slotWrite.inj (Option.some.inj hn)
          obtain ⟨he, -, -, -⟩ := hc.site_ext hc' rfl
          cases he
          obtain rfl : j = i' := Fin.ext (hj.trans hi)
          exact .inl hP
      | _ => cases hn
  | allFetchSub a n i K =>
      obtain ⟨⟨fs, p, hc⟩, hP⟩ := h
      cases hxy with
      | allFetchSub i' hc' =>
          obtain ⟨rfl, hi⟩ := Ob.fetchSub.inj (Option.some.inj hn)
          exact .inl (hi ▸ hP)
      | anyFetchSub i' hc' | race _ i' hc' =>
          obtain ⟨rfl, -⟩ := Ob.fetchSub.inj (Option.some.inj hn)
          obtain ⟨he, -, -, -⟩ := hc.site_ext hc' rfl
          cases he
      | _ => cases hn
  | anyFetchSub a n i t out K =>
      obtain ⟨fs, j, p, hj, hc, hP⟩ := h
      cases hxy with
      | anyFetchSub i' hc' =>
          obtain ⟨rfl, hi⟩ := Ob.fetchSub.inj (Option.some.inj hn)
          obtain ⟨he, -, -, -⟩ := hc.site_ext hc' rfl
          cases he
          obtain rfl : j = i' := Fin.ext (hj.trans hi)
          exact .inl hP
      | allFetchSub i' hc' =>
          obtain ⟨rfl, -⟩ := Ob.fetchSub.inj (Option.some.inj hn)
          obtain ⟨he, -, -, -⟩ := hc.site_ext hc' rfl
          cases he
      | race i' j' hc' hw hne =>
          refine .inr ⟨rfl, hw.symm, fun h => hne (Fin.ext (h.trans hw))⟩
      | _ => cases hn
  | anyWrite a n i t out K =>
      obtain ⟨-, hP, hi⟩ := h
      cases hxy with
      | variantWrite i' hc' hw =>
          obtain rfl := Ob.variantWrite.inj (Option.some.inj hn)
          rw [hi, hw] at hP
          exact .inl hP
      | _ => cases hn
  | allDestroy a n K =>
      obtain ⟨⟨fs, p, hc⟩, hP⟩ := h
      cases hxy with
      | destroy i' hc' =>
          obtain rfl := Ob.destroy.inj (Option.some.inj hn)
          obtain ⟨he, -, -, -⟩ := hc.site_ext hc' rfl
          cases he
          exact .inl (hP i')
      | _ => cases hn
  | anyDestroy a n =>
      obtain ⟨⟨fs, K, p, hc⟩, hP⟩ := h
      cases hxy with
      | destroy i' hc' =>
          obtain rfl := Ob.destroy.inj (Option.some.inj hn)
          obtain ⟨he, -, -, -⟩ := hc.site_ext hc' rfl
          cases he
          exact .inl (hP i')
      | _ => cases hn

end Orizzonte
