/-
Orizzonte/Flow.lean

Invariants of a run, derived from what is known of each call.

A `Flow` says what holds of the inputs and the results of the nodes of a graph: an
annotation for each call, computed along the graph, and a relation `holds` between
annotations and objects, closed under the four nodes.  It may restrict attention to
runs whose events are all `allowed`.  For any flow, `Inv` is an invariant of these
runs (`Inv.step`): every call whose frame is on a stack has an input for which its
annotation holds, every result on its way has one for which `out` holds, and so
have the members of the engaged nodes.

With `holds` always true (`Flow.trivial`) the invariant is about the machine alone:
no obligation is owed twice, `_left` counts the children that still owe a
`fetch_sub`, and a storage is engaged from `construct` to `destroy`.
-/
import Orizzonte.Ledger

namespace Orizzonte

universe u v

variable {α : Type u}

/-- Annotations of the calls of a graph that every run respects. -/
structure Flow (α : Type u) where
  D : Type v
  d₀ : D
  out : Node α → ℕ → D → D
  holds : D → Value α → Prop
  allowed : Event α → Prop
  leaf_rule : ∀ {t r f a d x}, allowed (.leafRet a (f.call x)) → holds d x →
    holds (out (.leaf t r f) a d) (f.call x)
  seq_rule : ∀ {A B a d y}, holds (out B (a + A.size) (out A a d)) y →
    holds (out (.seq A B) a d) y
  all_rule : ∀ {n : ℕ} {fs : Fin (n + 1) → Node α} {a d} {ys : ℕ → Value α},
    (∀ i, holds (out (fs i) (Node.childAddr fs a i) d) (ys i)) →
    holds (out (.all fs) a d) (.tuple (List.ofFn fun i : Fin (n + 1) => ys i))
  any_rule : ∀ {n : ℕ} {fs : Fin (n + 1) → Node α} {a d y} {i : Fin (n + 1)},
    allowed (.fetchSub a n i (n + 1)) → holds (out (fs i) (Node.childAddr fs a i) d) y →
    holds (out (.any fs) a d) (.variant (fs i).outType y)

/-- Nothing is known and everything is allowed. -/
def Flow.trivial : Flow.{u, 0} α where
  D := Unit
  d₀ := ()
  out := fun _ _ _ => ()
  holds := fun _ _ => True
  allowed := fun _ => True
  leaf_rule := fun _ _ => True.intro
  seq_rule := fun _ => True.intro
  all_rule := fun _ => True.intro
  any_rule := fun _ _ => True.intro

/-- The annotated calls of `G`. -/
def Flow.sites (φ : Flow.{u, v} α) (G : Node α) : List (Site α φ.D) :=
  G.sites φ.out 0 .root φ.d₀

/-! ### The invariant -/

/-- The `fetch_sub` a continuation ends with: node and child. -/
def Cont.endsAt : Cont α → Option (ℕ × ℕ)
  | root => none
  | seqK _ _ K => K.endsAt
  | joinK _ a _ i _ _ => some (a, i)

/-- The node whose child a continuation belongs to has been constructed. -/
def Cont.Entered (O : Multiset Ob) (K : Cont α) : Prop :=
  ∀ p i, K.endsAt = some (p, i) → Ob.construct p ∉ O

variable (φ : Flow.{u, v} α) (G : Node α) (O : Multiset Ob) (m : Mem α)

/-- The object is there and will not be written any more. -/
def Src.Valid (K : Cont α) : Src α → Prop
  | temp _ => True
  | input p => ∃ i, K.endsAt = some (p, i)
  | slots a n => ∃ (n' : ℕ) (fs : Fin (n' + 1) → Node α) (K : Cont α) (d : φ.D), n = n' + 1 ∧
      ⟨.all fs, a, K, d⟩ ∈ φ.sites G ∧ ∀ i < n, Ob.slotWrite a i ∉ O
  | alt a => ∃ (n : ℕ) (fs : Fin (n + 1) → Node α) (K : Cont α) (d : φ.D),
      ⟨.any fs, a, K, d⟩ ∈ φ.sites G ∧ Ob.variantWrite a ∉ O

/-- What the flow says about a program point, when `O` is owed in total. -/
def Frame.OK : Frame α → Prop
  | exec g a input K => ∃ d, ⟨g, a, K, d⟩ ∈ φ.sites G ∧ K.Entered O ∧ input.Valid φ G O K ∧
      φ.holds d (input.read m)
  | leafRun a r f input arg K => ∃ t d, ⟨.leaf t r f, a, K, d⟩ ∈ φ.sites G ∧ K.Entered O ∧
      φ.holds d arg ∧ (r = true → input.Valid φ G O K ∧ input.read m = arg)
  | leafTemp _ _ => True
  | submit k a fs _ K => ∃ d, ⟨.fork k fs, a, K, d⟩ ∈ φ.sites G ∧ Ob.construct a ∉ O
  | inScheduler k a fs _ K => ∃ d, ⟨.fork k fs, a, K, d⟩ ∈ φ.sites G ∧ Ob.construct a ∉ O
  | computation k a fs _ K => ∃ d, ⟨.fork k fs, a, K, d⟩ ∈ φ.sites G ∧ Ob.construct a ∉ O
  | allWrite a n i out K => ∃ (fs : Fin (n + 1) → Node α) (d : φ.D) (j : Fin (n + 1)),
      (j : ℕ) = i ∧ ⟨.all fs, a, K, d⟩ ∈ φ.sites G ∧ Ob.construct a ∉ O ∧
      out.Valid φ G O .root ∧
      φ.holds (φ.out (fs j) (Node.childAddr fs a j) d) (out.read m)
  | allFetchSub a n i K => ∃ (fs : Fin (n + 1) → Node α) (d : φ.D) (j : Fin (n + 1)),
      (j : ℕ) = i ∧ ⟨.all fs, a, K, d⟩ ∈ φ.sites G ∧ Ob.construct a ∉ O ∧
      Ob.slotWrite a i ∉ O ∧ ∃ y, φ.holds (φ.out (fs j) (Node.childAddr fs a j) d) y
  | allDestroy a n K => ∃ (fs : Fin (n + 1) → Node α) (d : φ.D),
      ⟨.all fs, a, K, d⟩ ∈ φ.sites G ∧ Ob.construct a ∉ O ∧ ∀ i < n + 1, Ob.fetchSub a i ∉ O
  | anyFetchSub a n i t out K => ∃ (fs : Fin (n + 1) → Node α) (d : φ.D) (j : Fin (n + 1)),
      (j : ℕ) = i ∧ ⟨.any fs, a, K, d⟩ ∈ φ.sites G ∧ Ob.construct a ∉ O ∧
      t = (fs j).outType ∧ out.Valid φ G O .root ∧
      φ.holds (φ.out (fs j) (Node.childAddr fs a j) d) (out.read m)
  | anyWrite a n i t out K => ∃ (fs : Fin (n + 1) → Node α) (d : φ.D) (j : Fin (n + 1)),
      (j : ℕ) = i ∧ ⟨.any fs, a, K, d⟩ ∈ φ.sites G ∧ Ob.construct a ∉ O ∧
      t = (fs j).outType ∧ out.Valid φ G O .root ∧
      φ.holds (φ.out (fs j) (Node.childAddr fs a j) d) (out.read m) ∧
      φ.allowed (.fetchSub a n i (n + 1))
  | anyDestroy a n => ∃ (fs : Fin (n + 1) → Node α) (K : Cont α) (d : φ.D),
      ⟨.any fs, a, K, d⟩ ∈ φ.sites G ∧ Ob.construct a ∉ O ∧ ∀ i < n + 1, Ob.fetchSub a i ∉ O
  | cleanup a => ∃ (n : ℕ) (fs : Fin (n + 1) → Node α) (K : Cont α) (d : φ.D),
      ⟨.any fs, a, K, d⟩ ∈ φ.sites G ∧ ∀ i < n + 1, Ob.fetchSub a i ∉ O
  | thenCall res => res.Valid φ G O .root ∧ φ.holds (φ.out G 0 φ.d₀) (res.read m)
  | thenRun => True
  | countDown _ => True

/-- The children that have not performed their `fetch_sub`. -/
def pending (O : Multiset Ob) (a n : ℕ) : Finset (Fin (n + 1)) :=
  Finset.univ.filter fun i => Ob.fetchSub a i ∈ O

/-- What the flow says about the members of an all or any node. -/
structure NodeOK (k : Join) {n : ℕ} (fs : Fin (n + 1) → Node α) (a : ℕ) (K : Cont α)
    (d : φ.D) : Prop where
  entered : Ob.construct a ∉ O → K.Entered O
  left : Ob.construct a ∉ O → (m a).state.bytes.left = (pending O a n).card
  engaged : Ob.construct a ∉ O → 1 ≤ (m a).state.bytes.left → (m a).state.engaged = true
  input : (m a).state.engaged = true → φ.holds d (m a).state.bytes.input
  slot_fetch : k = .all → ∀ i : Fin (n + 1), Ob.slotWrite a i ∈ O → Ob.fetchSub a i ∈ O
  slots : k = .all → ∀ i : Fin (n + 1), Ob.slotWrite a i ∉ O → Ob.read a ∈ O →
    φ.holds (φ.out (fs i) (Node.childAddr fs a i) d) ((m a).slots i)
  alt : k = .any → Ob.variantWrite a ∉ O → Ob.read a ∈ O →
    φ.holds (φ.out (.any fs) a d) (m a).alt
  out : ∀ i : Fin (n + 1), Ob.fetchSub a i ∉ O →
    ∃ y, φ.holds (φ.out (fs i) (Node.childAddr fs a i) d) y

/-- The invariant of the runs of `G` that a flow allows. -/
structure Inv (s : State α) : Prop where
  nodup : (s.obs (φ.sites G)).Nodup
  frames : ∀ st ∈ s.threads, ∀ fr ∈ st, fr.OK φ G (s.obs (φ.sites G)) s.mem
  nodes : ∀ {k : Join} {n : ℕ} {fs : Fin (n + 1) → Node α} {a K d},
    ⟨.fork k fs, a, K, d⟩ ∈ φ.sites G → NodeOK φ (s.obs (φ.sites G)) s.mem k fs a K d
  engaged_iff : ∀ a, (s.mem a).state.engaged = true ↔
    Ob.construct a ∉ s.obs (φ.sites G) ∧ Ob.destroy a ∈ s.obs (φ.sites G)
  result : Ob.thenCall ∉ s.obs (φ.sites G) → ∃ y, φ.holds (φ.out G 0 φ.d₀) y

/-- What the flow says about an event. -/
def Event.OK : Event α → Prop
  | leafCall a x => ∃ t r f K d, ⟨.leaf t r f, a, K, d⟩ ∈ φ.sites G ∧ φ.holds d x
  | seqExec b => ∃ A B a K d x, b = a + A.size ∧ ⟨.seq A B, a, K, d⟩ ∈ φ.sites G ∧ φ.holds d x
  | construct a => ∃ (k : Join) (n : ℕ) (fs : Fin (n + 1) → Node α) (K : Cont α) (d : φ.D)
      (x : Value α), ⟨.fork k fs, a, K, d⟩ ∈ φ.sites G ∧ φ.holds d x
  | cleanup a => ∃ (n : ℕ) (fs : Fin (n + 1) → Node α) (K : Cont α) (d : φ.D),
      ⟨.any fs, a, K, d⟩ ∈ φ.sites G ∧
      ∀ i, ∃ y, φ.holds (φ.out (fs i) (Node.childAddr fs a i) d) y
  | thenCall x => φ.holds (φ.out G 0 φ.d₀) x
  | _ => True

variable {φ G O m}

/-! ### Where a result arrives -/

/-- What the flow says about an object passed to a continuation. -/
def Arrives (φ : Flow.{u, v} α) (G : Node α) (y : Value α) : Cont α → Prop
  | .root => φ.holds (φ.out G 0 φ.d₀) y
  | .seqK B b K => ∃ d, ⟨B, b, K, d⟩ ∈ φ.sites G ∧ φ.holds d y
  | .joinK k a n i t K => ∃ (fs : Fin (n + 1) → Node α) (d : φ.D) (j : Fin (n + 1)),
      (j : ℕ) = i ∧ ⟨.fork k fs, a, K, d⟩ ∈ φ.sites G ∧ t = (fs j).outType ∧
      φ.holds (φ.out (fs j) (Node.childAddr fs a j) d) y

/-- The result of a call arrives at its continuation, through the parts of a `seq`. -/
theorem arrives_of_mem_sites : ∀ x ∈ φ.sites G, ∀ y,
    φ.holds (φ.out x.node x.addr x.ann) y → Arrives φ G y x.cont := by
  refine Node.sites_induction ?_ ?_ ?_ ?_
  · exact fun y h => h
  · exact fun A B a K d hx _ y h => ⟨_, Node.mem_sites_snd hx, h⟩
  · exact fun A B a K d _ ih y h => ih y (φ.seq_rule h)
  · exact fun k n fs a K d i hx _ y h => ⟨fs, d, i, rfl, hx, rfl, h⟩

theorem Cont.Entered.mono {K : Cont α} {O' : Multiset Ob} (h : K.Entered O) (hle : O' ≤ O) :
    K.Entered O' :=
  fun p i hp hmem => h p i hp (Multiset.mem_of_le hle hmem)

/-- The node an entered continuation ends at is the one its site is a child of. -/
theorem Cont.Entered.joinK {k : Join} {a n i : ℕ} {t : Ty} {K : Cont α}
    (h : Ob.construct a ∉ O) : (Cont.joinK k a n i t K).Entered O := by
  intro p j hp
  obtain ⟨rfl, -⟩ := Prod.mk.inj (Option.some.inj hp)
  exact h

theorem Cont.Entered.seqK {K : Cont α} {B : Node α} {b : ℕ} (h : K.Entered O) :
    (Cont.seqK B b K).Entered O := h

theorem Src.Valid.seqK {K : Cont α} {B : Node α} {b : ℕ} {x : Src α}
    (h : x.Valid φ G O K) : x.Valid φ G O (.seqK B b K) := by
  cases x <;> exact h

/-- A result that arrives makes a good frame of the continuation that takes it. -/
theorem Cont.invoke_OK {K : Cont α} {out : Src α} (hout : ∀ K', out.Valid φ G O K')
    (hK : K.Entered O) (h : Arrives φ G (out.read m) K) : (K.invoke out).OK φ G O m := by
  cases K with
  | root => exact ⟨hout _, h⟩
  | seqK B b K =>
      obtain ⟨d, hd, hy⟩ := h
      exact ⟨d, hd, hK, hout _, hy⟩
  | joinK k a n i t K =>
      obtain ⟨fs, d, j, hj, hd, ht, hy⟩ := h
      have ha : Ob.construct a ∉ O := hK a i rfl
      cases k with
      | all => exact ⟨fs, d, j, hj, hd, ha, hout _, hy⟩
      | any => exact ⟨fs, d, j, hj, hd, ha, ht, hout _, hy⟩

/-! ### What a step changes for the other frames -/

/-- From `O` and `m` to `O'` and `m'`, as far as a frame that does not move can see. -/
structure Change (O O' : Multiset Ob) (m m' : Mem α) : Prop where
  le : O' ≤ O
  input : ∀ p, Ob.construct p ∉ O → (m' p).state.bytes.input = (m p).state.bytes.input
  slots : ∀ q j, Ob.slotWrite q j ∉ O → Ob.read q ∈ O' → (m' q).slots j = (m q).slots j
  alt : ∀ q, Ob.variantWrite q ∉ O → Ob.read q ∈ O' → (m' q).alt = (m q).alt

section Stable

variable {O' : Multiset Ob} {m' : Mem α}

theorem Src.Valid.mono {K : Cont α} {x : Src α} (h : x.Valid φ G O K) (hle : O' ≤ O) :
    x.Valid φ G O' K := by
  cases x with
  | temp | input => exact h
  | slots a n =>
      obtain ⟨n', fs, K', d, hn, hd, hw⟩ := h
      exact ⟨n', fs, K', d, hn, hd, fun i hi hmem => hw i hi (Multiset.mem_of_le hle hmem)⟩
  | alt a =>
      obtain ⟨n, fs, K', d, hd, hw⟩ := h
      exact ⟨n, fs, K', d, hd, fun hmem => hw (Multiset.mem_of_le hle hmem)⟩

/-- A frame that holds the right to read an object finds it unchanged. -/
theorem Src.Valid.read_eq {K : Cont α} {x : Src α} (h : x.Valid φ G O K) (hK : K.Entered O)
    (hc : Change O O' m m') (hx : x.obs ≤ O') : x.read m' = x.read m := by
  cases x with
  | temp y => rfl
  | input p =>
      obtain ⟨i, hi⟩ := h
      exact hc.input p (hK p i hi)
  | slots a n =>
      obtain ⟨n', fs, K', d, hn, hd, hw⟩ := h
      have hr : Ob.read a ∈ O' := Multiset.mem_of_le hx (by simp [obs])
      have heq : ∀ i : Fin n, (m' a).slots i = (m a).slots i :=
        fun i => hc.slots a i (hw i i.isLt) hr
      simp [read, heq]
  | alt a =>
      obtain ⟨n, fs, K', d, -, hw⟩ := h
      have hr : Ob.read a ∈ O' := Multiset.mem_of_le hx (by simp [obs])
      exact hc.alt a hw hr

theorem Cont.Entered.root : (Cont.root : Cont α).Entered O := by
  intro p i hp
  cases hp

/-- A good frame stays good while another one moves. -/
theorem Frame.OK.stable {fr : Frame α} (h : fr.OK φ G O m) (hc : Change O O' m m')
    (hfr : fr.obs ≤ O') : fr.OK φ G O' m' := by
  -- what is not owed any more stays so, and what the frame may read is unchanged
  have hnot : ∀ {o : Ob}, o ∉ O → o ∉ O' := fun ho hmem => ho (Multiset.mem_of_le hc.le hmem)
  cases fr with
  | exec g a input K =>
      obtain ⟨d, hd, hK, hv, hy⟩ := h
      have hi : input.obs ≤ O' := le_trans
        ((Multiset.le_add_left _ _).trans (Multiset.le_add_right _ _)) hfr
      exact ⟨d, hd, hK.mono hc.le, hv.mono hc.le, by rwa [hv.read_eq hK hc hi]⟩
  | leafRun a r f input arg K =>
      obtain ⟨t, d, hd, hK, hy, hr⟩ := h
      refine ⟨t, d, hd, hK.mono hc.le, hy, fun e => ?_⟩
      obtain ⟨hv, harg⟩ := hr e
      have hi : input.obs ≤ O' := by
        refine le_trans ?_ hfr
        simp only [Frame.obs, e, if_true]
        exact (Multiset.le_add_left _ _).trans (Multiset.le_add_right _ _)
      exact ⟨hv.mono hc.le, by rw [hv.read_eq hK hc hi, harg]⟩
  | leafTemp | thenRun | countDown => exact True.intro
  | submit k a fs i K | inScheduler k a fs i K | computation k a fs i K =>
      obtain ⟨d, hd, ha⟩ := h
      exact ⟨d, hd, hnot ha⟩
  | allWrite a n i out K =>
      obtain ⟨fs, d, j, hj, hd, ha, hv, hy⟩ := h
      have hi : out.obs ≤ O' := le_trans (Multiset.le_add_left _ _) hfr
      exact ⟨fs, d, j, hj, hd, hnot ha, hv.mono hc.le, by rwa [hv.read_eq .root hc hi]⟩
  | allFetchSub a n i K =>
      obtain ⟨fs, d, j, hj, hd, ha, hw, hy⟩ := h
      exact ⟨fs, d, j, hj, hd, hnot ha, hnot hw, hy⟩
  | allDestroy a n K =>
      obtain ⟨fs, d, hd, ha, hw⟩ := h
      exact ⟨fs, d, hd, hnot ha, fun i hi => hnot (hw i hi)⟩
  | anyFetchSub a n i t out K =>
      obtain ⟨fs, d, j, hj, hd, ha, ht, hv, hy⟩ := h
      have hi : out.obs ≤ O' := le_trans (Multiset.le_add_left _ _) hfr
      exact ⟨fs, d, j, hj, hd, hnot ha, ht, hv.mono hc.le, by rwa [hv.read_eq .root hc hi]⟩
  | anyWrite a n i t out K =>
      obtain ⟨fs, d, j, hj, hd, ha, ht, hv, hy, hall⟩ := h
      have hi : out.obs ≤ O' := le_trans
        ((Multiset.le_add_left _ _).trans (Multiset.le_add_right _ _)) hfr
      exact ⟨fs, d, j, hj, hd, hnot ha, ht, hv.mono hc.le, by rwa [hv.read_eq .root hc hi],
        hall⟩
  | anyDestroy a n =>
      obtain ⟨fs, K, d, hd, ha, hf⟩ := h
      exact ⟨fs, K, d, hd, hnot ha, fun i hi => hnot (hf i hi)⟩
  | cleanup a =>
      obtain ⟨n, fs, K, d, hd, hf⟩ := h
      exact ⟨n, fs, K, d, hd, fun i hi => hnot (hf i hi)⟩
  | thenCall res =>
      obtain ⟨hv, hy⟩ := h
      have hi : res.obs ≤ O' := le_trans (Multiset.le_add_left _ _) hfr
      exact ⟨hv.mono hc.le, by rwa [hv.read_eq .root hc hi]⟩

end Stable

end Orizzonte
