/-
Orizzonte/Variant.lean

`orizzonte::get<N>` on the variant that an any node passes on (`types/variant.hpp`).

The alternatives of that variant are the output types of the children, in order, and
the result of the winner is assigned to it by value.  `get<N>` looks up the type at
position `N` and asks `boost::get` for an alternative of that type.  The position of
the winner is not recorded anywhere, so `get<N>` answers for every child whose output
has the type of the winner's, and for no other (`get_answers_by_type`).

`boost::variant` is not part of the library.  `BoostGet` is what is used of
`boost::get`; what assignment does is in the step of `anyWrite`.
-/
import Orizzonte.Reuse

namespace Orizzonte

open Lts

universe u v

variable {α : Type u}

/-! ### Types can be compared -/

mutual

def Ty.decEq : (s t : Ty) → Decidable (s = t)
  | .nothing, .nothing => .isTrue rfl
  | .obj k, .obj l => decidable_of_iff (k = l) (by simp)
  | .tuple ss, .tuple ts => @decidable_of_iff _ (ss = ts) (by simp) (Ty.decEqList ss ts)
  | .variant ss, .variant ts => @decidable_of_iff _ (ss = ts) (by simp) (Ty.decEqList ss ts)
  | .nothing, .obj _ | .nothing, .tuple _ | .nothing, .variant _ => .isFalse (by simp)
  | .obj _, .nothing | .obj _, .tuple _ | .obj _, .variant _ => .isFalse (by simp)
  | .tuple _, .nothing | .tuple _, .obj _ | .tuple _, .variant _ => .isFalse (by simp)
  | .variant _, .nothing | .variant _, .obj _ | .variant _, .tuple _ => .isFalse (by simp)

def Ty.decEqList : (ss ts : List Ty) → Decidable (ss = ts)
  | [], [] => .isTrue rfl
  | s :: ss, t :: ts =>
      @decidable_of_iff _ (s = t ∧ ss = ts) (by simp)
        (@instDecidableAnd _ _ (Ty.decEq s t) (Ty.decEqList ss ts))
  | [], _ :: _ | _ :: _, [] => .isFalse (by simp)

end

instance : DecidableEq Ty := Ty.decEq

/-! ### `get` -/

/-- `boost::get<T>(v)`: the current alternative if it has the type `T`; otherwise it throws
`bad_get`, which is `none`. -/
structure BoostGet (α : Type u) where
  get : Ty → Value α → Option (Value α)
  get_current : ∀ (T : Ty) (x : Value α), get T (.variant T x) = some x
  bad_get : ∀ {T cur : Ty} (x : Value α), cur ≠ T → get T (.variant cur x) = none

namespace Variant

/-- `detail::NthTypeOf<N, Ts...>`. -/
def nthTypeOf {n : ℕ} (N : Fin n) (Ts : Fin n → Ty) : Ty := Ts N

/-- `get<N>(v)` of a `variant<Ts...>&` or a `const variant<Ts...>&`. -/
def get (boost : BoostGet α) {n : ℕ} (N : Fin n) (Ts : Fin n → Ty) (v : Value α) :
    Option (Value α) :=
  boost.get (nthTypeOf N Ts) v

theorem get_eq_some (boost : BoostGet α) {n : ℕ} {N : Fin n} {Ts : Fin n → Ty} {cur : Ty}
    (x : Value α) (h : Ts N = cur) : get boost N Ts (.variant cur x) = some x := by
  subst h
  exact boost.get_current (Ts N) x

theorem get_eq_none (boost : BoostGet α) {n : ℕ} {N : Fin n} {Ts : Fin n → Ty} {cur : Ty}
    (x : Value α) (h : Ts N ≠ cur) : get boost N Ts (.variant cur x) = none :=
  boost.bad_get x (Ne.symm h)

end Variant

/-- The `Ts...` of the `out_type` of an any node. -/
def Node.alternatives {n : ℕ} (fs : Fin (n + 1) → Node α) : Fin (n + 1) → Ty :=
  fun i => (fs i).outType

theorem Node.outType_any {n : ℕ} (fs : Fin (n + 1) → Node α) :
    (Node.any fs).outType = .variant (List.ofFn (alternatives fs)) := rfl

/-- `get` on `v` is `z` for the children of an any node whose output has the type of the output
of child `i`, and throws for the others. -/
def Variant.AnswersFor (boost : BoostGet α) {n : ℕ} (fs : Fin (n + 1) → Node α)
    (i : Fin (n + 1)) (v z : Value α) : Prop :=
  get boost i (Node.alternatives fs) v = some z ∧
  ∀ j, ((fs j).outType = (fs i).outType → get boost j (Node.alternatives fs) v = some z) ∧
    ((fs j).outType ≠ (fs i).outType → get boost j (Node.alternatives fs) v = none)

/-- The variant that holds the result of child `i`. -/
theorem Variant.answersFor_variant (boost : BoostGet α) {n : ℕ} (fs : Fin (n + 1) → Node α)
    (i : Fin (n + 1)) (z : Value α) : AnswersFor boost fs i (.variant (fs i).outType z) z := by
  refine ⟨get_eq_some boost z rfl, fun j => ⟨fun h => ?_, fun h => ?_⟩⟩
  · exact get_eq_some boost z h
  · exact get_eq_none boost z h

/-- So `get` tells who was first exactly if no other child has an output of that type. -/
theorem Variant.AnswersFor.tells_iff {boost : BoostGet α} {n : ℕ} {fs : Fin (n + 1) → Node α}
    {i : Fin (n + 1)} {v z : Value α} (h : AnswersFor boost fs i v z) :
    (∀ j ≠ i, get boost j (Node.alternatives fs) v = none) ↔
      ∀ j ≠ i, (fs j).outType ≠ (fs i).outType := by
  constructor
  · intro hnone j hj heq
    have := hnone j hj
    rw [(h.2 j).1 heq] at this
    cases this
  · intro hne j hj
    exact (h.2 j).2 (hne j hj)

/-- In the evaluation of `G` on `x` with the winners `w`, the any node `fs` at `a` has the
input `y`. -/
def Node.AnyAt (G : Node α) (w : ℕ → ℕ) (x : Value α) {n : ℕ} (fs : Fin (n + 1) → Node α)
    (a : ℕ) (y : Value α) : Prop :=
  ∃ K, ⟨.any fs, a, K, y⟩ ∈ (Flow.winners w x).sites G

/-! ### The object that an any node passes on -/

/-- Who is about to read the variant of an any node holds the right to. -/
theorem Frame.read_mem_obs {fr : Frame α} {a : ℕ} (h : fr.source? = some (.alt a)) :
    Ob.read a ∈ fr.obs := by
  cases fr with
  | exec | allWrite | anyFetchSub | anyWrite | thenCall =>
      obtain rfl := Option.some.inj h
      simp [Frame.obs, Src.obs]
  | leafRun b r f y arg K =>
      cases r with
      | false => cases h
      | true =>
          obtain rfl := Option.some.inj h
          simp [Frame.obs, Src.obs]
  | _ => cases h

section Runs

variable {G : Node α} {s : State α} {m : Mem α} {x : Value α} {τ : List (ℕ × Event α)}

/-- It is the result of the evaluator. -/
theorem Inv.read_alt {w : ℕ → ℕ} (h : Inv (Flow.winners w x) G s) {st : List (Frame α)}
    (hst : st ∈ s.threads) {fr : Frame α} (hfr : fr ∈ st) {a : ℕ}
    (hsrc : fr.source? = some (.alt a)) {n : ℕ} {fs : Fin (n + 1) → Node α} {y : Value α}
    (hany : G.AnyAt w x fs a y) : (Src.alt a).read s.mem = (Node.any fs).eval w a y := by
  obtain ⟨K, hx⟩ := hany
  obtain ⟨-, hw⟩ := h.source_ready hst hfr hsrc
  exact (h.nodes hx).alt rfl hw
    (Multiset.mem_of_le (State.frame_obs_le hst hfr) (Frame.read_mem_obs hsrc))

/-- The result of an any node, when it is known who was first. -/
theorem Node.eval_any_of_first {n : ℕ} (fs : Fin (n + 1) → Node α) (a : ℕ) (y : Value α)
    {i : Fin (n + 1)} (hi : ((fetchSubs a τ).map Prod.fst).head? = some (i : ℕ)) :
    (Node.any fs).eval (winner τ) a y =
      .variant (fs i).outType ((fs i).eval (winner τ) (childAddr fs a i) y) := by
  have hwin : winner τ a = i := by
    rw [winner, List.headD_eq_head?_getD, hi]
    rfl
  have hi' : Fin.ofNat (n + 1) (winner τ a) = i := by
    rw [hwin]
    exact Fin.ofNat_val_eq_self i
  show Value.variant _ _ = Value.variant _ _
  rw [hi']

/-- **`get<N>` answers by type.**  Let child `i` of an any node be the first to finish.  On
the variant that the node passes on, wherever it is about to be read, `get<i>` is the
output of child `i`; so is `get<j>` for every child `j` whose output has the same type, and
`get<j>` throws for all others.  The same holds of the variant that `then` is called with,
when the graph is an any node. -/
theorem get_answers_by_type (boost : BoostGet α) (hm : m.Unengaged)
    (hr : Run Step (State.start G m x) τ s) :
    (∀ (n : ℕ) (fs : Fin (n + 1) → Node α) (a : ℕ) (y : Value α),
      G.AnyAt (winner τ) x fs a y → ∀ i : Fin (n + 1),
      ((fetchSubs a τ).map Prod.fst).head? = some (i : ℕ) →
      ∀ st ∈ s.threads, ∀ fr ∈ st, fr.source? = some (.alt a) →
        Variant.AnswersFor boost fs i ((Src.alt a).read s.mem)
          ((fs i).eval (winner τ) (Node.childAddr fs a i) y)) ∧
    (∀ (n : ℕ) (fs : Fin (n + 1) → Node α), G = .any fs → ∀ i : Fin (n + 1),
      ((fetchSubs 0 τ).map Prod.fst).head? = some (i : ℕ) → ∀ v ∈ thenCalls τ,
        Variant.AnswersFor boost fs i v
          ((fs i).eval (winner τ) (Node.childAddr fs 0 i) x)) := by
  have hwon := wonBy_winner hm hr
  constructor
  · intro n fs a y hany i hi st hst fr hfr hsrc
    have h := (@Inv.run _ (Flow.winners (winner τ) x) _ _ _ _ _ hm rfl hr hwon).1
    rw [h.read_alt hst hfr hsrc hany, Node.eval_any_of_first fs a y hi]
    exact Variant.answersFor_variant boost fs i _
  · rintro n fs rfl i hi v hv
    rw [(calls_of_wonBy hm hr hwon).2 v hv, Node.eval_any_of_first fs 0 x hi]
    exact Variant.answersFor_variant boost fs i _

end Runs

/-! ### Two children with outputs of one type -/

/-- `boost::get`, by comparison of the types. -/
def boostGet : BoostGet α where
  get := fun T v => match v with
    | .variant cur x => if cur = T then some x else none
    | _ => none
  get_current := fun _ _ => if_pos rfl
  bad_get := fun _ h => if_neg h

theorem get_answers_by_type_race :
    (∀ (n : ℕ) (fs : Fin (n + 1) → Node ℕ) (a : ℕ) (y : Value ℕ),
      race.AnyAt (winner raceRun.1) .nothing fs a y → ∀ i : Fin (n + 1),
      ((fetchSubs a raceRun.1).map Prod.fst).head? = some (i : ℕ) →
      ∀ st ∈ raceRun.2.threads, ∀ fr ∈ st, fr.source? = some (.alt a) →
        Variant.AnswersFor boostGet fs i ((Src.alt a).read raceRun.2.mem)
          ((fs i).eval (winner raceRun.1) (Node.childAddr fs a i) y)) ∧
    (∀ (n : ℕ) (fs : Fin (n + 1) → Node ℕ), race = .any fs → ∀ i : Fin (n + 1),
      ((fetchSubs 0 raceRun.1).map Prod.fst).head? = some (i : ℕ) → ∀ v ∈ thenCalls raceRun.1,
        Variant.AnswersFor boostGet fs i v
          ((fs i).eval (winner raceRun.1) (Node.childAddr fs 0 i) .nothing)) :=
  get_answers_by_type boostGet Mem.fresh_unengaged run_raceRun

/-- In the race the second leaf wins, and `get<0>` on the variant that `then` is called with
is its output all the same. -/
theorem race_get_first :
    ∃ τ s v, Run Step (State.start race Mem.fresh .nothing) τ s ∧ thenCalls τ = [v] ∧
      ((fetchSubs 0 τ).map Prod.fst).head? = some 1 ∧
      race.outType = .variant (List.ofFn fun _ : Fin 2 => .obj 0) ∧
      ∀ boost : BoostGet ℕ, Variant.get boost (0 : Fin 2) (fun _ => .obj 0) v ≠ none := by
  refine ⟨raceRun.1, raceRun.2, .variant (.obj 0) (.obj 2), run_raceRun, rfl, rfl, rfl, ?_⟩
  intro boost
  rw [Variant.get_eq_some boost (.obj 2) rfl]
  exact Option.some_ne_none _

end Orizzonte
