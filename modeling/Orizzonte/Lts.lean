/-
Orizzonte/Lts.lean

Finite runs of a labelled transition system, over arbitrary states and labels.

A run carries the list of its labels.  The rules below are how the development
reasons about runs: an invariant that may mention the labels so far, a measure, a
simulation that keeps a projection of the labels, the run that a schedule describes,
and the existence of a run that ends where no step is left.
-/
import Mathlib.Data.List.Basic

namespace Lts

variable {S T L M : Type*}

/-- `Run step s τ s'`: the steps labelled `τ`, in order, lead from `s` to `s'`. -/
inductive Run (step : S → L → S → Prop) (s : S) : List L → S → Prop
  | refl : Run step s [] s
  | tail {τ s' l s''} : Run step s τ s' → step s' l s'' → Run step s (τ ++ [l]) s''

/-- No step leaves `s`. -/
def Stuck (step : S → L → S → Prop) (s : S) : Prop := ∀ l s', ¬ step s l s'

/-- The steps of `step` whose label satisfies `P`. -/
def Only (P : L → Prop) (step : S → L → S → Prop) : S → L → S → Prop :=
  fun s l s' => step s l s' ∧ P l

variable {step : S → L → S → Prop} {s s' s'' : S} {τ σ : List L} {l : L}

namespace Run

theorem single (h : step s l s') : Run step s [l] s' := tail refl h

theorem trans (h : Run step s τ s') (h' : Run step s' σ s'') : Run step s (τ ++ σ) s'' := by
  induction h' with
  | refl => simpa using h
  | tail _ hl ih => simpa [List.append_assoc] using tail ih hl

theorem head (h : step s l s') (h' : Run step s' σ s'') : Run step s (l :: σ) s'' :=
  (single h).trans h'

/-! ### Invariants -/

/-- An invariant of the state and the labels so far. -/
theorem invariant {I : List L → S → Prop} (h : Run step s τ s') (h₀ : I [] s)
    (hstep : ∀ σ u l u', Run step s σ u → I σ u → step u l u' → I (σ ++ [l]) u') : I τ s' := by
  induction h with
  | refl => exact h₀
  | tail hr hl ih => exact hstep _ _ _ _ hr ih hl

/-- A run of restricted steps is a run whose labels are all allowed. -/
theorem only_iff {P : L → Prop} :
    Run (Only P step) s τ s' ↔ Run step s τ s' ∧ ∀ l ∈ τ, P l := by
  constructor
  · intro h
    induction h with
    | refl => exact ⟨refl, by simp⟩
    | tail _ hl ih =>
        refine ⟨ih.1.tail hl.1, fun l hmem => ?_⟩
        rcases List.mem_append.mp hmem with hmem | hmem
        · exact ih.2 l hmem
        · rw [List.mem_singleton.mp hmem]
          exact hl.2
  · rintro ⟨h, hP⟩
    induction h with
    | refl => exact refl
    | tail _ hl ih =>
        exact (ih fun l hmem => hP l (List.mem_append_left _ hmem)).tail
          ⟨hl, hP _ (List.mem_append_right _ (List.mem_singleton_self _))⟩

/-- A run can be cut anywhere. -/
theorem split (h : Run step s (τ ++ σ) s') : ∃ u, Run step s τ u ∧ Run step u σ s' := by
  generalize hρ : τ ++ σ = ρ at h
  induction h generalizing σ with
  | refl =>
      obtain ⟨rfl, rfl⟩ := List.append_eq_nil_iff.mp hρ
      exact ⟨s, refl, refl⟩
  | @tail ρ u l u' hr hl ih =>
      rcases List.eq_nil_or_concat σ with rfl | ⟨σ', l', rfl⟩
      · rw [List.append_nil] at hρ
        subst hρ
        exact ⟨u', tail hr hl, refl⟩
      · rw [List.concat_eq_append, ← List.append_assoc] at hρ
        obtain ⟨rfl, hl'⟩ := List.append_inj' hρ rfl
        cases hl'
        obtain ⟨v, hv, hv'⟩ := ih rfl
        exact ⟨v, hv, by rw [List.concat_eq_append]; exact hv'.tail hl⟩

theorem nil_iff : Run step s [] s' ↔ s' = s := by
  constructor
  · intro h
    generalize hρ : ([] : List L) = ρ at h
    cases h with
    | refl => rfl
    | tail => simp at hρ
  · rintro rfl
    exact refl

theorem single_iff : Run step s [l] s' ↔ step s l s' := by
  refine ⟨fun h => ?_, single⟩
  generalize hρ : [l] = ρ at h
  cases h with
  | refl => simp at hρ
  | @tail τ u l' u' hr hl =>
      obtain ⟨rfl, rfl⟩ : τ = [] ∧ l' = l := by
        rcases τ with - | ⟨x, τ⟩
        · simpa [eq_comm] using hρ
        · simp at hρ
      obtain rfl := nil_iff.mp hr
      exact hl

/-- Every label of a run comes from a step between two states on it. -/
theorem exists_step (h : Run step s τ s') (hp : σ ++ [l] <+: τ) :
    ∃ u u', Run step s σ u ∧ step u l u' := by
  obtain ⟨ρ, rfl⟩ := hp
  obtain ⟨u', hu', -⟩ := h.split
  obtain ⟨u, hu, hl⟩ := hu'.split
  exact ⟨u, u', hu, single_iff.mp hl⟩

/-- A run that leaves `P` does so at one of its steps. -/
theorem exists_leaving {P : S → Prop} (h : Run step s τ s') (h₀ : P s) (h₁ : ¬ P s') :
    ∃ σ u l u', Run step s σ u ∧ P u ∧ step u l u' ∧ ¬ P u' ∧ σ ++ [l] <+: τ := by
  induction h with
  | refl => exact absurd h₀ h₁
  | @tail τ u l u' hr hstep ih =>
      by_cases hu : P u
      · exact ⟨τ, u, l, u', hr, hu, hstep, h₁, List.prefix_rfl⟩
      · obtain ⟨σ, v, l', v', hv, hPv, hst, hPv', hpre⟩ := ih hu
        exact ⟨σ, v, l', v', hv, hPv, hst, hPv', hpre.trans (List.prefix_append _ _)⟩

/-! ### Simulation -/

/-- Each step is answered by a run that shows the same under `obs`. -/
theorem simulate {step' : T → M → T → Prop} {O : Type*} {obs : List L → List O}
    {obs' : List M → List O} {R : S → T → Prop} {t : T}
    (happ : ∀ τ σ, obs (τ ++ σ) = obs τ ++ obs σ)
    (happ' : ∀ τ σ, obs' (τ ++ σ) = obs' τ ++ obs' σ)
    (hsim : ∀ u l u' v, step u l u' → R u v →
      ∃ ρ v', Run step' v ρ v' ∧ obs' ρ = obs [l] ∧ R u' v')
    (h : Run step s τ s') (hR : R s t) :
    ∃ ρ t', Run step' t ρ t' ∧ obs' ρ = obs τ ∧ R s' t' := by
  induction h with
  | refl =>
      have e : obs [] = [] := by simpa using happ [] []
      have e' : obs' [] = [] := by simpa using happ' [] []
      exact ⟨[], t, refl, by rw [e, e'], hR⟩
  | tail _ hl ih =>
      obtain ⟨ρ, v, hρ, hobs, hv⟩ := ih
      obtain ⟨ρ', v', hρ', hobs', hv'⟩ := hsim _ _ _ _ hl hv
      exact ⟨ρ ++ ρ', v', hρ.trans hρ', by rw [happ, happ', hobs, hobs'], hv'⟩

end Run

/-! ### Schedules -/

/-- Run a schedule of the step function `next`: each entry says which step comes next. -/
def drive {C : Type*} (next : S → C → Option (L × S)) (s : S) : List C → Option (List L × S)
  | [] => some ([], s)
  | c :: sched =>
      match next s c with
      | some (l, u) => (drive next u sched).map fun r => (l :: r.1, r.2)
      | none => none

theorem run_of_drive {C : Type*} {next : S → C → Option (L × S)}
    (hnext : ∀ u c l u', next u c = some (l, u') → step u l u') {sched : List C}
    (h : drive next s sched = some (τ, s')) : Run step s τ s' := by
  induction sched generalizing s τ with
  | nil =>
      cases h
      exact .refl
  | cons c sched ih =>
      simp only [drive] at h
      split at h
      · rename_i l u hl
        obtain ⟨⟨σ, u'⟩, hr, heq⟩ := Option.map_eq_some_iff.mp h
        cases heq
        exact .head (hnext s c l u hl) (ih hr)
      · cases h

/-- With such a measure, every state has a run to a state where no step is left. -/
theorem exists_run_to_stuck {μ : S → ℕ} {I : S → Prop}
    (hI : ∀ u l u', I u → step u l u' → I u') (hμ : ∀ u l u', I u → step u l u' → μ u' < μ u)
    (h₀ : I s) : ∃ τ s', Run step s τ s' ∧ Stuck step s' := by
  induction hn : μ s using Nat.strongRecOn generalizing s with
  | ind n ih =>
      by_cases hstuck : Stuck step s
      · exact ⟨[], s, .refl, hstuck⟩
      · simp only [Stuck, not_forall, not_not] at hstuck
        obtain ⟨l, u, hl⟩ := hstuck
        obtain ⟨τ, u', hr, hu'⟩ := ih (μ u) (hn ▸ hμ s l u h₀ hl) (hI s l u h₀ hl) rfl
        exact ⟨l :: τ, u', Run.head hl hr, hu'⟩

end Lts
