/-
Orizzonte/Toposort.lean

Topological sorts.  A list of the members of a finite set respects a relation when no
member stands before one that the relation puts before it.  A relation without cycles
has such a list (`Toposort.exists_of_acyclic`), and what all these lists agree on is
its transitive closure (`transGen_iff_forall_toposort`).
-/
import Mathlib.Order.Extension.Linear
import Mathlib.Data.Finset.Sort
import Mathlib.Data.Set.Finite.Basic
import Mathlib.Logic.Relation

open Relation

variable {β : Type*} {r : β → β → Prop} {S : Set β} {L : List β} {x y z : β}

/-- `L` lists the members of `S` once each, and none before one that comes before it. -/
structure Toposort (r : β → β → Prop) (S : Set β) (L : List β) : Prop where
  nodup : L.Nodup
  mem_iff : ∀ x, x ∈ L ↔ x ∈ S
  order : L.Pairwise fun x y => ¬ r y x

namespace Toposort

theorem exists_of_acyclic (hS : S.Finite) (hr : ∀ x, ¬ TransGen r x x) :
    ∃ L, Toposort r S L := by
  classical
  have hanti : IsPartialOrder β (ReflTransGen r) :=
    { refl := fun _ => .refl
      trans := fun _ _ _ => .trans
      antisymm := by
        intro x y hxy hyx
        rcases reflTransGen_iff_eq_or_transGen.mp hxy with rfl | hxy
        · rfl
        · exact absurd (hxy.trans_left hyx) (hr x) }
  obtain ⟨s, hs, hle⟩ := extend_partialOrder (ReflTransGen r)
  refine ⟨hS.toFinset.sort s, ?_, ?_, ?_⟩
  · exact hS.toFinset.sort_nodup s
  · intro x
    simp
  · have hsort := hS.toFinset.pairwise_sort s
    refine (hsort.and (hS.toFinset.sort_nodup s)).imp ?_
    rintro x y ⟨hxy, hne⟩ hyx
    exact hne (antisymm hxy (hle y x (.single hyx)))

/-- The sorts of the larger relation are sorts of the smaller one. -/
theorem mono {r' : β → β → Prop} (h : Toposort r S L) (hr : ∀ x y, r' x y → r x y) :
    Toposort r' S L :=
  ⟨h.nodup, h.mem_iff, h.order.imp fun hxy hyx => hxy (hr _ _ hyx)⟩

variable [DecidableEq β]

/-- In a topological sort, what comes before a member stands before it. -/
theorem idxOf_lt (h : Toposort r S L) (hx : x ∈ S) (hy : y ∈ S) (hne : x ≠ y) (hxy : r x y) :
    L.idxOf x < L.idxOf y := by
  have hx' := List.idxOf_lt_length_iff.mpr ((h.mem_iff x).mpr hx)
  have hy' := List.idxOf_lt_length_iff.mpr ((h.mem_iff y).mpr hy)
  by_contra hle
  rcases eq_or_lt_of_le (not_lt.mp hle) with heq | hlt
  · exact hne (((List.idxOf_inj ((h.mem_iff y).mpr hy)).mp heq).symm)
  · have := List.pairwise_iff_getElem.mp h.order _ _ hy' hx' hlt
    rw [List.getElem_idxOf, List.getElem_idxOf] at this
    exact this hxy

theorem idxOf_lt_of_transGen (h : Toposort r S L) (hS : ∀ x y, r x y → x ∈ S ∧ y ∈ S)
    (hr : ∀ x, ¬ TransGen r x x) (hxy : TransGen r x y) : L.idxOf x < L.idxOf y := by
  have step : ∀ {x y}, r x y → L.idxOf x < L.idxOf y := by
    intro x y hxy
    apply h.idxOf_lt (hS x y hxy).1 (hS x y hxy).2 _ hxy
    rintro rfl
    exact hr x (.single hxy)
  induction hxy with
  | single hxy => exact step hxy
  | tail _ hyz ih => exact ih.trans (step hyz)

end Toposort

/-- What one more pair adds to the transitive closure. -/
theorem transGen_or_pair {a b : β} (h : TransGen (fun x' y' => r x' y' ∨ x' = z ∧ y' = y) a b) :
    TransGen r a b ∨ ReflTransGen r a z ∧ ReflTransGen r y b := by
  induction h with
  | single h =>
      rcases h with h | ⟨rfl, rfl⟩
      · exact .inl (.single h)
      · exact .inr ⟨.refl, .refl⟩
  | tail _ h ih =>
      rcases h with h | ⟨rfl, rfl⟩
      · rcases ih with ih | ⟨haz, hyb⟩
        · exact .inl (ih.tail h)
        · exact .inr ⟨haz, hyb.tail h⟩
      · rcases ih with ih | ⟨haz, -⟩
        · exact .inr ⟨ih.to_reflTransGen, .refl⟩
        · exact .inr ⟨haz, .refl⟩

/-- **What every topological sort of a relation agrees on is its transitive closure.** -/
theorem transGen_iff_forall_toposort [DecidableEq β] (hfin : S.Finite)
    (hS : ∀ x y, r x y → x ∈ S ∧ y ∈ S) (hr : ∀ x, ¬ TransGen r x x) (hy : y ∈ S) (hz : z ∈ S) :
    TransGen r y z ↔ ∀ L, Toposort r S L → L.idxOf y < L.idxOf z := by
  refine ⟨fun h L hL => hL.idxOf_lt_of_transGen hS hr h, fun h => ?_⟩
  by_contra hyz
  by_cases hne : y = z
  · obtain ⟨L, hL⟩ := Toposort.exists_of_acyclic hfin hr
    exact absurd (h L hL) (hne ▸ lt_irrefl _)
  · -- otherwise `z` may as well come before `y`
    have hacyc : ∀ x, ¬ TransGen (fun x' y' => r x' y' ∨ x' = z ∧ y' = y) x x := by
      intro x hx
      rcases transGen_or_pair hx with hx | ⟨hxz, hyx⟩
      · exact hr x hx
      · rcases reflTransGen_iff_eq_or_transGen.mp (hyx.trans hxz) with heq | hlt
        · exact hne heq.symm
        · exact hyz hlt
    obtain ⟨L, hL⟩ := Toposort.exists_of_acyclic hfin hacyc
    have hzy := hL.idxOf_lt hz hy (Ne.symm hne) (.inr ⟨rfl, rfl⟩)
    exact absurd (h L (hL.mono fun _ _ => .inl)) (not_lt.mpr hzy.le)
