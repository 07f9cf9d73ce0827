/-
Orizzonte/Tally.lean

Sums in a commutative monoid, over a list in which one place changes.

A quantity that is spread over the parts of a state (the stacks of its threads,
the cells of its memory) is a sum over a list.  A step touches one part, so the
two sums differ by that part alone.  The lemmas say this without subtraction: what
the old part contributed, added to the new sum, is what the new part contributes,
added to the old one.
-/
import Mathlib.Algebra.BigOperators.Fin
import Mathlib.Data.Multiset.UnionInter
import Mathlib.Tactic.Abel

namespace Tally

variable {ι β M : Type*} [AddCommMonoid M]

/-- One entry of a list is replaced. -/
theorem sum_map_set (f : β → M) {l : List β} {i : ℕ} {x : β} (h : l[i]? = some x) (y : β) :
    ((l.set i y).map f).sum + f x = (l.map f).sum + f y := by
  induction l generalizing i with
  | nil => simp at h
  | cons z l ih =>
      cases i with
      | zero =>
          obtain rfl : z = x := by simpa using h
          simp only [List.set_cons_zero, List.map_cons, List.sum_cons]
          abel
      | succ i =>
          have := ih (i := i) (by simpa using h)
          simp only [List.set_cons_succ, List.map_cons, List.sum_cons, add_assoc, this]

/-- Two functions that differ at one entry of a list without duplicates. -/
theorem sum_map_of_eq_off {f f' : β → M} {l : List β} (hl : l.Nodup) {x : β} (hx : x ∈ l)
    (h : ∀ y ∈ l, y ≠ x → f' y = f y) : (l.map f').sum + f x = (l.map f).sum + f' x := by
  obtain ⟨l₁, l₂, rfl⟩ := List.append_of_mem hx
  have hx₁ : x ∉ l₁ := fun hmem =>
    (List.nodup_append.mp hl).2.2 x hmem x (List.mem_cons_self ..) rfl
  have hx₂ : x ∉ l₂ := (List.nodup_cons.mp (List.nodup_append.mp hl).2.1).1
  have h₁ : l₁.map f' = l₁.map f := List.map_congr_left fun y hy =>
    h y (List.mem_append_left _ hy) fun e => hx₁ (e ▸ hy)
  have h₂ : l₂.map f' = l₂.map f := List.map_congr_left fun y hy =>
    h y (List.mem_append_right _ (List.mem_cons_of_mem _ hy)) fun e => hx₂ (e ▸ hy)
  simp only [List.map_append, List.map_cons, List.sum_append, List.sum_cons, h₁, h₂]
  abel

/-- A list of lists, summed list by list. -/
theorem sum_map_flatMap {γ : Type*} (f : β → M) (g : γ → List β) (l : List γ) :
    ((l.flatMap g).map f).sum = (l.map fun x => ((g x).map f).sum).sum := by
  induction l with
  | nil => rfl
  | cons x l ih => simp [ih]

theorem coe_flatMap {γ : Type*} (g : γ → List β) (l : List γ) :
    ((l.flatMap g : List β) : Multiset β) = (l.map fun x => (g x : Multiset β)).sum := by
  induction l with
  | nil => rfl
  | cons x l ih =>
      rw [List.flatMap_cons, ← Multiset.coe_add, ih, List.map_cons, List.sum_cons]

theorem sum_finRange {n : ℕ} (f : Fin n → M) : ((List.finRange n).map f).sum = ∑ i, f i := by
  rw [← List.sum_ofFn, List.ofFn_eq_map]

/-! ### The weight of a sum of multisets -/

theorem weight_sum (w : β → M) (s : Finset ι) (F : ι → Multiset β) :
    ((∑ i ∈ s, F i).map w).sum = ∑ i ∈ s, ((F i).map w).sum :=
  map_sum (Multiset.sumAddMonoidHom.comp (Multiset.mapAddMonoidHom w)) F s

theorem sum_map_sum {γ : Type*} (w : β → M) (F : γ → Multiset β) (l : List γ) :
    ((l.map F).sum.map w).sum = (l.map fun x => ((F x).map w).sum).sum := by
  induction l with
  | nil => rfl
  | cons x l ih => simp [ih]

theorem mem_sum_map {γ : Type*} {f : γ → Multiset β} {l : List γ} {x : β} :
    x ∈ (l.map f).sum ↔ ∃ y ∈ l, x ∈ f y := by
  induction l with
  | nil => simp
  | cons y l ih => simp [ih]

/-- What a sum has once is in one of its parts. -/
theorem index_unique_of_nodup {γ : Type*} {f : γ → Multiset β} {l : List γ}
    (h : (l.map f).sum.Nodup) {i j : ℕ} {x y : γ} (hi : l[i]? = some x) (hj : l[j]? = some y)
    {b : β} (hx : b ∈ f x) (hy : b ∈ f y) : i = j := by
  induction l generalizing i j with
  | nil => cases hi
  | cons z l ih =>
      obtain ⟨-, hl, hd⟩ := Multiset.nodup_add.mp h
      have hrest : ∀ {k : ℕ} {w}, l[k]? = some w → b ∈ f w → b ∉ f z := fun hk hw hz =>
        Multiset.disjoint_left.mp hd hz (mem_sum_map.mpr ⟨_, List.mem_of_getElem? hk, hw⟩)
      rcases i with - | i <;> rcases j with - | j
      · rfl
      · obtain rfl := Option.some.inj hi
        exact absurd hx (hrest hj hy)
      · obtain rfl := Option.some.inj hj
        exact absurd hy (hrest hi hx)
      · rw [ih hl hi hj]

/-- A list is determined by what it contains, when a projection that tells its entries
apart has the same values on both. -/
theorem perm_of_subset_of_map {γ : Type*} {f : β → γ} {l l' : List β}
    (hperm : (l.map f).Perm (l'.map f)) (hnd : (l.map f).Nodup) (hsub : ∀ y ∈ l, y ∈ l') :
    l.Perm l' := by
  apply List.Subperm.perm_of_length_le
  · exact List.subperm_of_subset (List.Nodup.of_map f hnd) hsub
  · rw [← List.length_map f, ← hperm.length_eq, List.length_map]

/-- Summands without duplicates that share no element add up to a multiset without
duplicates. -/
theorem nodup_finsetSum {s : Finset ι} {f : ι → Multiset β} (h : ∀ i ∈ s, (f i).Nodup)
    (hd : ∀ i ∈ s, ∀ j ∈ s, i ≠ j → Disjoint (f i) (f j)) : (∑ i ∈ s, f i).Nodup := by
  classical
  induction s using Finset.induction with
  | empty => simp
  | insert i s hi ih =>
      rw [Finset.sum_insert hi, Multiset.nodup_add]
      refine ⟨h i (Finset.mem_insert_self i s), ih ?_ ?_, ?_⟩
      · exact fun j hj => h j (Finset.mem_insert_of_mem hj)
      · exact fun j hj j' hj' =>
          hd j (Finset.mem_insert_of_mem hj) j' (Finset.mem_insert_of_mem hj')
      · apply Multiset.disjoint_finsetSum_right.mpr
        intro j hj
        exact hd i (Finset.mem_insert_self i s) j (Finset.mem_insert_of_mem hj)
          fun e => hi (e ▸ hj)

theorem filterMap_concat {β γ : Type*} (f : β → Option γ) (l : List β) (b : β) :
    (l ++ [b]).filterMap f = l.filterMap f ++ (f b).toList := by
  rw [List.filterMap_append]
  cases hb : f b <;> simp [hb]

end Tally
