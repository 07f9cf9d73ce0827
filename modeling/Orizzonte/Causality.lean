/-
Orizzonte/Causality.lean

Happens-before on the events of a trace, and data races, over arbitrary events.

An event is ordered directly before a later one of the same thread, before those of a
thread that it creates, and before a later one on the same synchronisation object: a
read-modify-write that acquires and releases, or a section under a mutex, is ordered
after all earlier ones on its object.  Happens-before is the transitive closure, and
refers to positions in the trace, since an event may occur more than once.

`Seen` is what a thread knows between two of its events.  The lemmas say what an event
adds to it, so that a claim about happens-before is an invariant of the trace.
-/
import Mathlib.Data.List.Basic
import Mathlib.Logic.Relation

namespace Causality

open Relation

variable {L O V : Type*}

/-- What happens-before depends on. -/
structure Signature (L O : Type*) where
  thread : L → ℕ
  /-- the thread that an event creates -/
  creates : L → Option ℕ
  /-- the object that an event acquires and releases -/
  object : L → Option O

variable (g : Signature L O) (τ : List L)

/-- The event at `i` is directly before the one at `j`. -/
def Direct (i j : ℕ) : Prop :=
  i < j ∧ ∃ l l', τ[i]? = some l ∧ τ[j]? = some l' ∧
    (g.thread l = g.thread l' ∨ g.creates l = some (g.thread l') ∨
      ∃ o, g.object l = some o ∧ g.object l' = some o)

def HappensBefore : ℕ → ℕ → Prop := TransGen (Direct g τ)

/-- The event at `i` happens before whatever thread `t` does next. -/
def Seen (t i : ℕ) : Prop :=
  ∃ j l, ReflTransGen (Direct g τ) i j ∧ τ[j]? = some l ∧
    (g.thread l = t ∨ g.creates l = some t)

variable {g τ} {σ : List L} {i j t : ℕ} {l l' : L}

/-- Both events work on one object. -/
theorem exists_object_iff : (∃ o, g.object l = some o ∧ g.object l' = some o) ↔
    g.object l ≠ none ∧ g.object l = g.object l' := by
  constructor
  · rintro ⟨o, h, h'⟩
    rw [h, h']
    exact ⟨Option.some_ne_none o, rfl⟩
  · rintro ⟨hne, h⟩
    obtain ⟨o, ho⟩ := Option.ne_none_iff_exists'.mp hne
    exact ⟨o, ho, h ▸ ho⟩

instance [DecidableEq O] : DecidableRel (Direct g τ) := fun i j =>
  match hi : τ[i]?, hj : τ[j]? with
  | some l, some l' =>
      decidable_of_iff (i < j ∧ (g.thread l = g.thread l' ∨ g.creates l = some (g.thread l') ∨
        (g.object l ≠ none ∧ g.object l = g.object l')))
        (by simp [Direct, hi, hj, exists_object_iff])
  | none, _ => isFalse (by simp [Direct, hi])
  | some _, none => isFalse (by simp [Direct, hj])

theorem HappensBefore.lt (h : HappensBefore g τ i j) : i < j := by
  induction h with
  | single h => exact h.1
  | tail _ h ih => exact Nat.lt_trans ih h.1

/-- Whatever happens after a position is in every set that the direct order leads into. -/
theorem HappensBefore.of_closed {S : ℕ → Prop} (h : HappensBefore g τ i j)
    (hS : ∀ p q, S p → Direct g τ p q → S q) (hi : S i) : S j := by
  induction h with
  | single h => exact hS _ _ hi h
  | tail _ h ih => exact hS _ _ ih h

/-- More events may be synchronised. -/
theorem HappensBefore.map {L' O' : Type*} {g' : Signature L' O'} {f : L → L'} {φ : O → O'}
    (hthread : ∀ l, g'.thread (f l) = g.thread l)
    (hcreates : ∀ l t, g.creates l = some t → g'.creates (f l) = some t)
    (hobject : ∀ l o, g.object l = some o → g'.object (f l) = some (φ o))
    (h : HappensBefore g τ i j) : HappensBefore g' (τ.map f) i j := by
  have hdirect : ∀ {i j}, Direct g τ i j → Direct g' (τ.map f) i j := by
    rintro i j ⟨hlt, l, l', hi, hj, hl⟩
    refine ⟨hlt, f l, f l', by rw [List.getElem?_map, hi]; rfl, by rw [List.getElem?_map, hj]; rfl,
      ?_⟩
    rw [hthread, hthread]
    rcases hl with hl | hl | ⟨o, ho, ho'⟩
    · exact .inl hl
    · exact .inr (.inl (hcreates l _ hl))
    · exact .inr (.inr ⟨φ o, hobject l o ho, hobject l' o ho'⟩)
  induction h with
  | single h => exact .single (hdirect h)
  | tail _ h ih => exact ih.tail (hdirect h)

/-! ### Longer traces -/

theorem getElem?_append_of_eq_some (h : τ[i]? = some l) : (τ ++ σ)[i]? = some l := by
  rw [List.getElem?_append_left (List.getElem?_eq_some_iff.mp h).1, h]

theorem getElem?_snoc_cases (h : (τ ++ [l])[i]? = some l') :
    τ[i]? = some l' ∨ (i = τ.length ∧ l' = l) := by
  rcases Nat.lt_or_ge i τ.length with hlt | hge
  · exact .inl (List.getElem?_append_left hlt ▸ h)
  · have hlen := (List.getElem?_eq_some_iff.mp h).1
    rw [List.length_append, List.length_singleton] at hlen
    obtain rfl : i = τ.length := Nat.le_antisymm (Nat.le_of_lt_succ hlen) hge
    exact .inr ⟨rfl, (Option.some.inj (List.getElem?_concat_length.symm.trans h)).symm⟩

theorem Direct.append (h : Direct g τ i j) : Direct g (τ ++ σ) i j := by
  obtain ⟨hlt, l, l', hi, hj, hl⟩ := h
  exact ⟨hlt, l, l', getElem?_append_of_eq_some hi, getElem?_append_of_eq_some hj, hl⟩

theorem reflTransGen_append (h : ReflTransGen (Direct g τ) i j) :
    ReflTransGen (Direct g (τ ++ σ)) i j := by
  induction h with
  | refl => exact .refl
  | tail _ h ih => exact ih.tail h.append

theorem HappensBefore.append (h : HappensBefore g τ i j) : HappensBefore g (τ ++ σ) i j := by
  induction h with
  | single h => exact .single h.append
  | tail _ h ih => exact ih.tail h.append

theorem Seen.append (h : Seen g τ t i) : Seen g (τ ++ σ) t i := by
  obtain ⟨j, l, hij, hj, hl⟩ := h
  exact ⟨j, l, reflTransGen_append hij, getElem?_append_of_eq_some hj, hl⟩

/-! ### What an event adds -/

theorem Seen.trans (hij : ReflTransGen (Direct g τ) i j) (h : Seen g τ t j) : Seen g τ t i := by
  obtain ⟨k, l, hjk, hk, hl⟩ := h
  exact ⟨k, l, hij.trans hjk, hk, hl⟩

/-- What the thread of an event has seen happens before it. -/
theorem Seen.happensBefore (h : Seen g τ (g.thread l) i) :
    HappensBefore g (τ ++ [l]) i τ.length := by
  obtain ⟨j, k, hij, hj, hk⟩ := h
  apply TransGen.tail' (reflTransGen_append hij)
  refine ⟨(List.getElem?_eq_some_iff.mp hj).1, k, l, getElem?_append_of_eq_some hj,
    List.getElem?_concat_length, ?_⟩
  exact hk.imp_right .inl

/-- Earlier events on its object happen before it. -/
theorem happensBefore_of_object {o : O} (hi : τ[i]? = some l') (hl' : g.object l' = some o)
    (hl : g.object l = some o) : HappensBefore g (τ ++ [l]) i τ.length :=
  TransGen.single ⟨(List.getElem?_eq_some_iff.mp hi).1, l', l, getElem?_append_of_eq_some hi,
    List.getElem?_concat_length, .inr (.inr ⟨o, hl', hl⟩)⟩

theorem seen_last : Seen g (τ ++ [l]) (g.thread l) τ.length :=
  ⟨τ.length, l, .refl, List.getElem?_concat_length, .inl rfl⟩

theorem seen_last_of_creates (h : g.creates l = some t) : Seen g (τ ++ [l]) t τ.length :=
  ⟨τ.length, l, .refl, List.getElem?_concat_length, .inr h⟩

/-- What happens before an event is seen by its thread. -/
theorem HappensBefore.seen (h : HappensBefore g (τ ++ [l]) i τ.length) :
    Seen g (τ ++ [l]) (g.thread l) i :=
  seen_last.trans h.to_reflTransGen

/-- A thread that is created has seen what its creator has. -/
theorem Seen.created (h : Seen g (τ ++ [l]) (g.thread l) i) (hl : g.creates l = some t) :
    Seen g (τ ++ [l]) t i := by
  obtain ⟨j, k, hij, hj, hk⟩ := h
  apply (seen_last_of_creates hl).trans
  rcases getElem?_snoc_cases hj with hj | ⟨rfl, rfl⟩
  · refine hij.tail ⟨(List.getElem?_eq_some_iff.mp hj).1, k, l, getElem?_append_of_eq_some hj,
      List.getElem?_concat_length, ?_⟩
    exact hk.imp_right .inl
  · exact hij

/-! ### Data races -/

/-- An access to a location. -/
structure Access (V : Type*) where
  loc : V
  write : Bool
  atomic : Bool
  deriving DecidableEq

/-- Two accesses that would race if they were not ordered. -/
def Access.Conflicts (x y : Access V) : Prop :=
  x.loc = y.loc ∧ (x.write = true ∨ y.write = true) ∧ ¬ (x.atomic = true ∧ y.atomic = true)

/-- Of two events with conflicting accesses, the earlier one happens before the other. -/
def RaceFree (g : Signature L O) (accesses : L → List (Access V)) (τ : List L) : Prop :=
  ∀ i j l l', i < j → τ[i]? = some l → τ[j]? = some l' →
    ∀ x ∈ accesses l, ∀ y ∈ accesses l', x.Conflicts y → HappensBefore g τ i j

end Causality
