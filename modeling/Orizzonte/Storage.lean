/-
Orizzonte/Storage.lean

`utility::aligned_storage_for<T>` (`utility/aligned_storage.hpp`): raw bytes for
one `T` and the flag `_engaged`.  Its four assertions are checked by the
operations themselves: `construct` wants the storage unengaged, `access` and
`destroy` want it engaged.  Only `DNDEBUG` removes the flag; an `NDEBUG` build
keeps it and does not check it.
-/
import Mathlib.Data.List.Basic

namespace Orizzonte

variable {T : Type*}

/-- The assertions of `aligned_storage_for`. -/
inductive Assertion
  | unengaged
  | engaged
  deriving DecidableEq

/-- `aligned_storage_for<T>`.  `bytes` is a `T` only while the flag is set. -/
structure AlignedStorageFor (T : Type*) where
  bytes : T
  engaged : Bool

namespace AlignedStorageFor

/-- `construct(xs...)`, for the object `x` that the arguments build. -/
def construct (s : AlignedStorageFor T) (x : T) : Except Assertion (AlignedStorageFor T) :=
  if s.engaged then .error .unengaged else .ok ⟨x, true⟩

/-- `access()`, and `operator*` and `operator->` with it. -/
def access (s : AlignedStorageFor T) : Except Assertion T :=
  if s.engaged then .ok s.bytes else .error .engaged

/-- `destroy()`. -/
def destroy (s : AlignedStorageFor T) : Except Assertion (AlignedStorageFor T) :=
  if s.engaged then .ok ⟨s.bytes, false⟩ else .error .engaged

theorem construct_eq_ok {s s' : AlignedStorageFor T} {x : T} :
    s.construct x = .ok s' ↔ s.engaged = false ∧ s' = ⟨x, true⟩ := by
  unfold construct
  cases s.engaged <;> simp [eq_comm]

theorem access_eq_ok {s : AlignedStorageFor T} {x : T} :
    s.access = .ok x ↔ s.engaged = true ∧ x = s.bytes := by
  unfold access
  cases s.engaged <;> simp [eq_comm]

theorem destroy_eq_ok {s s' : AlignedStorageFor T} :
    s.destroy = .ok s' ↔ s.engaged = true ∧ s' = ⟨s.bytes, false⟩ := by
  unfold destroy
  cases s.engaged <;> simp [eq_comm]

end AlignedStorageFor

end Orizzonte
