/-
Orizzonte/Nothing.lean

`call_ignoring_nothing` and what is built on it (`utility/nothing.hpp`), for callables
whose calls have effects.

The leaves of a graph are pure, and `callIgnoringNothing` of `Orizzonte/Value.lean` is
all they need.  How often a callable is invoked cannot be told from its results, so
here a call is a computation of an arbitrary monad `m`: it may read and write a state,
throw, or not return.  With `m` the identity this is the pure definition
(`callIgnoringNothing_eq_run`).

The recursion peels one argument at a time and wraps the callable in a closure.
`callIgnoringNothing_eq` says what the nest of closures amounts to, by induction over
the arguments for all callables; everything else follows from that equation.
-/
import Orizzonte.Value
import Mathlib.Control.Basic

namespace Orizzonte

universe u v

variable {α : Type u}

/-- The arguments that are passed on. -/
def withoutNothing (xs : List (Value α)) : List (Value α) := xs.filter fun x => !x.isNothing

namespace Effect

/-- A function object: its arguments, and its result unless it returns `void`. -/
abbrev Callable (m : Type u → Type v) (α : Type u) := List (Value α) → m (Option (Value α))

variable {m : Type u → Type v} [Monad m]

/-- `returning_nothing_instead_of_void(f, xs...)`. -/
def returningNothingInsteadOfVoid (f : Callable m α) (xs : List (Value α)) : m (Value α) := do
  match ← f xs with
  | none => pure .nothing
  | some r => pure r

/-- `call_ignoring_nothing(f, xs...)`. -/
def callIgnoringNothing : Callable m α → List (Value α) → m (Value α)
  | f, [] => returningNothingInsteadOfVoid f []
  | f, x :: xs =>
      callIgnoringNothing (fun ys => if x.isNothing then f ys else f (x :: ys)) xs

/-- `std::apply(g, t)`: the arguments are the elements of the tuple, in order. -/
def stdApply {β : Type*} {n : ℕ} (g : List (Value α) → β) (t : Fin n → Value α) : β :=
  g (List.ofFn t)

/-- `apply_ignoring_nothing(f, t)`. -/
def applyIgnoringNothing {n : ℕ} (f : Callable m α) (t : Fin n → Value α) : m (Value α) :=
  stdApply (fun xs => callIgnoringNothing f xs) t

/-- The qualifiers of `operator()`. -/
inductive RefQual
  | lvalue
  | rvalue
  | constLvalue

/-- `ignore_nothing<F>`: an object of type `F`, which may be called in each of the three
ways. -/
structure IgnoreNothing (m : Type u → Type v) (α : Type u) where
  base : RefQual → Callable m α

/-- `operator()(xs...)` of the wrapper, called as `q` says: `*this` is cast to `F` with
the same qualifier. -/
def IgnoreNothing.call (w : IgnoreNothing m α) (q : RefQual) (xs : List (Value α)) :
    m (Value α) :=
  callIgnoringNothing (w.base q) xs

/-- `f`, with a record of the arguments of its calls. -/
def recorded (f : Callable m α) : Callable (StateT (List (List (Value α))) m) α := fun xs => do
  modify fun calls => calls ++ [xs]
  f xs

/-! ### What the nest of closures does -/

/-- The closures put the arguments back in their order, and `nothing` is left out: the
innermost call is one call of `f`, and the conversion from `void` is applied to it. -/
theorem callIgnoringNothing_eq (f : Callable m α) (xs : List (Value α)) :
    callIgnoringNothing f xs = returningNothingInsteadOfVoid f (withoutNothing xs) := by
  induction xs generalizing f with
  | nil => rfl
  | cons x xs ih =>
      rw [callIgnoringNothing, ih]
      cases hx : x.isNothing <;>
        simp [withoutNothing, returningNothingInsteadOfVoid, hx]

@[simp] theorem withoutNothing_append (xs ys : List (Value α)) :
    withoutNothing (xs ++ ys) = withoutNothing xs ++ withoutNothing ys :=
  List.filter_append ..

@[simp] theorem withoutNothing_withoutNothing (xs : List (Value α)) :
    withoutNothing (withoutNothing xs) = withoutNothing xs :=
  List.filter_filter.trans (by simp [withoutNothing])

/-- A prefix that is bound first: the closure puts its arguments in front of those of the
call. -/
theorem callIgnoringNothing_bind (f : Callable m α) (xs ys : List (Value α)) :
    callIgnoringNothing (fun zs => f (withoutNothing xs ++ zs)) ys =
      callIgnoringNothing f (xs ++ ys) := by
  rw [callIgnoringNothing_eq, callIgnoringNothing_eq, withoutNothing_append]
  rfl

section Lawful

variable [LawfulMonad m]

theorem returningNothingInsteadOfVoid_eq (f : Callable m α) (xs : List (Value α)) :
    returningNothingInsteadOfVoid f xs = (fun r => r.getD .nothing) <$> f xs := by
  rw [returningNothingInsteadOfVoid, map_eq_pure_bind]
  apply bind_congr
  intro r
  cases r <;> rfl

/-- A prefix that is bound by `call_ignoring_nothing` itself. -/
theorem callIgnoringNothing_nest (f : Callable m α) (xs ys : List (Value α)) :
    callIgnoringNothing (fun zs => some <$> callIgnoringNothing f (xs ++ zs)) ys =
      callIgnoringNothing f (xs ++ ys) := by
  rw [callIgnoringNothing_eq, returningNothingInsteadOfVoid_eq, callIgnoringNothing_eq,
    callIgnoringNothing_eq, Functor.map_map]
  simp

/-- **`f` is called once, with the arguments that are not `nothing`**, in their order, and its
result is returned, or `nothing` if it returns `void`.  In terms of a record of the calls:
exactly one is added.  So only those arguments matter; it makes no difference whether a
prefix is bound first, by a plain closure or by `call_ignoring_nothing`; and
`apply_ignoring_nothing` on the tuple and the wrapper made by `ignore_nothing` do the
same. -/
theorem call_ignoring_nothing_once (f : Callable m α) (xs : List (Value α)) :
    callIgnoringNothing f xs = (fun r => r.getD .nothing) <$> f (withoutNothing xs) ∧
    (∀ calls, (callIgnoringNothing (recorded f) xs).run calls =
      (fun r => (r.getD .nothing, calls ++ [withoutNothing xs])) <$> f (withoutNothing xs)) ∧
    (∀ xs', withoutNothing xs' = withoutNothing xs →
      callIgnoringNothing f xs' = callIgnoringNothing f xs) ∧
    (∀ ys zs, xs = ys ++ zs →
      callIgnoringNothing (fun ws => f (withoutNothing ys ++ ws)) zs = callIgnoringNothing f xs ∧
      callIgnoringNothing (fun ws => some <$> callIgnoringNothing f (ys ++ ws)) zs =
        callIgnoringNothing f xs) ∧
    (∀ (n : ℕ) (t : Fin n → Value α), List.ofFn t = xs →
      applyIgnoringNothing f t = callIgnoringNothing f xs) ∧
    (∀ (w : IgnoreNothing m α) (q : RefQual), w.base q = f →
      w.call q xs = callIgnoringNothing f xs) := by
  refine ⟨?_, fun calls => ?_, fun xs' h => ?_, ?_, ?_, ?_⟩
  · rw [callIgnoringNothing_eq, returningNothingInsteadOfVoid_eq]
  · rw [callIgnoringNothing_eq, returningNothingInsteadOfVoid_eq]
    simp [recorded]
  · rw [callIgnoringNothing_eq, callIgnoringNothing_eq, h]
  · rintro ys zs rfl
    exact ⟨callIgnoringNothing_bind f ys zs, callIgnoringNothing_nest f ys zs⟩
  · rintro n t rfl
    rfl
  · rintro w q rfl
    rfl

end Lawful

/-- A `void` callable that counts its calls. -/
def tick : Callable (StateM ℕ) ℕ := fun _ => do
  modify (· + 1)
  pure none

/-- Arguments with `nothing` among them. -/
def tickArgs : List (Value ℕ) := [.nothing, .obj 1, .nothing, .obj 2]

theorem call_ignoring_nothing_once_tick :
    callIgnoringNothing tick tickArgs =
      (fun r => r.getD .nothing) <$> tick (withoutNothing tickArgs) ∧
    (∀ calls, (callIgnoringNothing (recorded tick) tickArgs).run calls =
      (fun r => (r.getD .nothing, calls ++ [withoutNothing tickArgs])) <$>
        tick (withoutNothing tickArgs)) ∧
    (∀ xs', withoutNothing xs' = withoutNothing tickArgs →
      callIgnoringNothing tick xs' = callIgnoringNothing tick tickArgs) ∧
    (∀ ys zs, tickArgs = ys ++ zs →
      callIgnoringNothing (fun ws => tick (withoutNothing ys ++ ws)) zs =
        callIgnoringNothing tick tickArgs ∧
      callIgnoringNothing (fun ws => some <$> callIgnoringNothing tick (ys ++ ws)) zs =
        callIgnoringNothing tick tickArgs) ∧
    (∀ (n : ℕ) (t : Fin n → Value ℕ), List.ofFn t = tickArgs →
      applyIgnoringNothing tick t = callIgnoringNothing tick tickArgs) ∧
    (∀ (w : IgnoreNothing (StateM ℕ) ℕ) (q : RefQual), w.base q = tick →
      w.call q tickArgs = callIgnoringNothing tick tickArgs) :=
  call_ignoring_nothing_once tick tickArgs

end Effect

/-! ### Callables without effects -/

/-- The pure definition is the one of the identity monad. -/
theorem callIgnoringNothing_eq_run (f : Callable α) (xs : List (Value α)) :
    callIgnoringNothing f xs =
      Id.run (Effect.callIgnoringNothing (m := Id) (fun ys => pure (f ys)) xs) := by
  induction xs generalizing f with
  | nil =>
      show returningNothingInsteadOfVoid f [] =
        Id.run (Effect.returningNothingInsteadOfVoid (m := Id) (fun ys => pure (f ys)) [])
      unfold returningNothingInsteadOfVoid Effect.returningNothingInsteadOfVoid
      cases hf : f [] <;> simp [hf]
  | cons x xs ih =>
      rw [callIgnoringNothing, Effect.callIgnoringNothing, ih]
      congr 2

/-- The call of a leaf: a `nothing` input is not passed on. -/
theorem Callable.call_eq (f : Callable α) (x : Value α) :
    f.call x = (f (withoutNothing [x])).getD .nothing := by
  rw [call, callIgnoringNothing_eq_run, Effect.callIgnoringNothing_eq,
    Effect.returningNothingInsteadOfVoid_eq]
  rfl

end Orizzonte
