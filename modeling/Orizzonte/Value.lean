/-
Orizzonte/Value.lean

What the nodes of a graph pass to each other, and `call_ignoring_nothing`
(`utility/nothing.hpp`).

The library is a set of templates over arbitrary C++ types.  The embedding
replaces them by one universe: `Ty` names the types a graph is built from and
`Value α` their objects, where `α` holds the objects of all user types and stays
a parameter throughout.  `nothing`, `cache_aligned_tuple` and `boost::variant`
are the only types the library itself produces, so they have constructors of
their own.

A callable takes the list of its arguments; a `void` call returns `none`.
-/
import Mathlib.Data.List.Basic

namespace Orizzonte

variable {α : Type*}

/-- Names of the types that occur in a graph. -/
inductive Ty
  | nothing
  | obj (k : ℕ)
  | tuple (ts : List Ty)
  | variant (ts : List Ty)

/-- Objects.  A `variant` holds the type of its current alternative, as
`boost::variant` does, and not the position of that type in its list. -/
inductive Value (α : Type*)
  | nothing
  | obj (x : α)
  | tuple (xs : List (Value α))
  | variant (cur : Ty) (x : Value α)

/-- `is_nothing_v` on the type of an argument. -/
def Value.isNothing : Value α → Bool
  | .nothing => true
  | _ => false

/-- A function object: its arguments, and its result unless it returns `void`. -/
abbrev Callable (α : Type*) := List (Value α) → Option (Value α)

/-- `returning_nothing_instead_of_void(f, xs...)`. -/
def returningNothingInsteadOfVoid (f : Callable α) (xs : List (Value α)) : Value α :=
  match f xs with
  | none => .nothing
  | some r => r

/-- `call_ignoring_nothing(f, xs...)`: the arguments are peeled one by one, and
each of them wraps `f` in a closure that puts it back in front of the arguments
of the inner call, unless it is `nothing`. -/
def callIgnoringNothing : Callable α → List (Value α) → Value α
  | f, [] => returningNothingInsteadOfVoid f []
  | f, x :: xs =>
      callIgnoringNothing (fun ys => if x.isNothing then f ys else f (x :: ys)) xs

/-- The call of a leaf: `call_ignoring_nothing(*this, FWD(input))`. -/
def Callable.call (f : Callable α) (input : Value α) : Value α :=
  callIgnoringNothing f [input]

end Orizzonte
