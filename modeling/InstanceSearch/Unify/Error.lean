/-
  Why two types or two capabilities do not unify.

  Every cause carries the types as they stood when the walk met them, that is with the bindings made so
  far applied.  `expected` is the required side, `found` the provided one.
-/
import InstanceSearch.Subst

namespace InstanceSearch

/-- The causes of a failed unification. -/
inductive UnifyError where
  /-- two formers that differ, or tuples or functions of different lengths -/
  | mismatch (expected found : Ty)
  /-- one constructor or concept with two numbers of arguments -/
  | arity (name : String) (expected found : Nat)
  /-- two different concepts -/
  | conceptMismatch (expected found : Capability)
  /-- a variable that would have to contain itself -/
  | occurs (var containing : Ty)
  /-- a frozen variable that would have to stand for something else -/
  | capture (var attempted : Ty)
  /-- a variable that is bound to another type already -/
  | conflict (c : Subst.Conflict)

namespace UnifyError

/-- What is told to the user. -/
def message : UnifyError → String
  | .mismatch expected found => "Type mismatch: expected " ++ expected.text ++ ", found " ++ found.text
  | .arity name expected found =>
    "Arity mismatch: " ++ name ++ " expects " ++ toString expected ++ " type arguments, found "
      ++ toString found
  | .conceptMismatch expected found =>
    "Concept mismatch: expected " ++ expected.text ++ ", found " ++ found.text
  | .occurs var containing =>
    "Occurs check violation: variable " ++ var.text ++ " occurs in " ++ containing.text
  | .capture var attempted =>
    "Variable " ++ var.text ++ " is bound by an enclosing scope and cannot be substituted with "
      ++ attempted.text
  | .conflict c =>
    "Variable " ++ varText c.var none ++ " is already substituted with " ++ c.existing.text
      ++ ", cannot also substitute " ++ c.attempted.text

/-- The stable identifier of the cause. -/
def code : UnifyError → String
  | .mismatch .. => "witness::unification::type_mismatch"
  | .arity .. => "witness::unification::arity_mismatch"
  | .conceptMismatch .. => "witness::unification::concept_mismatch"
  | .occurs .. => "witness::unification::occurs_check"
  | .capture .. => "witness::unification::capture_violation"
  | .conflict .. => "witness::unification::conflicting_substitution"

/-- Advice to the user, where there is some. -/
def help? : UnifyError → Option String
  | .mismatch expected found =>
    some ("The types " ++ expected.text ++ " and " ++ found.text ++ " cannot be unified")
  | .arity .. => some "Ensure all generic type arguments are provided correctly"
  | .conceptMismatch .. => some "Different concepts never unify"
  | .occurs .. => some "This would create an infinite type"
  | .capture .. =>
    some "An instance cannot satisfy a constraint by rebinding a type parameter the caller already fixed"
  | .conflict .. => none

end UnifyError

end InstanceSearch
