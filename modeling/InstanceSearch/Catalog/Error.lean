/-
  Why a declaration is refused, or something that was never declared is asked for.
-/
namespace InstanceSearch

/-- The causes of a refused declaration or a failed look-up in a catalog. -/
inductive DeclError where
  | undefinedConcept (name : String)
  | duplicateConcept (name : String)
  /-- a concept at the wrong number of arguments -/
  | conceptArity (name : String) (expected found : Nat)
  | cyclicInheritance (name : String)
  | undefinedScope (scope : Nat)
  | undefinedInstance (id : Nat)
  | instanceInMethod (name : String)
deriving DecidableEq

namespace DeclError

/-- What is told to the user. -/
def message : DeclError → String
  | .undefinedConcept name => "Undefined concept: " ++ name
  | .duplicateConcept name => "Concept " ++ name ++ " is already declared"
  | .conceptArity name expected found =>
    "Concept " ++ name ++ " expects " ++ toString expected ++ " type arguments, found "
      ++ toString found
  | .cyclicInheritance name => "Concept " ++ name ++ " inherits from itself"
  | .undefinedScope scope => "Undefined scope #" ++ toString scope
  | .undefinedInstance id => "Undefined instance #" ++ toString id
  | .instanceInMethod name => "Instance " ++ name ++ " cannot be declared inside a method"

/-- The stable identifier of the cause. -/
def code : DeclError → String
  | .undefinedConcept .. => "witness::registry::undefined_concept"
  | .duplicateConcept .. => "witness::registry::duplicate_concept"
  | .conceptArity .. => "witness::registry::concept_arity"
  | .cyclicInheritance .. => "witness::registry::cyclic_inheritance"
  | .undefinedScope .. => "witness::registry::undefined_scope"
  | .undefinedInstance .. => "witness::registry::undefined_instance"
  | .instanceInMethod .. => "witness::registry::instance_in_method"

/-- Advice to the user, where there is some. -/
def help? : DeclError → Option String
  | .undefinedConcept .. => some "Declare the concept before referring to it"
  | .cyclicInheritance .. => some "Concept inheritance must form a hierarchy"
  | .instanceInMethod .. => some "Declare instances in a namespace or a type"
  | _ => none

end DeclError

end InstanceSearch
