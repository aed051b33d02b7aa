/-
  Why a member of a witness cannot be found, or a default body cannot be bound.
-/
import InstanceSearch.Catalog.Error

namespace InstanceSearch

/-- The causes of a failed binding or look-up of a member. -/
inductive MemberError where
  | bindingFailed (method reason : String)
  /-- neither the instance nor a default has the member -/
  | missingMember (member inst : String)
  /-- the instance does not provide the concept -/
  | conceptNotProvided (concept inst : String)
  /-- something was asked for that was never declared -/
  | declaration (e : DeclError)
deriving DecidableEq

namespace MemberError

/-- What is told to the user. -/
def message : MemberError → String
  | .bindingFailed method reason => "Cannot bind default body of " ++ method ++ ": " ++ reason
  | .missingMember member inst =>
    "Member " ++ member ++ " is neither implemented by " ++ inst ++ " nor defaulted by its concepts"
  | .conceptNotProvided concept inst => "Instance " ++ inst ++ " does not provide concept " ++ concept
  | .declaration e => e.message

/-- The stable identifier of the cause. -/
def code : MemberError → String
  | .bindingFailed .. => "witness::synthesis::binding_failed"
  | .missingMember .. => "witness::synthesis::missing_member"
  | .conceptNotProvided .. => "witness::synthesis::concept_not_provided"
  | .declaration e => e.code

/-- Advice to the user, where there is some. -/
def help? : MemberError → Option String
  | .missingMember member _ =>
    some ("Implement " ++ member ++ " in the instance or give it a default body in the concept")
  | .declaration e => e.help?
  | _ => none

end MemberError

end InstanceSearch
