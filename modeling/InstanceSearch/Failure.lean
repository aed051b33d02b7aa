/-
  All failures in one type.

  A caller that does everything in one place sees one of four areas: the search, the declarations, the
  inference at a call, the members.  A failure has a message and an identifier of its own for each area,
  and the cause inside.
-/
import InstanceSearch.Search.Error
import InstanceSearch.CallSite.Error
import InstanceSearch.Carrier.Error

namespace InstanceSearch

inductive Failure where
  | search (e : SearchError)
  | declaration (e : DeclError)
  | call (e : CallError)
  | member (e : MemberError)

namespace Failure

/-- What is told to the user. -/
def message : Failure → String
  | .search _ => "Witness resolution failed"
  | .declaration _ => "Invalid declaration"
  | .call _ => "Witness inference is not applicable"
  | .member _ => "Default implementation synthesis failed"

/-- The stable identifier of the area. -/
def code : Failure → String
  | .search _ => "witness::resolution_failed"
  | .declaration _ => "witness::registry_error"
  | .call _ => "witness::inference_error"
  | .member _ => "witness::synthesis_error"

end Failure

end InstanceSearch
