/-
  Why a witness parameter could not be resolved.

  Every cause names the parameter that was asked for (`label`).  A cycle shows the attempts that led
  from a goal back to it: each entry says which instance was being tried for which goal, and the last
  one which parameter asked for the first goal again.
-/
import InstanceSearch.Capability

namespace InstanceSearch

/-- Something that is being tried for a goal. -/
structure Attempt where
  name : String
  goal : String
deriving DecidableEq

def Attempt.text (a : Attempt) : String := a.name ++ " for " ++ a.goal

/-- The causes of a failed resolution. -/
inductive SearchError where
  /-- no candidate is left; `rejected` are those that matched but whose dependencies failed -/
  | noInstance (label : String) (required : List Capability) (rejected : List String)
  /-- several candidates are left and none of them wins -/
  | ambiguous (label : String) (required : List Capability) (candidates : List String)
  | cyclic (label : String) (path : List Attempt)
  | depthLimit (label : String) (limit : Nat)

/-- The coarse kind of a failure. -/
inductive FailureTag where
  | noInstance
  | ambiguousInstance
  | cyclicDependency
deriving DecidableEq

namespace SearchError

/-- A search that is too deep counts as one without end. -/
def tag : SearchError → FailureTag
  | .noInstance .. => .noInstance
  | .ambiguous .. => .ambiguousInstance
  | .cyclic .. | .depthLimit .. => .cyclicDependency

/-- The parameter that was asked for. -/
def label : SearchError → String
  | .noInstance label _ _ => label
  | .ambiguous label _ _ => label
  | .cyclic label _ => label
  | .depthLimit label _ => label

/-- What is told to the user. -/
def message : SearchError → String
  | .noInstance label required _ =>
    "No instance found for " ++ label ++ ": " ++ Capability.listText required
  | .ambiguous label required candidates =>
    "Ambiguous instance for " ++ label ++ ": " ++ commas candidates ++ " all satisfy "
      ++ Capability.listText required
  | .cyclic label path =>
    "Cyclic instance dependency while resolving " ++ label ++ ": "
      ++ " -> ".intercalate (path.map Attempt.text)
  | .depthLimit label limit =>
    "Instance resolution for " ++ label ++ " exceeded the depth limit of " ++ toString limit

/-- The stable identifier of the cause. -/
def code : SearchError → String
  | .noInstance .. => "witness::resolution::no_instance"
  | .ambiguous .. => "witness::resolution::ambiguous_instance"
  | .cyclic .. => "witness::resolution::cyclic_dependency"
  | .depthLimit .. => "witness::resolution::recursion_limit"

/-- Advice to the user. -/
def help? : SearchError → Option String
  | .noInstance .. => some "Declare or import an instance providing the required concepts"
  | .ambiguous .. => some "Remove one of the instances, make one strictly more specific, or mark the general one as overlappable"
  | .cyclic .. => some "Instances in this chain require each other without a base case"
  | .depthLimit .. => some "An instance dependency keeps producing larger constraints; this usually means there is no base case"

end SearchError

end InstanceSearch
