/-
  A search and what it carries along.

  A SEARCH is one query's view of the world: the catalog, the settings, the candidates that can be seen
  and the frozen variables.  None of it changes while the search runs.

  Its STATE does: the counter that new variables are drawn from, and the stack of attempts in flight,
  innermost first.  The counter only rises, also through branches that fail; the stack grows by one
  entry around the dependencies of an instance and is then as before.
-/
import InstanceSearch.Candidate
import InstanceSearch.Subst
import InstanceSearch.VarSet
import InstanceSearch.Witness
import InstanceSearch.Search.Config
import InstanceSearch.Search.Error

namespace InstanceSearch

structure Search where
  catalog : Catalog
  config : Config
  candidates : CandidateSet
  frozen : VarSet

namespace Search

structure State where
  /-- the next new variable -/
  next : VarId
  /-- what is being tried for which goal, innermost first -/
  stack : List Attempt

/-- What one goal asks for: capabilities under the bindings made so far. -/
structure Request where
  /-- the parameter that asks -/
  label : String
  constraints : List Capability
  context : Subst

/-- A solved goal: the witness, and the bindings that it led to. -/
structure Solved where
  witness : Witness
  subst : Subst

/-- The outcome of one part of a search, and the state that it leaves. -/
abbrev Answer (α : Type) := Except SearchError α × State

/-! ## Goals as texts -/

/-- `place frozen order v` = the variable that stands for `v` in the text of a goal: a frozen variable
    for itself, any other for its place in `order`. -/
def place (frozen : VarSet) (order : List VarId) (v : VarId) (_ : Option String) : Ty :=
  if v ∈ frozen then .var v none
  else .var (order.idxOf v) (some ("_" ++ toString (order.idxOf v)))

/-- `goalText frozen required` = the text of the required capabilities in which variables that are not
    frozen are numbered by their first appearance.  Two requests for the same thing have the same
    text, whatever the numbers and names of their variables. -/
def goalText (frozen : VarSet) (required : List Capability) : String :=
  let order := FirstSeen.ofList (required.flatMap Capability.vars)
  Capability.listText (required.map (Capability.map (Ty.replaceVars (place frozen order))))

/-- `reentry stack goal` = the attempts from the one for `goal` inwards, outermost first, if `goal` is
    in flight. -/
def reentry (stack : List Attempt) (goal : String) : Option (List Attempt) :=
  match stack.reverse.dropWhile fun a => a.goal != goal with
  | [] => none
  | path => some path

end Search

end InstanceSearch
