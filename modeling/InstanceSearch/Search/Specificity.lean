/-
  Which of several survivors wins.

  A survivor is AT LEAST AS SPECIFIC as another if, requirement by requirement, the capability that it
  covered the requirement with is an instance of the one that the other used.  It wins if it is at least
  as specific as every other survivor and none of them is at least as specific as it; and if, against
  each of them, one of the two was marked as overlappable.
-/
import InstanceSearch.Search.Basic
import InstanceSearch.Unify.Matching

namespace InstanceSearch.Search

/-- A candidate whose dependencies are solved. -/
structure Survivor where
  candidate : Candidate
  subst : Subst
  /-- for each required capability the offered one that covers it -/
  patterns : List Capability
  witness : Witness

/-- `a` applies to no more goals than `b`, going by their patterns. -/
def atLeastAsSpecific (frozen : VarSet) (a b : Survivor) : Bool :=
  (a.patterns.zip b.patterns).all fun p => p.1.instanceOf p.2 frozen

/-- `a` is more specific than `b`. -/
def moreSpecific (frozen : VarSet) (a b : Survivor) : Bool :=
  atLeastAsSpecific frozen a b && !atLeastAsSpecific frozen b a

/-- `holdsAgainstOthers r survivors i a`: `r a b` for every survivor `b` but the one at place `i`. -/
def holdsAgainstOthers (r : Survivor → Survivor → Bool) (survivors : List Survivor) (i : Nat)
    (a : Survivor) : Bool :=
  survivors.zipIdx.all fun e => e.2 == i || r a e.1

/-- `mostSpecific frozen survivors` = the survivor that is more specific than all others, if there is
    one and overlap allows it to win. -/
def mostSpecific (frozen : VarSet) (survivors : List Survivor) : Option Survivor := do
  let (winner, i) ← survivors.zipIdx.find? fun e =>
    holdsAgainstOthers (moreSpecific frozen) survivors e.2 e.1
  let mayOverlap := fun a b : Survivor => b.candidate.isOverlappable || a.candidate.isOverlappable
  if holdsAgainstOthers mayOverlap survivors i winner then some winner else none

end InstanceSearch.Search
