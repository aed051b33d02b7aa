/-
  Which capabilities come with which.

  THE WALK
    A capability brings the parents of its concept, with the concept's parameters replaced by the
    capability's arguments, then their parents, and so on.  `ancestors` lists them depth first, each at
    its first place; a capability that was met before is not entered again.  Parents are declared before
    their children, so the walk for a concept needs only the part of the table below it, and the
    recursion is on the table.

  WHAT IT IS FOR
    * `implies a b`       whoever provides `a` provides `b`;
    * `expand provides`   everything that an instance provides;
    * `minimize required` what is left to ask for when everything implied is dropped.
-/
import InstanceSearch.Subst
import InstanceSearch.Catalog.Basic

namespace InstanceSearch

/-- `d.parentsAt args` = the parents of the concept, its parameters replaced by the arguments. -/
def Concept.parentsAt (d : Concept) (args : List Ty) : List Capability :=
  let choice : Subst := OrderedMap.ofList ((d.params.map Param.id).zip args)
  d.parents.map choice.applyTo

namespace Catalog

/-- `ancestorsInto table c found` = `found`, followed by the ancestors of `c` that are new. -/
def ancestorsInto : List Concept → Capability → List Capability → List Capability
  | [], _, found => found
  | d :: older, c, found =>
    if d.name = c.concept then
      (d.parentsAt c.args).foldl
        (fun found p => if found.contains p then found else ancestorsInto older p (found ++ [p])) found
    else ancestorsInto older c found

/-- Every capability that comes with `c`, `c` itself apart. -/
def ancestors (cat : Catalog) (c : Capability) : List Capability := ancestorsInto cat.concepts c []

/-- `cat.implies stronger weaker`: two declared concepts, a path from the one to the other, and among
    the ancestors of the stronger capability the weaker one. -/
def implies (cat : Catalog) (stronger weaker : Capability) : Bool :=
  cat.hierarchy.nodes.contains stronger.concept
    && cat.hierarchy.nodes.contains weaker.concept
    && stronger.concept != weaker.concept
    && cat.hierarchy.reaches stronger.concept weaker.concept
    && (cat.ancestors stronger).contains weaker

/-- The capabilities of a list with their ancestors, each at its first place. -/
def expand (cat : Catalog) (provides : List Capability) : List Capability :=
  FirstSeen.ofList (provides.flatMap fun c => c :: cat.ancestors c)

/-- The first occurrences in a list that no other member of the list implies. -/
def minimize (cat : Catalog) (required : List Capability) : List Capability :=
  let distinct := FirstSeen.ofList required
  distinct.filter fun c => !distinct.any fun d => d != c && cat.implies d c

end Catalog

end InstanceSearch
