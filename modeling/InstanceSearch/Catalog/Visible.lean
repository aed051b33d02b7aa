/-
  What can be seen from a scope.

  From the inside out, each scope on the chain contributes
    (1) the witness parameters that it binds, if it is the body of a generic;
    (2) the instances declared in it;
    (3) the instances declared in each scope that it imports (imports of imports do not count).
  Of the instances, members of other instances are left out, and so are those that are not accessible.

  The same chain gives the FROZEN variables: all parameters that the generic scopes bind.
-/
import InstanceSearch.VarSet
import InstanceSearch.Candidate

namespace InstanceSearch

/-- Which instances may be used from a site, given by its scope chain. -/
abbrev Accessibility := Instance → List ScopeId → Bool

/-- The usual rule: an instance is accessible everywhere, a private one within its own scope. -/
def Accessibility.byVisibility : Accessibility :=
  fun i site => !i.isPrivate || site.contains i.scope

namespace Catalog

/-- The parameters that a scope binds: those of a generic scope. -/
def boundParams (s : Scope) : List Param := if s.kind.isGeneric then s.params else []

/-- The accessible instances declared directly in a scope. -/
def accessibleIn (cat : Catalog) (accessible : Accessibility) (site : List ScopeId) (id : ScopeId) :
    Except DeclError (List Candidate) := do
  let place ← cat.getScope id
  let insts ← place.instances.mapM cat.getInstance
  return (insts.filter fun i => i.memberOf.isNone && accessible i site).map .declared

/-- The candidates that one scope of the chain contributes. -/
def seenAt (cat : Catalog) (accessible : Accessibility) (site : List ScopeId) (id : ScopeId) :
    Except DeclError (List Candidate) := do
  let place ← cat.getScope id
  let ambient := ((boundParams place).filter Param.isWitness).map Candidate.ambient
  let declared ← (id :: place.imports).mapM (cat.accessibleIn accessible site)
  return ambient ++ declared.flatten

/-- The candidates that can be seen from a scope. -/
def visible (cat : Catalog) (accessible : Accessibility) (id : ScopeId) :
    Except DeclError CandidateSet := do
  let chain ← cat.scopeChain id
  let seen ← chain.mapM (cat.seenAt accessible chain)
  return CandidateSet.ofList seen.flatten

/-- The variables that belong to the generic scopes around a site. -/
def frozenAt (cat : Catalog) (id : ScopeId) : Except DeclError VarSet := do
  let chain ← cat.scopeChain id
  let places ← chain.mapM cat.getScope
  return VarSet.ofList ((places.flatMap boundParams).map Param.id)

end Catalog

end InstanceSearch
