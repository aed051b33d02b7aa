/-
  Resolving a witness parameter.

  `resolveWith` runs a search for one parameter under a context: bindings that are known already.  The
  search draws its variables from above everything that the catalog and the query mention.  What it
  learns is the context with a binding added for each variable of the query that it determined; the
  variables that the search invented are left behind, unless a binding mentions them.

  `Catalog.resolve` is the same for a site: the candidates and the frozen variables are those of a scope.
-/
import InstanceSearch.Catalog.Visible
import InstanceSearch.Failure
import InstanceSearch.Search.Solve
import InstanceSearch.Watermark

namespace InstanceSearch

/-- A witness, and the context with what was learned from finding it. -/
structure Resolution where
  witness : Witness
  subst : Subst

namespace Search

/-- The first variable that neither the catalog nor the query uses. -/
def seed (q : Search) (p : Param) (context : Subst) : VarId :=
  reserve q.catalog.nextVar (p.vars ++ context.vars ++ q.frozen.ids)

/-- The variables of a parameter's constraints under a context, each at its first place. -/
def queryVars (p : Param) (context : Subst) : List VarId :=
  FirstSeen.ofList ((p.constraints.map context.applyTo).flatMap Capability.vars)

/-- `q.learn found vs context` = `context` with what `found` determines for the variables `vs`. -/
def learn (q : Search) (found : Subst) (vs : List VarId) (context : Subst) : Subst :=
  vs.foldl (fun s v =>
    if v ∈ q.frozen || found.isUnresolved v then s else s.insert v (found.apply (.var v none))) context

/-- The witness for a parameter under a context. -/
def resolveWith (q : Search) (p : Param) (context : Subst) : Except SearchError Resolution :=
  match (q.solve (q.config.maxDepth + 1) ⟨p.name, p.constraints, context⟩ ⟨q.seed p context, []⟩).1 with
  | .error e => .error e
  | .ok solved => .ok ⟨solved.witness, q.learn solved.subst (queryVars p context) context⟩

end Search

namespace Catalog

/-- The search from a scope: what can be seen there, and what is frozen there. -/
def searchAt (cat : Catalog) (config : Config) (scope : ScopeId) : Except DeclError Search := do
  let candidates ← cat.visible .byVisibility scope
  let frozen ← cat.frozenAt scope
  return ⟨cat, config, candidates, frozen⟩

/-- The witness for a parameter as seen from a scope. -/
def resolve (cat : Catalog) (config : Config) (p : Param) (scope : ScopeId) (context : Subst) :
    Except Failure Resolution :=
  match cat.searchAt config scope with
  | .error e => .error (.declaration e)
  | .ok q =>
    match q.resolveWith p context with
    | .error e => .error (.search e)
    | .ok r => .ok r

end Catalog

end InstanceSearch
