/-
  The witnesses of a call.

  A call fixes some of the type parameters of a signature.  Of the others, ordinary ones are an error;
  witness parameters are resolved in the order of the signature, against the candidates of one site.
  What a resolved parameter taught is known to the ones after it; a parameter that fails teaches nothing.
-/
import InstanceSearch.Search.Resolve
import InstanceSearch.CallSite.Error

namespace InstanceSearch

/-- A parameter, and what came of it. -/
structure Outcome where
  param : Param
  result : Except SearchError Resolution

/-- What came of the parameters of a call, and everything that was fixed or learned. -/
structure Report where
  outcomes : List Outcome
  subst : Subst

namespace Report

def allResolved (r : Report) : Bool := r.outcomes.all fun o => o.result.isOk

/-- The parameters that failed, with the reasons. -/
def failures (r : Report) : List (Param × SearchError) :=
  r.outcomes.filterMap fun o =>
    match o.result with
    | .ok _ => none
    | .error e => some (o.param, e)

/-- `bindingsFrom m outcomes` = `m` with the witness of every parameter, or the first failure. -/
def bindingsFrom : OrderedMap VarId Witness → List Outcome →
    Except SearchError (OrderedMap VarId Witness)
  | m, [] => .ok m
  | m, o :: os =>
    match o.result with
    | .ok r => bindingsFrom (m.insert o.param.id r.witness) os
    | .error e => .error e

/-- The witness of every parameter by its variable, or the first failure. -/
def bindings (r : Report) : Except SearchError (OrderedMap VarId Witness) :=
  bindingsFrom .empty r.outcomes

end Report

namespace Search

/-- Resolves parameters in order; each success adds to what is known to the next. -/
def resolveAll (q : Search) : List Param → Subst → List Outcome × Subst
  | [], known => ([], known)
  | p :: ps, known =>
    let result := q.resolveWith p known
    let known := match result with
      | .ok r => r.subst
      | .error _ => known
    let (outcomes, known) := q.resolveAll ps known
    (⟨p, result⟩ :: outcomes, known)

end Search

namespace Catalog

/-- The parameters of a signature for which a call gives no argument. -/
def unfixed (signature : List Param) (fixed : Subst) : List Param :=
  signature.filter fun p => !fixed.contains p.id

/-- The witnesses of a call at a scope, given the arguments that are fixed. -/
def infer (cat : Catalog) (config : Config) (signature : List Param) (fixed : Subst)
    (scope : ScopeId) : Except CallError Report :=
  match (unfixed signature fixed).find? fun p => !p.isWitness with
  | some p => .error (.unfixed p.name)
  | none =>
    match cat.searchAt config scope with
    | .error e => .error (.declaration e)
    | .ok q =>
      let (outcomes, known) := q.resolveAll (unfixed signature fixed) fixed
      .ok ⟨outcomes, known⟩

end Catalog

end InstanceSearch
