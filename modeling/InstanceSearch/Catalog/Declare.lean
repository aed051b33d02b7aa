/-
  Declaring.

  Each declaration first checks everything that it refers to, in a fixed order, so that of two faults
  the same one is always reported; then it reserves its variables and enters the table.  A refused
  declaration gives no catalog, and the old one stands.

  RESERVING.  Callers may write variables of their own choice.  `reserve` lifts the watermark above all
  of them, so that variables handed out later are new.  The types of a concept's methods are not among
  what is reserved.
-/
import InstanceSearch.FirstSeen
import InstanceSearch.Watermark
import InstanceSearch.Catalog.Basic

namespace InstanceSearch

/-- A concept as it is written. -/
structure ConceptDecl where
  name : String
  params : List Param
  parents : List Capability
  fragments : List Fragment

namespace Catalog

/-! ## Variables -/

/-- A new variable. -/
def freshVar (cat : Catalog) : VarId × Catalog := (cat.nextVar, { cat with nextVar := cat.nextVar + 1 })

/-! ## Checks -/

/-- A capability must name a declared concept and have as many arguments as the concept parameters. -/
def checkCapability (cat : Catalog) (c : Capability) : Except DeclError Unit := do
  let d ← cat.getConcept c.concept
  if d.params.length = c.args.length then .ok ()
  else .error (.conceptArity d.name d.params.length c.args.length)

/-- The first fault among a list of capabilities. -/
def checkAll (cat : Catalog) : List Capability → Except DeclError Unit
  | [] => .ok ()
  | c :: cs => do
    cat.checkCapability c
    cat.checkAll cs

/-- The parents of a new concept: none may be the concept itself, and each must be a capability. -/
def checkParents (cat : Catalog) (name : String) : List Capability → Except DeclError Unit
  | [] => .ok ()
  | p :: ps =>
    if p.concept = name then .error (.cyclicInheritance name)
    else do
      cat.checkCapability p
      cat.checkParents name ps

/-! ## Scopes -/

/-- A new scope inside `parent`. -/
def declareScope (cat : Catalog) (parent : ScopeId) (kind : ScopeKind) (name : String)
    (params : List Param) : Except DeclError (ScopeId × Catalog) := do
  let _ ← cat.getScope parent
  cat.checkAll (params.flatMap Param.constraints)
  return (cat.scopes.length,
    { cat with
      scopes := cat.scopes ++ [⟨kind, name, some parent, params, [], []⟩]
      nextVar := reserve cat.nextVar (params.flatMap Param.vars) })

/-- The instances of `imported` can be seen from `scope`; importing twice is importing once. -/
def addImport (cat : Catalog) (scope imported : ScopeId) : Except DeclError Catalog := do
  let _ ← cat.getScope imported
  let _ ← cat.getScope scope
  return { cat with
    scopes := cat.scopes.modify scope fun s => { s with imports := FirstSeen.add s.imports imported } }

/-! ## Concepts -/

/-- A new concept, with the variable of its default carrier. -/
def declareConcept (cat : Catalog) (decl : ConceptDecl) : Except DeclError Catalog := do
  if (cat.concept? decl.name).isSome then throw (.duplicateConcept decl.name)
  cat.checkParents decl.name decl.parents
  let hierarchy := cat.hierarchy.add decl.name (decl.parents.map Capability.concept)
  if hierarchy.isCyclic then throw (.cyclicInheritance decl.name)
  let carrierVar := reserve cat.nextVar
    (decl.params.flatMap Param.vars ++ decl.parents.flatMap Capability.vars)
  return { cat with
    concepts := ⟨decl.name, decl.params, decl.parents, decl.fragments, carrierVar⟩ :: cat.concepts
    hierarchy
    nextVar := carrierVar + 1 }

/-! ## Instances -/

/-- A new instance in `scope`, which may not be the body of a method. -/
def declareInstance (cat : Catalog) (scope : ScopeId) (decl : InstanceDecl) :
    Except DeclError (InstanceId × Catalog) := do
  let place ← cat.getScope scope
  if place.kind = .methodBody then throw (.instanceInMethod decl.name)
  if let some container := decl.memberOf then
    let _ ← cat.getInstance container
  cat.checkAll (decl.provides ++ decl.params.flatMap Param.constraints)
  let id := cat.instances.length
  return (id,
    { cat with
      instances := cat.instances ++ [⟨decl, id, scope⟩]
      scopes := cat.scopes.modify scope fun s => { s with instances := s.instances ++ [id] }
      nextVar := reserve cat.nextVar
        (decl.params.flatMap Param.vars ++ decl.provides.flatMap Capability.vars) })

end Catalog

end InstanceSearch
