/-
  Declaring in place.

  `Catalog.declareConcept` and the other declarations take a catalog and give a new one.  Here the same
  declarations are programs that work on one catalog: they check and write in turn, and an error stops a
  program where it stands.  What was written before the error is not undone by itself.

  WHERE THAT MATTERS
    A concept enters the graph before the graph is searched for cycles, and has to leave it again where
    there is one.  All other declarations write after the last check.

  A SESSION is a sequence of declarations on the empty catalog, some of which may fail.
-/
import InstanceSearch.Catalog.Declare

namespace InstanceSearch

/-! ## Programs on one catalog -/

/-- A program on one catalog: its result or the error that stopped it, and what the catalog is then. -/
def Update (α : Type) : Type := Catalog → Except DeclError α × Catalog

namespace Update

instance : Monad Update where
  pure a := fun cat => (.ok a, cat)
  bind x f := fun cat =>
    match x cat with
    | (.ok a, cat) => f a cat
    | (.error e, cat) => (.error e, cat)

variable {α : Type}

/-- Asks something of the catalog, which may be an error. -/
def ask (question : Catalog → Except DeclError α) : Update α := fun cat => (question cat, cat)

/-- Reads something off the catalog. -/
def read (f : Catalog → α) : Update α := fun cat => (.ok (f cat), cat)

def write (f : Catalog → Catalog) : Update Unit := fun cat => (.ok (), f cat)

def stop (e : DeclError) : Update α := fun cat => (.error e, cat)

section Steps

variable {β : Type} (cat : Catalog)

theorem bind_of_ok {x : Update α} {f : α → Update β} {a : α} {cat cat' : Catalog}
    (h : x cat = (.ok a, cat')) : (x >>= f) cat = f a cat' := by
  simp only [bind, h]

theorem bind_of_error {x : Update α} {f : α → Update β} {e : DeclError} {cat cat' : Catalog}
    (h : x cat = (.error e, cat')) : (x >>= f) cat = (.error e, cat') := by
  simp only [bind, h]

@[simp] theorem stop_bind_apply (e : DeclError) (f : α → Update β) :
    (stop e >>= f) cat = (.error e, cat) := rfl

@[simp] theorem ask_bind_apply (question : Catalog → Except DeclError α) (f : α → Update β) :
    (ask question >>= f) cat =
      match question cat with
      | .ok a => f a cat
      | .error e => (.error e, cat) := by
  cases h : question cat with
  | ok a => exact bind_of_ok (congrArg (·, cat) h)
  | error e => exact bind_of_error (congrArg (·, cat) h)

@[simp] theorem read_bind_apply (g : Catalog → α) (f : α → Update β) :
    (read g >>= f) cat = f (g cat) cat := rfl

@[simp] theorem write_bind_apply (g : Catalog → Catalog) (f : Unit → Update β) :
    (write g >>= f) cat = f () (g cat) := rfl

end Steps

end Update

namespace Catalog

/-! ## The declarations -/

/-- A new variable is handed out. -/
def freshVarInPlace : Update VarId := do
  let v ← .read fun cat => cat.nextVar
  .write fun cat => { cat with nextVar := cat.nextVar + 1 }
  return v

/-- The variables of a declaration are reserved. -/
def reserveInPlace (vs : List VarId) : Update Unit :=
  .write fun cat => { cat with nextVar := reserve cat.nextVar vs }

def declareScopeInPlace (parent : ScopeId) (kind : ScopeKind) (name : String) (params : List Param) :
    Update ScopeId := do
  let _ ← .ask fun cat => cat.getScope parent
  .ask fun cat => cat.checkAll (params.flatMap Param.constraints)
  reserveInPlace (params.flatMap Param.vars)
  let id ← .read fun cat => cat.scopes.length
  .write fun cat => { cat with scopes := cat.scopes ++ [⟨kind, name, some parent, params, [], []⟩] }
  return id

def addImportInPlace (scope imported : ScopeId) : Update Unit := do
  let _ ← .ask fun cat => cat.getScope imported
  let _ ← .ask fun cat => cat.getScope scope
  .write fun cat => { cat with
    scopes := cat.scopes.modify scope fun s => { s with imports := FirstSeen.add s.imports imported } }

def declareConceptInPlace (decl : ConceptDecl) : Update Unit := do
  if (← .read fun cat => cat.concept? decl.name).isSome then .stop (.duplicateConcept decl.name)
  .ask fun cat => cat.checkParents decl.name decl.parents
  -- the graph is written before it is searched
  .write fun cat => { cat with
    hierarchy := cat.hierarchy.add decl.name (decl.parents.map Capability.concept) }
  if (← .read fun cat => cat.hierarchy.isCyclic) then
    .write fun cat => { cat with hierarchy := cat.hierarchy.remove decl.name }
    .stop (.cyclicInheritance decl.name)
  reserveInPlace (decl.params.flatMap Param.vars ++ decl.parents.flatMap Capability.vars)
  let carrierVar ← freshVarInPlace
  .write fun cat => { cat with
    concepts := ⟨decl.name, decl.params, decl.parents, decl.fragments, carrierVar⟩ :: cat.concepts }

def declareInstanceInPlace (scope : ScopeId) (decl : InstanceDecl) : Update InstanceId := do
  let place ← .ask fun cat => cat.getScope scope
  if place.kind = .methodBody then .stop (.instanceInMethod decl.name)
  if let some container := decl.memberOf then
    let _ ← .ask fun cat => cat.getInstance container
  .ask fun cat => cat.checkAll (decl.provides ++ decl.params.flatMap Param.constraints)
  reserveInPlace (decl.params.flatMap Param.vars ++ decl.provides.flatMap Capability.vars)
  let id ← .read fun cat => cat.instances.length
  .write fun cat => { cat with instances := cat.instances ++ [⟨decl, id, scope⟩] }
  .write fun cat => { cat with
    scopes := cat.scopes.modify scope fun s => { s with instances := s.instances ++ [id] } }
  return id

/-! ## Sessions -/

/-- What a registry can be told to do. -/
inductive Declaration where
  | newVar
  | newScope (parent : ScopeId) (kind : ScopeKind) (name : String) (params : List Param)
  | newImport (scope imported : ScopeId)
  | newConcept (decl : ConceptDecl)
  | newInstance (scope : ScopeId) (decl : InstanceDecl)

/-- Carries out a declaration; the number that it hands out is left aside. -/
def perform : Declaration → Update Unit
  | .newVar => do let _ ← freshVarInPlace
  | .newScope parent kind name params => do let _ ← declareScopeInPlace parent kind name params
  | .newImport scope imported => addImportInPlace scope imported
  | .newConcept decl => declareConceptInPlace decl
  | .newInstance scope decl => do let _ ← declareInstanceInPlace scope decl

/-- The catalog after declarations, accepted or not, on the empty one. -/
def session (ds : List Declaration) : Catalog :=
  ds.foldl (fun cat d => (perform d cat).2) .empty

end Catalog

end InstanceSearch
