/-
  What has been declared: concepts, scopes and instances.

  THE TABLES
    * A CONCEPT has parameters, parent capabilities over those parameters, and fragments: methods, some
      with a default body, and other text.
    * A SCOPE is a namespace or the body of a generic type or method.  It has a parent, imports, type
      parameters, and the instances declared directly in it.  Scope 0 is the root namespace.
    * An INSTANCE lives in a scope and provides capabilities, for all choices of its parameters.

    Scopes and instances are numbered in the order of declaration; concepts go by name, and the latest
    declared concept stands first, so that the concepts after it in the table are those that its
    parents can refer to.

  VARIABLES
    `nextVar` is the watermark: every variable handed out, and every variable in the parameters,
    constraints, parents and capabilities of a declaration, is below it.
-/
import InstanceSearch.Capability
import InstanceSearch.Hierarchy
import InstanceSearch.Catalog.Error

namespace InstanceSearch

/-- A scope is a number; the root is 0. -/
abbrev ScopeId := Nat

/-- An instance is a number. -/
abbrev InstanceId := Nat

/-! ## Concepts -/

/-- A method that a concept declares. -/
structure Method where
  name : String
  params : List Ty
  result : Ty
  /-- the default body, if the concept supplies one -/
  default? : Option String

def Method.hasDefault (m : Method) : Bool := m.default?.isSome

/-- The method's type: a function from its parameters to its result. -/
def Method.signature (m : Method) : Ty := .arrow m.params m.result

/-- A piece of a concept's body. -/
inductive Fragment where
  | method (m : Method)
  /-- anything that is not a method -/
  | other (text : String)

def Fragment.method? : Fragment → Option Method
  | .method m => some m
  | .other _ => none

structure Concept where
  name : String
  params : List Param
  parents : List Capability
  fragments : List Fragment
  /-- the variable set aside for the witness parameter of the concept's default carrier -/
  carrierVar : VarId

namespace Concept

/-- The concept at its own parameters: `Ord<T>`. -/
def selfReference (d : Concept) : Capability := ⟨d.name, d.params.map Param.asTy⟩

/-- The methods among the fragments, in order. -/
def methods (d : Concept) : List Method := d.fragments.filterMap Fragment.method?

def hasDefaults (d : Concept) : Bool := d.methods.any Method.hasDefault

end Concept

/-! ## Scopes -/

inductive ScopeKind where
  | nameSpace
  /-- the body of a generic type -/
  | typeBody
  /-- the body of a generic method -/
  | methodBody
deriving DecidableEq

/-- Whether the type parameters of the scope are bound in it. -/
def ScopeKind.isGeneric : ScopeKind → Bool
  | .nameSpace => false
  | .typeBody | .methodBody => true

structure Scope where
  kind : ScopeKind
  name : String
  parent : Option ScopeId
  params : List Param
  /-- scopes whose instances can be seen from here -/
  imports : List ScopeId
  /-- the instances declared directly here, in order -/
  instances : List InstanceId

/-! ## Instances -/

/-- An instance as it is written. -/
structure InstanceDecl where
  name : String
  params : List Param
  provides : List Capability
  /-- may lose against a more specific candidate, or win against a less specific one -/
  overlappable : Bool
  /-- seen from its own scope and the scopes inside it only -/
  isPrivate : Bool
  /-- the instance that this one is a member of -/
  memberOf : Option InstanceId
  /-- the members that the instance implements itself -/
  implemented : List String

/-- An instance as it stands in the catalog: with its number and its scope. -/
structure Instance extends InstanceDecl where
  id : InstanceId
  scope : ScopeId

def Instance.implements (i : Instance) (member : String) : Bool := i.implemented.contains member

/-! ## The catalog -/

structure Catalog where
  /-- the latest declared concept first -/
  concepts : List Concept
  scopes : List Scope
  instances : List Instance
  hierarchy : Hierarchy
  /-- the first variable that no declaration uses -/
  nextVar : VarId

namespace Catalog

/-- The root scope. -/
def root : ScopeId := 0

/-- The catalog with the root namespace and nothing else. -/
def empty : Catalog where
  concepts := []
  scopes := [⟨.nameSpace, "<root>", none, [], [], []⟩]
  instances := []
  hierarchy := .empty
  nextVar := 0

/-- The concept of a name. -/
def concept? (cat : Catalog) (name : String) : Option Concept :=
  cat.concepts.find? fun d => d.name == name

def getConcept (cat : Catalog) (name : String) : Except DeclError Concept :=
  match cat.concept? name with
  | some d => .ok d
  | none => .error (.undefinedConcept name)

def getScope (cat : Catalog) (id : ScopeId) : Except DeclError Scope :=
  match cat.scopes[id]? with
  | some s => .ok s
  | none => .error (.undefinedScope id)

def getInstance (cat : Catalog) (id : InstanceId) : Except DeclError Instance :=
  match cat.instances[id]? with
  | some i => .ok i
  | none => .error (.undefinedInstance id)

/-- `chainWithin scopes n id` = the scope `id` and the scopes around it, at most `n` of them. -/
def chainWithin (scopes : List Scope) : Nat → ScopeId → List ScopeId
  | 0, _ => []
  | n + 1, id =>
    match scopes[id]? with
    | none => []
    | some s =>
      match s.parent with
      | none => [id]
      | some p => id :: chainWithin scopes n p

/-- The scope and the scopes around it, innermost first.  A scope is declared after the one around it,
    so no chain is longer than the table. -/
def scopeChain (cat : Catalog) (id : ScopeId) : Except DeclError (List ScopeId) := do
  let _ ← cat.getScope id
  return chainWithin cat.scopes cat.scopes.length id

end Catalog

end InstanceSearch
