/-
  Which candidates match a goal.

  A candidate offers the capabilities that it declares, with all their ancestors.  An instance is used
  at new variables in the place of its type parameters, so that two uses never share one.  It MATCHES a
  list of required capabilities if each of them unifies with an offered one, under one substitution that
  grows from requirement to requirement; of several offered capabilities the first that unifies is
  taken, and the choice is not taken back.

  Every candidate draws its variables, whether it matches or not.
-/
import InstanceSearch.Catalog.Inheritance
import InstanceSearch.Search.Basic
import InstanceSearch.Unify.Solve

namespace InstanceSearch

/-! ## Using an instance at new variables -/

/-- `newVars params next` = the parameters' variables sent to `next`, `next + 1`, …, which keep the
    parameters' names. -/
def newVars (params : List Param) (next : VarId) : Subst :=
  OrderedMap.ofList ((params.zipIdx next).map fun e => (e.1.id, Ty.var e.2 (some e.1.name)))

/-- `p.rename r` = the parameter with its variable and those of its constraints replaced. -/
def Param.rename (p : Param) (r : Subst) : Param where
  id := ((r.apply (.var p.id none)).asVar?).getD p.id
  name := p.name
  kind :=
    match p.kind with
    | .ordinary => .ordinary
    | .witness cs => .witness (cs.map r.applyTo)

namespace Search

/-- A candidate that matches. -/
structure Matched where
  candidate : Candidate
  /-- the bindings that made it match -/
  subst : Subst
  /-- for each required capability the offered one that covers it, as it stood before unification -/
  patterns : List Capability
  /-- the type parameters of an instance at their new variables -/
  params : List Param

/-! ## Covering what is required -/

/-- The first offered capability that unifies with a required one, and the bindings that it takes. -/
def firstCover (frozen : VarSet) (offered : List Capability) (required : Capability) (s : Subst) :
    Option (Capability × Subst) :=
  offered.findSome? fun c =>
    match tryUnifyCapabilities frozen c required s with
    | .ok s' => some (c, s')
    | .error _ => none

/-- An offered capability for each required one, under one growing substitution. -/
def cover (frozen : VarSet) (offered : List Capability) :
    List Capability → Subst → Option (List Capability × Subst)
  | [], s => some ([], s)
  | r :: rs, s => do
    let (c, s) ← firstCover frozen offered r s
    let (cs, s) ← cover frozen offered rs s
    return (c :: cs, s)

/-! ## Matching candidates -/

/-- `q.match? c required context next` = how the candidate `c` matches, its new variables counted from
    `next`. -/
def match? (q : Search) (c : Candidate) (required : List Capability) (context : Subst)
    (next : VarId) : Option Matched := do
  let fresh := newVars c.params next
  let offered := q.catalog.expand (c.offers.map fresh.applyTo)
  let (patterns, subst) ← cover q.frozen offered required context
  return ⟨c, subst, patterns, c.params.map fun p => p.rename fresh⟩

/-- All matches among candidates, in order, and the counter after them. -/
def matchAll (q : Search) (required : List Capability) (context : Subst) :
    List Candidate → VarId → List Matched × VarId
  | [], next => ([], next)
  | c :: cs, next =>
    let (rest, after) := q.matchAll required context cs (next + c.params.length)
    match q.match? c required context next with
    | some m => (m :: rest, after)
    | none => (rest, after)

end Search

end InstanceSearch
