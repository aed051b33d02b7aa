/-
  The walk over ancestors as one procedure that calls itself.

  THE PROGRAM
    `cat.collectWithin n c found` looks up the concept of `c` by its name and puts the arguments of `c` for
    the concept's parameters.  Then it goes through the parents: one that was not found before is added,
    and a call of its own collects what comes with it before the next parent has its turn.

  WHY IT COUNTS
    A call is on a capability that was made up on the way, whose concept may stand anywhere in the table,
    and to put arguments for parameters is a procedure that calls itself as well.  So the calls are nested
    at most `n` deep, and `none` says that this was not enough.
-/
import InstanceSearch.Catalog.Inheritance
import InstanceSearch.Unify.Nested

namespace InstanceSearch

/-- `s.applyToWithin n c` = `c` with `s` applied to its arguments, by calls that are nested at most `n`
    deep. -/
def Subst.applyToWithin (s : Subst) (n : Nat) (c : Capability) : Option Capability :=
  (c.args.mapM (s.applyWithin n)).map fun args => ⟨c.concept, args⟩

namespace Catalog

/-- `cat.collectWithin n c found` = `found`, followed by the ancestors of `c` that are new, by calls that
    are nested at most `n` deep. -/
def collectWithin (cat : Catalog) : Nat → Capability → List Capability → Option (List Capability)
  | 0, _, _ => none
  | n + 1, c, found =>
    match cat.concept? c.concept with
    | none => some found
    | some d =>
      let choice : Subst := OrderedMap.ofList ((d.params.map Param.id).zip c.args)
      d.parents.foldlM (fun found parent => do
        let p ← choice.applyToWithin n parent
        if found.contains p then some found else cat.collectWithin n p (found ++ [p])) found

/-- Every capability that comes with `c`, by calls that are nested at most `n` deep. -/
def ancestorsWithin (cat : Catalog) (n : Nat) (c : Capability) : Option (List Capability) :=
  cat.collectWithin n c []

end Catalog

end InstanceSearch
