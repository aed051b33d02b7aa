/-
  One-way matching.

  `specific.instanceOf general` asks whether `general` covers `specific`: whether the variables of
  `general` can be chosen so that it becomes `specific`.  It is unification in which the variables of
  `specific`, and the frozen ones, may not be bound.  Matching compares the capabilities that two
  candidates offer for one goal, and so decides which candidate is the more specific one.
-/
import InstanceSearch.Unify.Solve

namespace InstanceSearch

/-- The variables that must stay as they are when something is matched against `specific`. -/
def Capability.rigid (specific : Capability) (frozen : VarSet) : VarSet := frozen.union specific.vars

/-- `specific.instanceOf general frozen`: some choice for the other variables of `general` turns it into
    `specific`. -/
def Capability.instanceOf (specific general : Capability) (frozen : VarSet) : Bool :=
  (tryUnifyCapabilities (specific.rigid frozen) general specific OrderedMap.empty).isOk

end InstanceSearch
