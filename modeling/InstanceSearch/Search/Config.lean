/-
  What can be set for a search.
-/
namespace InstanceSearch

/-- What becomes of a matching instance whose own witness parameters are still open. -/
inductive DependencyPolicy where
  /-- they are solved in turn -/
  | recursive
  /-- the instance is discarded -/
  | rejectUnresolved
deriving DecidableEq

structure Config where
  /-- how deep dependencies may be nested -/
  maxDepth : Nat
  /-- whether required capabilities that others imply are dropped -/
  minimize : Bool
  policy : DependencyPolicy
deriving DecidableEq

/-- Dependencies nested up to 64 deep, solved recursively, for minimized requirements. -/
def Config.default : Config := ⟨64, true, .recursive⟩

end InstanceSearch
