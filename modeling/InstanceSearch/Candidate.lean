/-
  Candidates for a witness.

  A candidate is either AMBIENT, the witness that the caller of an enclosing generic will supply for one
  of its witness parameters, or a DECLARED instance.  A declaration counts once, however many paths lead
  to it: a `CandidateSet` has one candidate for each key, in the order of discovery, and the first one
  found for a key is the one that stays.
-/
import InstanceSearch.OrderedMap
import InstanceSearch.Catalog.Basic

namespace InstanceSearch

inductive Candidate where
  /-- the witness supplied for a parameter of an enclosing generic -/
  | ambient (param : Param)
  | declared (inst : Instance)

namespace Candidate

/-- What identifies a candidate. -/
inductive Key where
  | ambient (var : VarId)
  | declared (id : InstanceId)
deriving DecidableEq

/-- The order of keys: ambient ones first, then by number. -/
def Key.le : Key → Key → Bool
  | .ambient v, .ambient w => decide (v ≤ w)
  | .ambient _, .declared _ => true
  | .declared _, .ambient _ => false
  | .declared i, .declared j => decide (i ≤ j)

def key : Candidate → Key
  | .ambient p => .ambient p.id
  | .declared i => .declared i.id

def name : Candidate → String
  | .ambient p => p.name
  | .declared i => i.name

/-- Only an instance can be marked as overlappable. -/
def isOverlappable : Candidate → Bool
  | .ambient _ => false
  | .declared i => i.overlappable

/-- The capabilities that the candidate offers as they are written. -/
def offers : Candidate → List Capability
  | .ambient p => p.constraints
  | .declared i => i.provides

/-- The type parameters that are chosen anew at each use. -/
def params : Candidate → List Param
  | .ambient _ => []
  | .declared i => i.params

end Candidate

/-- Candidates in the order of discovery, one for each key. -/
abbrev CandidateSet := OrderedMap Candidate.Key Candidate

namespace CandidateSet

/-- `s.add c` = `s` with `c` at the end, unless its key is there already. -/
def add (s : CandidateSet) (c : Candidate) : CandidateSet := s.insertIfNew c.key c

/-- The first candidate for each key, in order. -/
def ofList (cs : List Candidate) : CandidateSet := cs.foldl add OrderedMap.empty

def names (s : CandidateSet) : List String := s.values.map Candidate.name

end CandidateSet

end InstanceSearch
