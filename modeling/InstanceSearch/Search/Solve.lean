/-
  Solving a goal.

  THE PROGRAM.  To solve the constraints of a witness parameter under the bindings made so far:
    (1) apply the bindings, and drop what is implied if the settings say so;
    (2) if the goal is in flight already, it can only be solved by itself: a cycle;
    (3) keep the candidates that match; there must be one;
    (4) for each of them solve the witness parameters that matching left open, in order, each under the
        bindings of the one before; a candidate whose dependencies fail is rejected;
    (5) of the survivors, take the only one or the most specific one.

  THE RECURSION.  `step` is one round of this, with the solver for dependencies as an argument; `solve`
  closes the loop by recursion on the number of levels that remain.  At no level it gives up.
-/
import InstanceSearch.Search.Filter
import InstanceSearch.Search.Specificity

namespace InstanceSearch.Search

/-- A solver for the goals that come up as dependencies. -/
abbrev Solver := Request → State → Answer Solved

/-! ## Dependencies -/

/-- Why a candidate that matches does not survive. -/
inductive Rejection where
  /-- a dependency failed -/
  | dependency (e : SearchError)
  /-- a dependency was open, and the settings do not allow it to be solved -/
  | unresolved

/-- `q.isOpen s p`: under `s` the parameter still stands for a variable that may be bound. -/
def isOpen (q : Search) (s : Subst) (p : Param) : Bool :=
  match (s.apply p.asTy).asVar? with
  | some v => decide (v ∉ q.frozen)
  | none => false

/-- The witness parameters of a match that have to be solved. -/
def openParams (q : Search) (m : Matched) : List Param :=
  m.params.filter fun p => p.isWitness && q.isOpen m.subst p

/-- Solves parameters in order, each under the bindings of the one before. -/
def solveParams (solver : Solver) : List Param → Subst → State → Answer (Subst × List Witness)
  | [], s, st => (.ok (s, []), st)
  | p :: ps, s, st =>
    match solver ⟨p.name, p.constraints, s⟩ st with
    | (.error e, st) => (.error e, st)
    | (.ok solved, st) =>
      match solveParams solver ps solved.subst st with
      | (.error e, st) => (.error e, st)
      | (.ok (s, ws), st) => (.ok (s, solved.witness :: ws), st)

/-- The arguments of an instance: the next of the solved witnesses for a parameter that was open, and
    for every other one the type that it stands for. -/
def arguments (opened : List VarId) (s : Subst) : List Param → List Witness → List Argument
  | [], _ => []
  | p :: ps, ws =>
    if opened.contains p.id then
      match ws with
      | w :: ws => .witness w :: arguments opened s ps ws
      | [] => .type (s.apply p.asTy) :: arguments opened s ps []
    else .type (s.apply p.asTy) :: arguments opened s ps ws

/-- A match with its dependencies solved.  While they are, the instance is in flight for the goal. -/
def survive (q : Search) (solver : Solver) (goal : String) (m : Matched) (st : State) :
    Except Rejection Survivor × State :=
  match m.candidate with
  | .ambient p => (.ok ⟨m.candidate, m.subst, m.patterns, .ambient p.id p.name⟩, st)
  | .declared i =>
    let opened := q.openParams m
    if !opened.isEmpty && q.config.policy == .rejectUnresolved then (.error .unresolved, st)
    else
      match solveParams solver opened m.subst { st with stack := ⟨i.name, goal⟩ :: st.stack } with
      | (.error e, st) => (.error (.dependency e), { st with stack := st.stack.tail })
      | (.ok (s, ws), st) =>
        (.ok ⟨m.candidate, s, m.patterns,
            .apply i.id i.name (arguments (opened.map Param.id) s m.params ws)⟩,
          { st with stack := st.stack.tail })

/-- The survivors among matches, and the names of the others with the reasons, both in order. -/
def surviveAll (q : Search) (solver : Solver) (goal : String) :
    List Matched → State → (List Survivor × List (String × Rejection)) × State
  | [], st => (([], []), st)
  | m :: ms, st =>
    let (outcome, st) := q.survive solver goal m st
    let ((survivors, rejected), st) := q.surviveAll solver goal ms st
    match outcome with
    | .ok s => ((s :: survivors, rejected), st)
    | .error r => ((survivors, (m.candidate.name, r) :: rejected), st)

/-! ## The choice -/

/-- Whether a candidate was rejected because a dependency went too deep. -/
def Rejection.isDepthLimit : Rejection → Bool
  | .dependency (.depthLimit ..) => true
  | _ => false

/-- The cycle that a candidate was rejected for. -/
def Rejection.cycle? : Rejection → Option (List Attempt)
  | .dependency (.cyclic _ path) => some path
  | _ => none

/-- Why no candidate survived: a depth limit anywhere counts before a cycle, and the first cycle before
    the plain absence of instances. -/
def explain (q : Search) (label : String) (required : List Capability)
    (rejected : List (String × Rejection)) : SearchError :=
  if rejected.any fun r => r.2.isDepthLimit then .depthLimit label q.config.maxDepth
  else
    match rejected.findSome? fun r => r.2.cycle? with
    | some path => .cyclic label path
    | none => .noInstance label required (rejected.map Prod.fst)

/-- The only survivor or the winning one. -/
def choose (q : Search) (label : String) (required : List Capability) (survivors : List Survivor)
    (rejected : List (String × Rejection)) : Except SearchError Solved :=
  match survivors with
  | [] => .error (q.explain label required rejected)
  | [s] => .ok ⟨s.witness, s.subst⟩
  | _ =>
    match mostSpecific q.frozen survivors with
    | some s => .ok ⟨s.witness, s.subst⟩
    | none => .error (.ambiguous label required (survivors.map fun s => s.candidate.name))

/-! ## The search -/

/-- What a request asks for under its bindings. -/
def requirement (q : Search) (r : Request) : List Capability :=
  let applied := r.constraints.map r.context.applyTo
  if q.config.minimize then q.catalog.minimize applied else applied

/-- One round: the goal, with `solver` for the dependencies. -/
def step (q : Search) (solver : Solver) (r : Request) (st : State) : Answer Solved :=
  let required := q.requirement r
  let goal := goalText q.frozen required
  match reentry st.stack goal with
  | some path => (.error (.cyclic r.label (path ++ [⟨r.label, goal⟩])), st)
  | none =>
    let (matched, next) := q.matchAll required r.context q.candidates.values st.next
    let st := { st with next }
    if matched.isEmpty then (.error (.noInstance r.label required []), st)
    else
      let ((survivors, rejected), st) := q.surviveAll solver goal matched st
      (q.choose r.label required survivors rejected, st)

/-- `q.solve levels` = the solver that may nest dependencies `levels` deep, the request itself
    included. -/
def solve (q : Search) : Nat → Solver
  | 0, r, st => (.error (.depthLimit r.label q.config.maxDepth), st)
  | levels + 1, r, st => q.step (q.solve levels) r st

end InstanceSearch.Search
