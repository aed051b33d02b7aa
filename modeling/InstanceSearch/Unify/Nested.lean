/-
  Unification as one procedure that calls itself.

  THE PROGRAM
    `unifyWithin frozen n a b s` unifies by nested calls, over a substitution that is written in place.
    A call applies the substitution to both types and looks at what stands at their roots.  A variable
    is bound; two equal formers are taken apart, and their arguments are unified one after the other,
    each by a call of its own that sees the bindings of those before it.

  WHY IT COUNTS
    A call is not on smaller types: the arguments are applied again, under a substitution that has
    grown.  Nor need `applyWithin` end, if the bindings lead back to where they came from.  So the calls
    are nested at most `n` deep, and `none` says that this was not enough.
-/
import InstanceSearch.Unify.Solve

namespace InstanceSearch

namespace Subst

/-- `s.applyWithin n t` = `t` with the variables replaced by what they stand for, by calls that are
    nested at most `n` deep. -/
def applyWithin (s : Subst) : Nat → Ty → Option Ty
  | 0, _ => none
  | n + 1, .var v name =>
    match s.find? v with
    | some u => s.applyWithin n u
    | none => some (.var v name)
  | n + 1, .app f args => (args.mapM (s.applyWithin n)).map (.app f)

/-- `s.bindWithin n v t` = `s` with `v` bound to `t`.  A variable that is bound already is compared, by
    applying the substitution to both types. -/
def bindWithin (s : Subst) (n : Nat) (v : VarId) (t : Ty) : Option (Except Conflict Subst) :=
  match s.find? v with
  | none => some (.ok (s.insert v t))
  | some u => do
    let existing ← s.applyWithin n u
    let attempted ← s.applyWithin n t
    return if existing == attempted then .ok s else .error ⟨v, existing, t⟩

end Subst

namespace Unify

/-- The outcome of a unification, and the substitution that it leaves. -/
abbrev Outcome := Except UnifyError Unit × Subst

/-- `bindWithin n v name t s` = bind the variable `v`, unless `t` contains it. -/
def bindWithin (n : Nat) (v : VarId) (name : Option String) (t : Ty) (s : Subst) : Option Outcome :=
  if t.occurs v then some (.error (.occurs (.var v name) t), s)
  else (s.bindWithin n v t).map fun
    | .ok s' => (.ok (), s')
    | .error c => (.error (.conflict c), s)

/-- `inTurn call eqs s` = the calls for the equations one after the other, up to the first that fails. -/
def inTurn (call : Equation → Subst → Option Outcome) : List Equation → Subst → Option Outcome
  | [], s => some (.ok (), s)
  | e :: eqs, s =>
    (call e s).bind fun
      | (.ok (), s') => inTurn call eqs s'
      | (.error err, s') => some (.error err, s')

/-- `meet n call frozen a b s` = unify two types to which the substitution was applied.  Of two variables
    the provided one is bound if it may be, else the required one; arguments are unified by `call`. -/
def meet (n : Nat) (call : Equation → Subst → Option Outcome) (frozen : VarSet) :
    Ty → Ty → Subst → Option Outcome
  | .var v k, .var w m, s =>
    if v = w then some (.ok (), s)
    else if v ∉ frozen then bindWithin n v k (.var w m) s
    else if w ∉ frozen then bindWithin n w m (.var v k) s
    else some (.error (.capture (.var v k) (.var w m)), s)
  | .var v k, .app g bs, s =>
    if v ∉ frozen then bindWithin n v k (.app g bs) s
    else some (.error (.capture (.var v k) (.app g bs)), s)
  | .app f as, .var w m, s =>
    if w ∉ frozen then bindWithin n w m (.app f as) s
    else some (.error (.capture (.var w m) (.app f as)), s)
  | .app f as, .app g bs, s =>
    match clash? f as g bs with
    | some e => some (.error e, s)
    | none => inTurn call (as.zip bs) s

end Unify

/-- `unifyWithin frozen n provided required s` = the outcome of unifying two types by calls that are
    nested at most `n` deep. -/
def unifyWithin (frozen : VarSet) : Nat → Ty → Ty → Subst → Option Unify.Outcome
  | 0, _, _, _ => none
  | n + 1, provided, required, s => do
    let a ← s.applyWithin n provided
    let b ← s.applyWithin n required
    Unify.meet n (fun e => unifyWithin frozen n e.1 e.2) frozen a b s

/-- The same for capabilities of one concept, argument by argument. -/
def unifyCapabilitiesWithin (frozen : VarSet) (n : Nat) (provided required : Capability)
    (s : Subst) : Option Unify.Outcome :=
  if provided.concept ≠ required.concept then
    some (.error (.conceptMismatch required provided), s)
  else if provided.args.length ≠ required.args.length then
    some (.error (.arity provided.concept required.args.length provided.args.length), s)
  else
    Unify.inTurn (fun e => unifyWithin frozen n e.1 e.2) (provided.args.zip required.args) s

end InstanceSearch
