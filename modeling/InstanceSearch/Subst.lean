/-
  Substitutions.

  THE TYPE
    A `Subst` maps variables to types and remembers the order in which they were bound.  Its values are
    kept as they were bound: a value may mention variables that are bound themselves, before or after.

  READING THROUGH CHAINS
    `apply` therefore follows bindings until it meets a variable that is not bound.  In a substitution
    without cycles no chain visits a variable twice, so a chain is no longer than the substitution:
    `follow n` follows chains of at most `n` bindings, and `apply` is `follow` at the number of entries.

  WRITING
    `bind` refuses to send a variable to two different types; `compose` is "first this, then that".
-/
import InstanceSearch.OrderedMap
import InstanceSearch.Capability

namespace InstanceSearch

/-- Variables with the types they stand for, in the order in which they were bound. -/
abbrev Subst := OrderedMap VarId Ty

namespace Subst

/-! ## Reading -/

/-- `s.follow n t` = `t` with its variables replaced along chains of at most `n` bindings. -/
def follow (s : Subst) : Nat → Ty → Ty
  | 0, t => t
  | n + 1, t => t.replaceVars fun v name =>
      match s.find? v with
      | some u => s.follow n u
      | none => .var v name

/-- `s.apply t` = `t` with every bound variable replaced by what it finally stands for. -/
def apply (s : Subst) (t : Ty) : Ty := s.follow s.size t

/-- `s.applyTo c` = the capability `c` with `s` applied to its arguments. -/
def applyTo (s : Subst) (c : Capability) : Capability := c.map s.apply

/-- A variable is unresolved where applying the substitution gives the variable back. -/
def isUnresolved (s : Subst) (v : VarId) : Bool := (s.apply (.var v none)).asVar? == some v

@[simp] theorem follow_zero (s : Subst) (t : Ty) : s.follow 0 t = t := rfl

@[simp] theorem follow_app (s : Subst) (n : Nat) (f : Former) (args : List Ty) :
    s.follow n (.app f args) = .app f (args.map (s.follow n)) := by
  cases n with
  | zero => exact (congrArg (Ty.app f) (List.map_id' args)).symm
  | succ n => rw [follow, Ty.replaceVars_app]; rfl

/-- A variable without a binding stays, whatever the length of chains. -/
theorem follow_var_of_none {s : Subst} {v : VarId} (h : s.find? v = none) (n : Nat)
    (name : Option String) : s.follow n (.var v name) = .var v name := by
  cases n <;> simp [follow, h]

/-- Applying a substitution goes through every former. -/
@[simp] theorem apply_app (s : Subst) (f : Former) (args : List Ty) :
    s.apply (.app f args) = .app f (args.map s.apply) := follow_app s _ f args

/-- **A variable that is not bound is its own result.** -/
theorem apply_var_of_none {s : Subst} {v : VarId} (h : s.find? v = none) (name : Option String) :
    s.apply (.var v name) = .var v name := follow_var_of_none h _ name

/-- So it is unresolved. -/
theorem isUnresolved_of_none {s : Subst} {v : VarId} (h : s.find? v = none) :
    s.isUnresolved v = true := by
  rw [isUnresolved, apply_var_of_none h, Ty.asVar?, beq_self_eq_true]

@[simp] theorem concept_applyTo (s : Subst) (c : Capability) : (s.applyTo c).concept = c.concept := rfl

/-! ## Writing -/

/-- A variable that is bound to one type and was to be bound to another. -/
structure Conflict where
  var : VarId
  /-- what the variable stands for already -/
  existing : Ty
  attempted : Ty

/-- `s.bind v t` = `s` with `v` bound to `t`.  Where `v` is bound, the substitution stays as it is if
    both types come to the same, and there is a conflict if they do not. -/
def bind (s : Subst) (v : VarId) (t : Ty) : Except Conflict Subst :=
  match s.find? v with
  | none => .ok (s.insert v t)
  | some u => if s.apply u == s.apply t then .ok s else .error ⟨v, s.apply u, t⟩

/-- `first.compose second` = apply `first`, then `second`: the values of `first` with `second` applied,
    followed by the entries of `second` for variables that `first` does not bind. -/
def compose (first second : Subst) : Subst :=
  second.entries.foldl (fun m e => m.insertIfNew e.1 e.2) (first.mapValues second.apply)

/-- A variable without a binding can be bound. -/
theorem bind_of_none {s : Subst} {v : VarId} (h : s.find? v = none) (t : Ty) :
    s.bind v t = .ok (s.insert v t) := by
  simp [bind, h]

/-! ## Variables and text -/

/-- Every variable that a substitution mentions: each key, followed by those of its value. -/
def vars (s : Subst) : List VarId := s.entries.flatMap fun e => e.1 :: e.2.vars

/-- The text of a substitution: its entries `?v := t` in curly brackets. -/
def text (s : Subst) : String :=
  "\x7b" ++ commas (s.entries.map fun e => varText e.1 none ++ " := " ++ e.2.text) ++ "\x7d"

end Subst

end InstanceSearch
