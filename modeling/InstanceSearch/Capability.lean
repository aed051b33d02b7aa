/-
  Capabilities and type parameters.

  A CAPABILITY is a concept at type arguments, such as `Ord<List<T>>`.  It is what an instance provides
  and what a witness parameter requires.  Like types, capabilities are compared by `==` without the
  names of their variables (`Capability.beq_iff`).

  A PARAMETER is declared by a scope, an instance or a query.  An ordinary one is fixed by its caller;
  a witness parameter is fixed by finding an instance that provides all of its constraints.
-/
import InstanceSearch.Ty.Text

namespace InstanceSearch

/-! ## Capabilities -/

/-- A concept at type arguments. -/
structure Capability where
  concept : String
  args : List Ty
deriving DecidableEq, Repr, Inhabited

namespace Capability

/-- Equality of capabilities, the labels of variables aside. -/
def same (c d : Capability) : Bool := c.concept == d.concept && c.args == d.args

instance : BEq Capability := ⟨same⟩

/-- `c.anon` = `c` with the labels of its variables taken off. -/
def anon (c : Capability) : Capability := ⟨c.concept, c.args.map Ty.anon⟩

/-- **Equality of capabilities is equality without labels.** -/
@[simp] theorem beq_iff {c d : Capability} : (c == d) = true ↔ c.anon = d.anon := by
  change same c d = true ↔ _
  simp [same, anon]

instance : EquivBEq Capability where
  rfl := by simp
  symm h := by rw [beq_iff] at h ⊢; exact h.symm
  trans h h' := by simp only [beq_iff] at h h' ⊢; exact h.trans h'

/-- The variables of the arguments from left to right. -/
def vars (c : Capability) : List VarId := c.args.flatMap Ty.vars

/-- `c.map f` = `c` with `f` applied to every argument. -/
def map (f : Ty → Ty) (c : Capability) : Capability := ⟨c.concept, c.args.map f⟩

@[simp] theorem concept_map (f : Ty → Ty) (c : Capability) : (c.map f).concept = c.concept := rfl

@[simp] theorem args_map (f : Ty → Ty) (c : Capability) : (c.map f).args = c.args.map f := rfl

theorem map_map (f g : Ty → Ty) (c : Capability) : (c.map f).map g = c.map fun t => g (f t) := by
  simp [map, Function.comp_def]

/-- The text of a capability: `Ord<List<T>>`. -/
def text (c : Capability) : String := applied c.concept (c.args.map Ty.text)

/-- The text of a list of capabilities. -/
def listText (cs : List Capability) : String := commas (cs.map text)

end Capability

/-! ## Parameters -/

/-- How a parameter gets its argument. -/
inductive Param.Kind where
  /-- fixed by the caller -/
  | ordinary
  /-- fixed by finding an instance for all of the constraints -/
  | witness (constraints : List Capability)
deriving BEq, Inhabited

/-- A declared type parameter: its variable, the name it is shown by, and its kind. -/
structure Param where
  id : VarId
  name : String
  kind : Param.Kind
deriving BEq, Inhabited

namespace Param

def isWitness (p : Param) : Bool :=
  match p.kind with
  | .ordinary => false
  | .witness _ => true

/-- The capabilities asked of the argument: none for an ordinary parameter. -/
def constraints (p : Param) : List Capability :=
  match p.kind with
  | .ordinary => []
  | .witness cs => cs

/-- The parameter as a type: its variable, labelled with its name. -/
def asTy (p : Param) : Ty := .var p.id (some p.name)

/-- All variables that a parameter mentions: its own, then those of its constraints. -/
def vars (p : Param) : List VarId := p.id :: p.constraints.flatMap Capability.vars

end Param

end InstanceSearch
