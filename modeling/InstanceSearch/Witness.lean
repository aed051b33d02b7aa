/-
  Witness terms.

  A witness is what a witness parameter is filled with: the witness that an enclosing generic received
  (`ambient`), or an instance with one argument for each of its type parameters.  An argument is a type
  or, where the parameter asks for capabilities that were solved in turn, a witness again.  So a witness
  is a tree whose text reads like a nested application: `OrdList<Int, OrdInt>`.
-/
import InstanceSearch.Catalog.Basic

namespace InstanceSearch

mutual
inductive Witness where
  /-- the witness supplied for a parameter of an enclosing generic -/
  | ambient (var : VarId) (name : String)
  /-- an instance at its arguments -/
  | apply (id : InstanceId) (name : String) (args : List Argument)

/-- What one type parameter of an instance is filled with. -/
inductive Argument where
  | type (t : Ty)
  | witness (w : Witness)
end

instance : Inhabited Witness := ⟨.ambient 0 ""⟩

namespace Witness

def name : Witness → String
  | .ambient _ name => name
  | .apply _ name _ => name

/-- The instance at the root of the term. -/
def instanceId? : Witness → Option InstanceId
  | .ambient .. => none
  | .apply id _ _ => some id

def args : Witness → List Argument
  | .ambient .. => []
  | .apply _ _ args => args

end Witness

/-- The witness that an argument is. -/
def Argument.witness? : Argument → Option Witness
  | .type _ => none
  | .witness w => some w

/-- The witnesses passed directly to this one. -/
def Witness.nested (w : Witness) : List Witness := w.args.filterMap Argument.witness?

mutual
/-- The text of a witness: its name, with the texts of its arguments in angle brackets. -/
def Witness.text : Witness → String
  | .ambient _ name => name
  | .apply _ name args => applied name (Argument.texts args)

def Argument.text : Argument → String
  | .type t => t.text
  | .witness w => w.text

def Argument.texts : List Argument → List String
  | [] => []
  | a :: as => a.text :: Argument.texts as
end

theorem Argument.texts_eq_map (as : List Argument) : Argument.texts as = as.map Argument.text := by
  induction as with
  | nil => simp [Argument.texts]
  | cons a as ih => simp [Argument.texts, ih]

end InstanceSearch
