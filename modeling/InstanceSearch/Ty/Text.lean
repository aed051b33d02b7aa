/-
  How type expressions are written.

    * a constructor     `Int`, `Map<k, v>`
    * a variable        its name, or `?7` where it has none
    * a tuple           `(a, b)`
    * a function        `(a, b) -> r`

  The text of an application depends on its former and on the texts of its arguments only
  (`Former.write`), so writing is one walk over the type.  Error messages, witnesses and goals are all
  made of these texts.
-/
import InstanceSearch.Ty.Basic

namespace InstanceSearch

/-- `commas parts` = the parts with a comma and a blank between them. -/
def commas (parts : List String) : String := ", ".intercalate parts

/-- `applied name args` = `name`, with the arguments in angle brackets if there are any. -/
def applied (name : String) (args : List String) : String :=
  if args.isEmpty then name else name ++ "<" ++ commas args ++ ">"

/-- `f.write args` = the text of `f` at arguments with the given texts. -/
def Former.write : Former → List String → String
  | .con name, args => applied name args
  | .tuple, args => "(" ++ commas args ++ ")"
  | .arrow, args =>
    "(" ++ commas args.dropLast ++ ") ->" ++
      match args.getLast? with
      | none => ""
      | some result => " " ++ result

/-- `varText v name` = the name of a variable, or its number after a question mark. -/
def varText (v : VarId) : Option String → String
  | some name => name
  | none => "?" ++ toString v

namespace Ty

mutual
/-- The text of a type. -/
def text : Ty → String
  | .var v name => varText v name
  | .app f args => f.write (textAll args)

/-- The texts of a list of types. -/
def textAll : List Ty → List String
  | [] => []
  | t :: ts => text t :: textAll ts
end

theorem textAll_eq_map (ts : List Ty) : textAll ts = ts.map text := by
  induction ts with
  | nil => rfl
  | cons t ts ih => simp [textAll, ih]

@[simp] theorem text_var (v : VarId) (name : Option String) : (Ty.var v name).text = varText v name :=
  rfl

@[simp] theorem text_app (f : Former) (args : List Ty) :
    (Ty.app f args).text = f.write (args.map text) := by
  rw [text, textAll_eq_map]

end Ty

end InstanceSearch
