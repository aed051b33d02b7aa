/-
  Why the witnesses of a call cannot be inferred at all.
-/
import InstanceSearch.Catalog.Error

namespace InstanceSearch

/-- The causes for which no parameter of a call is even tried. -/
inductive CallError where
  /-- an ordinary parameter without an argument -/
  | unfixed (name : String)
  /-- something was asked for that was never declared -/
  | declaration (e : DeclError)
deriving DecidableEq

namespace CallError

/-- What is told to the user. -/
def message : CallError → String
  | .unfixed name => "Type parameter " ++ name ++ " is not fixed and is not a concept witness"
  | .declaration e => e.message

/-- The stable identifier of the cause. -/
def code : CallError → String
  | .unfixed _ => "witness::inference::unfixed_parameter"
  | .declaration e => e.code

/-- Advice to the user, where there is some. -/
def help? : CallError → Option String
  | .unfixed name =>
    some ("Only witness parameters can be inferred from instances; supply " ++ name ++ " explicitly")
  | .declaration e => e.help?

end CallError

end InstanceSearch
