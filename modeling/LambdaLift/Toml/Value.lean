/-!
# TOML values

What a settings file can say. Tables keep their entries in the order in which they were first
mentioned; the text of a floating-point number is kept as it was written.
-/

namespace LambdaLift.Toml

inductive Value where
  | string (s : String)
  | integer (n : Int)
  | float (text : String)
  | boolean (b : Bool)
  | array (items : List Value)
  | table (entries : List (String × Value))

namespace Value

def string? : Value → Option String
  | string s => some s
  | _ => none

def array? : Value → Option (List Value)
  | array items => some items
  | _ => none

/-- A member of a record, which is written as a table or as an array of its members in a fixed
order. The outer `none` says that the value is neither, the inner one that the member is left
out. -/
def member? (v : Value) (index : Nat) (name : String) : Option (Option Value) :=
  match v with
  | table entries => some ((entries.find? (·.1 == name)).map Prod.snd)
  | array items => some items[index]?
  | _ => none

end Value

end LambdaLift.Toml
