import LambdaLift.Target.Style
import LambdaLift.Numeral

/-!
# Functions of emitted C

A lifted lambda is a function of which every parameter and the result have the one value type, and
whose body returns an expression made of names, integers and calls.
-/

namespace LambdaLift.Target

/-- A C expression. -/
inductive Expr where
  | name (identifier : String)
  | literal (value : Numeral)
  | call (callee : Expr) (args : List Expr)

mutual

/-- The text of an expression. -/
def Expr.text : Expr → String
  | name identifier => identifier
  | literal value => value.digits
  | call callee args => callee.text ++ "(" ++ Expr.textArgs args ++ ")"

/-- The text of an argument list. -/
def Expr.textArgs : List Expr → String
  | [] => ""
  | e :: es => e.text ++ Expr.textMoreArgs es

/-- The text of the arguments after the first one. -/
def Expr.textMoreArgs : List Expr → String
  | [] => ""
  | e :: es => ", " ++ e.text ++ Expr.textMoreArgs es

end

/-- A function that returns one expression. -/
structure Function where
  name : String
  params : List String
  body : Expr

namespace Function

/-- The part of a function that its declaration and its definition share. -/
def signature (style : Style) (f : Function) : String :=
  style.anyType ++ " " ++ f.name ++ "(" ++
    ", ".intercalate (f.params.map fun p => style.anyType ++ " " ++ p) ++ ")"

/-- The line that announces a function. -/
def declaration (style : Style) (f : Function) : String := f.signature style ++ ";"

/-- The lines that define a function. -/
def definition (style : Style) (f : Function) : String :=
  f.signature style ++ r" {" ++ "\n\treturn " ++ f.body.text ++ ";\n" ++ r"}"

end Function

end LambdaLift.Target
