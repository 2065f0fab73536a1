/-!
# Names in emitted C
-/

namespace LambdaLift.Target

/-- The names that do not come from the source: that of the one value type, and what stands before
and after the number in the name of a lifted function. -/
structure Style where
  anyType : String := "kv_any_t"
  functionPrefix : String := "kv_abs"
  functionSuffix : String := "_f"
deriving DecidableEq, Repr

/-- The name of the lifted function with a given number. -/
def Style.functionName (style : Style) (index : Nat) : String :=
  style.functionPrefix ++ index.repr ++ style.functionSuffix

end LambdaLift.Target
