import LambdaLift.EditDistance

/-!
# Suggestions

An unknown name is reported together with the visible names closest to it. Names at the same
distance come in the order of their code points, so neither the order nor the multiplicity of the
candidates matters.
-/

namespace LambdaLift.Suggestion

/-- The largest edit distance of a suggestion. -/
def maxDistance : Nat := 3

/-- The largest number of suggestions. -/
def maxCount : Nat := 3

/-- Whether `a` is as good a suggestion as `b`: closer, or as close and not behind it in order. -/
def precedes (target a b : String) : Bool :=
  let da := EditDistance.distance target a
  let db := EditDistance.distance target b
  da < db || (da == db && a ≤ b)

/-- Up to three candidates within distance three of the target, the best first. -/
def suggest (target : String) (candidates : List String) : List String :=
  let near := candidates.eraseDups.filter fun name =>
    name != target && EditDistance.distance target name ≤ maxDistance
  (near.mergeSort (precedes target)).take maxCount

/-- A suggestion is one of the candidates and not the target itself. -/
theorem mem_of_mem_suggest {target name : String} {candidates : List String}
    (h : name ∈ suggest target candidates) : name ∈ candidates ∧ name ≠ target := by
  have hnear := List.mem_mergeSort.mp (List.mem_of_mem_take h)
  obtain ⟨hmem, hname⟩ := List.mem_filter.mp hnear
  exact ⟨List.mem_eraseDups.mp hmem, bne_iff_ne.mp (Bool.and_eq_true_iff.mp hname).1⟩

/-- Names between backquotes, separated by commas. -/
def enumerate (names : List String) : String :=
  ", ".intercalate (names.map fun name => s!"`{name}`")

/-- The end of a message that offers suggestions; nothing if there are none. -/
def question (suggestions : List String) : String :=
  match suggestions.reverse with
  | [] => ""
  | [only] => s!"; did you mean `{only}`?"
  | last :: others => "; did you mean " ++ enumerate others.reverse ++ s!" or `{last}`?"

end LambdaLift.Suggestion
