/-!
# Numerals

An integer is kept as the digits that were written: their number is not limited and leading zeros
stay.
-/

namespace LambdaLift

/-- A non-empty run of decimal digits. -/
structure Numeral where
  digits : String
  digits_ne_nil : digits.toList ≠ []
  isDigit_digits : digits.toList.all Char.isDigit
deriving DecidableEq

namespace Numeral

/-- The numeral with the given digits, if they are digits and at least one. -/
def ofDigits? (s : String) : Option Numeral :=
  if h : s.toList ≠ [] ∧ s.toList.all Char.isDigit then some ⟨s, h.1, h.2⟩ else none

theorem ofDigits?_eq_some_iff {s : String} {n : Numeral} : ofDigits? s = some n ↔ n.digits = s := by
  constructor
  · intro h
    unfold ofDigits? at h
    split at h
    · cases h; rfl
    · cases h
  · rintro rfl
    simp only [ofDigits?]
    rw [dif_pos ⟨n.digits_ne_nil, n.isDigit_digits⟩]

theorem ofDigits?_eq_none_iff {s : String} :
    ofDigits? s = none ↔ s.toList = [] ∨ ¬ s.toList.all Char.isDigit := by
  simp only [ofDigits?, dite_eq_right_iff, reduceCtorEq, imp_false,
    Classical.not_and_iff_not_or_not, ne_eq, Classical.not_not]

/-- The decimal numeral of a natural number. -/
def ofNat (n : Nat) : Numeral where
  digits := n.repr
  digits_ne_nil := by simp [Nat.repr, Nat.toDigits_ne_nil]
  isDigit_digits := by
    simp only [Nat.repr, String.toList_ofList, List.all_eq_true]
    exact fun c hc => Nat.isDigit_of_mem_toDigits (by decide) (by decide) hc

end Numeral

end LambdaLift
