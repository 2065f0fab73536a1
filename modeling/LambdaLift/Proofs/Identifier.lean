import LambdaLift.Renaming
import LambdaLift.Target.Style
import LambdaLift.Token

/-!
# Identifiers

The words of the shape `[A-Za-z_][A-Za-z0-9_]*`. Numbering an identifier gives an identifier, and an
identifier ends where the first other character stands.
-/

namespace LambdaLift

/-- Two texts that agree, each cut before its first character outside a class, have the same
parts. -/
theorem append_inj_of_class {α : Type} {p : α → Bool} {l m r s : List α} (hl : ∀ x ∈ l, p x)
    (hm : ∀ x ∈ m, p x) (hr : ∀ a ∈ r.head?, p a = false) (hs : ∀ a ∈ s.head?, p a = false)
    (h : l ++ r = m ++ s) : l = m ∧ r = s := by
  have hstop {t : List α} (ht : ∀ a ∈ t.head?, p a = false) : t.takeWhile p = [] := by
    cases t with
    | nil => rfl
    | cons a t => exact List.takeWhile_cons_of_neg (by simp [ht a rfl])
  have hfront : l = m := by
    have htake := congrArg (List.takeWhile p) h
    rwa [List.takeWhile_append_of_pos hl, List.takeWhile_append_of_pos hm, hstop hr, hstop hs,
      List.append_nil, List.append_nil] at htake
  subst hfront
  exact ⟨rfl, List.append_cancel_left h⟩

namespace Token

/-- Whether a text is an identifier. -/
def isIdentifier (s : String) : Bool :=
  match s.toList with
  | [] => false
  | c :: cs => isIdentStart c && cs.all isIdentContinue

theorem isIdentifier_iff {s : String} :
    isIdentifier s ↔
      ∃ c cs, s.toList = c :: cs ∧ isIdentStart c ∧ ∀ d ∈ cs, isIdentContinue d := by
  unfold isIdentifier
  cases h : s.toList with
  | nil => simp
  | cons c cs =>
      rw [Bool.and_eq_true, List.all_eq_true]
      constructor
      · rintro ⟨hc, hcs⟩
        exact ⟨c, cs, rfl, hc, hcs⟩
      · rintro ⟨_, _, ⟨rfl, rfl⟩, hc, hcs⟩
        exact ⟨hc, hcs⟩

theorem isIdentContinue_of_mem_identifier {s : String} (h : isIdentifier s) {d : Char}
    (hd : d ∈ s.toList) : isIdentContinue d := by
  obtain ⟨c, cs, hs, hc, hcs⟩ := isIdentifier_iff.mp h
  rw [hs] at hd
  rcases List.mem_cons.mp hd with rfl | hd
  · exact isIdentContinue_of_isIdentStart hc
  · exact hcs d hd

theorem isDigit_eq_false_of_isIdentStart {c : Char} (h : isIdentStart c) : c.isDigit = false := by
  change (decide ('A'.val ≤ c.val ∧ c.val ≤ 'Z'.val) || ('a'.val ≤ c.val && c.val ≤ 'z'.val) ||
    c == '_') = true at h
  simp only [Bool.or_eq_true, Bool.and_eq_true, decide_eq_true_eq, beq_iff_eq] at h
  simp only [Char.isDigit, Bool.and_eq_false_iff, decide_eq_false_iff_not]
  rcases h with (h | h) | rfl
  · exact Or.inr fun hnine => absurd (UInt32.le_trans h.1 hnine) (by decide)
  · exact Or.inr fun hnine => absurd (UInt32.le_trans h.1 hnine) (by decide)
  · decide

/-- Whatever identifier characters follow an identifier, the whole is an identifier. -/
theorem isIdentifier_append {s t : String} (hs : isIdentifier s)
    (ht : ∀ d ∈ t.toList, isIdentContinue d) : isIdentifier (s ++ t) := by
  obtain ⟨c, cs, hcs, hc, hall⟩ := isIdentifier_iff.mp hs
  refine isIdentifier_iff.mpr ⟨c, cs ++ t.toList, ?_, hc, ?_⟩
  · rw [String.toList_append, hcs, List.cons_append]
  · intro d hd
    exact (List.mem_append.mp hd).elim (hall d) (ht d)

end Token

theorem isDigit_of_mem_repr {n : Nat} {c : Char} (hc : c ∈ n.repr.toList) : c.isDigit := by
  rw [Nat.toList_repr] at hc
  exact Nat.isDigit_of_mem_toDigits (by decide) (by decide) hc

theorem repr_toList_ne_nil (n : Nat) : n.repr.toList ≠ [] := by
  rw [Nat.toList_repr]
  exact Nat.toDigits_ne_nil

theorem repr_injective {m n : Nat} (h : m.repr = n.repr) : m = n := by
  have hd : Nat.toDigits 10 m = Nat.toDigits 10 n := by
    rw [← Nat.toList_repr, ← Nat.toList_repr, h]
  rw [← Nat.ofDigitChars_ten_toDigits (n := m), hd, Nat.ofDigitChars_ten_toDigits]

/-- Distinct numbers give distinct names of lifted functions. -/
theorem Target.Style.functionName_injective (style : Target.Style) {i j : Nat}
    (h : style.functionName i = style.functionName j) : i = j := by
  apply repr_injective
  rw [← String.toList_inj] at h ⊢
  simpa [Target.Style.functionName] using h

/-- A style whose type and functions have identifiers as their names. -/
structure Target.Style.WellFormed (style : Target.Style) : Prop where
  anyType : Token.isIdentifier style.anyType
  functionPrefix : Token.isIdentifier style.functionPrefix
  functionSuffix : ∀ c ∈ style.functionSuffix.toList, Token.isIdentContinue c

theorem Target.Style.WellFormed.functionName {style : Target.Style} (h : style.WellFormed)
    (i : Nat) :
    Token.isIdentifier (style.functionName i) := by
  have hnumber : Token.isIdentifier (style.functionPrefix ++ i.repr) :=
    Token.isIdentifier_append h.functionPrefix fun c hc =>
      Token.isIdentContinue_of_isDigit (isDigit_of_mem_repr hc)
  exact Token.isIdentifier_append hnumber h.functionSuffix

/-- The names of the default style are identifiers. -/
theorem Target.Style.wellFormed_default : ({} : Target.Style).WellFormed where
  anyType := by decide
  functionPrefix := by decide
  functionSuffix := List.all_eq_true.mp (by decide)

end LambdaLift
