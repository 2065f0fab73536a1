import LambdaLift.Numeral
import LambdaLift.Tree

/-!
# Terms

The expressions of the language. A lambda's parameters and an assignment's target are terms too;
whether they are symbols is checked where they bind.
-/

namespace LambdaLift

/-- An expression, or a module inside one. -/
inductive Term where
  | module (name : String) (body : List Term)
  | symbol (name : String)
  | integer (value : Numeral)
  | lambda (body : Term) (params : List Term)
  | apply (callee : Term) (args : List Term)
  | block (body : List Term)
  | assign (target value : Term)

/-- A named sequence of expressions. -/
structure Module where
  name : String
  body : List Term

/-- The kinds of term. -/
inductive Term.Kind where
  | module
  | symbol
  | integer
  | lambda
  | apply
  | block
  | assign
deriving DecidableEq, Repr

/-- The tag that a kind of term has in parse trees and in messages. -/
def Term.Kind.tag : Kind → String
  | module => Tree.moduleKind
  | symbol => Tree.symbolKind
  | integer => Tree.integerKind
  | lambda => Tree.lambdaKind
  | apply => Tree.applyKind
  | block => Tree.blockKind
  | assign => Tree.assignKind

namespace Term

def kind : Term → Kind
  | module _ _ => .module
  | symbol _ => .symbol
  | integer _ => .integer
  | lambda _ _ => .lambda
  | apply _ _ => .apply
  | block _ => .block
  | assign _ _ => .assign

/-- The parts of a term in their fixed order: a lambda's body comes before its parameters. -/
def children : Term → List Term
  | module _ body => body
  | symbol _ => []
  | integer _ => []
  | lambda body params => body :: params
  | apply callee args => callee :: args
  | block body => body
  | assign target value => [target, value]

mutual

/-- The number of terms in a term, itself included. -/
def size : Term → Nat
  | module _ body => 1 + sizes body
  | symbol _ => 1
  | integer _ => 1
  | lambda body params => 1 + size body + sizes params
  | apply callee args => 1 + size callee + sizes args
  | block body => 1 + sizes body
  | assign target value => 1 + size target + size value

/-- The number of terms in a list of terms. -/
def sizes : List Term → Nat
  | [] => 0
  | t :: ts => size t + sizes ts

end

theorem size_eq (t : Term) : t.size = 1 + sizes t.children := by
  cases t <;> simp [size, sizes, children, Nat.add_assoc]

mutual

/-- Whether two terms are equal. -/
def beq : Term → Term → Bool
  | module m b, module n c => m == n && beqs b c
  | symbol m, symbol n => m == n
  | integer m, integer n => m == n
  | lambda b ps, lambda c qs => beq b c && beqs ps qs
  | apply f as, apply g bs => beq f g && beqs as bs
  | block b, block c => beqs b c
  | assign n v, assign m w => beq n m && beq v w
  | _, _ => false

/-- Whether two lists of terms are equal. -/
def beqs : List Term → List Term → Bool
  | [], [] => true
  | t :: ts, u :: us => beq t u && beqs ts us
  | _, _ => false

end

mutual

theorem eq_of_beq : ∀ {t u : Term}, beq t u = true → t = u
  | module _ _, u => by
    cases u <;> simp only [beq, Bool.and_eq_true, beq_iff_eq, Bool.false_eq_true, false_implies]
    rintro ⟨rfl, h⟩; rw [eq_of_beqs h]
  | symbol _, u => by cases u <;> simp [beq]
  | integer _, u => by cases u <;> simp [beq]
  | lambda _ _, u => by
    cases u <;> simp only [beq, Bool.and_eq_true, Bool.false_eq_true, false_implies]
    rintro ⟨h, hs⟩; rw [eq_of_beq h, eq_of_beqs hs]
  | apply _ _, u => by
    cases u <;> simp only [beq, Bool.and_eq_true, Bool.false_eq_true, false_implies]
    rintro ⟨h, hs⟩; rw [eq_of_beq h, eq_of_beqs hs]
  | block _, u => by
    cases u <;> simp only [beq, Bool.false_eq_true, false_implies]
    intro h; rw [eq_of_beqs h]
  | assign _ _, u => by
    cases u <;> simp only [beq, Bool.and_eq_true, Bool.false_eq_true, false_implies]
    rintro ⟨h, h'⟩; rw [eq_of_beq h, eq_of_beq h']

theorem eq_of_beqs : ∀ {ts us : List Term}, beqs ts us = true → ts = us
  | [], us => by cases us <;> simp [beqs]
  | _ :: _, us => by
    cases us <;> simp only [beqs, Bool.and_eq_true, Bool.false_eq_true, false_implies]
    rintro ⟨h, hs⟩; rw [eq_of_beq h, eq_of_beqs hs]

end

mutual

theorem beq_self : ∀ t : Term, beq t t = true
  | module _ b => by simp [beq, beqs_self b]
  | symbol _ => by simp [beq]
  | integer _ => by simp [beq]
  | lambda b ps => by simp [beq, beq_self b, beqs_self ps]
  | apply f as => by simp [beq, beq_self f, beqs_self as]
  | block b => by simp [beq, beqs_self b]
  | assign n v => by simp [beq, beq_self n, beq_self v]

theorem beqs_self : ∀ ts : List Term, beqs ts ts = true
  | [] => by simp [beqs]
  | t :: ts => by simp [beqs, beq_self t, beqs_self ts]

end

instance : DecidableEq Term := fun t u =>
  decidable_of_iff (beq t u = true) ⟨eq_of_beq, fun h => h ▸ beq_self t⟩

end Term

end LambdaLift
