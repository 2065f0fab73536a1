import LambdaLift.Proofs.Grammar
import LambdaLift.Term.OfTree

/-!
# Trees of terms

Every term has a tree, and a tree that differs from it in spans only becomes the term again.
-/

namespace LambdaLift

namespace Tree

theorem unspannedAll_eq_nil {trees : List Tree} (h : unspannedAll trees = []) : trees = [] := by
  cases trees with
  | nil => rfl
  | cons tree trees => cases h

theorem unspannedAll_eq_cons {trees others : List Tree} {tree : Tree}
    (h : unspannedAll trees = tree :: others) :
    ∃ first rest, trees = first :: rest ∧ first.unspanned = tree ∧ unspannedAll rest = others := by
  cases trees with
  | nil => cases h
  | cons first rest =>
      cases h
      exact ⟨first, rest, rfl, rfl, rfl⟩

end Tree

namespace Term

open LambdaLift.Tree

mutual

/-- The tree of a term, without spans. -/
def toTree : Term → Tree
  | module name body => ⟨moduleKind, name, default, toTrees body⟩
  | symbol name => leaf symbolKind name default
  | integer value => leaf integerKind value.digits default
  | lambda body params => branch lambdaKind default (toTree body :: toTrees params)
  | apply callee args => branch applyKind default (toTree callee :: toTrees args)
  | block body => branch blockKind default (toTrees body)
  | assign target value => branch assignKind default [toTree target, toTree value]

/-- The trees of a list of terms. -/
def toTrees : List Term → List Tree
  | [] => []
  | t :: ts => toTree t :: toTrees ts

end

theorem ofTrees_cons_eq_ok_iff {tree : Tree} {trees : List Tree} {ts : List Term} :
    ofTrees (tree :: trees) = .ok ts ↔
      ∃ t us, ofTree tree = .ok t ∧ ofTrees trees = .ok us ∧ ts = t :: us := by
  rw [ofTrees, except_bind_eq_ok_iff]
  constructor
  · rintro ⟨t, ht, h⟩
    obtain ⟨us, hus, h⟩ := except_bind_eq_ok_iff.mp h
    cases h
    exact ⟨t, us, ht, hus, rfl⟩
  · rintro ⟨t, us, ht, hus, rfl⟩
    exact ⟨t, ht, except_bind_eq_ok_iff.mpr ⟨us, hus, rfl⟩⟩

section Equations

variable (text : String) (span : Span) (children : List Tree)

theorem ofTree_module :
    ofTree ⟨moduleKind, text, span, children⟩ = module text <$> ofTrees children := by
  unfold ofTree
  rfl

theorem ofTree_symbol : ofTree ⟨symbolKind, text, span, children⟩ = .ok (symbol text) := by
  unfold ofTree
  rfl

theorem ofTree_integer (value : Numeral) :
    ofTree ⟨integerKind, value.digits, span, children⟩ = .ok (integer value) := by
  have hdigits : Numeral.ofDigits? value.digits = some value :=
    Numeral.ofDigits?_eq_some_iff.mpr rfl
  unfold ofTree
  rw [if_neg (by decide), if_neg (by decide), if_pos rfl, hdigits]

theorem ofTree_lambda (body : Tree) (params : List Tree) :
    ofTree ⟨lambdaKind, text, span, body :: params⟩ =
      ofTree body >>= fun t => lambda t <$> ofTrees params := by
  rw [ofTree]
  rfl

theorem ofTree_apply (callee : Tree) (args : List Tree) :
    ofTree ⟨applyKind, text, span, callee :: args⟩ =
      ofTree callee >>= fun t => apply t <$> ofTrees args := by
  rw [ofTree]
  rfl

theorem ofTree_block : ofTree ⟨blockKind, text, span, children⟩ = block <$> ofTrees children := by
  unfold ofTree
  rfl

theorem ofTree_assign (target value : Tree) :
    ofTree ⟨assignKind, text, span, [target, value]⟩ =
      ofTree target >>= fun t => assign t <$> ofTree value := by
  rw [ofTree]
  rfl

end Equations

mutual

/-- A tree that is the tree of a term but for its spans becomes that term. -/
theorem ofTree_of_unspanned :
    ∀ (t : Term) {tree : Tree}, tree.unspanned = toTree t → ofTree tree = .ok t
  | module name body, ⟨kind, text, span, children⟩, h => by
      obtain ⟨rfl, rfl, _, hchildren⟩ := Tree.mk.inj h
      rw [ofTree_module, ofTrees_of_unspanned body hchildren]
      rfl
  | symbol name, ⟨kind, text, span, children⟩, h => by
      obtain ⟨rfl, rfl, _, _⟩ := Tree.mk.inj h
      exact ofTree_symbol text span children
  | integer value, ⟨kind, text, span, children⟩, h => by
      obtain ⟨rfl, rfl, _, _⟩ := Tree.mk.inj h
      exact ofTree_integer span children value
  | lambda body params, ⟨kind, text, span, children⟩, h => by
      obtain ⟨rfl, rfl, _, hchildren⟩ := Tree.mk.inj h
      obtain ⟨first, others, rfl, hfirst, hothers⟩ := unspannedAll_eq_cons hchildren
      rw [ofTree_lambda, ofTree_of_unspanned body hfirst, ofTrees_of_unspanned params hothers]
      rfl
  | apply callee args, ⟨kind, text, span, children⟩, h => by
      obtain ⟨rfl, rfl, _, hchildren⟩ := Tree.mk.inj h
      obtain ⟨first, others, rfl, hfirst, hothers⟩ := unspannedAll_eq_cons hchildren
      rw [ofTree_apply, ofTree_of_unspanned callee hfirst, ofTrees_of_unspanned args hothers]
      rfl
  | block body, ⟨kind, text, span, children⟩, h => by
      obtain ⟨rfl, rfl, _, hchildren⟩ := Tree.mk.inj h
      rw [ofTree_block, ofTrees_of_unspanned body hchildren]
      rfl
  | assign target value, ⟨kind, text, span, children⟩, h => by
      obtain ⟨rfl, rfl, _, hchildren⟩ := Tree.mk.inj h
      obtain ⟨first, others, rfl, hfirst, hothers⟩ := unspannedAll_eq_cons hchildren
      obtain ⟨second, others, rfl, hsecond, hothers⟩ := unspannedAll_eq_cons hothers
      obtain rfl := unspannedAll_eq_nil hothers
      rw [ofTree_assign, ofTree_of_unspanned target hfirst, ofTree_of_unspanned value hsecond]
      rfl

/-- Trees that are the trees of terms but for their spans become those terms. -/
theorem ofTrees_of_unspanned :
    ∀ (ts : List Term) {trees : List Tree}, unspannedAll trees = toTrees ts → ofTrees trees = .ok ts
  | [], trees, h => by
      obtain rfl := unspannedAll_eq_nil h
      rfl
  | t :: ts, trees, h => by
      obtain ⟨first, others, rfl, hfirst, hothers⟩ := unspannedAll_eq_cons h
      exact ofTrees_cons_eq_ok_iff.mpr
        ⟨t, ts, ofTree_of_unspanned t hfirst, ofTrees_of_unspanned ts hothers, rfl⟩

end

end Term

end LambdaLift
