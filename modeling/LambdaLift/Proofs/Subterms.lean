import LambdaLift.Term

/-!
# The terms inside a term

All parts of a term in postorder: the parts of a part come before it, and parts from left to right.
The lambdas among them are listed in the order in which lifting numbers its functions.
-/

namespace LambdaLift

namespace Term

mutual

/-- The terms inside a term and the term itself at the end. -/
def postorder : Term → List Term
  | module name body => postorderAll body ++ [module name body]
  | symbol name => [symbol name]
  | integer value => [integer value]
  | lambda body params => postorder body ++ postorderAll params ++ [lambda body params]
  | apply callee args => postorder callee ++ postorderAll args ++ [apply callee args]
  | block body => postorderAll body ++ [block body]
  | assign target value => postorder target ++ postorder value ++ [assign target value]

/-- The terms inside each of a list of terms, followed by that term. -/
def postorderAll : List Term → List Term
  | [] => []
  | t :: ts => postorder t ++ postorderAll ts

end

theorem postorder_eq (t : Term) : t.postorder = postorderAll t.children ++ [t] := by
  cases t <;> simp [postorder, postorderAll, children]

theorem mem_postorder_self (t : Term) : t ∈ t.postorder := by
  simp [postorder_eq t]

theorem mem_postorderAll {u t : Term} {ts : List Term} (ht : t ∈ ts) (hu : u ∈ t.postorder) :
    u ∈ postorderAll ts := by
  induction ts with
  | nil => cases ht
  | cons v ts ih =>
      rw [postorderAll]
      rcases List.mem_cons.mp ht with rfl | ht
      · exact List.mem_append_left _ hu
      · exact List.mem_append_right _ (ih ht)

theorem mem_postorderAll_of_children {u t : Term} {ts : List Term}
    (hu : u ∈ postorderAll t.children) : u ∈ postorderAll (t :: ts) := by
  rw [postorderAll, postorder_eq]
  exact List.mem_append_left _ (List.mem_append_left _ hu)

theorem mem_postorderAll_of_tail {u t : Term} {ts : List Term} (hu : u ∈ postorderAll ts) :
    u ∈ postorderAll (t :: ts) := by
  rw [postorderAll]
  exact List.mem_append_right _ hu

/-- What holds of all terms in a list holds of the parts of the first one, of that one and of the
others. -/
theorem forall_mem_postorderAll_cons {P : Term → Prop} {t : Term} {ts : List Term} :
    (∀ u ∈ postorderAll (t :: ts), P u) ↔
      (∀ u ∈ postorderAll t.children, P u) ∧ P t ∧ ∀ u ∈ postorderAll ts, P u := by
  rw [postorderAll, postorder_eq, List.forall_mem_append, List.forall_mem_append,
    List.forall_mem_singleton, and_assoc]

theorem postorderAll_symbols (xs : List String) :
    postorderAll (xs.map symbol) = xs.map symbol := by
  induction xs with
  | nil => rfl
  | cons x xs ih => simp [postorderAll, postorder, ih]

/-- Induction over lists of terms: the parts of a first term and the rest of the list come before
the list. -/
@[elab_as_elim]
theorem forestInduction {P : List Term → Prop} (nil : P [])
    (cons : ∀ t ts, P t.children → P ts → P (t :: ts)) (ts : List Term) : P ts := by
  generalize hn : sizes ts = n
  induction n using Nat.strongRecOn generalizing ts with
  | _ n ih =>
      cases ts with
      | nil => exact nil
      | cons t ts =>
          have hsize : t.size = 1 + sizes t.children := t.size_eq
          rw [sizes] at hn
          exact cons t ts (ih _ (by omega) _ rfl) (ih _ (by omega) _ rfl)

def isLambda : Term → Bool
  | lambda _ _ => true
  | _ => false

/-- The lambdas inside a list of terms, in postorder. -/
def lambdasAll (ts : List Term) : List Term := (postorderAll ts).filter isLambda

@[simp] theorem lambdasAll_nil : lambdasAll [] = [] := rfl

theorem lambdasAll_cons (t : Term) (ts : List Term) :
    lambdasAll (t :: ts) = lambdasAll t.children ++ [t].filter isLambda ++ lambdasAll ts := by
  rw [lambdasAll, postorderAll, postorder_eq, List.filter_append, List.filter_append]
  rfl

theorem lambdasAll_symbols (xs : List String) : lambdasAll (xs.map symbol) = [] := by
  simp [lambdasAll, postorderAll_symbols, isLambda]

end Term

namespace Module

/-- All terms of a module in postorder. -/
def postorder (m : Module) : List Term := Term.postorderAll m.body

/-- The lambdas of a module in postorder. -/
def lambdas (m : Module) : List Term := Term.lambdasAll m.body

end Module

end LambdaLift
