import LambdaLift.Proofs.Relocation

/-!
# The nodes of a tree

All nodes of a parse tree in preorder, the children of a node in the order in which they stand in a
text, and a tree with its spans changed.
-/

namespace LambdaLift.Tree

mutual

/-- A tree and the trees inside it. -/
def nodes : Tree → List Tree
  | ⟨kind, text, span, children⟩ => ⟨kind, text, span, children⟩ :: nodesAll children

/-- The trees of a list, each followed by those inside it. -/
def nodesAll : List Tree → List Tree
  | [] => []
  | tree :: trees => tree.nodes ++ nodesAll trees

end

theorem nodes_eq (tree : Tree) : tree.nodes = tree :: nodesAll tree.children := by
  cases tree; rfl

mutual

/-- What the children of a tree have whenever the tree has it is had by all its nodes. -/
theorem forall_mem_nodes {P : Tree → Prop}
    (hstep : ∀ tree, P tree → ∀ child ∈ tree.children, P child) :
    ∀ tree, P tree → ∀ node ∈ tree.nodes, P node
  | ⟨kind, text, span, children⟩, htree => by
      rw [nodes]
      refine List.forall_mem_cons.mpr ⟨htree, ?_⟩
      exact forall_mem_nodesAll hstep children (hstep _ htree)

theorem forall_mem_nodesAll {P : Tree → Prop}
    (hstep : ∀ tree, P tree → ∀ child ∈ tree.children, P child) :
    ∀ trees, (∀ tree ∈ trees, P tree) → ∀ node ∈ nodesAll trees, P node
  | [], _ => by simp [nodesAll]
  | tree :: trees, htrees => by
      obtain ⟨htree, hothers⟩ := List.forall_mem_cons.mp htrees
      rw [nodesAll]
      refine List.forall_mem_append.mpr ⟨?_, ?_⟩
      · exact forall_mem_nodes hstep tree htree
      · exact forall_mem_nodesAll hstep trees hothers

end

/-- The children of a node as they stand in a text. A lambda has its body behind its parameters
there. -/
def inOrder (tree : Tree) : List Tree :=
  if tree.kind = lambdaKind then tree.children.tail ++ tree.children.take 1 else tree.children

theorem mem_inOrder {tree child : Tree} : child ∈ tree.inOrder ↔ child ∈ tree.children := by
  unfold inOrder
  split
  · cases tree.children with
    | nil => simp
    | cons body params => simp [or_comm]
  · rfl

theorem inOrder_of_ne {tree : Tree} (h : tree.kind ≠ lambdaKind) : tree.inOrder = tree.children :=
  if_neg h

theorem inOrder_lambda (span : Span) (body : Tree) (params : List Tree) :
    (branch lambdaKind span (body :: params)).inOrder = params ++ [body] := rfl

mutual

theorem mapSpans_congr {g g' : Span → Span} :
    ∀ tree : Tree, (∀ node ∈ tree.nodes, g node.span = g' node.span) →
      tree.mapSpans g = tree.mapSpans g'
  | ⟨kind, text, span, children⟩, h => by
      rw [nodes] at h
      obtain ⟨hspan, hchildren⟩ := List.forall_mem_cons.mp h
      rw [mapSpans, mapSpans, mapSpansAll_congr children hchildren, hspan]

theorem mapSpansAll_congr {g g' : Span → Span} :
    ∀ trees : List Tree, (∀ node ∈ nodesAll trees, g node.span = g' node.span) →
      mapSpansAll g trees = mapSpansAll g' trees
  | [], _ => rfl
  | tree :: trees, h => by
      rw [nodesAll] at h
      obtain ⟨htree, htrees⟩ := List.forall_mem_append.mp h
      rw [mapSpansAll, mapSpansAll, mapSpans_congr tree htree, mapSpansAll_congr trees htrees]

end

mutual

theorem mapSpans_id : ∀ tree : Tree, tree.mapSpans id = tree
  | ⟨kind, text, span, children⟩ => by rw [mapSpans, mapSpansAll_id children, id]

theorem mapSpansAll_id : ∀ trees : List Tree, mapSpansAll id trees = trees
  | [] => rfl
  | tree :: trees => by rw [mapSpansAll, mapSpans_id tree, mapSpansAll_id trees]

end

theorem relocate_id (tree : Tree) : tree.relocate .id = tree := mapSpans_id tree

end LambdaLift.Tree
