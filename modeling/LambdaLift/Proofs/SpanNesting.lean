import LambdaLift.Proofs.Composition

/-!
# Spans of nodes are nested

The root of a parse tree spans the whole text. Every other node spans a part of it that is not
empty. The children of a node lie inside it, one behind the other in the order of the text.
Applications and blocks start and end at their brackets, assignments end with their value and
lambdas with their body.
-/

namespace LambdaLift.Tree

open Text Token

/-- The children of a node lie inside it, one behind the other in the order of the text. -/
structure NestsChildren (node : Tree) : Prop where
  inside : ∀ child ∈ node.children, node.span.start ≤ child.span.start ∧
    child.span.stop ≤ node.span.stop
  ordered : node.inOrder.Pairwise fun left right => left.span.stop ≤ right.span.start

/-- The node starts at an opening bracket among the tokens and ends at the closing bracket that
matches it. Its children stand between the two. -/
def Delimited (tokens : List Token) (d : Delimiter) (node : Tree) : Prop :=
  ∃ before t inner u after, tokens = before ++ t :: (inner ++ u :: after) ∧ t.kind = d.openingKind ∧
    u.kind = d.closingKind ∧ Balanced inner ∧ node.span.start = t.span.start ∧
      node.span.stop = u.span.stop ∧
    ∀ child ∈ node.children, t.span.stop ≤ child.span.start ∧ child.span.stop ≤ u.span.start

/-- Where nodes with parts start and end. -/
structure Bounded (tokens : List Token) (node : Tree) : Prop where
  bracketed : ∀ d, node.kind = bracketedKind d → Delimited tokens d node
  assign : node.kind = assignKind → ∃ target value, node.children = [target, value] ∧
    node.span.stop = value.span.stop
  lambda : node.kind = lambdaKind → ∃ body params, node.children = body :: params ∧
    node.span.stop = body.span.stop

theorem Delimited.append {tokens : List Token} {d : Delimiter} {node : Tree}
    (h : Delimited tokens d node) (front back : List Token) :
    Delimited (front ++ (tokens ++ back)) d node := by
  obtain ⟨before, t, inner, u, after, rfl, hnode⟩ := h
  exact ⟨front ++ before, t, inner, u, after ++ back, by simp, hnode⟩

theorem Bounded.append {tokens : List Token} {node : Tree} (h : Bounded tokens node)
    (front back : List Token) :
    Bounded (front ++ (tokens ++ back)) node :=
  ⟨fun d hkind => (h.bracketed d hkind).append front back, h.assign, h.lambda⟩

section Nodes

variable {used : List Token} {node : Tree}

theorem ReadsExpression.nestsChildren (h : ReadsExpression used node []) (hused : Ascending used) :
    node.NestsChildren := by
  have hsequence := h.composed.sequence_inOrder
  refine ⟨fun child hchild => ?_, hsequence.ordered hused⟩
  obtain ⟨part, hpart, hchild⟩ :=
    (hsequence.readWithin child (mem_inOrder.mpr hchild)).exists_encloses hused
  exact (h.encloses hused).inside hused hchild hpart

/-- A bracketed part reaches from bracket to bracket, with its children between them. -/
theorem delimited_bracketed {d : Delimiter} {t u : Token} {inner : List Token} {parts : List Tree}
    (ht : t.kind = d.openingKind) (hu : u.kind = d.closingKind)
    (hparts : Sequence Separates inner parts) (hused : Ascending (t :: (inner ++ [u]))) :
    Delimited (t :: (inner ++ [u])) d (branch (bracketedKind d) (t.span.cover u.span) parts) := by
  have hspan : (t.span.cover u.span).Encloses ([t] ++ (inner ++ [u])) :=
    (Span.Encloses.singleton t).cover (.singleton u) hused
  have hspan' : (t.span.cover u.span).Encloses ((t :: inner) ++ [u]) := hspan
  refine ⟨[], t, inner, u, [], rfl, ht, hu, hparts.balanced, hspan.start_eq (.singleton t),
    hspan'.stop_eq (.singleton u), fun child hchild => ?_⟩
  have hinner : Ascending inner := hused.sublist ((List.sublist_append_left inner [u]).cons t)
  obtain ⟨part, hpart, hchild⟩ := (hparts.readWithin child hchild).exists_encloses hinner
  constructor
  · have hsub : ([t] ++ part).Sublist (t :: (inner ++ [u])) :=
      (hpart.trans (List.sublist_append_left inner [u])).cons_cons t
    exact (Span.Encloses.singleton t).stop_le_start hchild (hused.sublist hsub)
  · exact hchild.stop_le_start (.singleton u) (hused.sublist ((hpart.append_right [u]).cons t))

theorem ReadsExpression.bounded (h : ReadsExpression used node []) (hused : Ascending used) :
    Bounded used node := by
  have hspan := h.encloses hused
  cases h.composed with
  | @leaf t kind hleaf =>
      obtain ⟨hassign, hlambda, hbracketed⟩ := leafKind_ne hleaf
      exact ⟨fun d hkind => absurd hkind (hbracketed d), fun hkind => absurd hkind hassign,
        fun hkind => absurd hkind hlambda⟩
  | @assign t u ts value _ hvalue =>
      have hspan' : Span.Encloses _ ([t, u] ++ ts) := hspan
      have hts : Ascending ts := hused.sublist (List.sublist_append_right [t, u] ts)
      refine ⟨fun d hkind => absurd hkind.symm (bracketedKind_ne d).1, fun _ => ?_, fun hkind => ?_⟩
      · exact ⟨_, value, rfl, hspan'.stop_eq (hvalue.encloses hts)⟩
      · exact absurd (show assignKind = lambdaKind from hkind) (by decide)
  | @bracketed d t u inner parts ht hu hparts =>
      refine ⟨fun d' hkind => ?_, fun hkind => absurd hkind (bracketedKind_ne d).1,
        fun hkind => absurd hkind (bracketedKind_ne d).2⟩
      obtain rfl := bracketedKind_injective hkind
      exact delimited_bracketed ht hu hparts hused
  | @lambda t u a inner params ts body _ hbody =>
      have hsplit : t :: (inner ++ u :: a :: ts) = (t :: inner ++ [u, a]) ++ ts := by simp
      rw [hsplit] at hspan hused
      have hbody' := hbody.encloses (hused.sublist (List.sublist_append_right _ ts))
      refine ⟨fun d hkind => absurd hkind.symm (bracketedKind_ne d).2, fun hkind => ?_, fun _ => ?_⟩
      · exact absurd (show lambdaKind = assignKind from hkind) (by decide)
      · exact ⟨body, params, rfl, hspan.stop_eq hbody'⟩

end Nodes

/-- The spans of a parse tree are nested. The root spans the whole text, every other node a part of
it that is not empty. The children of a node lie inside it and come one behind the other in the
order of the text. Applications and blocks reach from their opening to their closing bracket,
assignments end where their value ends and lambdas where their body ends. -/
theorem ofSource_spans_nested {source : String} {tree : Tree}
    (hlen : byteLength source.toList < UInt32.size) (h : ofSource source = .ok tree) :
    (tree.span.start.toNat = 0 ∧ tree.span.stop.toNat = byteLength source.toList) ∧
    (∀ node ∈ tree.nodes, node.NestsChildren) ∧
    ∃ tokens, Token.read source = .ok tokens ∧ ∀ node ∈ nodesAll tree.children,
      node.span.start < node.span.stop ∧ node.span.stop.toNat ≤ byteLength source.toList ∧
        Bounded tokens node := by
  obtain ⟨ts, trees, htiles, hsequence, rfl⟩ := ofSource_eq_ok_iff.mp h
  have hts : Ascending ts := htiles.ascending (by omega)
  have hstop : (Span.ofOffsets 0 (byteLength source.toList)).stop.toNat =
      byteLength source.toList :=
    UInt32.toNat_ofNat_of_lt' hlen
  refine ⟨⟨rfl, hstop⟩, ?_, ts ++ [endAt (byteLength source.toList)], read_of_tiles htiles,
    fun node hnode => ?_⟩
  · rw [nodes_eq]
    refine List.forall_mem_cons.mpr ⟨⟨fun child hchild => ⟨UInt32.zero_le, ?_⟩, ?_⟩,
      fun node hnode => ?_⟩
    · rw [UInt32.le_iff_toNat_le]
      exact Nat.le_trans ((hsequence.readWithin child hchild).span_le htiles hlen).2
        (Nat.le_of_eq hstop.symm)
    · rw [inOrder_of_ne (show moduleKind ≠ lambdaKind by decide)]
      exact hsequence.ordered hts
    · obtain ⟨before, used, after, rfl, halone⟩ := hsequence.nodes_readWithin node hnode
      exact halone.nestsChildren hts.middle
  · have hwithin := hsequence.nodes_readWithin node hnode
    obtain ⟨used, hused, hspan⟩ := hwithin.exists_encloses hts
    refine ⟨hspan.start_lt_stop (hts.sublist hused), (hwithin.span_le htiles hlen).2, ?_⟩
    obtain ⟨before, used, after, rfl, halone⟩ := hwithin
    have happend :=
      (halone.bounded hts.middle).append before (after ++ [endAt (byteLength source.toList)])
    rwa [← List.append_assoc used, ← List.append_assoc before] at happend

/-- In the text of an assignment, the assigned lambda ends where its body ends, and this is a block
that reaches from brace to brace. -/
theorem ofSource_spans_nested_block :
    byteLength "f = (x y) => { (x y); 1 } // é".toList < UInt32.size ∧
    ∃ tree tokens, ofSource "f = (x y) => { (x y); 1 } // é" = .ok tree ∧
      Token.read "f = (x y) => { (x y); 1 } // é" = .ok tokens ∧ tree.span.stop.toNat = 31 ∧
      (∃ lambda ∈ nodesAll tree.children, lambda.NestsChildren ∧
        ∃ body params, lambda.children = body :: params ∧ lambda.span.stop = body.span.stop) ∧
      ∃ block ∈ nodesAll tree.children, block.kind = blockKind ∧ Delimited tokens .brace block := by
  obtain ⟨tree, htree, hkinds⟩ :=
    exists_eq_ok_of_any (x := ofSource "f = (x y) => { (x y); 1 } // é")
    (p := fun tree => (nodesAll tree.children).any (·.kind = lambdaKind) &&
      (nodesAll tree.children).any (·.kind = blockKind)) (by decide +kernel)
  have hlen : byteLength "f = (x y) => { (x y); 1 } // é".toList < UInt32.size := by decide
  obtain ⟨⟨_, hstop⟩, hnested, tokens, htokens, hnodes⟩ := ofSource_spans_nested hlen htree
  simp only [Bool.and_eq_true, List.any_eq_true, decide_eq_true_eq] at hkinds
  obtain ⟨⟨lambda, hlambda, hkind⟩, block, hblock, hkind'⟩ := hkinds
  refine ⟨hlen, tree, tokens, htree, htokens, hstop.trans (by decide), ?_, ?_⟩
  · have hmem : lambda ∈ tree.nodes := by
      rw [nodes_eq]
      exact List.mem_cons_of_mem tree hlambda
    exact ⟨lambda, hlambda, hnested lambda hmem, (hnodes lambda hlambda).2.2.lambda hkind⟩
  · exact ⟨block, hblock, hkind', (hnodes block hblock).2.2.bracketed .brace hkind'⟩

end LambdaLift.Tree
