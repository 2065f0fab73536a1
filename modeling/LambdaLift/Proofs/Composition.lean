import LambdaLift.Proofs.Brackets
import LambdaLift.Proofs.Passages
import LambdaLift.Proofs.TreeNodes

/-!
# Trees and the tokens they are read from

Every node of a tree is read from tokens that stand next to each other, and it would be read from
them alone. `Composed` says how a node is put together from its tokens, and `Sequence` how trees
follow each other in a list of tokens. So the span of a node is that of its tokens, and the nodes
inside it are read from some of these.
-/

namespace LambdaLift.Tree

open Text Token

/-- An expression would be read from its own tokens alone. -/
theorem exists_readsExpression {ts : List Token} {p : Parsed Tree ts} (h : expression ts = .ok p) :
    ∃ used, used ++ p.rest = ts ∧ ReadsExpression used p.value [] := by
  obtain ⟨used, hused, hlocal⟩ := expression_relocate h
  have halone := hlocal .id [] (by simp [EndsLike])
  rw [Token.map_relocate_id, List.append_nil, relocate_id] at halone
  exact ⟨used, hused, halone⟩

section Alone

variable {used : List Token} {tree : Tree}

/-- What is read from tokens alone is read from them at every place and before all tokens that do
not continue it. -/
theorem ReadsExpression.relocate (h : ReadsExpression used tree []) (f : Relocation)
    {rest : List Token} (hrest : Ends rest) :
    ReadsExpression (used.map (Token.relocate f) ++ rest) (tree.relocate f) rest := by
  obtain ⟨_, hread⟩ := h.expression_eq
  obtain ⟨used', hused, hlocal⟩ := expression_relocate hread
  obtain rfl : used' = used := by simpa using hused
  refine hlocal f rest fun t ht hkind => ?_
  obtain ⟨hequals, harrow⟩ := hrest t ht
  rcases hkind with hkind | hkind
  · exact absurd hkind hequals
  · exact absurd hkind harrow

theorem ReadsExpression.relocate_alone (h : ReadsExpression used tree []) (f : Relocation) :
    ReadsExpression (used.map (Token.relocate f)) (tree.relocate f) [] := by
  have hread := h.relocate f (show Ends [] by simp [Ends])
  rwa [List.append_nil] at hread

theorem ReadsExpression.append (h : ReadsExpression used tree []) {rest : List Token}
    (hrest : Ends rest) :
    ReadsExpression (used ++ rest) tree rest := by
  have hread := h.relocate .id hrest
  rwa [Token.map_relocate_id, relocate_id] at hread

theorem ReadsExpression.derives (h : ReadsExpression used tree []) :
    Derives .expression used [tree.unspanned] := by
  obtain ⟨_, hread⟩ := h.expression_eq
  obtain ⟨used', hused, hderives⟩ := derives_of_expression hread
  obtain rfl : used' = used := by simpa using hused
  exact hderives

end Alone

/-- `Sequence skips ts trees`: the tokens `ts` are those of the trees, one tree behind the other,
and tokens that can be skipped. -/
inductive Sequence (skips : Token → Prop) : List Token → List Tree → Prop
  | nil : Sequence skips [] []
  | skip {t ts trees} (ht : skips t) (tail : Sequence skips ts trees) :
    Sequence skips (t :: ts) trees
  | part {used tree ts trees} (head : ReadsExpression used tree []) (tail :
    Sequence skips ts trees) :
      Sequence skips (used ++ ts) (tree :: trees)

/-- The tokens that can stand between the expressions of a module or of a block. -/
def Separates (t : Token) : Prop := t.kind = .semicolon

namespace Sequence

variable {skips skips' : Token → Prop} {ts us : List Token} {trees trees' : List Tree}

theorem mono (h : Sequence skips ts trees) (hskips : ∀ t, skips t → skips' t) :
    Sequence skips' ts trees := by
  induction h with
  | nil => exact .nil
  | skip ht _ ih => exact .skip (hskips _ ht) ih
  | part head _ ih => exact .part head ih

theorem append (h : Sequence skips ts trees) (h' : Sequence skips us trees') :
    Sequence skips (ts ++ us) (trees ++ trees') := by
  induction h with
  | nil => exact h'
  | skip ht _ ih => exact .skip ht ih
  | part head _ ih =>
      rw [List.append_assoc]
      exact .part head ih

theorem singleton {tree : Tree} (h : ReadsExpression ts tree []) : Sequence skips ts [tree] := by
  have hpart : Sequence skips (ts ++ []) [tree] := .part h .nil
  rwa [List.append_nil] at hpart

theorem ne_eof (h : Sequence Separates ts trees) : ∀ t ∈ ts, t.kind ≠ .eof := by
  induction h with
  | nil => simp
  | skip ht _ ih => exact List.forall_mem_cons.mpr ⟨by rw [ht]; decide, ih⟩
  | part head _ ih => exact List.forall_mem_append.mpr ⟨head.derives.ne_eof, ih⟩

theorem balanced (h : Sequence Separates ts trees) : Balanced ts := by
  induction h with
  | nil => exact .nil
  | skip ht _ ih => exact .cons (by rw [ht]; rfl) ih
  | part head _ ih => exact .append head.derives.balanced ih

/-- No sequence continues an expression before it. -/
theorem ends (h : Sequence Separates ts trees) {rest : List Token} (hrest : Ends rest) :
    Ends (ts ++ rest) := by
  cases h with
  | nil => exact hrest
  | skip ht _ => exact .cons (by rw [ht]; decide)
  | part head _ =>
      rw [List.append_assoc]
      exact head.derives.ends_expression _

/-- A sequence up to the end of the text is read as its trees. -/
theorem expressions_eq (h : Sequence Separates ts trees) {e : Token} (he : e.kind = .eof) :
    expressions (ts ++ [e]) = .ok trees := by
  induction h with
  | nil => exact expressions_eof he
  | skip ht _ ih => exact (expressions_semicolon ht).trans ih
  | part head tail ih =>
      rw [List.append_assoc]
      have hends : Ends [e] := .cons (by rw [he]; decide)
      obtain ⟨_, hpart⟩ := (head.append (tail.ends hends)).expression_eq
      exact expressions_part hpart ih

/-- A sequence without any other tokens is read up to a closing parenthesis. -/
theorem elements_eq (h : Sequence (fun _ => False) ts trees) (opening : Token) {close : Token}
    (hclose : close.kind = .rparen) (rest : List Token) :
    ∃ hlt, elements opening (ts ++ close :: rest) = .ok ⟨⟨trees, close⟩, rest, hlt⟩ := by
  induction h with
  | nil => exact elements_close hclose
  | skip ht _ _ => exact ht.elim
  | part head tail ih =>
      have hends : Ends (close :: rest) := .cons (by rw [hclose]; decide)
      obtain ⟨_, hpart⟩ := (head.append ((tail.mono fun _ => False.elim).ends hends)).expression_eq
      obtain ⟨_, hothers⟩ := ih
      rw [List.append_assoc]
      exact elements_part hpart hothers

/-- A sequence with semicolons in it is read up to a closing brace. -/
theorem statements_eq (h : Sequence Separates ts trees) (opening : Token) {close : Token}
    (hclose : close.kind = .rbrace) (rest : List Token) :
    ∃ hlt, statements opening (ts ++ close :: rest) = .ok ⟨⟨trees, close⟩, rest, hlt⟩ := by
  induction h with
  | nil => exact statements_close hclose
  | skip ht _ ih =>
      obtain ⟨_, hothers⟩ := ih
      exact statements_semicolon ht hothers
  | part head tail ih =>
      have hends : Ends (close :: rest) := .cons (by rw [hclose]; decide)
      obtain ⟨_, hpart⟩ := (head.append (tail.ends hends)).expression_eq
      obtain ⟨_, hothers⟩ := ih
      rw [List.append_assoc]
      exact statements_part hpart hothers

end Sequence

/-- What is read up to a closing parenthesis is a sequence without any other tokens. -/
theorem exists_sequence_of_elements {opening : Token} {ts : List Token} {p : Parsed Enclosed ts}
    (h : elements opening ts = .ok p) :
    ∃ inner, inner ++ p.value.close :: p.rest = ts ∧
      Sequence (fun _ => False) inner p.value.parts := by
  rcases elements_eq_ok h with ⟨hts, _, hparts⟩ | ⟨part, others, hpart, hothers, hvalue, hrest⟩
  · rw [hparts]
    exact ⟨[], hts.symm, .nil⟩
  · have hlt := part.rest_lt
    obtain ⟨used, hused, halone⟩ := exists_readsExpression hpart
    obtain ⟨inner, hinner, hsequence⟩ := exists_sequence_of_elements hothers
    rw [hvalue, hrest]
    refine ⟨used ++ inner, ?_, .part halone hsequence⟩
    rw [List.append_assoc, hinner, hused]
termination_by ts.length

/-- What is read up to a closing brace is a sequence with semicolons in it. -/
theorem exists_sequence_of_statements {opening : Token} {ts : List Token} {p : Parsed Enclosed ts}
    (h : statements opening ts = .ok p) :
    ∃ inner, inner ++ p.value.close :: p.rest = ts ∧ Sequence Separates inner p.value.parts := by
  rcases statements_eq_ok h with ⟨hts, _, hparts⟩ |
    ⟨t, us, others, hts, ht, hothers, hvalue, hrest⟩ | ⟨part, others, hpart, hothers, hvalue, hrest⟩
  · rw [hparts]
    exact ⟨[], hts.symm, .nil⟩
  · have hlt : us.length < ts.length := by simp [hts]
    obtain ⟨inner, hinner, hsequence⟩ := exists_sequence_of_statements hothers
    rw [hvalue, hrest]
    exact ⟨t :: inner, by rw [List.cons_append, hinner, hts], .skip ht hsequence⟩
  · have hlt := part.rest_lt
    obtain ⟨used, hused, halone⟩ := exists_readsExpression hpart
    obtain ⟨inner, hinner, hsequence⟩ := exists_sequence_of_statements hothers
    rw [hvalue, hrest]
    refine ⟨used ++ inner, ?_, .part halone hsequence⟩
    rw [List.append_assoc, hinner, hused]
termination_by ts.length

/-- What is read up to the end of the text is a sequence with semicolons in it. -/
theorem exists_sequence_of_expressions {ts : List Token} {trees : List Tree}
    (h : expressions ts = .ok trees) :
    ∃ used rest, used ++ rest = ts ∧ (∀ t ∈ rest.head?, t.kind = .eof) ∧
      Sequence Separates used trees := by
  rcases expressions_eq_ok h with ⟨hts, rfl⟩ | ⟨t, us, hts, ht, hus⟩ |
    ⟨part, others, hpart, hothers, rfl⟩
  · exact ⟨[], ts, rfl, hts, .nil⟩
  · have hlt : us.length < ts.length := by simp [hts]
    obtain ⟨used, rest, hused, hrest, hsequence⟩ := exists_sequence_of_expressions hus
    exact ⟨t :: used, rest, by rw [List.cons_append, hused, hts], hrest, .skip ht hsequence⟩
  · have hlt := part.rest_lt
    obtain ⟨used, hused, halone⟩ := exists_readsExpression hpart
    obtain ⟨used', rest, hused', hrest, hsequence⟩ := exists_sequence_of_expressions hothers
    refine ⟨used ++ used', rest, ?_, hrest, .part halone hsequence⟩
    rw [List.append_assoc, hused', hused]
termination_by ts.length

/-- The words of a text with a tree are a sequence. -/
theorem sequence_of_expressions {ts : List Token} {e : Token} {trees : List Tree}
    (hts : ∀ t ∈ ts, t.kind ≠ .eof) (he : e.kind = .eof) (h : expressions (ts ++ [e]) = .ok trees) :
    Sequence Separates ts trees := by
  obtain ⟨used, rest, hused, hrest, hsequence⟩ := exists_sequence_of_expressions h
  obtain ⟨rfl, _⟩ :=
    append_inj_of_class (p := fun t => t.kind ≠ .eof) (by simpa using hsequence.ne_eof)
    (by simpa using hts) (fun t ht => by simp [hrest t ht]) (by simp [he]) hused
  exact hsequence

/-- The tag of the node that stands for a bracketed part. -/
def bracketedKind : Delimiter → String
  | .paren => applyKind
  | .brace => blockKind

theorem bracketedKind_ne (d : Delimiter) :
    bracketedKind d ≠ assignKind ∧ bracketedKind d ≠ lambdaKind := by
  cases d <;> decide

theorem bracketedKind_injective {d d' : Delimiter} (h : bracketedKind d = bracketedKind d') :
    d = d' := by
  cases d with
  | paren =>
      cases d' with
      | paren => rfl
      | brace => exact absurd h (by decide)
  | brace =>
      cases d' with
      | paren => exact absurd h (by decide)
      | brace => rfl

theorem leafKind_ne {kind : String} (h : kind = integerKind ∨ kind = symbolKind) :
    kind ≠ assignKind ∧ kind ≠ lambdaKind ∧ ∀ d, kind ≠ bracketedKind d := by
  rcases h with rfl | rfl
  · exact ⟨by decide, by decide, fun d => by cases d <;> decide⟩
  · exact ⟨by decide, by decide, fun d => by cases d <;> decide⟩

/-- How a node is put together from the tokens that it is read from. -/
inductive Composed : List Token → Tree → Prop
  | leaf {t kind} (hkind : kind = integerKind ∨ kind = symbolKind) :
    Composed [t] (leaf kind t.text t.span)
  | assign {t u ts value} (ht : t.kind = .ident) (hvalue : ReadsExpression ts value []) :
      Composed (t :: u :: ts)
        (branch assignKind (t.span.cover value.span) [Tree.leaf symbolKind t.text t.span, value])
  | bracketed {d t u inner parts} (ht : t.kind = d.openingKind) (hu : u.kind = d.closingKind)
      (hparts : Sequence Separates inner parts) :
      Composed (t :: (inner ++ [u])) (branch (bracketedKind d) (t.span.cover u.span) parts)
  | lambda {t u a inner params ts body} (hparams : Sequence (fun _ => False) inner params)
      (hbody : ReadsExpression ts body []) :
      Composed (t :: (inner ++ u :: a :: ts))
        (branch lambdaKind (t.span.cover body.span) (body :: params))

/-- Every expression that is read is put together from its tokens. -/
theorem exists_composed {ts rest : List Token} {tree : Tree} (h : ReadsExpression ts tree rest) :
    ∃ used, used ++ rest = ts ∧ Composed used tree := by
  cases h with
  | @integer t _ _ => exact ⟨[t], rfl, .leaf (.inl rfl)⟩
  | @symbol t _ _ _ => exact ⟨[t], rfl, .leaf (.inr rfl)⟩
  | @assign t u vs value ht hu hvalue =>
      obtain ⟨used, hused, halone⟩ := exists_readsExpression hvalue
      exact ⟨t :: u :: used, by simp [hused], .assign ht halone⟩
  | @apply t us group ht hgroup hne _ =>
      obtain ⟨inner, hinner, hsequence⟩ := exists_sequence_of_elements hgroup
      obtain ⟨_, _, hclose, _⟩ := derives_of_elements hgroup
      exact ⟨t :: (inner ++ [group.value.close]), by simp [hinner],
        .bracketed (d := .paren) ht hclose (hsequence.mono fun _ => False.elim)⟩
  | @lambda t us group a vs body ht hgroup hrest ha _ hbody =>
      obtain ⟨inner, hinner, hsequence⟩ := exists_sequence_of_elements hgroup
      obtain ⟨used, hused, halone⟩ := exists_readsExpression hbody
      rw [hrest] at hinner
      exact ⟨t :: (inner ++ group.value.close :: a :: used), by simp [hused, hinner],
        .lambda hsequence halone⟩
  | @block t us group ht hgroup =>
      obtain ⟨inner, hinner, hsequence⟩ := exists_sequence_of_statements hgroup
      obtain ⟨_, _, hclose, _⟩ := derives_of_statements hgroup
      exact ⟨t :: (inner ++ [group.value.close]), by simp [hinner],
        .bracketed (d := .brace) ht hclose hsequence⟩

theorem ReadsExpression.composed {used : List Token} {tree : Tree}
    (h : ReadsExpression used tree []) :
    Composed used tree := by
  obtain ⟨used', hused, hcomposed⟩ := exists_composed h
  rwa [← hused, List.append_nil]

/-- The children of a node follow each other in its tokens, with brackets and other marks around
them. -/
theorem Composed.sequence_inOrder {used : List Token} {tree : Tree} (h : Composed used tree) :
    Sequence (fun _ => True) used tree.inOrder := by
  cases h with
  | @leaf t kind hkind =>
      rw [inOrder_of_ne (leafKind_ne hkind).2.1]
      exact .skip trivial .nil
  | @assign t u ts value ht hvalue =>
      have hname : ReadsExpression [t] (Tree.leaf symbolKind t.text t.span) [] :=
        .symbol ht (by simp)
      exact .part hname (.skip trivial (.singleton hvalue))
  | @bracketed d t u inner parts _ _ hparts =>
      rw [inOrder_of_ne (bracketedKind_ne d).2]
      have hall := (hparts.mono fun _ _ => trivial).append (Sequence.skip (t := u) trivial .nil)
      rw [List.append_nil] at hall
      exact .skip trivial hall
  | @lambda t u a inner params ts body hparams hbody =>
      rw [inOrder_lambda]
      exact .skip trivial ((hparams.mono fun _ => False.elim).append
        (.skip trivial (.skip trivial (.singleton hbody))))

/-- The span of a node reaches over its tokens. -/
theorem ReadsExpression.encloses {used : List Token} {tree : Tree}
    (h : ReadsExpression used tree []) (hused : Ascending used) : tree.span.Encloses used := by
  have hcomposed := h.composed
  generalize hused' : used = used' at hcomposed ⊢
  rw [hused'] at hused
  cases hcomposed with
  | @leaf t kind _ => exact .singleton t
  | @assign t u ts value _ hvalue =>
      have hvalue' := hvalue.encloses (hused.sublist ((List.sublist_cons_self u ts).cons t))
      change (t.span.cover value.span).Encloses ([t] ++ ([u] ++ ts))
      exact (Span.Encloses.singleton t).cover hvalue' hused
  | @bracketed d t u inner parts _ _ _ =>
      exact (Span.Encloses.singleton t).cover (.singleton u) hused
  | @lambda t u a inner params ts body _ hbody =>
      have hts : inner ++ u :: a :: ts = (inner ++ [u, a]) ++ ts := by simp
      rw [hts] at hused ⊢
      have hbody' := hbody.encloses (hused.sublist ((List.sublist_append_right _ ts).cons t))
      exact (Span.Encloses.singleton t).cover hbody' hused
termination_by used.length
decreasing_by all_goals simp only [hused', List.length_cons, List.length_append]; omega

/-- The tree is read from tokens of the list that stand next to each other. -/
def ReadWithin (ts : List Token) (tree : Tree) : Prop :=
  ∃ before used after, ts = before ++ (used ++ after) ∧ ReadsExpression used tree []

section Within

variable {skips : Token → Prop} {ts : List Token} {trees : List Tree} {tree : Tree}

theorem Sequence.readWithin (h : Sequence skips ts trees) : ∀ tree ∈ trees, ReadWithin ts tree := by
  induction h with
  | nil => simp
  | @skip t ts trees _ _ ih =>
      intro tree htree
      obtain ⟨before, used, after, rfl, halone⟩ := ih tree htree
      exact ⟨t :: before, used, after, rfl, halone⟩
  | @part used tree ts trees head _ ih =>
      refine List.forall_mem_cons.mpr ⟨⟨[], used, ts, rfl, head⟩, fun tree' htree' => ?_⟩
      obtain ⟨before, used', after, rfl, halone⟩ := ih tree' htree'
      exact ⟨used ++ before, used', after, by simp, halone⟩

theorem ReadWithin.child (h : ReadWithin ts tree) :
    ∀ child ∈ tree.children, ReadWithin ts child := by
  intro child hchild
  obtain ⟨before, used, after, rfl, halone⟩ := h
  obtain ⟨before', used', after', rfl, halone'⟩ :=
    halone.composed.sequence_inOrder.readWithin child (mem_inOrder.mpr hchild)
  exact ⟨before ++ before', used', after' ++ after, by simp, halone'⟩

/-- The nodes of the trees in a sequence are read from tokens of the sequence. -/
theorem Sequence.nodes_readWithin (h : Sequence skips ts trees) :
    ∀ node ∈ nodesAll trees, ReadWithin ts node :=
  forall_mem_nodesAll (fun _ => ReadWithin.child) trees h.readWithin

theorem ReadWithin.exists_encloses (h : ReadWithin ts tree) (hts : Ascending ts) :
    ∃ used, used.Sublist ts ∧ tree.span.Encloses used := by
  obtain ⟨before, used, after, rfl, halone⟩ := h
  exact ⟨used, (List.infix_append' before used after).sublist, halone.encloses hts.middle⟩

/-- The span of a tree runs over the passage of the text that its tokens take up. -/
theorem ReadWithin.exists_runsOver {cs rest : List Char} (h : ReadWithin ts tree)
    (htiles : Tiles 0 cs ts rest) (hlen : byteLength cs < UInt32.size) :
    ∃ front text back used, cs = front ++ (text ++ back) ∧ tree.span.RunsOver front text ∧
      ReadsExpression used tree [] ∧ Tiles (byteLength front) text used (back ++ rest) := by
  obtain ⟨before, used, after, rfl, halone⟩ := h
  have hspan := halone.encloses (htiles.ascending (by omega)).middle
  obtain ⟨front, text, back, hcs, hruns, hpassage⟩ := htiles.exists_runsOver hspan hlen
  exact ⟨front, text, back, used, hcs, hruns, halone, hpassage⟩

theorem ReadWithin.span_le {cs rest : List Char} (h : ReadWithin ts tree)
    (htiles : Tiles 0 cs ts rest) (hlen : byteLength cs < UInt32.size) :
    tree.span.start.toNat ≤ tree.span.stop.toNat ∧ tree.span.stop.toNat ≤ byteLength cs := by
  obtain ⟨front, text, back, _, rfl, ⟨hstart, hstop⟩, _⟩ := h.exists_runsOver htiles hlen
  simp only [byteLength_append]
  omega

/-- Trees that are read one behind the other have their places in this order. -/
theorem Sequence.ordered (h : Sequence skips ts trees) (hts : Ascending ts) :
    trees.Pairwise fun left right => left.span.stop ≤ right.span.start := by
  induction h with
  | nil => exact .nil
  | skip _ _ ih => exact ih (hts.sublist (List.sublist_cons_self _ _))
  | @part used tree ts trees head tail ih =>
      refine .cons (fun right hright => ?_) (ih (hts.sublist (List.sublist_append_right used ts)))
      obtain ⟨used', hused', hright'⟩ :=
        (tail.readWithin right hright).exists_encloses
          (hts.sublist (List.sublist_append_right used ts))
      have htree := head.encloses (hts.sublist (List.sublist_append_left used ts))
      exact htree.stop_le_start hright' (hts.sublist (hused'.append_left used))

end Within

/-- A text has a tree exactly if the tokens that tile it are a sequence. -/
theorem ofSource_eq_ok_iff {source : String} {tree : Tree} :
    ofSource source = .ok tree ↔ ∃ ts trees, Tiles 0 source.toList ts [] ∧
      Sequence Separates ts trees ∧
      tree = branch moduleKind (.ofOffsets 0 (byteLength source.toList)) trees := by
  constructor
  · intro h
    rw [ofSource] at h
    obtain ⟨tokens, htokens, hrest⟩ := except_bind_eq_ok_iff.mp h
    obtain ⟨trees, htrees, htree⟩ := except_bind_eq_ok_iff.mp hrest
    obtain ⟨ts, rfl, htiles⟩ := read_eq_ok_iff.mp htokens
    refine ⟨ts, trees, htiles, ?_, (Except.ok.inj htree).symm⟩
    exact sequence_of_expressions (fun t ht => (htiles.spells t ht).1) rfl htrees
  · rintro ⟨ts, trees, htiles, hsequence, rfl⟩
    rw [ofSource_of_read (read_of_tiles htiles), hsequence.expressions_eq rfl]
    rfl

end LambdaLift.Tree
