import LambdaLift.Proofs.Composition
import LambdaLift.Tree.SExpr

/-!
# Trees told apart by their S-expressions

An S-expression says nothing about spans. It says everything else about a tree in which all tags and
texts are words, that is, have only characters of identifiers. A blank with a word behind it is then
a text and one with a parenthesis behind it is a child, so the S-expression of a tree ends where it
ends whatever follows it, and no two trees have the same. The tree of a source has only words, as
the texts of its nodes are identifiers and integers.
-/

namespace LambdaLift.Tree

/-- The tag and the text of a node are words. -/
structure Worded (tree : Tree) : Prop where
  kind : ∀ c ∈ tree.kind.toList, Token.isIdentContinue c
  text : ∀ c ∈ tree.text.toList, Token.isIdentContinue c

section Text

variable {text text' : String} {cs ds : List Char}

/-- The text of a node with a blank before it, if there is any. -/
def spaced (text : String) : List Char := if text.isEmpty then [] else ' ' :: text.toList

/-- What stands behind the text of a node: the end of the node or a child. -/
inductive Follows : List Char → Prop
  | close (cs : List Char) : Follows (')' :: cs)
  | child (cs : List Char) : Follows (' ' :: '(' :: cs)

theorem Follows.head (h : Follows cs) : ∀ c ∈ cs.head?, Token.isIdentContinue c = false := by
  cases h with
  | close cs =>
      rintro _ ⟨⟩
      decide
  | child cs =>
      rintro _ ⟨⟩
      decide

theorem toList_toSExpr (kind text : String) (span : Span) (children : List Tree)
    (rest : List Char) :
    (toSExpr ⟨kind, text, span, children⟩).toList ++ rest =
      '(' :: (kind.toList ++ (spaced text ++ ((toSExprs children).toList ++ ')' :: rest))) := by
  rw [toSExpr, spaced]
  split <;> simp

theorem toList_toSExprs_cons (tree : Tree) (trees : List Tree) (rest : List Char) :
    (toSExprs (tree :: trees)).toList ++ rest =
      ' ' :: (tree.toSExpr.toList ++ ((toSExprs trees).toList ++ rest)) := by
  simp [toSExprs]

theorem follows_toSExprs (trees : List Tree) (rest : List Char) :
    Follows ((toSExprs trees).toList ++ ')' :: rest) := by
  cases trees with
  | nil => exact .close rest
  | cons tree trees =>
      obtain ⟨kind, text, span, children⟩ := tree
      rw [toList_toSExprs_cons, toList_toSExpr]
      exact .child _

theorem Follows.head_spaced (h : Follows cs) (text : String) :
    ∀ c ∈ (spaced text ++ cs).head?, Token.isIdentContinue c = false := by
  unfold spaced
  split
  · exact h.head
  · rintro _ ⟨⟩
    decide

/-- A child is not mistaken for a text. -/
theorem Follows.ne_word (hcs : Follows cs) (htext : ∀ c ∈ text.toList, Token.isIdentContinue c)
    (hne : ¬text.isEmpty) : cs ≠ ' ' :: text.toList ++ ds := by
  rintro rfl
  cases hword : text.toList with
  | nil => exact hne (String.isEmpty_iff.mpr (String.toList_eq_nil_iff.mp hword))
  | cons c word =>
      rw [hword] at hcs htext
      cases hcs
      exact absurd (htext '(' List.mem_cons_self) (by decide)

/-- What is directly behind the tag of a node determines the text of the node. -/
theorem spaced_append_inj (htext : ∀ c ∈ text.toList, Token.isIdentContinue c)
    (htext' : ∀ c ∈ text'.toList, Token.isIdentContinue c) (hcs : Follows cs) (hds : Follows ds)
    (h : spaced text ++ cs = spaced text' ++ ds) : text = text' ∧ cs = ds := by
  unfold spaced at h
  split at h <;> split at h
  · rename_i hempty hempty'
    rw [String.isEmpty_iff.mp hempty, String.isEmpty_iff.mp hempty']
    exact ⟨rfl, h⟩
  · rename_i hne
    exact absurd h (hcs.ne_word htext' hne)
  · rename_i hne _
    exact absurd h.symm (hds.ne_word htext hne)
  · obtain ⟨hwords, hrest⟩ := append_inj_of_class htext htext' hcs.head hds.head (List.cons.inj h).2
    exact ⟨String.toList_inj.mp hwords, hrest⟩

end Text

mutual

/-- The S-expression of a tree of words determines the tree, but for the spans, and where it
ends. -/
theorem toSExpr_append_inj :
    ∀ (tree tree' : Tree) {cs ds : List Char}, (∀ node ∈ tree.nodes, node.Worded) →
    (∀ node ∈ tree'.nodes, node.Worded) → tree.toSExpr.toList ++ cs = tree'.toSExpr.toList ++ ds →
    tree.unspanned = tree'.unspanned ∧ cs = ds
  | ⟨kind, text, span, children⟩, ⟨kind', text', span', children'⟩, cs, ds, hwords, hwords', h => by
      rw [nodes] at hwords hwords'
      obtain ⟨hroot, hchildren⟩ := List.forall_mem_cons.mp hwords
      obtain ⟨hroot', hchildren'⟩ := List.forall_mem_cons.mp hwords'
      rw [toList_toSExpr, toList_toSExpr] at h
      have hfollows := follows_toSExprs children cs
      have hfollows' := follows_toSExprs children' ds
      obtain ⟨hkind, hafter⟩ :=
        append_inj_of_class hroot.kind hroot'.kind (hfollows.head_spaced text)
        (hfollows'.head_spaced text') (List.cons.inj h).2
      obtain rfl : kind = kind' := String.toList_inj.mp hkind
      obtain ⟨rfl, hparts⟩ := spaced_append_inj hroot.text hroot'.text hfollows hfollows' hafter
      obtain ⟨hunspanned, hrest⟩ :=
        toSExprs_append_inj children children' hchildren hchildren' hparts
      rw [unspanned_mk, unspanned_mk, hunspanned]
      exact ⟨rfl, hrest⟩

theorem toSExprs_append_inj :
    ∀ (trees trees' : List Tree) {cs ds : List Char}, (∀ node ∈ nodesAll trees, node.Worded) →
    (∀ node ∈ nodesAll trees', node.Worded) →
    (toSExprs trees).toList ++ ')' :: cs = (toSExprs trees').toList ++ ')' :: ds →
    unspannedAll trees = unspannedAll trees' ∧ cs = ds
  | [], [], _, _, _, _, h => ⟨rfl, (List.cons.inj h).2⟩
  | [], tree' :: trees', _, _, _, _, h => by
      rw [toList_toSExprs_cons] at h
      exact absurd (List.cons.inj h).1 (by decide)
  | tree :: trees, [], _, _, _, _, h => by
      rw [toList_toSExprs_cons] at h
      exact absurd (List.cons.inj h).1 (by decide)
  | tree :: trees, tree' :: trees', cs, ds, hwords, hwords', h => by
      rw [nodesAll] at hwords hwords'
      obtain ⟨htree, htrees⟩ := List.forall_mem_append.mp hwords
      obtain ⟨htree', htrees'⟩ := List.forall_mem_append.mp hwords'
      rw [toList_toSExprs_cons, toList_toSExprs_cons] at h
      obtain ⟨hhead, h⟩ := toSExpr_append_inj tree tree' htree htree' (List.cons.inj h).2
      obtain ⟨htail, hrest⟩ := toSExprs_append_inj trees trees' htrees htrees' h
      rw [unspannedAll_cons, unspannedAll_cons, hhead, htail]
      exact ⟨rfl, hrest⟩

end

mutual

theorem toSExpr_unspanned : ∀ tree : Tree, tree.unspanned.toSExpr = tree.toSExpr
  | ⟨kind, text, span, children⟩ => by
        rw [unspanned_mk, toSExpr, toSExpr, toSExprs_unspannedAll children]

theorem toSExprs_unspannedAll : ∀ trees : List Tree, toSExprs (unspannedAll trees) = toSExprs trees
  | [] => rfl
  | tree :: trees => by
        rw [unspannedAll_cons, toSExprs, toSExprs, toSExpr_unspanned tree,
          toSExprs_unspannedAll trees]

end

section Source

variable {ts rest : List Token} {tree : Tree}

theorem worded_leaf {kind text : String} (hkind : kind.toList.all Token.isIdentContinue)
    (htext : ∀ c ∈ text.toList, Token.isIdentContinue c) (span : Span) :
    (leaf kind text span).Worded :=
  ⟨List.all_eq_true.mp hkind, htext⟩

theorem worded_branch {kind : String} (hkind : kind.toList.all Token.isIdentContinue) (span : Span)
    (children : List Tree) : (branch kind span children).Worded :=
  ⟨List.all_eq_true.mp hkind, fun _ h => absurd h List.not_mem_nil⟩

/-- What is read from tokens has a word as its tag and a word or nothing as its text. -/
theorem ReadsExpression.worded (h : ReadsExpression ts tree rest)
    (hts : ∀ t ∈ ts, t.kind.Spells t.text) :
    tree.Worded := by
  cases h with
  | @integer t _ ht =>
      have hdigits : Token.Kind.int.Spells t.text := ht ▸ hts t List.mem_cons_self
      exact worded_leaf (by decide) (fun c hc => Token.isIdentContinue_of_isDigit (hdigits.2 c hc))
        t.span
  | @symbol t _ ht _ =>
      have hident : Token.Kind.ident.Spells t.text := ht ▸ hts t List.mem_cons_self
      exact worded_leaf (by decide) (fun c hc => Token.isIdentContinue_of_mem_identifier hident hc)
        t.span
  | assign ht hu value => exact worded_branch (by decide) _ _
  | apply ht parts hne hrest => exact worded_branch (by decide) _ _
  | lambda ht parts hrest ha hparams body => exact worded_branch (by decide) _ _
  | block ht parts => exact worded_branch (by decide) _ _

/-- The tree of a source has only words. -/
theorem worded_of_ofSource {source : String} (h : ofSource source = .ok tree) :
    ∀ node ∈ tree.nodes, node.Worded := by
  obtain ⟨ts, trees, htiles, hsequence, rfl⟩ := ofSource_eq_ok_iff.mp h
  rw [branch, nodes]
  refine List.forall_mem_cons.mpr ⟨worded_branch (by decide) _ _, fun node hnode => ?_⟩
  obtain ⟨before, used, after, rfl, halone⟩ := hsequence.nodes_readWithin node hnode
  exact halone.worded fun t ht => (htiles.spells t (by simp [ht])).2

end Source

theorem ofSource_toSExpr_eq_iff {source source' : String} {tree tree' : Tree}
    (h : ofSource source = .ok tree) (h' : ofSource source' = .ok tree') :
    tree.toSExpr = tree'.toSExpr ↔ tree.unspanned = tree'.unspanned := by
  constructor
  · intro heq
    have happend : tree.toSExpr.toList ++ [] = tree'.toSExpr.toList ++ [] := by rw [heq]
    exact (toSExpr_append_inj tree tree' (worded_of_ofSource h) (worded_of_ofSource h') happend).1
  · intro heq
    rw [← toSExpr_unspanned tree, heq, toSExpr_unspanned tree']

/-- The trees of two sources have the same S-expression exactly if they are equal but for their
spans. -/
theorem ofSlices_toSExpr_eq_iff {source source' : String} {tree tree' : Tree}
    (hlen : Text.byteLength source.toList < UInt32.size)
    (hlen' : Text.byteLength source'.toList < UInt32.size) (h : ofSlices source = some (.ok tree))
    (h' : ofSlices source' = some (.ok tree')) :
    tree.toSExpr = tree'.toSExpr ↔ tree.unspanned = tree'.unspanned := by
  rw [ofSlices_eq hlen] at h
  rw [ofSlices_eq hlen'] at h'
  exact ofSource_toSExpr_eq_iff (Option.some.inj h) (Option.some.inj h')

/-- Blanks and comments change the spans of a tree and nothing else of it. -/
theorem ofSlices_toSExpr_eq_iff_spread :
    Text.byteLength "f = (x) => {(g x); 1}".toList < UInt32.size ∧
    Text.byteLength "f =\n( x ) => // call\n{ ( g x ) 1 }".toList < UInt32.size ∧
    ∃ tree tree', ofSlices "f = (x) => {(g x); 1}" = some (.ok tree) ∧
      ofSlices "f =\n( x ) => // call\n{ ( g x ) 1 }" = some (.ok tree') ∧
      tree.toSExpr = tree'.toSExpr ∧ tree.unspanned = tree'.unspanned := by
  have hlen : Text.byteLength "f = (x) => {(g x); 1}".toList < UInt32.size := by decide
  have hlen' : Text.byteLength "f =\n( x ) => // call\n{ ( g x ) 1 }".toList < UInt32.size := by
    decide
  obtain ⟨tree, htree, htext⟩ := exists_eq_ok_of_any (x := ofSource "f = (x) => {(g x); 1}")
    (p := fun tree => tree.toSExpr =
      "(mod (let (sym f) (abs (blk (app (sym g) (sym x)) (int 1)) (sym x))))")
    (by decide +kernel)
  obtain ⟨tree', htree', htext'⟩ :=
    exists_eq_ok_of_any (x := ofSource "f =\n( x ) => // call\n{ ( g x ) 1 }")
    (p := fun tree => tree.toSExpr =
      "(mod (let (sym f) (abs (blk (app (sym g) (sym x)) (int 1)) (sym x))))")
    (by decide +kernel)
  have heq : tree.toSExpr = tree'.toSExpr :=
    (of_decide_eq_true htext).trans (of_decide_eq_true htext').symm
  have hslices := (ofSlices_eq hlen).trans (congrArg some htree)
  have hslices' := (ofSlices_eq hlen').trans (congrArg some htree')
  exact ⟨hlen, hlen', tree, tree', hslices, hslices', heq,
    (ofSlices_toSExpr_eq_iff hlen hlen' hslices hslices').mp heq⟩

/-- The name `ppppppppp` at the offset `2 ^ 32 + 2` has the span of `a) (sym b` in the comment
before it. With this for its text, the one symbol looks like the two of `a b`. -/
theorem ofSlices_toSExpr_collides :
    ∃ tree tree',
      ofSlices (Text.spaced "//a) (sym b\n" (UInt32.size - 10) "ppppppppp") = some (.ok tree) ∧
      ofSlices "a b" = some (.ok tree') ∧ tree.toSExpr = tree'.toSExpr ∧
        tree.unspanned ≠ tree'.unspanned := by
  have hback : Cursor.tokens ⟨4294967298, "ppppppppp".toList⟩ =
      .ok [⟨.ident, ⟨2, 11⟩, "ppppppppp"⟩, ⟨.eof, ⟨11, 11⟩, ""⟩] :=
    eq_ok_of_value (by decide +kernel)
  have hread : Token.read (Text.spaced "//a) (sym b\n" (UInt32.size - 10) "ppppppppp") = _ :=
    Token.read_spaced_gap (Token.gap_line
      (show _ = '/' :: '/' :: ("a) (sym b".toList ++ ['\n']) by decide) (by decide)) hback
  obtain ⟨tree, htree, htext⟩ := exists_ofSlices_spaced hread (by decide +kernel)
    (p := fun tree => tree.toSExpr = "(mod (sym a) (sym b))" ∧ tree.unspanned.children.length = 1)
      (by decide +kernel)
  obtain ⟨tree', htree', htext'⟩ := exists_eq_ok_of_any (x := ofSource "a b")
    (p := fun tree => tree.toSExpr = "(mod (sym a) (sym b))" ∧ tree.unspanned.children.length = 2)
      (by decide +kernel)
  obtain ⟨hsexpr, hcount⟩ := of_decide_eq_true htext
  obtain ⟨hsexpr', hcount'⟩ := of_decide_eq_true htext'
  refine ⟨tree, tree', htree, (ofSlices_eq (by decide)).trans (congrArg some htree'),
    hsexpr.trans hsexpr'.symm, ?_⟩
  intro heq
  rw [heq, hcount'] at hcount
  cases hcount

-- A text that is no word can look like a child.
example : toSExpr (leaf symbolKind "a (int 1)" default) =
    toSExpr ⟨symbolKind, "a", default, [leaf integerKind "1" default]⟩ := by
  decide

end LambdaLift.Tree
