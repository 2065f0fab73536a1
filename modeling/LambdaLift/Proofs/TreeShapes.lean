import LambdaLift.Proofs.TermTrees

/-!
# The shapes of trees

Which trees become terms, and what the terms keep of them. A tree becomes a term unless one of its
nodes is ill-shaped, and the first such node in preorder gives the error. What stands below a symbol
or an integer is not looked at. A term keeps of its tree all but the spans, the texts of inner nodes
and what was not looked at.
-/

namespace LambdaLift

namespace Tree

/-- The tags of the nodes whose children do not matter. -/
def leafKinds : List String := [symbolKind, integerKind]

/-- The tags of the nodes whose text does not matter. -/
def textlessKinds : List String := [lambdaKind, applyKind, blockKind, assignKind]

mutual

/-- A tree and the trees inside it in preorder, without those below a symbol or an integer. -/
def visited : Tree → List Tree
  | ⟨kind, text, span, children⟩ =>
    ⟨kind, text, span, children⟩ :: if kind ∈ leafKinds then [] else visitedAll children

/-- The trees of a list, each followed by those inside it. -/
def visitedAll : List Tree → List Tree
  | [] => []
  | tree :: trees => tree.visited ++ visitedAll trees

end

/-- `IllShaped tree e`: the root of the tree cannot be that of a term, whatever its children are,
and `e` says why. -/
inductive IllShaped : Tree → ShapeError → Prop
  | kind {kind text span children} (hkind : ∀ k : Term.Kind, k.tag ≠ kind) :
      IllShaped ⟨kind, text, span, children⟩ (.unsupportedKind kind span)
  | digits {text span children} (htext : ¬ (text.toList ≠ [] ∧ ∀ c ∈ text.toList, c.isDigit)) :
      IllShaped ⟨integerKind, text, span, children⟩ (.malformedInteger text span)
  | noChild {k text span} (hk : k = .lambda ∨ k = .apply) :
      IllShaped ⟨k.tag, text, span, []⟩ (.missingChild k .atLeastOne 0 span)
  | notTwo {text span children} (hchildren : children.length ≠ 2) :
      IllShaped ⟨assignKind, text, span, children⟩
        (.missingChild .assign .exactlyTwo children.length span)

/-- The root of the tree can be that of a term. -/
def WellShaped (tree : Tree) : Prop := ∀ e, ¬ IllShaped tree e

/-- The seven shapes of a root that can be that of a term. -/
inductive Shaped : Tree → Prop
  | module (text : String) (span : Span) (children : List Tree) :
    Shaped ⟨moduleKind, text, span, children⟩
  | symbol (text : String) (span : Span) (children : List Tree) :
    Shaped ⟨symbolKind, text, span, children⟩
  | integer (value : Numeral) (span : Span) (children : List Tree) :
    Shaped ⟨integerKind, value.digits, span, children⟩
  | lambda (text : String) (span : Span) (body : Tree) (params : List Tree) :
      Shaped ⟨lambdaKind, text, span, body :: params⟩
  | apply (text : String) (span : Span) (callee : Tree) (args : List Tree) :
      Shaped ⟨applyKind, text, span, callee :: args⟩
  | block (text : String) (span : Span) (children : List Tree) :
    Shaped ⟨blockKind, text, span, children⟩
  | assign (text : String) (span : Span) (target value : Tree) :
    Shaped ⟨assignKind, text, span, [target, value]⟩

theorem WellShaped.shaped {tree : Tree} (h : WellShaped tree) : Shaped tree := by
  obtain ⟨kind, text, span, children⟩ := tree
  by_cases hkind : ∃ k : Term.Kind, k.tag = kind
  · obtain ⟨k, rfl⟩ := hkind
    have hchildren (hk : k = .lambda ∨ k = .apply) : ∃ child others, children =
        child :: others := by
      refine List.exists_cons_of_ne_nil fun hnil => ?_
      subst hnil
      exact h _ (.noChild hk)
    cases k with
    | module => exact .module text span children
    | symbol => exact .symbol text span children
    | integer =>
        have htext : text.toList ≠ [] ∧ ∀ c ∈ text.toList, c.isDigit :=
          Classical.byContradiction fun htext => h _ (.digits htext)
        exact .integer ⟨text, htext.1, List.all_eq_true.mpr htext.2⟩ span children
    | lambda =>
        obtain ⟨body, params, rfl⟩ := hchildren (.inl rfl)
        exact .lambda text span body params
    | apply =>
        obtain ⟨callee, args, rfl⟩ := hchildren (.inr rfl)
        exact .apply text span callee args
    | block => exact .block text span children
    | assign =>
        have htwo : children.length = 2 :=
          Classical.byContradiction fun hlength => h _ (.notTwo hlength)
        obtain ⟨target, others, rfl⟩ := List.exists_cons_of_length_eq_add_one htwo
        obtain ⟨value, others, rfl⟩ := List.exists_cons_of_length_eq_add_one (Nat.succ.inj htwo)
        obtain rfl := List.length_eq_zero_iff.mp (Nat.succ.inj (Nat.succ.inj htwo))
        exact .assign text span target value
  · exact absurd (.kind fun k hk => hkind ⟨k, hk⟩) (h _)

/-- The first ill-shaped tree of a list is one that `e` describes. -/
def FirstIllShaped (trees : List Tree) (e : ShapeError) : Prop :=
  ∃ before tree after, trees = before ++ tree :: after ∧ (∀ other ∈ before, WellShaped other) ∧
    IllShaped tree e

section First

variable {tree : Tree} {trees others : List Tree} {e : ShapeError}

theorem not_firstIllShaped_nil : ¬ FirstIllShaped [] e := by
  rintro ⟨before, tree, after, hnil, _⟩
  simp at hnil

theorem firstIllShaped_cons :
    FirstIllShaped (tree :: trees) e ↔ IllShaped tree e ∨ WellShaped tree ∧
      FirstIllShaped trees e := by
  constructor
  · rintro ⟨before, bad, after, hsplit, hbefore, hbad⟩
    cases before with
    | nil =>
        obtain ⟨rfl, _⟩ := List.cons.inj hsplit
        exact .inl hbad
    | cons first before =>
        obtain ⟨rfl, hrest⟩ := List.cons.inj hsplit
        obtain ⟨hfirst, hbefore⟩ := List.forall_mem_cons.mp hbefore
        exact .inr ⟨hfirst, before, bad, after, hrest, hbefore, hbad⟩
  · rintro (hbad | ⟨hfirst, before, bad, after, rfl, hbefore, hbad⟩)
    · exact ⟨[], tree, trees, rfl, by simp, hbad⟩
    · exact ⟨tree :: before, bad, after, rfl, List.forall_mem_cons.mpr ⟨hfirst, hbefore⟩, hbad⟩

theorem firstIllShaped_append :
    FirstIllShaped (trees ++ others) e ↔
      FirstIllShaped trees e ∨ (∀ tree ∈ trees, WellShaped tree) ∧ FirstIllShaped others e := by
  induction trees with
  | nil => simp [not_firstIllShaped_nil]
  | cons tree trees ih =>
      rw [List.cons_append, firstIllShaped_cons, firstIllShaped_cons, ih, List.forall_mem_cons,
        and_or_left, or_assoc, and_assoc]

theorem forall_wellShaped_iff :
    (∀ tree ∈ trees, WellShaped tree) ↔ ∀ e, ¬ FirstIllShaped trees e := by
  induction trees with
  | nil => simp [not_firstIllShaped_nil]
  | cons tree trees ih =>
      simp only [List.forall_mem_cons, ih, firstIllShaped_cons, not_or, not_and]
      constructor
      · rintro ⟨htree, htrees⟩ e
        exact ⟨htree e, fun _ => htrees e⟩
      · intro h
        exact ⟨fun e => (h e).1, fun e => (h e).2 fun e' => (h e').1⟩

end First

mutual

/-- What a term keeps of its tree: the tags, the texts of modules, symbols and integers, and the
children of all other nodes. -/
def bare : Tree → Tree
  | ⟨kind, text, _, children⟩ =>
    ⟨kind, if kind ∈ textlessKinds then "" else text, default,
      if kind ∈ leafKinds then [] else bareAll children⟩

/-- What terms keep of their trees. -/
def bareAll : List Tree → List Tree
  | [] => []
  | tree :: trees => tree.bare :: bareAll trees

end

end Tree

namespace Term

open LambdaLift.Tree

section Errors

variable {text : String} {span : Span} {children : List Tree} {e : ShapeError}

theorem ofTree_unsupported {kind : String} (hkind : ∀ k : Kind, k.tag ≠ kind) :
    ofTree ⟨kind, text, span, children⟩ = .error (.unsupportedKind kind span) := by
  have hne (k : Kind) : kind ≠ k.tag := (hkind k).symm
  unfold ofTree
  rw [if_neg (show kind ≠ moduleKind from hne .module),
    if_neg (show kind ≠ symbolKind from hne .symbol),
    if_neg (show kind ≠ integerKind from hne .integer),
    if_neg (show kind ≠ lambdaKind from hne .lambda),
    if_neg (show kind ≠ applyKind from hne .apply), if_neg (show kind ≠ blockKind from hne .block),
    if_neg (show kind ≠ assignKind from hne .assign)]

theorem ofTree_malformed (htext : ¬ (text.toList ≠ [] ∧ ∀ c ∈ text.toList, c.isDigit)) :
    ofTree ⟨integerKind, text, span, children⟩ = .error (.malformedInteger text span) := by
  have hnone : Numeral.ofDigits? text = none := by
    rw [Numeral.ofDigits?_eq_none_iff, List.all_eq_true]
    exact (Classical.not_and_iff_not_or_not.mp htext).imp_left Classical.not_not.mp
  unfold ofTree
  rw [if_neg (by decide), if_neg (by decide), if_pos rfl, hnone]

theorem ofTree_noChild {k : Kind} (hk : k = .lambda ∨ k = .apply) :
    ofTree ⟨k.tag, text, span, []⟩ = .error (.missingChild k .atLeastOne 0 span) := by
  rcases hk with rfl | rfl
  · rw [ofTree]
    rfl
  · rw [ofTree]
    rfl

theorem ofTree_notTwo (hchildren : children.length ≠ 2) :
    ofTree ⟨assignKind, text, span, children⟩ =
      .error (.missingChild .assign .exactlyTwo children.length span) := by
  unfold ofTree
  rw [if_neg (by decide), if_neg (by decide), if_neg (by decide), if_neg (by decide),
    if_neg (by decide), if_neg (by decide), if_pos rfl]
  split
  · exact absurd rfl hchildren
  · rfl

/-- An ill-shaped node is refused before its children are looked at. -/
theorem ofTree_of_illShaped {tree : Tree} (h : IllShaped tree e) : ofTree tree = .error e := by
  cases h with
  | kind hkind => exact ofTree_unsupported hkind
  | digits htext => exact ofTree_malformed htext
  | noChild hk => exact ofTree_noChild hk
  | notTwo hchildren => exact ofTree_notTwo hchildren

theorem ofTrees_nil_ne_error : ofTrees [] ≠ .error e := by
  rw [ofTrees]
  rintro ⟨⟩

theorem ofTrees_cons_eq_error_iff {tree : Tree} {trees : List Tree} :
    ofTrees (tree :: trees) = .error e ↔
      ofTree tree = .error e ∨ (∃ t, ofTree tree = .ok t) ∧ ofTrees trees = .error e := by
  have hcons : ofTrees (tree :: trees) = ofTree tree >>= fun t => (t :: ·) <$> ofTrees trees := by
    rw [ofTrees]
    rfl
  simp only [hcons, except_bind_eq_error_iff, fmap_eq_error_iff, exists_and_right]

/-- A node that is not ill-shaped is refused exactly if its children are looked at and one of them
is refused. -/
theorem ofTree_eq_error_iff_of_wellShaped {tree : Tree} (h : WellShaped tree) :
    ofTree tree = .error e ↔ tree.kind ∉ leafKinds ∧ ofTrees tree.children = .error e := by
  cases h.shaped with
  | module text span children =>
      rw [ofTree_module, fmap_eq_error_iff, and_iff_right (show moduleKind ∉ leafKinds by decide)]
  | symbol text span children => simp [ofTree_symbol, leafKinds]
  | integer value span children => simp [ofTree_integer, leafKinds]
  | lambda text span body params =>
      rw [ofTree_lambda, and_iff_right (show lambdaKind ∉ leafKinds by decide),
        ofTrees_cons_eq_error_iff]
      simp only [except_bind_eq_error_iff, fmap_eq_error_iff, exists_and_right]
  | apply text span callee args =>
      rw [ofTree_apply, and_iff_right (show applyKind ∉ leafKinds by decide),
        ofTrees_cons_eq_error_iff]
      simp only [except_bind_eq_error_iff, fmap_eq_error_iff, exists_and_right]
  | block text span children =>
      rw [ofTree_block, fmap_eq_error_iff, and_iff_right (show blockKind ∉ leafKinds by decide)]
  | assign text span target value =>
      rw [ofTree_assign, and_iff_right (show assignKind ∉ leafKinds by decide),
        ofTrees_cons_eq_error_iff, ofTrees_cons_eq_error_iff]
      simp only [except_bind_eq_error_iff, fmap_eq_error_iff, exists_and_right,
        ofTrees_nil_ne_error, and_false, or_false]

mutual

/-- A tree is refused with the error of the first ill-shaped node. -/
theorem ofTree_eq_error_iff_first :
    ∀ (tree : Tree) (e : ShapeError), ofTree tree = .error e ↔ FirstIllShaped tree.visited e
  | ⟨kind, text, span, children⟩, e => by
      rw [visited, firstIllShaped_cons]
      by_cases hshape : WellShaped ⟨kind, text, span, children⟩
      · -- The root is in order, so the error is its children's, if they are looked at.
        rw [ofTree_eq_error_iff_of_wellShaped hshape, or_iff_right (hshape e), and_iff_right hshape]
        by_cases hleaf : kind ∈ leafKinds
        · rw [if_pos hleaf]
          exact iff_of_false (fun h => h.1 hleaf) not_firstIllShaped_nil
        · rw [if_neg hleaf, ← ofTrees_eq_error_iff_first children e]
          exact and_iff_right hleaf
      · -- A node is ill-shaped in one way only, since each way is the result on that node.
        obtain ⟨e', he'⟩ := Classical.not_forall.mp hshape
        have hbad := Classical.not_not.mp he'
        rw [or_iff_left fun h => hshape h.1, ofTree_of_illShaped hbad]
        constructor
        · rintro ⟨⟩
          exact hbad
        · intro h
          exact (ofTree_of_illShaped hbad).symm.trans (ofTree_of_illShaped h)

/-- Trees are refused with the error of the first ill-shaped node. -/
theorem ofTrees_eq_error_iff_first :
    ∀ (trees : List Tree) (e : ShapeError), ofTrees trees = .error e ↔
      FirstIllShaped (visitedAll trees) e
  | [], e => iff_of_false ofTrees_nil_ne_error not_firstIllShaped_nil
  | tree :: trees, e => by
      rw [visitedAll, firstIllShaped_append, ofTrees_cons_eq_error_iff,
        ofTrees_eq_error_iff_first trees e, exists_eq_ok_iff, forall_wellShaped_iff]
      simp only [ofTree_eq_error_iff_first tree, ne_eq]

end

/-- A tree becomes a term exactly if none of the nodes that are looked at is ill-shaped. Otherwise
the error is that of the first such node in preorder. -/
theorem ofTree_fails_at_first_illShaped (tree : Tree) :
    ((∃ t, ofTree tree = .ok t) ↔ ∀ node ∈ tree.visited, ∀ e, ¬ IllShaped node e) ∧
    ∀ e, ofTree tree = .error e ↔ ∃ before node after, tree.visited = before ++ node :: after ∧
      (∀ other ∈ before, ∀ e', ¬ IllShaped other e') ∧ IllShaped node e := by
  refine ⟨?_, ofTree_eq_error_iff_first tree⟩
  calc
    (∃ t, ofTree tree = .ok t) ↔ ∀ e, ofTree tree ≠ .error e := exists_eq_ok_iff
    _ ↔ ∀ e, ¬ FirstIllShaped tree.visited e :=
      forall_congr' fun e => not_congr (ofTree_eq_error_iff_first tree e)
    _ ↔ ∀ node ∈ tree.visited, WellShaped node := forall_wellShaped_iff.symm

/-- The text of the integer is refused. What stands below the symbol is not looked at, and the
assignment comes later. -/
example : ofTree (branch applyKind default
    [⟨symbolKind, "f", default, [leaf "?" "" default]⟩, leaf integerKind "1x" default,
        leaf assignKind "" default]) =
    .error (.malformedInteger "1x" default) := by
  rfl

end Errors

section Bare

theorem wellShaped_of_ofTree {tree : Tree} {t : Term} (h : ofTree tree = .ok t) :
    WellShaped tree := by
  intro e he
  rw [ofTree_of_illShaped he] at h
  cases h

mutual

/-- The tree of a term is what the term has kept. -/
theorem toTree_eq_bare : ∀ {tree : Tree} {t : Term}, ofTree tree = .ok t → toTree t = tree.bare
  | tree, t, h => by
      cases (wellShaped_of_ofTree h).shaped with
      | module text span children =>
          rw [ofTree_module] at h
          obtain ⟨body, hbody, rfl⟩ := fmap_eq_ok_iff.mp h
          rw [toTree, toTrees_eq_bareAll hbody]
          rfl
      | symbol text span children =>
          rw [ofTree_symbol] at h
          cases h
          rfl
      | integer value span children =>
          rw [ofTree_integer] at h
          cases h
          rfl
      | lambda text span body params =>
          rw [ofTree_lambda] at h
          obtain ⟨b, hb, h⟩ := except_bind_eq_ok_iff.mp h
          obtain ⟨ps, hps, rfl⟩ := fmap_eq_ok_iff.mp h
          rw [toTree, toTree_eq_bare hb, toTrees_eq_bareAll hps]
          rfl
      | apply text span callee args =>
          rw [ofTree_apply] at h
          obtain ⟨f, hf, h⟩ := except_bind_eq_ok_iff.mp h
          obtain ⟨us, hus, rfl⟩ := fmap_eq_ok_iff.mp h
          rw [toTree, toTree_eq_bare hf, toTrees_eq_bareAll hus]
          rfl
      | block text span children =>
          rw [ofTree_block] at h
          obtain ⟨body, hbody, rfl⟩ := fmap_eq_ok_iff.mp h
          rw [toTree, toTrees_eq_bareAll hbody]
          rfl
      | assign text span target value =>
          rw [ofTree_assign] at h
          obtain ⟨u, hu, h⟩ := except_bind_eq_ok_iff.mp h
          obtain ⟨v, hv, rfl⟩ := fmap_eq_ok_iff.mp h
          rw [toTree, toTree_eq_bare hu, toTree_eq_bare hv]
          rfl

theorem toTrees_eq_bareAll :
    ∀ {trees : List Tree} {ts : List Term}, ofTrees trees = .ok ts → toTrees ts = bareAll trees
  | [], ts, h => by
      rw [ofTrees] at h
      cases h
      rfl
  | tree :: trees, ts, h => by
      obtain ⟨t, us, ht, hus, rfl⟩ := ofTrees_cons_eq_ok_iff.mp h
      rw [toTrees, bareAll, toTree_eq_bare ht, toTrees_eq_bareAll hus]

end

mutual

theorem unspanned_toTree : ∀ t : Term, (toTree t).unspanned = toTree t
  | module name body => by rw [toTree, unspanned_mk, unspannedAll_toTrees body]
  | symbol name => rfl
  | integer value => rfl
  | lambda body params => by
      rw [toTree, unspanned_branch, unspannedAll_cons, unspanned_toTree body,
        unspannedAll_toTrees params]
  | apply callee args => by
      rw [toTree, unspanned_branch, unspannedAll_cons, unspanned_toTree callee,
        unspannedAll_toTrees args]
  | block body => by rw [toTree, unspanned_branch, unspannedAll_toTrees body]
  | assign target value => by
      rw [toTree, unspanned_branch, unspannedAll_cons, unspannedAll_cons, unspanned_toTree target,
        unspanned_toTree value]
      rfl

theorem unspannedAll_toTrees : ∀ ts : List Term, unspannedAll (toTrees ts) = toTrees ts
  | [] => rfl
  | t :: ts => by rw [toTrees, unspannedAll_cons, unspanned_toTree t, unspannedAll_toTrees ts]

end

theorem toTree_injective {s t : Term} (h : toTree s = toTree t) : s = t := by
  have hs := ofTree_of_unspanned s (unspanned_toTree s)
  have ht := ofTree_of_unspanned t (unspanned_toTree t)
  rw [h] at hs
  exact Except.ok.inj (hs.symm.trans ht)

/-- Two trees become the same term exactly if they differ in nothing but spans, the texts of
lambdas, applications, blocks and assignments, and what stands below symbols and integers. -/
theorem ofTree_eq_iff_bare_eq {a b : Tree} {s t : Term} (ha : ofTree a = .ok s)
    (hb : ofTree b = .ok t) :
    s = t ↔ a.bare = b.bare := by
  rw [← toTree_eq_bare ha, ← toTree_eq_bare hb]
  exact ⟨congrArg toTree, toTree_injective⟩

/-- Of the call `(f 007)` the text, the span and what stands below the callee do not matter. The
callee does. -/
theorem ofTree_eq_iff_bare_eq_call :
    ∃ s t u : Term,
      ofTree ⟨applyKind, "call", ⟨0, 7⟩, [⟨symbolKind, "f", ⟨1, 2⟩, [leaf "?" "" default]⟩,
        leaf integerKind "007" ⟨3, 6⟩]⟩ = .ok s ∧
      ofTree (branch applyKind default [leaf symbolKind "f" default,
        leaf integerKind "007" default]) = .ok t ∧
      ofTree (branch applyKind default [leaf symbolKind "g" default,
        leaf integerKind "007" default]) = .ok u ∧
      s = t ∧ t ≠ u ∧
      (branch applyKind default [leaf symbolKind "f" default,
        leaf integerKind "007" default]).bare ≠
        (branch applyKind default [leaf symbolKind "g" default,
          leaf integerKind "007" default]).bare := by
  let value : Numeral := ⟨"007", by decide, by decide⟩
  have hs : ofTree ⟨applyKind, "call", ⟨0, 7⟩, [⟨symbolKind, "f", ⟨1, 2⟩, [leaf "?" "" default]⟩,
      leaf integerKind "007" ⟨3, 6⟩]⟩ = .ok (.apply (.symbol "f") [.integer value]) := rfl
  have ht : ofTree (branch applyKind default [leaf symbolKind "f" default,
    leaf integerKind "007" default]) =
      .ok (.apply (.symbol "f") [.integer value]) := rfl
  have hu : ofTree (branch applyKind default [leaf symbolKind "g" default,
    leaf integerKind "007" default]) =
      .ok (.apply (.symbol "g") [.integer value]) := rfl
  have hne : Term.apply (.symbol "f") [.integer value] ≠ .apply (.symbol "g") [.integer value] := by
    simp
  exact ⟨_, _, _, hs, ht, hu, (ofTree_eq_iff_bare_eq hs ht).mpr rfl, hne,
    fun h => hne ((ofTree_eq_iff_bare_eq ht hu).mpr h)⟩

end Bare

end Term

end LambdaLift
