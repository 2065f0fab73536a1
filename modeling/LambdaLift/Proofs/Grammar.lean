import LambdaLift.Proofs.SlicedReading
import LambdaLift.Proofs.TreeReader

/-!
# The grammar and its reader

The grammar of the language as a relation between tokens and trees without spans. The reader accepts
a text exactly if its tokens derive from the grammar, and then its tree is the only one that the
grammar gives them.
-/

namespace LambdaLift.Tree

mutual

/-- The tree with each span changed. -/
def mapSpans (g : Span → Span) : Tree → Tree
  | ⟨kind, text, span, children⟩ => ⟨kind, text, g span, mapSpansAll g children⟩

/-- The trees with each span changed. -/
def mapSpansAll (g : Span → Span) : List Tree → List Tree
  | [] => []
  | tree :: trees => tree.mapSpans g :: mapSpansAll g trees

end

theorem kind_mapSpans (g : Span → Span) (tree : Tree) : (tree.mapSpans g).kind = tree.kind := by
  cases tree; rfl

theorem mapSpansAll_eq_map (g : Span → Span) (trees : List Tree) :
    mapSpansAll g trees = trees.map (mapSpans g) := by
  induction trees with
  | nil => rfl
  | cons tree trees ih => rw [mapSpansAll, ih, List.map_cons]

/-- A tree in which all spans are forgotten. -/
def unspanned (tree : Tree) : Tree := tree.mapSpans fun _ => default

/-- Trees in which all spans are forgotten. -/
def unspannedAll (trees : List Tree) : List Tree := mapSpansAll (fun _ => default) trees

@[simp] theorem kind_unspanned (tree : Tree) : tree.unspanned.kind = tree.kind :=
  kind_mapSpans _ tree

theorem unspannedAll_eq_map (trees : List Tree) : unspannedAll trees = trees.map unspanned :=
  mapSpansAll_eq_map _ trees

theorem unspanned_mk (kind text : String) (span : Span) (children : List Tree) :
    unspanned ⟨kind, text, span, children⟩ = ⟨kind, text, default, unspannedAll children⟩ := rfl

theorem unspannedAll_cons (tree : Tree) (trees : List Tree) :
    unspannedAll (tree :: trees) = tree.unspanned :: unspannedAll trees := rfl

theorem unspanned_branch (kind : String) (span : Span) (children : List Tree) :
    (branch kind span children).unspanned = branch kind default (unspannedAll children) := rfl

/-- The phrases of the grammar. -/
inductive Phrase where
  | expression
  /-- Expressions between parentheses. -/
  | elements
  /-- Expressions and semicolons. -/
  | statements
  | module

/-- `Derives p ts trees`: the tokens `ts` derive from the phrase `p`, and the grammar gives them the
trees `trees`. A module and an expression have one tree. -/
inductive Derives : Phrase → List Token → List Tree → Prop
  | integer {t} (ht : t.kind = .int) : Derives .expression [t] [leaf integerKind t.text default]
  | symbol {t} (ht : t.kind = .ident) : Derives .expression [t] [leaf symbolKind t.text default]
  | assign {t u ts tree} (ht : t.kind = .ident) (hu : u.kind = .equals)
      (value : Derives .expression ts [tree]) :
      Derives .expression (t :: u :: ts)
        [branch assignKind default [leaf symbolKind t.text default, tree]]
  | apply {t u ts tree trees} (ht : t.kind = .lparen) (hu : u.kind = .rparen)
      (parts : Derives .elements ts (tree :: trees)) :
      Derives .expression (t :: (ts ++ [u])) [branch applyKind default (tree :: trees)]
  | lambda {t params u a ts tree} (ht : t.kind = .lparen) (hparams : ∀ p ∈ params, p.kind = .ident)
      (hu : u.kind = .rparen) (ha : a.kind = .arrow) (body : Derives .expression ts [tree]) :
      Derives .expression (t :: (params ++ u :: a :: ts))
        [branch lambdaKind default (tree :: params.map fun p => leaf symbolKind p.text default)]
  | block {t u ts trees} (ht : t.kind = .lbrace) (hu : u.kind = .rbrace)
      (parts : Derives .statements ts trees) :
      Derives .expression (t :: (ts ++ [u])) [branch blockKind default trees]
  | noElement : Derives .elements [] []
  | element {ts us tree trees} (head : Derives .expression ts [tree])
      (rest : Derives .elements us trees) : Derives .elements (ts ++ us) (tree :: trees)
  | noStatement : Derives .statements [] []
  | semicolon {t ts trees} (ht : t.kind = .semicolon) (rest : Derives .statements ts trees) :
      Derives .statements (t :: ts) trees
  | statement {ts us tree trees} (head : Derives .expression ts [tree])
      (rest : Derives .statements us trees) : Derives .statements (ts ++ us) (tree :: trees)
  | module {ts trees} (parts : Derives .statements ts trees) :
      Derives .module ts [branch moduleKind default trees]

/-- Elements that are symbols are written as identifiers. -/
theorem Derives.idents {ts : List Token} {trees : List Tree} (h : Derives .elements ts trees)
    (hkinds : ∀ tree ∈ trees, tree.kind = symbolKind) :
    (∀ t ∈ ts, t.kind = .ident) ∧ trees = ts.map fun t => leaf symbolKind t.text default := by
  induction trees generalizing ts with
  | nil =>
      cases h
      simp
  | cons tree trees ih =>
      cases h with
      | element head rest =>
          obtain ⟨hidents, hmap⟩ := ih rest fun tree' h => hkinds tree' (List.mem_cons_of_mem _ h)
          have htree : tree.kind = symbolKind := hkinds tree List.mem_cons_self
          cases head with
          | symbol ht =>
              refine ⟨fun t hmem => ?_, by simp [hmap]⟩
              rcases List.mem_cons.mp hmem with rfl | hmem
              · exact ht
              · exact hidents t hmem
          | _ =>
              simp [leaf, branch, symbolKind, integerKind, assignKind, applyKind, lambdaKind,
                blockKind] at htree

mutual

/-- What is read as an expression derives from the grammar. -/
theorem derives_of_expression {ts : List Token} {p : Parsed Tree ts} (h : expression ts = .ok p) :
    ∃ used, used ++ p.rest = ts ∧ Derives .expression used [p.value.unspanned] := by
  have hreads := expression_eq_ok h
  generalize p.value = tree, p.rest = rest at hreads
  generalize hts : ts = ts' at hreads
  cases hreads with
  | @integer t us ht => exact ⟨[t], rfl, .integer ht⟩
  | @symbol t us ht _ => exact ⟨[t], rfl, .symbol ht⟩
  | @assign t u vs value ht hu hvalue =>
      obtain ⟨used, hused, hderives⟩ := derives_of_expression hvalue
      exact ⟨t :: u :: used, by simp [hused], .assign ht hu hderives⟩
  | @apply t us group ht hgroup hne _ =>
      obtain ⟨used, hused, hclose, hderives⟩ := derives_of_elements hgroup
      refine ⟨t :: (used ++ [group.value.close]), by simp [hused], ?_⟩
      rw [unspanned_branch]
      cases hparts : group.value.parts with
      | nil => exact absurd hparts hne
      | cons part parts =>
          rw [hparts] at hderives
          exact .apply ht hclose hderives
  | @lambda t us group a vs body ht hgroup hrest ha hparams hbody =>
      have hlt : vs.length < us.length := Nat.lt_of_succ_lt (by simpa [hrest] using group.rest_lt)
      obtain ⟨used, hused, hclose, hderives⟩ := derives_of_elements hgroup
      obtain ⟨used', hused', hderives'⟩ := derives_of_expression hbody
      obtain ⟨hidents, hmap⟩ := hderives.idents (by
        intro tree htree
        rw [unspannedAll_eq_map] at htree
        obtain ⟨part, hpart, rfl⟩ := List.mem_map.mp htree
        rw [kind_unspanned]
        exact hparams part hpart)
      refine ⟨t :: (used ++ group.value.close :: a :: used'), ?_, ?_⟩
      · rw [hrest] at hused
        simp [hused', hused]
      · rw [unspanned_branch, unspannedAll_cons, hmap]
        exact .lambda ht hidents hclose ha hderives'
  | @block t us group ht hgroup =>
      obtain ⟨used, hused, hclose, hderives⟩ := derives_of_statements hgroup
      refine ⟨t :: (used ++ [group.value.close]), by simp [hused], ?_⟩
      exact .block ht hclose hderives
termination_by 2 * ts.length
decreasing_by all_goals simp only [hts, List.length_cons]; omega

/-- What is read up to a closing parenthesis derives from the grammar. -/
theorem derives_of_elements {opening : Token} {ts : List Token} {p : Parsed Enclosed ts}
    (h : elements opening ts = .ok p) :
    ∃ used, used ++ p.value.close :: p.rest = ts ∧ p.value.close.kind = .rparen ∧
      Derives .elements used (unspannedAll p.value.parts) := by
  rcases elements_eq_ok h with ⟨hts, hclose, hparts⟩ | ⟨part, others, hpart, hothers, hvalue, hrest⟩
  · refine ⟨[], hts.symm, hclose, ?_⟩
    rw [hparts]
    exact .noElement
  · have hlt := part.rest_lt
    obtain ⟨used, hused, hderives⟩ := derives_of_expression hpart
    obtain ⟨used', hused', hclose, hderives'⟩ := derives_of_elements hothers
    rw [hvalue, hrest]
    refine ⟨used ++ used', ?_, hclose, .element hderives hderives'⟩
    rw [List.append_assoc, hused', hused]
termination_by 2 * ts.length + 1
decreasing_by all_goals omega

/-- What is read up to a closing brace derives from the grammar. -/
theorem derives_of_statements {opening : Token} {ts : List Token} {p : Parsed Enclosed ts}
    (h : statements opening ts = .ok p) :
    ∃ used, used ++ p.value.close :: p.rest = ts ∧ p.value.close.kind = .rbrace ∧
      Derives .statements used (unspannedAll p.value.parts) := by
  rcases statements_eq_ok h with ⟨hts, hclose, hparts⟩ |
    ⟨t, us, others, hts, ht, hothers, hvalue, hrest⟩ | ⟨part, others, hpart, hothers, hvalue, hrest⟩
  · refine ⟨[], hts.symm, hclose, ?_⟩
    rw [hparts]
    exact .noStatement
  · obtain ⟨used, hused, hclose, hderives⟩ := derives_of_statements hothers
    rw [hvalue, hrest]
    exact ⟨t :: used, by simp [hts, hused], hclose, .semicolon ht hderives⟩
  · have hlt := part.rest_lt
    obtain ⟨used, hused, hderives⟩ := derives_of_expression hpart
    obtain ⟨used', hused', hclose, hderives'⟩ := derives_of_statements hothers
    rw [hvalue, hrest]
    refine ⟨used ++ used', ?_, hclose, .statement hderives hderives'⟩
    rw [List.append_assoc, hused', hused]
termination_by 2 * ts.length + 1
decreasing_by
  · simp only [hts, List.length_cons]; omega
  · omega
  · omega

end

/-- What is read up to the end of the text derives from the grammar. -/
theorem derives_of_expressions {ts : List Token} {trees : List Tree}
    (h : expressions ts = .ok trees) :
    ∃ used rest, used ++ rest = ts ∧ (∀ t ∈ rest.head?, t.kind = .eof) ∧
      Derives .statements used (unspannedAll trees) := by
  rcases expressions_eq_ok h with ⟨hts, rfl⟩ | ⟨t, us, hts, ht, hus⟩ |
    ⟨part, others, hpart, hothers, rfl⟩
  · exact ⟨[], ts, rfl, hts, .noStatement⟩
  · obtain ⟨used, rest, hused, hrest, hderives⟩ := derives_of_expressions hus
    exact ⟨t :: used, rest, by simp [hts, hused], hrest, .semicolon ht hderives⟩
  · have hlt := part.rest_lt
    obtain ⟨used, hused, hderives⟩ := derives_of_expression hpart
    obtain ⟨used', rest, hused', hrest, hderives'⟩ := derives_of_expressions hothers
    refine ⟨used ++ used', rest, ?_, hrest, .statement hderives hderives'⟩
    rw [List.append_assoc, hused', hused]
termination_by ts.length
decreasing_by
  · simp [hts]
  · exact hlt

theorem Derives.exists_start {ts : List Token} {trees : List Tree}
    (h : Derives .expression ts trees) : ∃ t us, ts = t :: us ∧ StartsExpression t := by
  cases h with
  | integer ht => exact ⟨_, _, rfl, .inl ht⟩
  | symbol ht => exact ⟨_, _, rfl, .inr (.inl ht)⟩
  | assign ht _ _ => exact ⟨_, _, rfl, .inr (.inl ht)⟩
  | apply ht _ _ => exact ⟨_, _, rfl, .inr (.inr (.inl ht))⟩
  | lambda ht _ _ _ _ => exact ⟨_, _, rfl, .inr (.inr (.inl ht))⟩
  | block ht _ _ => exact ⟨_, _, rfl, .inr (.inr (.inr ht))⟩

/-- The end of the text derives from no phrase. -/
theorem Derives.ne_eof {p : Phrase} {ts : List Token} {trees : List Tree} (h : Derives p ts trees) :
    ∀ t ∈ ts, t.kind ≠ .eof := by
  induction h with
  | _ => grind

/-- The tokens `rest` do not continue an expression that ends before them. -/
def Ends (rest : List Token) : Prop := ∀ t ∈ rest.head?, t.kind ≠ .equals ∧ t.kind ≠ .arrow

/-- What it means that the reader reads tokens as the trees of a phrase, whatever tokens follow that
end the phrase. -/
def ReadsPhrase : Phrase → List Token → List Tree → Prop
  | .expression, ts, trees => ∀ input rest, input = ts ++ rest → Ends rest →
      ∃ p : Parsed Tree input, expression input = .ok p ∧ p.rest = rest ∧
        [p.value.unspanned] = trees
  | .elements, ts, trees => ∀ opening input close rest, input = ts ++ close :: rest →
      close.kind = .rparen → ∃ p : Parsed Enclosed input, elements opening input = .ok p ∧
        p.rest = rest ∧ p.value.close = close ∧ unspannedAll p.value.parts = trees
  | .statements, ts, trees =>
      (∀ opening input close rest, input = ts ++ close :: rest → close.kind = .rbrace →
        ∃ p : Parsed Enclosed input, statements opening input = .ok p ∧ p.rest = rest ∧
          p.value.close = close ∧ unspannedAll p.value.parts = trees) ∧
      ∀ e, e.kind = .eof → ∃ parts, expressions (ts ++ [e]) = .ok parts ∧ unspannedAll parts = trees
  | .module, ts, trees => ∀ e, e.kind = .eof →
      ∃ parts, expressions (ts ++ [e]) = .ok parts ∧
        [branch moduleKind default (unspannedAll parts)] = trees

theorem Ends.cons {t : Token} {us : List Token} (ht : t.kind ≠ .equals ∧ t.kind ≠ .arrow) :
    Ends (t :: us) := by
  intro u hu
  cases hu
  exact ht

/-- No expression is continued by another one. -/
theorem Derives.ends_expression {ts : List Token} {trees : List Tree}
    (h : Derives .expression ts trees) (rest : List Token) : Ends (ts ++ rest) := by
  obtain ⟨t, us, rfl, ht⟩ := h.exists_start
  apply Ends.cons
  rcases ht with ht | ht | ht | ht <;> simp [ht]

/-- Neither an element nor a closing parenthesis continues an expression. -/
theorem Derives.ends_elements {ts : List Token} {trees : List Tree} (h : Derives .elements ts trees)
    {close : Token} {rest : List Token} (hclose : close.kind = .rparen) :
    Ends (ts ++ close :: rest) := by
  cases h with
  | noElement => exact .cons (by simp [hclose])
  | element head _ =>
      rw [List.append_assoc]
      exact head.ends_expression _

/-- Neither a statement nor a closing brace nor the end of the text continues an expression. -/
theorem Derives.ends_statements {ts : List Token} {trees : List Tree}
    (h : Derives .statements ts trees) {close : Token} {rest : List Token}
    (hclose : close.kind = .rbrace ∨ close.kind = .eof) : Ends (ts ++ close :: rest) := by
  cases h with
  | noStatement =>
      apply Ends.cons
      rcases hclose with hclose | hclose <;> simp [hclose]
  | semicolon ht _ => exact .cons (by simp [ht])
  | statement head _ =>
      rw [List.append_assoc]
      exact head.ends_expression _

/-- What derives from the grammar is read, as the trees that the grammar gives it. -/
theorem Derives.reads {p : Phrase} {ts : List Token} {trees : List Tree} (h : Derives p ts trees) :
    ReadsPhrase p ts trees := by
  induction h with
  | integer ht =>
      rintro _ rest rfl _
      obtain ⟨_, hread⟩ := (show ReadsExpression _ _ rest from .integer ht).expression_eq
      exact ⟨_, hread, rfl, rfl⟩
  | symbol ht =>
      rintro _ rest rfl hrest
      obtain ⟨_, hread⟩ := (ReadsExpression.symbol ht fun u hu => (hrest u hu).1).expression_eq
      exact ⟨_, hread, rfl, rfl⟩
  | assign ht hu _ ih =>
      rintro _ rest rfl hrest
      obtain ⟨value, hvalue, hvrest, htree⟩ := ih _ rest rfl hrest
      obtain ⟨_, hread⟩ := (ReadsExpression.assign ht hu hvalue).expression_eq
      refine ⟨_, hread, hvrest, ?_⟩
      cases htree
      rfl
  | @apply t u ts tree trees ht hu _ ih =>
      rintro _ rest rfl hrest
      obtain ⟨group, hgroup, hgrest, _, hparts⟩ := ih t (ts ++ [u] ++ rest) u rest (by simp) hu
      have hne : group.value.parts ≠ [] := by
        intro hnil
        rw [hnil] at hparts
        cases hparts
      obtain ⟨_, hread⟩ := (ReadsExpression.apply ht hgroup hne
        (fun a ha => (hrest a (hgrest ▸ ha)).2)).expression_eq
      exact ⟨_, hread, hgrest, by rw [unspanned_branch, hparts]⟩
  | @lambda t params u a ts tree ht hparams hu ha _ ih =>
      intro input rest hinput hrest
      obtain rfl : input = t :: (params ++ u :: a :: (ts ++ rest)) := by simpa using hinput
      obtain ⟨body, hbody, hbrest, htree⟩ := ih _ rest rfl hrest
      obtain ⟨_, hgroup⟩ := elements_idents hu params hparams
      have hkinds : ∀ part ∈ params.map fun t => leaf symbolKind t.text t.span,
          part.kind = symbolKind := by
        intro part hpart
        obtain ⟨t, _, rfl⟩ := List.mem_map.mp hpart
        rfl
      obtain ⟨_, hread⟩ := (ReadsExpression.lambda ht hgroup rfl ha hkinds hbody).expression_eq
      refine ⟨_, hread, hbrest, ?_⟩
      cases htree
      rw [unspanned_branch, unspannedAll_cons, unspannedAll_eq_map, List.map_map]
      rfl
  | @block t u ts trees ht hu _ ih =>
      rintro _ rest rfl _
      obtain ⟨group, hgroup, hgrest, _, hparts⟩ := ih.1 t (ts ++ [u] ++ rest) u rest (by simp) hu
      obtain ⟨_, hread⟩ := (ReadsExpression.block ht hgroup).expression_eq
      exact ⟨_, hread, hgrest, by rw [unspanned_branch, hparts]⟩
  | noElement =>
      rintro opening _ close rest rfl hclose
      obtain ⟨_, hread⟩ := elements_close hclose
      exact ⟨_, hread, rfl, rfl, rfl⟩
  | element _ hothers ihhead ihrest =>
      intro opening input close rest hinput hclose
      obtain ⟨part, hpart, hprest, htree⟩ :=
        ihhead input _ (by rw [hinput, List.append_assoc]) (hothers.ends_elements hclose)
      obtain ⟨others, hread, horest, hoclose, hparts⟩ := ihrest opening _ close rest hprest hclose
      obtain ⟨_, hread⟩ := elements_part hpart hread
      refine ⟨_, hread, horest, hoclose, ?_⟩
      cases htree
      rw [unspannedAll_cons, hparts]
  | noStatement =>
      constructor
      · rintro opening _ close rest rfl hclose
        obtain ⟨_, hread⟩ := statements_close hclose
        exact ⟨_, hread, rfl, rfl, rfl⟩
      · intro e he
        exact ⟨[], expressions_eof he, rfl⟩
  | semicolon ht _ ih =>
      constructor
      · rintro opening _ close rest rfl hclose
        obtain ⟨others, hread, horest, hoclose, hparts⟩ := ih.1 opening _ close rest rfl hclose
        obtain ⟨_, hread⟩ := statements_semicolon ht hread
        exact ⟨_, hread, horest, hoclose, hparts⟩
      · intro e he
        obtain ⟨parts, hread, hparts⟩ := ih.2 e he
        exact ⟨parts, (expressions_semicolon ht).trans hread, hparts⟩
  | statement _ hothers ihhead ihrest =>
      constructor
      · intro opening input close rest hinput hclose
        obtain ⟨part, hpart, hprest, htree⟩ :=
          ihhead input _ (by rw [hinput, List.append_assoc]) (hothers.ends_statements (.inl hclose))
        obtain ⟨others, hread, horest, hoclose, hparts⟩ :=
          ihrest.1 opening _ close rest hprest hclose
        obtain ⟨_, hread⟩ := statements_part hpart hread
        refine ⟨_, hread, horest, hoclose, ?_⟩
        cases htree
        rw [unspannedAll_cons, hparts]
      · intro e he
        obtain ⟨part, hpart, hprest, htree⟩ :=
          ihhead _ _ (List.append_assoc _ _ _) (hothers.ends_statements (.inr he))
        obtain ⟨parts, hread, hparts⟩ := ihrest.2 e he
        refine ⟨_, expressions_part hpart (hprest ▸ hread), ?_⟩
        cases htree
        rw [unspannedAll_cons, hparts]
  | module _ ih =>
      intro e he
      obtain ⟨parts, hread, rfl⟩ := ih.2 e he
      exact ⟨parts, hread, rfl⟩

/-- The tree of a text derives from the words of the text. -/
theorem derives_of_ofSource {source : String} {tokens : List Token}
    (htokens : Token.read source = .ok tokens) {tree : Tree} (h : ofSource source = .ok tree) :
    Derives .module (Token.words tokens) [tree.unspanned] := by
  rw [ofSource] at h
  obtain ⟨_, hread, h⟩ := except_bind_eq_ok_iff.mp h
  obtain rfl := Except.ok.inj (htokens.symm.trans hread)
  obtain ⟨trees, htrees, h⟩ := except_bind_eq_ok_iff.mp h
  cases h
  obtain ⟨last, hsplit, hlast⟩ := Token.read_eq_words htokens
  obtain ⟨used, rest, hused, hrest, hderives⟩ := derives_of_expressions htrees
  have hwords : used = Token.words tokens := by
    refine (append_inj_of_class (p := fun t => t.kind ≠ .eof) ?_ ?_ ?_ ?_ (hused.trans hsplit)).1
    · exact fun t ht => by simpa using hderives.ne_eof t ht
    · exact fun t ht => by simpa [Token.words] using (List.mem_filter.mp ht).2
    · exact fun t ht => by simp [hrest t ht]
    · simp [hlast]
  rw [unspanned_branch, ← hwords]
  exact .module hderives

/-- A text whose words derive from the grammar has the derived tree. -/
theorem ofSource_of_derives {source : String} {tokens : List Token}
    (htokens : Token.read source = .ok tokens) {tree : Tree}
    (h : Derives .module (Token.words tokens) [tree]) :
    ∃ tree', ofSource source = .ok tree' ∧ tree'.unspanned = tree := by
  obtain ⟨last, hsplit, hlast⟩ := Token.read_eq_words htokens
  obtain ⟨parts, hparts, htree⟩ := h.reads last hlast
  rw [← hsplit] at hparts
  refine ⟨branch moduleKind (.ofOffsets 0 (Text.byteLength source.toList)) parts, ?_,
    (List.cons.inj htree).1⟩
  rw [ofSource]
  exact except_bind_eq_ok_iff.mpr ⟨tokens, htokens, except_bind_eq_ok_iff.mpr ⟨parts, hparts, rfl⟩⟩

/-- A text that can be cut into tokens has a tree exactly if its words derive from the grammar.
Then, without its spans, it is the one tree that the grammar gives the words, and no error is
reported. Otherwise exactly one error is. -/
theorem parse_eq_grammar {source : String} {tokens : List Token}
    (h : Token.read source = .ok tokens) :
    ((∃ tree, (parse source).tree? = some tree) ↔
      ∃ tree, Derives .module (Token.words tokens) [tree]) ∧
    (∀ tree, (parse source).tree? = some tree → (parse source).errors = [] ∧
      ∀ tree', Derives .module (Token.words tokens) [tree'] ↔ tree' = tree.unspanned) ∧
    ((parse source).tree? = none → ∃ e, (parse source).errors = [e]) := by
  cases hsource : ofSource source with
  | ok tree =>
      have hparse : parse source = ⟨some tree, []⟩ := congrArg ParseResult.ofExcept hsource
      have hderives := derives_of_ofSource h hsource
      rw [hparse]
      refine ⟨⟨fun _ => ⟨_, hderives⟩, fun _ => ⟨tree, rfl⟩⟩, ?_, fun hnone => by cases hnone⟩
      rintro _ ⟨⟩
      refine ⟨rfl, fun tree' => ⟨fun h' => ?_, fun h' => h' ▸ hderives⟩⟩
      obtain ⟨_, hread, rfl⟩ := ofSource_of_derives h h'
      rw [hsource] at hread
      cases hread
      rfl
  | error e =>
      have hparse : parse source = ⟨none, [e]⟩ := congrArg ParseResult.ofExcept hsource
      rw [hparse]
      refine ⟨⟨?_, ?_⟩, ?_, fun _ => ⟨e, rfl⟩⟩
      · rintro ⟨_, ⟨⟩⟩
      · rintro ⟨tree, hderives⟩
        obtain ⟨_, hread, _⟩ := ofSource_of_derives h hderives
        rw [hsource] at hread
        cases hread
      · rintro _ ⟨⟩

/-- The reader accepts exactly the grammar and builds its tree. For a text that can be cut into
tokens, each of which is the slice at its span, there is a tree exactly if the words of the text
derive from the grammar. Then, without its spans, it is the one tree that the grammar gives the
words, and no error is reported. Otherwise exactly one error is. -/
theorem parseSlices_eq_grammar {source : String} {tokens : List Token}
    (hlen : Text.byteLength source.toList < UInt32.size) (h : Token.read source = .ok tokens) :
    (∀ t ∈ tokens, t.span.slice? source = some t.text) ∧
    ∃ result, parseSlices source = some result ∧
      ((∃ tree, result.tree? = some tree) ↔ ∃ tree, Derives .module (Token.words tokens) [tree]) ∧
      (∀ tree, result.tree? = some tree → result.errors = [] ∧
        ∀ tree', Derives .module (Token.words tokens) [tree'] ↔ tree' = tree.unspanned) ∧
      (result.tree? = none → ∃ e, result.errors = [e]) :=
  ⟨Token.slice?_of_mem_read hlen h, parse source, parseSlices_eq hlen, parse_eq_grammar h⟩

/-- The text `f = (x) => x; f` has a tree, the text `(x = y) => x` has none. -/
theorem parseSlices_eq_grammar_assign :
    (Text.byteLength "f = (x) => x; f".toList < UInt32.size ∧
      ∃ tokens result tree, Token.read "f = (x) => x; f" = .ok tokens ∧
        parseSlices "f = (x) => x; f" = some result ∧ result.tree? = some tree ∧
          result.errors = [] ∧
        ∀ tree', Derives .module (Token.words tokens) [tree'] ↔ tree' = tree.unspanned) ∧
    Text.byteLength "(x = y) => x".toList < UInt32.size ∧
      ∃ tokens result, Token.read "(x = y) => x" = .ok tokens ∧
        parseSlices "(x = y) => x" = some result ∧ (∃ e, result.errors = [e]) ∧
        ¬ ∃ tree, Derives .module (Token.words tokens) [tree] := by
  refine ⟨⟨by decide, ?_⟩, by decide, ?_⟩
  · obtain ⟨tokens, htokens⟩ := exists_eq_ok_of_isOk (x := Token.read "f = (x) => x; f")
      (by decide +kernel)
    obtain ⟨_, result, hresult, _, htree, _⟩ := parseSlices_eq_grammar (by decide) htokens
    have hsome : ((parseSlices "f = (x) => x; f").bind (·.tree?)).isSome := by decide +kernel
    rw [hresult] at hsome
    obtain ⟨tree, hread⟩ := Option.isSome_iff_exists.mp hsome
    exact ⟨tokens, result, tree, htokens, hresult, hread, htree tree hread⟩
  · obtain ⟨tokens, htokens⟩ := exists_eq_ok_of_isOk (x := Token.read "(x = y) => x")
      (by decide +kernel)
    obtain ⟨_, result, hresult, hderives, _, herror⟩ := parseSlices_eq_grammar (by decide) htokens
    have hnone : ((parseSlices "(x = y) => x").bind (·.tree?)).isNone := by decide +kernel
    rw [hresult] at hnone
    have htree : result.tree? = none := Option.isNone_iff_eq_none.mp hnone
    refine ⟨tokens, result, htokens, hresult, herror htree, fun h => ?_⟩
    obtain ⟨tree, hread⟩ := hderives.mpr h
    cases htree.symm.trans hread

/-- Behind `2 ^ 32 - 1` spaces the name `ab` derives from the grammar, but its span wraps around, so
that there is neither a tree nor an error. -/
theorem parseSlices_breaks_off :
    ∃ tokens tree, Token.read (Text.spaced " " (UInt32.size - 2) "ab") = .ok tokens ∧
      Derives .module (Token.words tokens) [tree] ∧
      parseSlices (Text.spaced " " (UInt32.size - 2) "ab") = none := by
  have hback : Cursor.tokens ⟨4294967295, "ab".toList⟩ =
      .ok [⟨.ident, ⟨4294967295, 1⟩, "ab"⟩, ⟨.eof, ⟨1, 1⟩, ""⟩] :=
    eq_ok_of_value (by decide +kernel)
  have hread : Token.read (Text.spaced " " (UInt32.size - 2) "ab") = _ :=
    Token.read_spaced_gap (fun _ => .blank rfl .nil) hback
  refine ⟨_, branch moduleKind default [leaf symbolKind "ab" default], hread, ?_, ?_⟩
  · change Derives .module ([⟨.ident, ⟨4294967295, 1⟩, "ab"⟩] ++ []) _
    exact .module (.statement (.symbol rfl) .noStatement)
  · rw [parseSlices, ofSlices_spaced hread (by decide +kernel)]
    exact Option.isNone_iff_eq_none.mp (by decide +kernel)

end LambdaLift.Tree
