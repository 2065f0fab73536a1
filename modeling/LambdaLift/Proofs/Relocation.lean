import LambdaLift.Proofs.Grammar

/-!
# Reading tokens at other places

The reader looks at kinds and texts of tokens, and at spans only to cover one by another. So tokens
that are moved to other places give the same tree, moved in the same way. Of the tokens behind an
expression it looks at the first one only, to see whether this continues the expression. The rest
can be replaced by other tokens.
-/

namespace LambdaLift

/-- A change of places that agrees with covering one span by another. -/
structure Relocation where
  move : Span → Span
  move_cover : ∀ s t, move (s.cover t) = (move s).cover (move t)

namespace Relocation

/-- Everything stays where it is. -/
protected def id : Relocation := ⟨fun s => s, fun _ _ => rfl⟩

/-- All places are forgotten. -/
def forget : Relocation := ⟨fun _ => default, fun _ _ => rfl⟩

end Relocation

/-- The same token at another place. -/
def Token.relocate (f : Relocation) (t : Token) : Token := { t with span := f.move t.span }

@[simp] theorem Token.kind_relocate (f : Relocation) (t : Token) : (t.relocate f).kind = t.kind :=
  rfl

@[simp] theorem Token.map_relocate_id (ts : List Token) : ts.map (Token.relocate .id) = ts :=
  List.map_id ts

namespace Tree

/-- The same tree at another place. -/
def relocate (f : Relocation) (tree : Tree) : Tree := tree.mapSpans f.move

/-- The same trees at other places. -/
def relocateAll (f : Relocation) (trees : List Tree) : List Tree := mapSpansAll f.move trees

variable (f : Relocation)

@[simp] theorem kind_relocate (tree : Tree) : (tree.relocate f).kind = tree.kind :=
  kind_mapSpans _ tree

@[simp] theorem span_relocate (tree : Tree) : (tree.relocate f).span = f.move tree.span := by
  cases tree; rfl

theorem relocate_branch (kind : String) (span : Span) (children : List Tree) :
    (branch kind span children).relocate f = branch kind (f.move span) (relocateAll f children) :=
  rfl

theorem relocateAll_eq_map (trees : List Tree) : relocateAll f trees = trees.map (relocate f) :=
  mapSpansAll_eq_map _ trees

theorem relocateAll_forget (trees : List Tree) : relocateAll .forget trees = unspannedAll trees :=
  rfl

/-- The tokens `rest'` continue an expression before them only as the tokens `rest` do. -/
def EndsLike (rest rest' : List Token) : Prop :=
  ∀ t' ∈ rest'.head?, t'.kind = .equals ∨ t'.kind = .arrow → ∃ t ∈ rest.head?, t.kind = t'.kind

theorem EndsLike.ne_equals {rest rest' : List Token} (h : EndsLike rest rest')
    (hrest : ∀ t ∈ rest.head?, t.kind ≠ .equals) : ∀ t ∈ rest'.head?, t.kind ≠ .equals := by
  intro t' ht' hkind
  obtain ⟨t, ht, heq⟩ := h t' ht' (.inl hkind)
  exact hrest t ht (heq.trans hkind)

theorem EndsLike.ne_arrow {rest rest' : List Token} (h : EndsLike rest rest')
    (hrest : ∀ t ∈ rest.head?, t.kind ≠ .arrow) : ∀ t ∈ rest'.head?, t.kind ≠ .arrow := by
  intro t' ht' hkind
  obtain ⟨t, ht, heq⟩ := h t' ht' (.inr hkind)
  exact hrest t ht (heq.trans hkind)

theorem EndsLike.of_head? {rest rest' : List Token}
    (h : rest'.head? = rest.head?.map (Token.relocate f)) :
    EndsLike rest rest' := by
  intro t' ht' _
  rw [h] at ht'
  obtain ⟨t, ht, rfl⟩ := Option.map_eq_some_iff.mp ht'
  exact ⟨t, ht, rfl⟩

theorem head?_map_append {before after after' : List Token}
    (h : after'.head? = after.head?.map (Token.relocate f)) :
    (before.map (Token.relocate f) ++ after').head? =
      (before ++ after).head?.map (Token.relocate f) := by
  cases before with
  | nil => exact h
  | cons t before => rfl

theorem endsLike_close {used rest ts : List Token} {close : Token} (h : used ++ close :: rest = ts)
    (rest' : List Token) :
    EndsLike ts (used.map (Token.relocate f) ++ close.relocate f :: rest') := by
  rw [← h]
  exact .of_head? f (head?_map_append f rfl)

mutual

/-- An expression is read at another place as at its own, also before other tokens. -/
theorem expression_relocate {ts : List Token} {p : Parsed Tree ts} (h : expression ts = .ok p) :
    ∃ used, used ++ p.rest = ts ∧ ∀ (f : Relocation) (rest' : List Token), EndsLike p.rest rest' →
      ReadsExpression (used.map (Token.relocate f) ++ rest') (p.value.relocate f) rest' := by
  have hreads := expression_eq_ok h
  generalize p.value = tree, p.rest = rest at hreads ⊢
  generalize hts : ts = ts' at hreads ⊢
  cases hreads with
  | @integer t us ht => exact ⟨[t], rfl, fun f rest' _ => .integer (t := t.relocate f) ht⟩
  | @symbol t us ht hus =>
      exact ⟨[t], rfl, fun f rest' hrest' => .symbol (t := t.relocate f) ht (hrest'.ne_equals hus)⟩
  | @assign t u vs value ht hu hvalue =>
      obtain ⟨used, hused, hlocal⟩ := expression_relocate hvalue
      refine ⟨t :: u :: used, by simp [hused], fun f rest' hrest' => ?_⟩
      obtain ⟨_, hvalue'⟩ := (hlocal f rest' hrest').expression_eq
      rw [relocate_branch, f.move_cover, ← span_relocate]
      exact .assign (t := t.relocate f) (u := u.relocate f) ht hu hvalue'
  | @apply t us group ht hgroup hne hrest =>
      obtain ⟨used, hused, hclose, hlocal⟩ := elements_relocate hgroup
      refine ⟨t :: (used ++ [group.value.close]), by simp [hused], fun f rest' hrest' => ?_⟩
      obtain ⟨_, hgroup'⟩ := hlocal f (t.relocate f) rest'
      have hne' : relocateAll f group.value.parts ≠ [] := by simpa [relocateAll_eq_map] using hne
      rw [relocate_branch, f.move_cover, List.map_cons, List.map_append, List.cons_append,
        List.append_assoc]
      exact .apply (t := t.relocate f) ht hgroup' hne' (hrest'.ne_arrow hrest)
  | @lambda t us group a vs body ht hgroup hrest ha hparams hbody =>
      have hlt : vs.length < us.length := Nat.lt_of_succ_lt (by simpa [hrest] using group.rest_lt)
      obtain ⟨used, hused, hclose, hlocal⟩ := elements_relocate hgroup
      obtain ⟨used', hused', hlocal'⟩ := expression_relocate hbody
      refine ⟨t :: (used ++ group.value.close :: a :: used'), ?_, fun f rest' hrest' => ?_⟩
      · rw [hrest] at hused
        simp [hused', hused]
      · obtain ⟨_, hbody'⟩ := (hlocal' f rest' hrest').expression_eq
        obtain ⟨_, hgroup'⟩ :=
          hlocal f (t.relocate f) (a.relocate f :: (used'.map (Token.relocate f) ++ rest'))
        have hparams' : ∀ part ∈ relocateAll f group.value.parts, part.kind = symbolKind := by
          intro part hpart
          rw [relocateAll_eq_map] at hpart
          obtain ⟨part', hpart', rfl⟩ := List.mem_map.mp hpart
          rw [kind_relocate]
          exact hparams part' hpart'
        rw [relocate_branch, f.move_cover, ← span_relocate, List.map_cons, List.map_append,
          List.cons_append, List.append_assoc]
        exact .lambda (t := t.relocate f) (a := a.relocate f) ht hgroup' rfl ha hparams' hbody'
  | @block t us group ht hgroup =>
      obtain ⟨used, hused, hclose, hlocal⟩ := statements_relocate hgroup
      refine ⟨t :: (used ++ [group.value.close]), by simp [hused], fun f rest' _ => ?_⟩
      obtain ⟨_, hgroup'⟩ := hlocal f (t.relocate f) rest'
      rw [relocate_branch, f.move_cover, List.map_cons, List.map_append, List.cons_append,
        List.append_assoc]
      exact .block (t := t.relocate f) ht hgroup'
termination_by 2 * ts.length
decreasing_by all_goals simp only [hts, List.length_cons]; omega

/-- Expressions up to a closing parenthesis are read at another place as at their own, also before
other tokens. -/
theorem elements_relocate {opening : Token} {ts : List Token} {p : Parsed Enclosed ts}
    (h : elements opening ts = .ok p) :
    ∃ used, used ++ p.value.close :: p.rest = ts ∧ p.value.close.kind = .rparen ∧
      ∀ (f : Relocation) (opening' : Token) (rest' : List Token),
        ∃ hlt, elements opening' (used.map (Token.relocate f) ++
          p.value.close.relocate f :: rest') =
          .ok ⟨⟨relocateAll f p.value.parts, p.value.close.relocate f⟩, rest', hlt⟩ := by
  rcases elements_eq_ok h with ⟨hts, hclose, hparts⟩ | ⟨part, others, hpart, hothers, hvalue, hrest⟩
  · refine ⟨[], hts.symm, hclose, fun f opening' rest' => ?_⟩
    rw [hparts]
    exact elements_close hclose
  · have hlt := part.rest_lt
    obtain ⟨used, hused, hlocal⟩ := expression_relocate hpart
    obtain ⟨used', hused', hclose, hlocal'⟩ := elements_relocate hothers
    rw [hvalue, hrest]
    refine ⟨used ++ used', by rw [List.append_assoc, hused', hused], hclose, fun f opening' rest' =>
      ?_⟩
    obtain ⟨_, hothers'⟩ := hlocal' f opening' rest'
    obtain ⟨_, hpart'⟩ := (hlocal f _ (endsLike_close f hused' rest')).expression_eq
    rw [List.map_append, List.append_assoc]
    exact elements_part hpart' hothers'
termination_by 2 * ts.length + 1
decreasing_by all_goals omega

/-- Expressions up to a closing brace are read at another place as at their own, also before other
tokens. -/
theorem statements_relocate {opening : Token} {ts : List Token} {p : Parsed Enclosed ts}
    (h : statements opening ts = .ok p) :
    ∃ used, used ++ p.value.close :: p.rest = ts ∧ p.value.close.kind = .rbrace ∧
      ∀ (f : Relocation) (opening' : Token) (rest' : List Token),
        ∃ hlt, statements opening' (used.map (Token.relocate f) ++
          p.value.close.relocate f :: rest') =
          .ok ⟨⟨relocateAll f p.value.parts, p.value.close.relocate f⟩, rest', hlt⟩ := by
  rcases statements_eq_ok h with ⟨hts, hclose, hparts⟩ |
    ⟨t, us, others, hts, ht, hothers, hvalue, hrest⟩ | ⟨part, others, hpart, hothers, hvalue, hrest⟩
  · refine ⟨[], hts.symm, hclose, fun f opening' rest' => ?_⟩
    rw [hparts]
    exact statements_close hclose
  · obtain ⟨used, hused, hclose, hlocal⟩ := statements_relocate hothers
    rw [hvalue, hrest]
    refine ⟨t :: used, by simp [hts, hused], hclose, fun f opening' rest' => ?_⟩
    obtain ⟨_, hothers'⟩ := hlocal f opening' rest'
    exact statements_semicolon (t := t.relocate f) ht hothers'
  · have hlt := part.rest_lt
    obtain ⟨used, hused, hlocal⟩ := expression_relocate hpart
    obtain ⟨used', hused', hclose, hlocal'⟩ := statements_relocate hothers
    rw [hvalue, hrest]
    refine ⟨used ++ used', by rw [List.append_assoc, hused', hused], hclose, fun f opening' rest' =>
      ?_⟩
    obtain ⟨_, hothers'⟩ := hlocal' f opening' rest'
    obtain ⟨_, hpart'⟩ := (hlocal f _ (endsLike_close f hused' rest')).expression_eq
    rw [List.map_append, List.append_assoc]
    exact statements_part hpart' hothers'
termination_by 2 * ts.length + 1
decreasing_by
  · simp only [hts, List.length_cons]; omega
  · omega
  · omega

end

/-- The expressions of a text are read at other places as at their own. -/
theorem expressions_relocate {ts : List Token} {trees : List Tree}
    (h : expressions ts = .ok trees) :
    expressions (ts.map (Token.relocate f)) = .ok (relocateAll f trees) := by
  rcases expressions_eq_ok h with ⟨hts, rfl⟩ | ⟨t, us, hts, ht, hus⟩ |
    ⟨part, others, hpart, hothers, rfl⟩
  · cases ts with
    | nil => exact h
    | cons t us => exact expressions_eof (hts t rfl)
  · rw [hts, List.map_cons, expressions_semicolon (t := t.relocate f) ht]
    exact expressions_relocate hus
  · have hlt := part.rest_lt
    obtain ⟨used, hused, hlocal⟩ := expression_relocate hpart
    obtain ⟨_, hpart'⟩ :=
      (hlocal f (part.rest.map (Token.relocate f)) (.of_head? f (by simp))).expression_eq
    have hts : ts.map (Token.relocate f) = used.map (Token.relocate f) ++
        part.rest.map (Token.relocate f) := by
      rw [← List.map_append, hused]
    rw [hts]
    exact expressions_part hpart' (expressions_relocate hothers)
termination_by ts.length
decreasing_by
  · simp [hts]
  · exact hlt

theorem ofSource_of_read {source : String} {tokens : List Token}
    (h : Token.read source = .ok tokens) :
    ofSource source =
      (expressions tokens).map
        (branch moduleKind (.ofOffsets 0 (Text.byteLength source.toList))) := by
  rw [ofSource, h]
  change (expressions tokens >>= fun trees => pure (branch moduleKind _ trees)) = _
  cases expressions tokens with
  | ok trees => rfl
  | error e => rfl

end Tree

end LambdaLift
