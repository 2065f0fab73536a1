import LambdaLift.Proofs.Relocation

/-!
# How the reader of trees fails

The reader fails at the first token that it cannot use, or at the end of the text. `Fails` says how
it gets there: which tokens it took before, and inside of what it was. A failed run is one of these
ways, and each of them is a failed run. So what follows the token at which the reader fails has no
influence on the error.
-/

namespace LambdaLift

/-- The same error at another place. -/
def SyntaxError.relocate (f : Relocation) : SyntaxError → SyntaxError
  | unexpectedCharacter c span => unexpectedCharacter c (f.move span)
  | unexpectedToken text span => unexpectedToken text (f.move span)
  | missingExpression span => missingExpression (f.move span)
  | unclosedDelimiter d opening expectedClose =>
      unclosedDelimiter d (f.move opening) (f.move expectedClose)
  | invalid construct span => invalid construct (f.move span)

namespace Tree

/-- The readers of token lists: of one expression, of expressions up to a closing bracket, and of
those up to the end of the text. -/
inductive Reader where
  | expression
  | enclosed (delimiter : Delimiter) (opening : Token)
  | module

/-- The text ends before the tokens. -/
def AtEnd (ts : List Token) : Prop := ∀ t ∈ ts.head?, t.kind = .eof

/-- The span of the next token. -/
def spanAhead (ts : List Token) : Span := (ts.head?.map Token.span).getD default

namespace Reader

/-- What a reader leaves of the tokens, or its error. -/
def run : Reader → List Token → Except SyntaxError (List Token)
  | expression, ts => (Tree.expression ts).map Parsed.rest
  | enclosed .paren opening, ts => (elements opening ts).map Parsed.rest
  | enclosed .brace opening, ts => (statements opening ts).map Parsed.rest
  | module, ts => (expressions ts).map fun _ => []

/-- The token starts a part of a sequence: it neither ends the sequence nor stands between two
parts. -/
def Enters : Reader → Token → Prop
  | expression, _ => False
  | enclosed .paren _, t => t.kind ≠ .rparen ∧ t.kind ≠ .eof
  | enclosed .brace _, t => t.kind ≠ .semicolon ∧ t.kind ≠ .rbrace ∧ t.kind ≠ .eof
  | module, t => t.kind ≠ .semicolon ∧ t.kind ≠ .eof

/-- Semicolons can stand between the parts of a sequence. -/
def SkipsSemicolons : Reader → Prop
  | expression | enclosed .paren _ => False
  | enclosed .brace _ | module => True

/-- The same reader in a text with other places. -/
def relocate (f : Relocation) : Reader → Reader
  | expression => expression
  | enclosed d opening => enclosed d (opening.relocate f)
  | module => module

end Reader

/-- `Fails r front rest e`: the reader `r` takes the tokens `front` and fails with `e` at the first
token of `rest`. -/
inductive Fails : Reader → List Token → List Token → SyntaxError → Prop
  | missing {rest} (hrest : AtEnd rest) :
    Fails .expression [] rest (.missingExpression (spanAhead rest))
  | unexpected {t rest} (ht : ¬StartsExpression t) (heof : t.kind ≠ .eof) :
      Fails .expression [] (t :: rest) (.unexpectedToken t.text t.span)
  | value {t u front rest e} (ht : t.kind = .ident) (hu : u.kind = .equals)
      (inside : Fails .expression front rest e) : Fails .expression (t :: u :: front) rest e
  | group {t front rest e} (ht : t.kind = .lparen) (inside :
    Fails (.enclosed .paren t) front rest e) :
      Fails .expression (t :: front) rest e
  | callee {t u rest} (ht : t.kind = .lparen) (hu : u.kind = .rparen)
      (hrest : ∀ a ∈ rest.head?, a.kind ≠ .arrow) :
      Fails .expression [t, u] rest (.invalid .application (t.span.cover u.span))
  | parameters {t used a rest group bad} (ht : t.kind = .lparen)
      (parts : elements t (used ++ a :: rest) = .ok group) (hrest : group.rest = a :: rest)
      (ha : a.kind = .arrow) (hbad : group.value.parts.find? (·.kind != symbolKind) = some bad) :
      Fails .expression (t :: used) (a :: rest) (.invalid .parameterList bad.span)
  | body {t params u a front rest e} (ht : t.kind = .lparen) (hparams :
    ∀ p ∈ params, p.kind = .ident)
      (hu : u.kind = .rparen) (ha : a.kind = .arrow) (inside : Fails .expression front rest e) :
      Fails .expression (t :: (params ++ u :: a :: front)) rest e
  | block {t front rest e} (ht : t.kind = .lbrace) (inside :
    Fails (.enclosed .brace t) front rest e) :
      Fails .expression (t :: front) rest e
  | unclosed {d opening rest} (hrest : AtEnd rest) :
      Fails (.enclosed d opening) [] rest (.unclosedDelimiter d opening.span (spanAhead rest))
  | semicolon {r t front rest e} (hr : r.SkipsSemicolons) (ht : t.kind = .semicolon)
      (inside : Fails r front rest e) : Fails r (t :: front) rest e
  | part {r t front rest e} (hhead : (front ++ rest).head? = some t) (ht : r.Enters t)
      (inside : Fails .expression front rest e) : Fails r front rest e
  | laterPart {r t used front rest e} (hhead : used.head? = some t) (ht : r.Enters t)
      (head : Reader.run .expression (used ++ (front ++ rest)) = .ok (front ++ rest))
      (inside : Fails r front rest e) : Fails r (used ++ front) rest e

namespace Reader

theorem run_semicolon {r : Reader} {t : Token} (hr : r.SkipsSemicolons) (ht : t.kind = .semicolon)
    (us : List Token) : r.run (t :: us) = r.run us := by
  match r, hr with
  | enclosed .brace opening, _ =>
      rw [run, run, statements_def]
      simp only [ht]
      cases statements opening us with
      | ok p => rfl
      | error e => rfl
  | module, _ => rw [run, run, expressions_semicolon ht]

/-- A sequence starts with its first part. -/
theorem run_enters {r : Reader} {t : Token} (ht : r.Enters t) (us : List Token) :
    r.run (t :: us) = run .expression (t :: us) >>= r.run := by
  match r, ht with
  | enclosed .paren opening, ⟨hclose, heof⟩ =>
      rw [run, run, elements_def]
      dsimp only
      split
      · contradiction
      · contradiction
      · cases Tree.expression (t :: us) with
        | error e => rfl
        | ok part =>
            simp only [bind, Except.bind, Except.map, run]
            cases elements opening part.rest with
            | ok others => rfl
            | error e => rfl
  | enclosed .brace opening, ⟨hsemicolon, hclose, heof⟩ =>
      rw [run, run, statements_def]
      dsimp only
      split
      · contradiction
      · contradiction
      · contradiction
      · cases Tree.expression (t :: us) with
        | error e => rfl
        | ok part =>
            simp only [bind, Except.bind, Except.map, run]
            cases statements opening part.rest with
            | ok others => rfl
            | error e => rfl
  | module, ⟨hsemicolon, heof⟩ =>
      rw [run, run, expressions_def]
      dsimp only
      split
      · contradiction
      · contradiction
      · cases Tree.expression (t :: us) with
        | error e => rfl
        | ok part =>
            simp only [bind, Except.bind, Except.map, run]
            cases expressions part.rest with
            | ok others => rfl
            | error e => rfl

/-- A sequence in brackets fails where the text ends. -/
theorem run_atEnd (d : Delimiter) (opening : Token) {ts : List Token} (h : AtEnd ts) :
    (enclosed d opening).run ts = .error (.unclosedDelimiter d opening.span (spanAhead ts)) := by
  cases ts with
  | nil =>
      cases d with
      | paren => rw [run, elements_def]; rfl
      | brace => rw [run, statements_def]; rfl
  | cons t us =>
      have ht : t.kind = .eof := h t rfl
      cases d with
      | paren => rw [run, elements_def]; simp only [ht]; rfl
      | brace => rw [run, statements_def]; simp only [ht]; rfl

/-- The reader of a sequence is done at a token, fails there because the text ends, skips it or
reads a part. -/
theorem run_cases {r : Reader} (hr : r ≠ .expression) (t : Token) (us : List Token) :
    (∃ rest, r.run (t :: us) = .ok rest) ∨ (∃ d opening, r = .enclosed d opening ∧ t.kind = .eof) ∨
      (r.SkipsSemicolons ∧ t.kind = .semicolon) ∨ r.Enters t := by
  match r, hr with
  | enclosed .paren opening, _ =>
      by_cases hclose : t.kind = .rparen
      · obtain ⟨_, hread⟩ := @elements_close opening t us hclose
        exact .inl ⟨us, except_map_eq_ok_iff.mpr ⟨_, hread, rfl⟩⟩
      · by_cases heof : t.kind = .eof
        · exact .inr (.inl ⟨_, _, rfl, heof⟩)
        · exact .inr (.inr (.inr ⟨hclose, heof⟩))
  | enclosed .brace opening, _ =>
      by_cases hclose : t.kind = .rbrace
      · obtain ⟨_, hread⟩ := @statements_close opening t us hclose
        exact .inl ⟨us, except_map_eq_ok_iff.mpr ⟨_, hread, rfl⟩⟩
      · by_cases heof : t.kind = .eof
        · exact .inr (.inl ⟨_, _, rfl, heof⟩)
        · by_cases hsemicolon : t.kind = .semicolon
          · exact .inr (.inr (.inl ⟨trivial, hsemicolon⟩))
          · exact .inr (.inr (.inr ⟨hsemicolon, hclose, heof⟩))
  | module, _ =>
      by_cases heof : t.kind = .eof
      · exact .inl ⟨[], except_map_eq_ok_iff.mpr ⟨_, expressions_eof heof, rfl⟩⟩
      · by_cases hsemicolon : t.kind = .semicolon
        · exact .inr (.inr (.inl ⟨trivial, hsemicolon⟩))
        · exact .inr (.inr (.inr ⟨hsemicolon, heof⟩))

end Reader

section Steps

variable {t u a : Token} {ts vs : List Token} {e : SyntaxError}

theorem expression_atEnd (h : AtEnd ts) :
    expression ts = .error (.missingExpression (spanAhead ts)) := by
  cases ts with
  | nil => rw [expression_def]; rfl
  | cons t us =>
      have ht : t.kind = .eof := h t rfl
      rw [expression_def]
      simp only [ht]
      rfl

theorem expression_unexpected (ht : ¬StartsExpression t) (heof : t.kind ≠ .eof) :
    expression (t :: ts) = .error (.unexpectedToken t.text t.span) := by
  rw [expression_def]
  dsimp only
  cases hkind : t.kind with
  | int => exact absurd (.inl hkind) ht
  | ident => exact absurd (.inr (.inl hkind)) ht
  | lparen => exact absurd (.inr (.inr (.inl hkind))) ht
  | lbrace => exact absurd (.inr (.inr (.inr hkind))) ht
  | eof => exact absurd hkind heof
  | rparen | rbrace | arrow | equals | semicolon => rfl

theorem expression_value (ht : t.kind = .ident) (hu : u.kind = .equals)
    (h : expression ts = .error e) :
    expression (t :: u :: ts) = .error e := by
  rw [expression_def]
  simp only [ht, if_pos hu, h]
  rfl

theorem expression_group (ht : t.kind = .lparen) (h : elements t ts = .error e) :
    expression (t :: ts) = .error e := by
  rw [expression_def]
  simp only [ht, h]
  rfl

theorem expression_block (ht : t.kind = .lbrace) (h : statements t ts = .error e) :
    expression (t :: ts) = .error e := by
  rw [expression_def]
  simp only [ht, h]
  rfl

theorem expression_callee (ht : t.kind = .lparen) (hu : u.kind = .rparen)
    (hts : ∀ a ∈ ts.head?, a.kind ≠ .arrow) :
    expression (t :: u :: ts) = .error (.invalid .application (t.span.cover u.span)) := by
  obtain ⟨_, hgroup⟩ := @elements_close t u ts hu
  rw [expression_def]
  simp only [ht, hgroup, bind, Except.bind]
  cases ts with
  | nil => rfl
  | cons a vs =>
      simp only [if_neg (hts a rfl)]
      rfl

theorem expression_arrow {group : Parsed Enclosed ts} (ht : t.kind = .lparen)
    (parts : elements t ts = .ok group) (hrest : group.rest = a :: vs) (ha : a.kind = .arrow)
    (h : (checkParams group.value.parts >>= fun _ => expression vs) = .error e) :
    expression (t :: ts) = .error e := by
  rw [expression_def]
  simp only [ht, parts, bind, Except.bind]
  split
  · rename_i heq
    rw [hrest] at heq
    cases heq
  · rename_i a' vs' heq
    obtain ⟨rfl, rfl⟩ := List.cons.inj (hrest.symm.trans heq)
    simp only [if_pos ha]
    rcases except_bind_eq_error_iff.mp h with hparams | ⟨_, hparams, hbody⟩
    · rw [hparams]
    · rw [hparams, hbody]

theorem checkParams_eq_error_iff {params : List Tree} :
    checkParams params = .error e ↔ ∃ bad, params.find? (·.kind != symbolKind) = some bad ∧
      e = .invalid .parameterList bad.span := by
  unfold checkParams
  cases params.find? (·.kind != symbolKind) with
  | some bad => simp [eq_comm]
  | none => simp

theorem ofGroup_eq_error {opening : Token} {group : Enclosed}
    (h : ofGroup opening group = .error e) :
    group.parts = [] ∧ e = .invalid .application (opening.span.cover group.close.span) := by
  unfold ofGroup at h
  split at h
  · rename_i hparts
    exact ⟨List.isEmpty_iff.mp hparts, (Except.error.inj h).symm⟩
  · cases h

end Steps

/-- What `Fails` describes is a failed run. -/
theorem Fails.run_eq {r : Reader} {front rest : List Token} {e : SyntaxError}
    (h : Fails r front rest e) :
    r.run (front ++ rest) = .error e := by
  induction h with
  | missing hrest => exact except_map_eq_error_iff.mpr (expression_atEnd hrest)
  | unexpected ht heof => exact except_map_eq_error_iff.mpr (expression_unexpected ht heof)
  | value ht hu _ ih =>
      exact except_map_eq_error_iff.mpr (expression_value ht hu (except_map_eq_error_iff.mp ih))
  | group ht _ ih =>
      exact except_map_eq_error_iff.mpr (expression_group ht (except_map_eq_error_iff.mp ih))
  | callee ht hu hrest => exact except_map_eq_error_iff.mpr (expression_callee ht hu hrest)
  | parameters ht parts hrest ha hbad =>
      refine except_map_eq_error_iff.mpr (expression_arrow ht parts hrest ha ?_)
      exact except_bind_eq_error_iff.mpr (.inl (checkParams_eq_error_iff.mpr ⟨_, hbad, rfl⟩))
  | @body t params u a front rest e ht hparams hu ha _ ih =>
      obtain ⟨_, hgroup⟩ := @elements_idents t u (a :: (front ++ rest)) hu params hparams
      have hkinds : ∀ part ∈ params.map fun t => leaf symbolKind t.text t.span, part.kind =
          symbolKind := by
        intro part hpart
        obtain ⟨t, _, rfl⟩ := List.mem_map.mp hpart
        rfl
      rw [List.cons_append, List.append_assoc]
      refine except_map_eq_error_iff.mpr (expression_arrow ht hgroup rfl ha ?_)
      exact except_bind_eq_error_iff.mpr
        (.inr ⟨(), checkParams_eq_ok_iff.mpr hkinds, except_map_eq_error_iff.mp ih⟩)
  | block ht _ ih =>
      exact except_map_eq_error_iff.mpr (expression_block ht (except_map_eq_error_iff.mp ih))
  | unclosed hrest => exact Reader.run_atEnd _ _ hrest
  | semicolon hr ht _ ih => exact (Reader.run_semicolon hr ht _).trans ih
  | @part r t front rest e hhead ht _ ih =>
      obtain ⟨us, hus⟩ := List.head?_eq_some_iff.mp hhead
      rw [hus] at ih ⊢
      exact (Reader.run_enters ht us).trans (except_bind_eq_error_iff.mpr (.inl ih))
  | @laterPart r t used front rest e hhead ht head _ ih =>
      obtain ⟨us, rfl⟩ := List.head?_eq_some_iff.mp hhead
      rw [List.append_assoc]
      exact (Reader.run_enters ht _).trans (except_bind_eq_error_iff.mpr (.inr ⟨_, head, ih⟩))

/-- How an expression fails behind its parentheses: there is nothing between them and no arrow
follows, or an arrow follows and a part is no symbol or the body fails. -/
theorem expression_eq_error_of_group {t : Token} {us : List Token} {group : Parsed Enclosed us}
    {e : SyntaxError} (ht : t.kind = .lparen) (hgroup : elements t us = .ok group)
    (h : expression (t :: us) = .error e) :
    (group.value.parts = [] ∧ (∀ a ∈ group.rest.head?, a.kind ≠ .arrow) ∧
      e = .invalid .application (t.span.cover group.value.close.span)) ∨
    ∃ a vs, group.rest = a :: vs ∧ a.kind = .arrow ∧
      ((∃ bad, group.value.parts.find? (·.kind != symbolKind) = some bad ∧
        e = .invalid .parameterList bad.span) ∨
        (∀ part ∈ group.value.parts, part.kind = symbolKind) ∧ expression vs = .error e) := by
  rw [expression_def] at h
  simp only [ht, hgroup] at h
  obtain ⟨_, ⟨⟩⟩ | ⟨_, ⟨⟩, h⟩ := except_bind_eq_error_iff.mp h
  split at h
  · rename_i hrest
    rcases except_bind_eq_error_iff.mp h with htree | ⟨_, _, h⟩
    · obtain ⟨hparts, he⟩ := ofGroup_eq_error htree
      exact .inl ⟨hparts, by simp [hrest], he⟩
    · cases h
  · rename_i a vs hrest
    split at h
    · rename_i ha
      refine .inr ⟨a, vs, hrest, ha, ?_⟩
      rcases except_bind_eq_error_iff.mp h with hparams | ⟨_, hparams, h⟩
      · exact .inl (checkParams_eq_error_iff.mp hparams)
      · rcases except_bind_eq_error_iff.mp h with hbody | ⟨_, _, h⟩
        · exact .inr ⟨checkParams_eq_ok_iff.mp hparams, hbody⟩
        · cases h
    · rename_i ha
      rcases except_bind_eq_error_iff.mp h with htree | ⟨_, _, h⟩
      · obtain ⟨hparts, he⟩ := ofGroup_eq_error htree
        exact .inl ⟨hparts, by simpa [hrest] using ha, he⟩
      · cases h

/-- Parts that are symbols are written as identifiers. -/
theorem Derives.idents_of_parts {used : List Token} {parts : List Tree}
    (h : Derives .elements used (unspannedAll parts))
    (hparts : ∀ part ∈ parts, part.kind = symbolKind) :
    ∀ t ∈ used, t.kind = .ident := by
  refine (h.idents fun tree htree => ?_).1
  rw [unspannedAll_eq_map] at htree
  obtain ⟨part, hpart, rfl⟩ := List.mem_map.mp htree
  rw [kind_unspanned]
  exact hparts part hpart

/-- How an expression fails behind its parentheses, if not in the body of a lambda. -/
theorem exists_fails_or_body {t : Token} {us : List Token} {group : Parsed Enclosed us}
    {e : SyntaxError} (ht : t.kind = .lparen) (hgroup : elements t us = .ok group)
    (h : expression (t :: us) = .error e) :
    (∃ front rest, front ++ rest = t :: us ∧ Fails .expression front rest e) ∨
    ∃ params u a vs, us = params ++ u :: a :: vs ∧ (∀ p ∈ params, p.kind = .ident) ∧
      u.kind = .rparen ∧
      a.kind = .arrow ∧ expression vs = .error e := by
  rcases expression_eq_error_of_group ht hgroup h with ⟨hparts, hrest, rfl⟩ |
    ⟨a, vs, hrest, ha, ⟨bad, hbad, rfl⟩ | ⟨hparams, hbody⟩⟩
  · obtain ⟨hus, hclose, _⟩ | ⟨part, others, _, _, hvalue, _⟩ := elements_eq_ok hgroup
    · exact .inl ⟨[t, group.value.close], group.rest, congrArg (t :: ·) hus.symm,
        .callee ht hclose hrest⟩
    · rw [hvalue] at hparts
      cases hparts
  · obtain ⟨used, rfl⟩ : ∃ used, us = used ++ a :: vs := by
      obtain ⟨used, hused, _⟩ := derives_of_elements hgroup
      exact ⟨used ++ [group.value.close], by simp [← hrest, hused]⟩
    exact .inl ⟨t :: used, a :: vs, rfl, .parameters ht hgroup hrest ha hbad⟩
  · obtain ⟨used, hused, hclose, hderives⟩ := derives_of_elements hgroup
    rw [hrest] at hused
    exact .inr ⟨used, group.value.close, a, vs, hused.symm, hderives.idents_of_parts hparams,
      hclose, ha, hbody⟩

mutual

/-- A failed run on an expression is one that `Fails` describes. -/
theorem exists_fails_expression {ts : List Token} {e : SyntaxError} (h : expression ts = .error e) :
    ∃ front rest, front ++ rest = ts ∧ Fails .expression front rest e := by
  cases hts : ts with
  | nil =>
      rw [hts, expression_def] at h
      cases h
      exact ⟨[], [], rfl, .missing (by simp [AtEnd])⟩
  | cons t us =>
      rw [hts] at h
      have herror := h
      rw [expression_def] at h
      dsimp only at h
      split at h
      · cases h
      · rename_i ht
        split at h
        · cases h
        · rename_i u vs
          split at h
          · rename_i hu
            rcases except_bind_eq_error_iff.mp h with hvalue | ⟨_, _, h⟩
            · obtain ⟨front, rest, rfl, hfails⟩ := exists_fails_expression hvalue
              exact ⟨t :: u :: front, rest, rfl, .value ht hu hfails⟩
            · cases h
          · cases h
      · rename_i ht
        rcases except_bind_eq_error_iff.mp h with hgroup | ⟨group, hgroup, _⟩
        · obtain ⟨front, rest, rfl, hfails⟩ :=
            exists_fails_sequence (r := .enclosed .paren t) (by simp)
              (except_map_eq_error_iff.mpr hgroup)
          exact ⟨t :: front, rest, rfl, .group ht hfails⟩
        · rcases exists_fails_or_body ht hgroup herror with hfails |
            ⟨params, u, a, vs, hus, hparams, hu, ha, hbody⟩
          · exact hfails
          · obtain ⟨front, rest, hvs, hfails⟩ := exists_fails_expression hbody
            exact ⟨t :: (params ++ u :: a :: front), rest, by simp [hus, hvs],
              .body ht hparams hu ha hfails⟩
      · rename_i ht
        rcases except_bind_eq_error_iff.mp h with hgroup | ⟨_, _, h⟩
        · obtain ⟨front, rest, rfl, hfails⟩ :=
            exists_fails_sequence (r := .enclosed .brace t) (by simp)
              (except_map_eq_error_iff.mpr hgroup)
          exact ⟨t :: front, rest, rfl, .block ht hfails⟩
        · cases h
      · rename_i ht
        cases h
        exact ⟨[], t :: us, rfl, .missing (by simpa [AtEnd] using ht)⟩
      all_goals
        rename_i ht
        cases h
        exact ⟨[], t :: us, rfl, .unexpected (by simp [StartsExpression, ht]) (by simp [ht])⟩
termination_by 2 * ts.length
decreasing_by
  · simp only [hts, List.length_cons]; omega
  · simp only [hts, List.length_cons]; omega
  · simp only [hts, hus, List.length_cons, List.length_append]; omega
  · simp only [hts, List.length_cons]; omega

/-- A failed run on a sequence is one that `Fails` describes. -/
theorem exists_fails_sequence {r : Reader} {ts : List Token} {e : SyntaxError}
    (hr : r ≠ .expression) (h : r.run ts = .error e) :
    ∃ front rest, front ++ rest = ts ∧ Fails r front rest e := by
  cases hts : ts with
  | nil =>
      subst hts
      match r, hr with
      | .enclosed d opening, _ =>
          have hatEnd : AtEnd [] := by simp [AtEnd]
          cases h.symm.trans (Reader.run_atEnd d opening hatEnd)
          exact ⟨[], [], rfl, .unclosed hatEnd⟩
      | .module, _ =>
          rw [Reader.run, expressions_def] at h
          cases h
  | cons t us =>
      rw [hts] at h
      rcases Reader.run_cases hr t us with ⟨rest, hok⟩ | ⟨d, opening, rfl, ht⟩ | ⟨hskips, ht⟩ | ht
      · cases h.symm.trans hok
      · have hatEnd : AtEnd (t :: us) := by simpa [AtEnd] using ht
        cases h.symm.trans (Reader.run_atEnd d opening hatEnd)
        exact ⟨[], t :: us, rfl, .unclosed hatEnd⟩
      · rw [Reader.run_semicolon hskips ht] at h
        obtain ⟨front, rest, rfl, hfails⟩ := exists_fails_sequence hr h
        exact ⟨t :: front, rest, rfl, .semicolon hskips ht hfails⟩
      · rw [Reader.run_enters ht] at h
        rcases except_bind_eq_error_iff.mp h with hpart | ⟨rest, hpart, h⟩
        · obtain ⟨front, rest, hsplit, hfails⟩ :=
            exists_fails_expression (except_map_eq_error_iff.mp hpart)
          exact ⟨front, rest, hsplit, .part (by rw [hsplit]; rfl) ht hfails⟩
        · obtain ⟨p, hp, rfl⟩ := except_map_eq_ok_iff.mp hpart
          have hlt := p.rest_lt
          obtain ⟨used, hused, hderives⟩ := derives_of_expression hp
          obtain ⟨front, rest, hsplit, hfails⟩ := exists_fails_sequence hr h
          obtain ⟨t', used', rfl, _⟩ := hderives.exists_start
          obtain ⟨rfl, _⟩ := List.cons.inj hused
          refine ⟨t' :: used' ++ front, rest, ?_, .laterPart rfl ht ?_ hfails⟩
          · rw [List.append_assoc, hsplit, hused]
          · rw [hsplit, hused]
            exact hpart
termination_by 2 * ts.length + 1
decreasing_by
  · simp only [hts, List.length_cons]; omega
  · simp only [hts, List.length_cons]; omega
  · simp only [hts, List.length_cons] at hlt ⊢; omega

end

/-- The readers fail in the ways that `Fails` describes, and in no other. -/
theorem Reader.run_eq_error_iff {r : Reader} {ts : List Token} {e : SyntaxError} :
    r.run ts = .error e ↔ ∃ front rest, front ++ rest = ts ∧ Fails r front rest e := by
  constructor
  · intro h
    by_cases hr : r = .expression
    · subst hr
      exact exists_fails_expression (except_map_eq_error_iff.mp h)
    · exact exists_fails_sequence hr h
  · rintro ⟨front, rest, rfl, hfails⟩
    exact hfails.run_eq

section Relocated

variable (f : Relocation)

theorem atEnd_relocate {rest rest' : List Token}
    (h : rest'.head? = rest.head?.map (Token.relocate f)) (hrest : AtEnd rest) : AtEnd rest' := by
  intro t' ht'
  rw [h] at ht'
  obtain ⟨t, ht, rfl⟩ := Option.map_eq_some_iff.mp ht'
  exact hrest t ht

theorem spanAhead_relocate {rest rest' : List Token}
    (h : rest'.head? = rest.head?.map (Token.relocate f)) (hdefault : f.move default = default) :
    spanAhead rest' = f.move (spanAhead rest) := by
  unfold spanAhead
  rw [h]
  cases rest.head? with
  | none => exact hdefault.symm
  | some t => rfl

theorem Reader.enters_relocate {r : Reader} {t : Token} (h : r.Enters t) :
    (r.relocate f).Enters (t.relocate f) := by
  match r, h with
  | enclosed .paren _, h => exact h
  | enclosed .brace _, h => exact h
  | module, h => exact h

theorem Reader.skipsSemicolons_relocate {r : Reader} (h : r.SkipsSemicolons) :
    (r.relocate f).SkipsSemicolons := by
  match r, h with
  | enclosed .brace _, h => exact h
  | module, h => exact h

theorem Reader.run_expression_relocate {used rest rest' : List Token}
    (h : run .expression (used ++ rest) = .ok rest) (hrest : EndsLike rest rest') :
    run .expression (used.map (Token.relocate f) ++ rest') = .ok rest' := by
  obtain ⟨p, hp, hprest⟩ := except_map_eq_ok_iff.mp h
  obtain ⟨used', hused, hlocal⟩ := expression_relocate hp
  rw [hprest] at hused hlocal
  obtain rfl := List.append_cancel_right hused
  obtain ⟨_, hread⟩ := (hlocal f rest' hrest).expression_eq
  exact except_map_eq_ok_iff.mpr ⟨_, hread, rfl⟩

/-- The reader fails at another place as at its own, and only the first of the tokens that it has
not taken matters. -/
theorem Fails.relocate (hdefault : f.move default = default) {r : Reader}
    {front rest rest' : List Token} {e : SyntaxError} (h : Fails r front rest e)
    (hhead : rest'.head? = rest.head?.map (Token.relocate f)) :
    Fails (r.relocate f) (front.map (Token.relocate f)) rest' (e.relocate f) := by
  induction h with
  | missing hrest =>
      rw [SyntaxError.relocate, ← spanAhead_relocate f hhead hdefault]
      exact .missing (atEnd_relocate f hhead hrest)
  | @unexpected t rest ht heof =>
      obtain ⟨rest', rfl⟩ := List.head?_eq_some_iff.mp hhead
      exact .unexpected (t := t.relocate f) ht heof
  | @value t u front rest e ht hu _ ih =>
      exact .value (t := t.relocate f) (u := u.relocate f) ht hu (ih hhead)
  | @group t front rest e ht _ ih => exact .group (t := t.relocate f) ht (ih hhead)
  | @callee t u rest ht hu hrest =>
      rw [SyntaxError.relocate, f.move_cover]
      exact .callee (t := t.relocate f) (u := u.relocate f) ht hu
        ((EndsLike.of_head? f hhead).ne_arrow hrest)
  | @parameters t used a rest group bad ht parts hrest ha hbad =>
      obtain ⟨rest', rfl⟩ := List.head?_eq_some_iff.mp hhead
      obtain ⟨used', hused, _, hlocal⟩ := elements_relocate parts
      rw [hrest, List.append_cons] at hused
      have hmap := congrArg (List.map (Token.relocate f)) (List.append_cancel_right hused)
      obtain ⟨group', hgroup', hparts', hrest'⟩ : ∃ group' : Parsed Enclosed
          (used.map (Token.relocate f) ++ a.relocate f :: rest'), elements (t.relocate f) _ =
            .ok group' ∧
            group'.value.parts = relocateAll f group.value.parts ∧
              group'.rest = a.relocate f :: rest' := by
        rw [← hmap, List.map_append, List.append_assoc]
        obtain ⟨_, hgroup⟩ := hlocal f (t.relocate f) (a.relocate f :: rest')
        exact ⟨_, hgroup, rfl, rfl⟩
      have hbad' : group'.value.parts.find? (·.kind != symbolKind) = some (bad.relocate f) := by
        rw [hparts', relocateAll_eq_map, List.find?_map]
        change (group.value.parts.find? fun part => (part.relocate f).kind != symbolKind).map _ = _
        simp only [kind_relocate, hbad, Option.map_some]
      rw [SyntaxError.relocate, ← span_relocate]
      exact .parameters (t := t.relocate f) (a := a.relocate f) ht hgroup' hrest' ha hbad'
  | @body t params u a front rest e ht hparams hu ha _ ih =>
      rw [List.map_cons, List.map_append]
      refine .body (t := t.relocate f) (u := u.relocate f) (a := a.relocate f) ht ?_ hu ha
        (ih hhead)
      intro p hp
      obtain ⟨q, hq, rfl⟩ := List.mem_map.mp hp
      exact hparams q hq
  | @block t front rest e ht _ ih => exact .block (t := t.relocate f) ht (ih hhead)
  | unclosed hrest =>
      rw [SyntaxError.relocate, ← spanAhead_relocate f hhead hdefault]
      exact .unclosed (atEnd_relocate f hhead hrest)
  | @semicolon r t front rest e hr ht _ ih =>
      exact .semicolon (t := t.relocate f) (r.skipsSemicolons_relocate f hr) ht (ih hhead)
  | part hhead' ht _ ih =>
      exact .part (by rw [head?_map_append f hhead, hhead']; rfl) (Reader.enters_relocate f ht)
        (ih hhead)
  | laterPart hhead' ht head _ ih =>
      rw [List.map_append]
      refine .laterPart (by rw [List.head?_map, hhead']; rfl) (Reader.enters_relocate f ht) ?_
        (ih hhead)
      exact Reader.run_expression_relocate f head (.of_head? f (head?_map_append f hhead))

/-- The expressions of a text fail at other places as at their own. -/
theorem expressions_relocate_error (hdefault : f.move default = default) {ts : List Token}
    {e : SyntaxError} (h : expressions ts = .error e) :
    expressions (ts.map (Token.relocate f)) = .error (e.relocate f) := by
  obtain ⟨front, rest, rfl, hfails⟩ :=
    (Reader.run_eq_error_iff (r := .module)).mp (except_map_eq_error_iff.mpr h)
  have hfails' := hfails.relocate f hdefault (List.head?_map (l := rest))
  rw [List.map_append]
  exact except_map_eq_error_iff.mp hfails'.run_eq

end Relocated

/-- A tree depends on the kinds and the texts of the tokens only, and so does an error, but for
their places. -/
theorem ofSource_of_same_words {source source' : String} {tokens tokens' : List Token}
    (h : Token.read source = .ok tokens) (h' : Token.read source' = .ok tokens')
    (hwords : tokens'.map (Token.relocate .forget) = tokens.map (Token.relocate .forget)) :
    (∃ tree tree', ofSource source = .ok tree ∧ ofSource source' = .ok tree' ∧
      tree'.unspanned = tree.unspanned) ∨
    ∃ e e', ofSource source = .error e ∧ ofSource source' = .error e' ∧
      e'.relocate .forget = e.relocate .forget := by
  rw [ofSource_of_read h, ofSource_of_read h']
  cases htrees : expressions tokens with
  | ok trees =>
      have hforget := expressions_relocate .forget htrees
      rw [← hwords] at hforget
      cases htrees' : expressions tokens' with
      | ok trees' =>
          have hforget' := Except.ok.inj ((expressions_relocate .forget htrees').symm.trans hforget)
          rw [relocateAll_forget, relocateAll_forget] at hforget'
          refine .inl ⟨_, _, rfl, rfl, ?_⟩
          rw [unspanned_branch, unspanned_branch, hforget']
      | error e' => cases (expressions_relocate_error .forget rfl htrees').symm.trans hforget
  | error e =>
      have hforget := expressions_relocate_error .forget rfl htrees
      rw [← hwords] at hforget
      cases htrees' : expressions tokens' with
      | ok trees' => cases (expressions_relocate .forget htrees').symm.trans hforget
      | error e' =>
          exact .inr ⟨e, e', rfl, rfl, Except.error.inj
            ((expressions_relocate_error .forget rfl htrees').symm.trans hforget)⟩

end Tree

end LambdaLift
