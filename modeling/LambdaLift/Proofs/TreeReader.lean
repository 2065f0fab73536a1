import LambdaLift.Proofs.Sequencing
import LambdaLift.Tree.Parser

/-!
# How the reader of trees succeeds

For each reader of token lists, the ways in which it can succeed: a successful run is one of them,
and each of them is a successful run. An expression is read in one of the six ways of
`ReadsExpression`.
-/

namespace LambdaLift.Tree

section Equations

/-! Each reader by one step, with the texts that the tokens have. -/

theorem expression_def (ts : List Token) : expression ts =
    match ts with
    | [] => .error (.missingExpression default)
    | t :: us =>
      match t.kind with
      | .int => .ok ⟨leaf integerKind t.text t.span, us, Nat.lt_succ_self _⟩
      | .ident =>
        match us with
        | [] => .ok ⟨leaf symbolKind t.text t.span, [], Nat.lt_succ_self _⟩
        | u :: vs =>
          if u.kind = .equals then do
            let value ← expression vs
            return ⟨branch assignKind (t.span.cover value.value.span)
                [leaf symbolKind t.text t.span, value.value], value.rest,
              Nat.lt_of_lt_of_le value.rest_lt (Nat.le_add_right _ 2)⟩
          else .ok ⟨leaf symbolKind t.text t.span, u :: vs, Nat.lt_succ_self _⟩
      | .lparen => do
        let group ← elements t us
        match hrest : group.rest with
        | [] =>
          let tree ← ofGroup t group.value
          return ⟨tree, [], Nat.zero_lt_succ _⟩
        | a :: vs =>
          have hlt : vs.length < us.length :=
            Nat.lt_of_succ_lt (by simpa [hrest] using group.rest_lt)
          if a.kind = .arrow then
            checkParams group.value.parts
            let body ← expression vs
            return ⟨branch lambdaKind (t.span.cover body.value.span)
                (body.value :: group.value.parts), body.rest,
              Nat.lt_succ_of_lt (Nat.lt_trans body.rest_lt hlt)⟩
          else
            let tree ← ofGroup t group.value
            return ⟨tree, group.rest, Nat.lt_succ_of_lt group.rest_lt⟩
      | .lbrace => do
        let block ← statements t us
        return ⟨branch blockKind (t.span.cover block.value.close.span) block.value.parts,
          block.rest, Nat.lt_succ_of_lt block.rest_lt⟩
      | .eof => .error (.missingExpression t.span)
      | .rparen | .rbrace | .arrow | .equals | .semicolon =>
        .error (.unexpectedToken t.text t.span) := by
  rw [expression, Access.expression.eq_def]
  simp only [Access.stored, except_mapError_id]
  rfl

theorem elements_def (opening : Token) (ts : List Token) : elements opening ts =
    match ts with
    | [] => .error (.unclosedDelimiter .paren opening.span default)
    | t :: us =>
      match t.kind with
      | .rparen => .ok ⟨⟨[], t⟩, us, Nat.lt_succ_self _⟩
      | .eof => .error (.unclosedDelimiter .paren opening.span t.span)
      | _ => do
        let part ← expression (t :: us)
        let others ← elements opening part.rest
        return ⟨⟨part.value :: others.value.parts, others.value.close⟩, others.rest,
          Nat.lt_trans others.rest_lt part.rest_lt⟩ := by
  rw [elements, Access.elements.eq_def]
  rfl

theorem statements_def (opening : Token) (ts : List Token) : statements opening ts =
    match ts with
    | [] => .error (.unclosedDelimiter .brace opening.span default)
    | t :: us =>
      match t.kind with
      | .semicolon => do return (← statements opening us).ofSuffix (Nat.le_succ _)
      | .rbrace => .ok ⟨⟨[], t⟩, us, Nat.lt_succ_self _⟩
      | .eof => .error (.unclosedDelimiter .brace opening.span t.span)
      | _ => do
        let part ← expression (t :: us)
        let others ← statements opening part.rest
        return ⟨⟨part.value :: others.value.parts, others.value.close⟩, others.rest,
          Nat.lt_trans others.rest_lt part.rest_lt⟩ := by
  rw [statements, Access.statements.eq_def]
  rfl

theorem expressions_def (ts : List Token) : expressions ts =
    match ts with
    | [] => .ok []
    | t :: us =>
      match t.kind with
      | .semicolon => expressions us
      | .eof => .ok []
      | _ => do
        let part ← expression (t :: us)
        return part.value :: (← expressions part.rest) := by
  rw [expressions, Access.expressions.eq_def]
  rfl

end Equations

/-- How the reader succeeds on an expression. -/
inductive ReadsExpression : List Token → Tree → List Token → Prop
  | integer {t us} (ht : t.kind = .int) :
      ReadsExpression (t :: us) (leaf integerKind t.text t.span) us
  | symbol {t us} (ht : t.kind = .ident) (hus : ∀ u ∈ us.head?, u.kind ≠ .equals) :
      ReadsExpression (t :: us) (leaf symbolKind t.text t.span) us
  | assign {t u vs p} (ht : t.kind = .ident) (hu : u.kind = .equals)
      (value : expression vs = .ok p) :
      ReadsExpression (t :: u :: vs) (branch assignKind (t.span.cover p.value.span)
        [leaf symbolKind t.text t.span, p.value]) p.rest
  | apply {t us group} (ht : t.kind = .lparen) (parts : elements t us = .ok group)
      (hne : group.value.parts ≠ []) (hrest : ∀ a ∈ group.rest.head?, a.kind ≠ .arrow) :
      ReadsExpression (t :: us) (branch applyKind (t.span.cover group.value.close.span)
        group.value.parts) group.rest
  | lambda {t us group a vs p} (ht : t.kind = .lparen) (parts : elements t us = .ok group)
      (hrest : group.rest = a :: vs) (ha : a.kind = .arrow)
      (hparams : ∀ part ∈ group.value.parts, part.kind = symbolKind)
      (body : expression vs = .ok p) :
      ReadsExpression (t :: us) (branch lambdaKind (t.span.cover p.value.span)
        (p.value :: group.value.parts)) p.rest
  | block {t us group} (ht : t.kind = .lbrace) (parts : statements t us = .ok group) :
      ReadsExpression (t :: us) (branch blockKind (t.span.cover group.value.close.span)
        group.value.parts) group.rest

theorem ofGroup_eq_ok_iff {opening : Token} {group : Enclosed} {tree : Tree} :
    ofGroup opening group = .ok tree ↔ group.parts ≠ [] ∧
      tree = branch applyKind (opening.span.cover group.close.span) group.parts := by
  unfold ofGroup
  cases hparts : group.parts with
  | nil => simp
  | cons part parts => simp [eq_comm]

theorem checkParams_eq_ok_iff {params : List Tree} :
    checkParams params = .ok () ↔ ∀ part ∈ params, part.kind = symbolKind := by
  unfold checkParams
  cases hfind : params.find? (·.kind != symbolKind) with
  | some bad =>
      have hbad := List.find?_some hfind
      simp only [reduceCtorEq, false_iff]
      intro hall
      simp [hall bad (List.mem_of_find?_eq_some hfind)] at hbad
  | none => simpa using hfind

theorem expression_eq_ok {ts : List Token} {p : Parsed Tree ts} (h : expression ts = .ok p) :
    ReadsExpression ts p.value p.rest := by
  rw [expression_def] at h
  split at h
  · cases h
  · rename_i t us
    split at h
    · rename_i ht
      cases h
      exact .integer ht
    · rename_i ht
      split at h
      · cases h
        exact .symbol ht (by simp)
      · split at h
        · rename_i hu
          obtain ⟨value, hvalue, h⟩ := except_bind_eq_ok_iff.mp h
          cases h
          exact .assign ht hu hvalue
        · rename_i hu
          cases h
          exact .symbol ht (by simpa using hu)
    · rename_i ht
      obtain ⟨group, hgroup, h⟩ := except_bind_eq_ok_iff.mp h
      split at h
      · rename_i hrest
        obtain ⟨tree, htree, h⟩ := except_bind_eq_ok_iff.mp h
        cases h
        obtain ⟨hne, rfl⟩ := ofGroup_eq_ok_iff.mp htree
        have happly := ReadsExpression.apply ht hgroup hne (by simp [hrest])
        rwa [hrest] at happly
      · rename_i a vs hrest
        split at h
        · rename_i ha
          obtain ⟨_, hparams, h⟩ := except_bind_eq_ok_iff.mp h
          obtain ⟨body, hbody, h⟩ := except_bind_eq_ok_iff.mp h
          cases h
          exact .lambda ht hgroup hrest ha (checkParams_eq_ok_iff.mp hparams) hbody
        · rename_i ha
          obtain ⟨tree, htree, h⟩ := except_bind_eq_ok_iff.mp h
          cases h
          obtain ⟨hne, rfl⟩ := ofGroup_eq_ok_iff.mp htree
          exact .apply ht hgroup hne (by simpa [hrest] using ha)
    · rename_i ht
      obtain ⟨group, hgroup, h⟩ := except_bind_eq_ok_iff.mp h
      cases h
      exact .block ht hgroup
    all_goals cases h

/-- The reader succeeds where it can. -/
theorem ReadsExpression.expression_eq {ts : List Token} {tree : Tree} {rest : List Token}
    (h : ReadsExpression ts tree rest) : ∃ hlt, expression ts = .ok ⟨tree, rest, hlt⟩ := by
  cases h with
  | integer ht =>
      refine ⟨by simp, ?_⟩
      rw [expression_def]
      simp only [ht]
  | @symbol t _ ht hus =>
      refine ⟨by simp, ?_⟩
      rw [expression_def]
      simp only [ht]
      cases rest with
      | nil => rfl
      | cons u vs => exact if_neg (hus u rfl)
  | @assign t u vs p ht hu value =>
      have hlt := p.rest_lt
      refine ⟨by simp only [List.length_cons]; omega, ?_⟩
      rw [expression_def]
      simp only [ht, if_pos hu, value]
      rfl
  | @apply t us group ht parts hne hrest =>
      have hgroup : ofGroup t group.value = _ := ofGroup_eq_ok_iff.mpr ⟨hne, rfl⟩
      refine ⟨Nat.lt_succ_of_lt group.rest_lt, ?_⟩
      rw [expression_def]
      simp only [ht, parts, bind, Except.bind]
      split
      · rename_i heq
        simp only [hgroup, heq]
        rfl
      · rename_i a vs heq
        have ha : a.kind ≠ .arrow := hrest a (by simp [heq])
        simp only [if_neg ha, hgroup]
        rfl
  | @lambda t us group a vs p ht parts hrest ha hparams body =>
      have hlt := p.rest_lt
      have hlt' := group.rest_lt
      rw [hrest, List.length_cons] at hlt'
      refine ⟨by simp only [List.length_cons]; omega, ?_⟩
      rw [expression_def]
      simp only [ht, parts, bind, Except.bind]
      split
      · rename_i heq
        rw [hrest] at heq
        cases heq
      · rename_i a' vs' heq
        obtain ⟨rfl, rfl⟩ := List.cons.inj (hrest.symm.trans heq)
        simp only [if_pos ha, checkParams_eq_ok_iff.mpr hparams, body]
        rfl
  | @block t us group ht parts =>
      refine ⟨Nat.lt_succ_of_lt group.rest_lt, ?_⟩
      rw [expression_def]
      simp only [ht, parts]
      rfl

theorem elements_eq_ok {opening : Token} {ts : List Token} {p : Parsed Enclosed ts}
    (h : elements opening ts = .ok p) :
    (ts = p.value.close :: p.rest ∧ p.value.close.kind = .rparen ∧ p.value.parts = []) ∨
    ∃ part others, expression ts = .ok part ∧ elements opening part.rest = .ok others ∧
      p.value = ⟨part.value :: others.value.parts, others.value.close⟩ ∧ p.rest = others.rest := by
  rw [elements_def] at h
  split at h
  · cases h
  · rename_i t us
    split at h
    · rename_i ht
      cases h
      exact .inl ⟨rfl, ht, rfl⟩
    · cases h
    · obtain ⟨part, hpart, h⟩ := except_bind_eq_ok_iff.mp h
      obtain ⟨others, hothers, h⟩ := except_bind_eq_ok_iff.mp h
      cases h
      exact .inr ⟨part, others, hpart, hothers, rfl, rfl⟩

theorem statements_eq_ok {opening : Token} {ts : List Token} {p : Parsed Enclosed ts}
    (h : statements opening ts = .ok p) :
    (ts = p.value.close :: p.rest ∧ p.value.close.kind = .rbrace ∧ p.value.parts = []) ∨
    (∃ t us others, ts = t :: us ∧ t.kind = .semicolon ∧ statements opening us = .ok others ∧
      p.value = others.value ∧ p.rest = others.rest) ∨
    ∃ part others, expression ts = .ok part ∧ statements opening part.rest = .ok others ∧
      p.value = ⟨part.value :: others.value.parts, others.value.close⟩ ∧ p.rest = others.rest := by
  rw [statements_def] at h
  split at h
  · cases h
  · rename_i t us
    split at h
    · rename_i ht
      obtain ⟨others, hothers, h⟩ := except_bind_eq_ok_iff.mp h
      cases h
      exact .inr (.inl ⟨t, us, others, rfl, ht, hothers, rfl, rfl⟩)
    · rename_i ht
      cases h
      exact .inl ⟨rfl, ht, rfl⟩
    · cases h
    · obtain ⟨part, hpart, h⟩ := except_bind_eq_ok_iff.mp h
      obtain ⟨others, hothers, h⟩ := except_bind_eq_ok_iff.mp h
      cases h
      exact .inr (.inr ⟨part, others, hpart, hothers, rfl, rfl⟩)

theorem expressions_eq_ok {ts : List Token} {trees : List Tree} (h : expressions ts = .ok trees) :
    ((∀ t ∈ ts.head?, t.kind = .eof) ∧ trees = []) ∨
    (∃ t us, ts = t :: us ∧ t.kind = .semicolon ∧ expressions us = .ok trees) ∨
    ∃ part others, expression ts = .ok part ∧ expressions part.rest = .ok others ∧
      trees = part.value :: others := by
  rw [expressions_def] at h
  split at h
  · cases h
    exact .inl ⟨by simp, rfl⟩
  · rename_i t us
    split at h
    · rename_i ht
      exact .inr (.inl ⟨t, us, rfl, ht, h⟩)
    · rename_i ht
      cases h
      exact .inl ⟨by simpa using ht, rfl⟩
    · obtain ⟨part, hpart, h⟩ := except_bind_eq_ok_iff.mp h
      obtain ⟨others, hothers, h⟩ := except_bind_eq_ok_iff.mp h
      cases h
      exact .inr (.inr ⟨part, others, hpart, hothers, rfl⟩)

/-- A token that can start an expression. -/
def StartsExpression (t : Token) : Prop :=
  t.kind = .int ∨ t.kind = .ident ∨ t.kind = .lparen ∨ t.kind = .lbrace

theorem ReadsExpression.exists_start {ts : List Token} {tree : Tree} {rest : List Token}
    (h : ReadsExpression ts tree rest) : ∃ t us, ts = t :: us ∧ StartsExpression t := by
  cases h with
  | integer ht => exact ⟨_, _, rfl, .inl ht⟩
  | symbol ht _ => exact ⟨_, _, rfl, .inr (.inl ht)⟩
  | assign ht _ _ => exact ⟨_, _, rfl, .inr (.inl ht)⟩
  | apply ht _ _ _ => exact ⟨_, _, rfl, .inr (.inr (.inl ht))⟩
  | lambda ht _ _ _ _ _ => exact ⟨_, _, rfl, .inr (.inr (.inl ht))⟩
  | block ht _ => exact ⟨_, _, rfl, .inr (.inr (.inr ht))⟩

theorem elements_close {opening close : Token} {rest : List Token} (hclose : close.kind = .rparen) :
    ∃ hlt, elements opening (close :: rest) = .ok ⟨⟨[], close⟩, rest, hlt⟩ := by
  refine ⟨by simp, ?_⟩
  rw [elements_def]
  simp only [hclose]

theorem elements_part {opening : Token} {ts : List Token} {part : Parsed Tree ts}
    {others : Parsed Enclosed part.rest} (hpart : expression ts = .ok part)
    (hothers : elements opening part.rest = .ok others) :
    ∃ hlt, elements opening ts =
      .ok ⟨⟨part.value :: others.value.parts, others.value.close⟩, others.rest, hlt⟩ := by
  refine ⟨Nat.lt_trans others.rest_lt part.rest_lt, ?_⟩
  obtain ⟨t, us, rfl, ht⟩ := (expression_eq_ok hpart).exists_start
  rw [elements_def]
  rcases ht with ht | ht | ht | ht
  all_goals
    simp only [ht, hpart, bind, Except.bind, hothers]
    rfl

theorem statements_close {opening close : Token} {rest : List Token}
    (hclose : close.kind = .rbrace) :
    ∃ hlt, statements opening (close :: rest) = .ok ⟨⟨[], close⟩, rest, hlt⟩ := by
  refine ⟨by simp, ?_⟩
  rw [statements_def]
  simp only [hclose]

theorem statements_semicolon {opening t : Token} {us : List Token} {others : Parsed Enclosed us}
    (ht : t.kind = .semicolon) (hothers : statements opening us = .ok others) :
    ∃ hlt, statements opening (t :: us) = .ok ⟨others.value, others.rest, hlt⟩ := by
  refine ⟨Nat.lt_succ_of_lt others.rest_lt, ?_⟩
  rw [statements_def]
  simp only [ht, hothers]
  rfl

theorem statements_part {opening : Token} {ts : List Token} {part : Parsed Tree ts}
    {others : Parsed Enclosed part.rest} (hpart : expression ts = .ok part)
    (hothers : statements opening part.rest = .ok others) :
    ∃ hlt, statements opening ts =
      .ok ⟨⟨part.value :: others.value.parts, others.value.close⟩, others.rest, hlt⟩ := by
  refine ⟨Nat.lt_trans others.rest_lt part.rest_lt, ?_⟩
  obtain ⟨t, us, rfl, ht⟩ := (expression_eq_ok hpart).exists_start
  rw [statements_def]
  rcases ht with ht | ht | ht | ht
  all_goals
    simp only [ht, hpart, bind, Except.bind, hothers]
    rfl

theorem expressions_eof {e : Token} {rest : List Token} (he : e.kind = .eof) :
    expressions (e :: rest) = .ok [] := by
  rw [expressions_def]
  simp only [he]

theorem expressions_semicolon {t : Token} {us : List Token} (ht : t.kind = .semicolon) :
    expressions (t :: us) = expressions us := by
  rw [expressions_def]
  simp only [ht]

theorem expressions_part {ts : List Token} {part : Parsed Tree ts} {others : List Tree}
    (hpart : expression ts = .ok part) (hothers : expressions part.rest = .ok others) :
    expressions ts = .ok (part.value :: others) := by
  obtain ⟨t, us, rfl, ht⟩ := (expression_eq_ok hpart).exists_start
  rw [expressions_def]
  rcases ht with ht | ht | ht | ht
  all_goals
    simp only [ht, hpart, bind, Except.bind, hothers]
    rfl

/-- Identifiers up to a closing parenthesis are read as symbols. -/
theorem elements_idents {opening close : Token} {rest : List Token} (hclose : close.kind = .rparen)
    (params : List Token) (hparams : ∀ t ∈ params, t.kind = .ident) :
    ∃ hlt, elements opening (params ++ close :: rest) =
      .ok ⟨⟨params.map fun t => leaf symbolKind t.text t.span, close⟩, rest, hlt⟩ := by
  induction params with
  | nil => exact elements_close hclose
  | cons t params ih =>
      obtain ⟨_, hothers⟩ := ih fun u hu => hparams u (List.mem_cons_of_mem _ hu)
      have hnext : ∀ u ∈ (params ++ close :: rest).head?, u.kind ≠ .equals := by
        cases params with
        | nil => simp [hclose]
        | cons u params => simp [hparams u (by simp)]
      obtain ⟨_, hpart⟩ :=
        (ReadsExpression.symbol (hparams t List.mem_cons_self) hnext).expression_eq
      exact elements_part hpart hothers

end LambdaLift.Tree
