import LambdaLift.Proofs.ReadingSteps

/-!
# Reading advances and stops

What the readers of trees make of the tokens ahead of a reading is its answer. No step changes it,
so the steps end with what the readers give. Hence each expression that is read ends further on, the
readers do not see what stands behind the end of a text, and they have taken all words of a text
when they give its expressions.
-/

namespace LambdaLift.Tree.Reading

variable {ε : Type}

/-- What the readers give in the end: the expressions, and the tokens behind them. -/
abbrev Answer := List Tree × List Token

section Answer

variable (access : Access ε) (k : Tree → List Token → Except ε Answer)

/-- What comes of a name, where `k` says what comes of the expression that starts with it. -/
def nameAnswer (name : Tree) (rest : List Token) : Except ε Answer :=
  match rest with
  | [] => k name []
  | u :: vs =>
    if u.kind = .equals then do
      let value ← access.expression vs
      k (assignment name value.value) value.rest
    else k name (u :: vs)

/-- What comes of a group. -/
def groupAnswer (opening : Token) (group : Enclosed) (rest : List Token) : Except ε Answer :=
  match rest with
  | [] => (ofGroup opening group).mapError access.report >>= fun tree => k tree []
  | a :: vs =>
    if a.kind = .arrow then do
      (checkParams group.parts).mapError access.report
      let body ← access.expression vs
      k (lambda opening group.parts body.value) body.rest
    else (ofGroup opening group).mapError access.report >>= fun tree => k tree (a :: vs)

/-- What comes of a loop, where `ending` are the tokens from the end of the text on. -/
def loopAnswer (ending : List Token) (loop : Loop) (parts : List Tree) (rest : List Token) :
    Except ε Answer :=
  match loop with
  | .enclosed .paren opening => do
    let group ← access.elements opening rest
    groupAnswer access k opening ⟨parts ++ group.value.parts, group.value.close⟩ group.rest
  | .enclosed .brace opening => do
    let block ← access.statements opening rest
    k (branch blockKind (opening.span.cover block.value.close.span) (parts ++ block.value.parts))
      block.rest
  | .module => do
    let trees ← access.expressions rest
    return (parts ++ trees, ending)

end Answer

/-- What comes of a complete expression that is read for the uses, as the open calls of the readers
have it. -/
def resume (access : Access ε) (ending : List Token) :
    List Use → Tree → List Token → Except ε Answer
  | [], tree, rest => .ok ([tree], rest)
  | .value name :: uses, tree, rest => resume access ending uses (assignment name tree) rest
  | .body opening params :: uses, tree, rest =>
      resume access ending uses (lambda opening params tree) rest
  | .part loop before :: uses, tree, rest =>
    loopAnswer access (resume access ending uses) ending loop (before ++ [tree]) rest

section Heads

-- A reader that goes on with `k` behind an expression is at the phase that the first token leads
-- to.
variable {access : Access ε} {k : Tree → List Token → Except ε Answer} {t : Token} {us : List Token}

theorem expression_bind_of_ident (ht : t.kind = .ident) :
    (access.expression (t :: us) >>= fun p => k p.value p.rest) =
      access.text t >>= fun text => nameAnswer access k (leaf symbolKind text t.span) us := by
  rw [Access.expression.eq_def]
  simp only [ht]
  cases us with
  | nil => simp only [bind_assoc, pure_bind, nameAnswer]
  | cons u vs =>
      by_cases hu : u.kind = .equals
      · simp only [if_pos hu, bind_assoc, pure_bind, nameAnswer]
        rfl
      · simp only [if_neg hu, bind_assoc, pure_bind, nameAnswer]

theorem expression_bind_of_lparen (ht : t.kind = .lparen) :
    (access.expression (t :: us) >>= fun p => k p.value p.rest) =
      access.elements t us >>= fun group => groupAnswer access k t group.value group.rest := by
  rw [Access.expression.eq_def]
  simp only [ht]
  rw [bind_assoc]
  -- The rest of the group is matched together with a proof, so the case split comes before the
  -- rewriting.
  refine bind_congr fun group => ?_
  split
  · rename_i hrest
    rw [hrest, groupAnswer]
    simp only [bind_assoc, pure_bind]
  · rename_i a vs hrest
    simp only [hrest, groupAnswer]
    by_cases ha : a.kind = .arrow
    · simp only [if_pos ha, bind_assoc, pure_bind]
      rfl
    · simp only [if_neg ha, bind_assoc, pure_bind]

theorem expression_bind_of_lbrace (ht : t.kind = .lbrace) :
    (access.expression (t :: us) >>= fun p => k p.value p.rest) =
      access.statements t us >>= fun block =>
        k (branch blockKind (t.span.cover block.value.close.span) block.value.parts)
          block.rest := by
  rw [Access.expression.eq_def]
  simp only [ht, bind_assoc, pure_bind]

end Heads

end LambdaLift.Tree.Reading

namespace LambdaLift.Token.Buffer

open LambdaLift.Tree LambdaLift.Tree.Reading

variable {ε : Type}

/-- What the readers make of the tokens ahead of a reading, with more tokens behind those of the
buffer. -/
def answer (b : Buffer) (access : Access ε) (behind : List Token) (s : Reading ε) :
    Except ε Answer :=
  let rest := b.ahead s.pos ++ behind
  let ending := b.last :: behind
  match s.phase with
  | .loop loop parts => loopAnswer access (resume access ending s.uses) ending loop parts rest
  | .expression => access.expression rest >>= fun p => resume access ending s.uses p.value p.rest
  | .afterName name => nameAnswer access (resume access ending s.uses) name rest
  | .afterGroup opening group => groupAnswer access (resume access ending s.uses) opening group rest
  | .complete tree => resume access ending s.uses tree rest
  | .halted result => result.map (·, rest)

variable {b : Buffer} {access : Access ε} {s : Reading ε}

section Answer

variable (access) (behind : List Token) (hpos : s.pos ≤ b.words.length)
include hpos

theorem ahead_append_eq_cons :
    b.ahead s.pos ++ behind = b.peek s.pos :: (b.ahead (s.pos + 1) ++ behind) := by
  rw [b.ahead_eq_cons hpos, List.cons_append]

theorem answer_stepExpression : b.answer access behind (s.stepExpression access (b.peek s.pos)) =
    access.expression (b.ahead s.pos ++ behind) >>= fun p =>
      resume access (b.last :: behind) s.uses p.value p.rest := by
  rw [ahead_append_eq_cons behind hpos, stepExpression]
  generalize b.peek s.pos = t
  cases ht : t.kind with
  | ident =>
      rw [expression_bind_of_ident ht]
      cases access.text t with
      | ok text => rfl
      | error e => rfl
  | lparen => exact (expression_bind_of_lparen ht).symm
  | lbrace => exact (expression_bind_of_lbrace ht).symm
  | eof =>
      rw [Access.expression.eq_def]
      simp only [ht]
      rfl
  | _ =>
      rw [Access.expression.eq_def]
      simp only [ht]
      cases access.text t with
      | ok text => rfl
      | error e => rfl

theorem answer_await_part (loop : Loop) (parts : List Tree) :
    b.answer access behind (s.await (.part loop parts)) =
      access.expression (b.peek s.pos :: (b.ahead (s.pos + 1) ++ behind)) >>= fun p =>
        loopAnswer access (resume access (b.last :: behind) s.uses) (b.last :: behind) loop
          (parts ++ [p.value])
          p.rest := by
  rw [← ahead_append_eq_cons behind hpos]
  rfl

theorem answer_stepLoop (loop : Loop) (parts : List Tree) :
    b.answer access behind (s.stepLoop access (b.peek s.pos) loop parts) =
      loopAnswer access (resume access (b.last :: behind) s.uses) (b.last :: behind) loop parts
        (b.ahead s.pos ++ behind) := by
  -- Where a part is read, the readers go round their loop once more, with the part behind those
  -- before it.
  have hawait := answer_await_part access behind hpos loop parts
  have hlast := b.ahead_eq_last hpos
  rw [ahead_append_eq_cons behind hpos]
  generalize b.peek s.pos = t at hawait hlast ⊢
  match loop with
  | .enclosed .paren opening =>
      rw [stepLoop, loopAnswer, Access.elements]
      dsimp only
      cases ht : t.kind with
      | rparen =>
          change groupAnswer _ _ _ ⟨parts, t⟩ _ = groupAnswer _ _ _ ⟨parts ++ [], t⟩ _
          rw [List.append_nil]
          rfl
      | eof => rfl
      | _ =>
          simp only [hawait, loopAnswer, bind_assoc, pure_bind, List.append_assoc,
            List.singleton_append]
  | .enclosed .brace opening =>
      rw [stepLoop, loopAnswer, Access.statements]
      dsimp only
      cases ht : t.kind with
      | semicolon =>
          simp only [bind_assoc, pure_bind]
          rfl
      | rbrace =>
          change resume _ _ _ (branch _ _ parts) _ = resume _ _ _ (branch _ _ (parts ++ [])) _
          rw [List.append_nil]
          rfl
      | eof => rfl
      | _ =>
          simp only [hawait, loopAnswer, bind_assoc, pure_bind, List.append_assoc,
            List.singleton_append]
  | .module =>
      rw [stepLoop, loopAnswer, Access.expressions]
      dsimp only
      cases ht : t.kind with
      | semicolon => rfl
      | eof =>
          change Except.ok (parts, b.ahead s.pos ++ behind) =
            Except.ok (parts ++ [], b.last :: behind)
          rw [hlast ht, List.append_nil, List.singleton_append]
      | _ =>
          simp only [hawait, loopAnswer, bind_assoc, pure_bind, List.append_assoc,
            List.singleton_append]

theorem answer_stepAfterName (name : Tree) :
    b.answer access behind (s.stepAfterName (b.peek s.pos) name) =
      nameAnswer access (resume access (b.last :: behind) s.uses) name
        (b.ahead s.pos ++ behind) := by
  rw [ahead_append_eq_cons behind hpos, nameAnswer, stepAfterName]
  split
  · rfl
  · rw [← ahead_append_eq_cons behind hpos]
    rfl

theorem answer_stepAfterGroup (opening : Token) (group : Enclosed) :
    b.answer access behind (s.stepAfterGroup access (b.peek s.pos) opening group) =
      groupAnswer access (resume access (b.last :: behind) s.uses) opening group
        (b.ahead s.pos ++ behind) := by
  rw [ahead_append_eq_cons behind hpos, groupAnswer, stepAfterGroup]
  split
  · cases checkParams group.parts with
    | ok _ => rfl
    | error e => rfl
  · rw [← ahead_append_eq_cons behind hpos]
    cases ofGroup opening group with
    | ok tree => rfl
    | error e => rfl

omit hpos in
theorem answer_stepComplete (tree : Tree) : b.answer access behind (s.stepComplete tree) =
    resume access (b.last :: behind) s.uses tree (b.ahead s.pos ++ behind) := by
  unfold stepComplete
  split
  all_goals
    rename_i huses
    rw [huses]
    rfl

/-- No step changes what the readers make of the tokens ahead. -/
theorem answer_step : b.answer access behind (b.step access s) = b.answer access behind s := by
  obtain ⟨pos, phase, uses⟩ := s
  cases phase with
  | loop loop parts => exact answer_stepLoop access behind hpos loop parts
  | expression => exact answer_stepExpression access behind hpos
  | afterName name => exact answer_stepAfterName access behind hpos name
  | afterGroup opening group => exact answer_stepAfterGroup access behind hpos opening group
  | complete tree => exact answer_stepComplete access behind tree
  | halted result => rfl

end Answer

theorem answer_iterate (hpos : s.pos ≤ b.words.length) (behind : List Token) (i : Nat) :
    b.answer access behind ((b.step access)^[i] s) = b.answer access behind s := by
  induction i with
  | zero => rfl
  | succ i ih =>
      rw [Function.iterate_succ_apply', answer_step access behind (pos_iterate_le hpos i), ih]

/-- The steps of a reading end, and they end with what the readers make of the tokens ahead of
it. -/
theorem exists_iterate_eq_halted (access : Access ε) (hpos : s.pos ≤ b.words.length) :
    ∃ i ≤ b.potential s, ∃ next result uses,
      (b.step access)^[i] s = ⟨next, .halted result, uses⟩ ∧ next ≤ b.words.length ∧
        ∀ behind, result.map (·, b.ahead next ++ behind) = b.answer access behind s := by
  obtain ⟨i, hi, result, hhalted⟩ := b.exists_halted access s
  have hle : ((b.step access)^[i] s).pos ≤ b.words.length := pos_iterate_le hpos i
  have hanswer : ∀ behind, b.answer access behind ((b.step access)^[i] s) =
      b.answer access behind s :=
    fun behind => answer_iterate hpos behind i
  cases hrun : (b.step access)^[i] s with
  | mk next phase uses =>
      rw [hrun] at hhalted hle hanswer
      obtain rfl : phase = .halted result := hhalted
      exact ⟨i, hi, next, result, uses, hrun, hle, hanswer⟩

/-- An expression ends behind the place where it starts, and not behind the end of the text. -/
theorem exists_next_of_expression {pos : Nat} {p : Parsed Tree (b.ahead pos)}
    (h : access.expression (b.ahead pos) = .ok p) :
    ∃ next, pos < next ∧ next ≤ b.words.length ∧ p.rest = b.ahead next ∧
      ∃ i uses, (b.step access)^[i] ⟨pos, .expression, []⟩ =
        ⟨next, .halted (.ok [p.value]), uses⟩ := by
  have hlt := p.rest_lt
  rw [b.length_ahead] at hlt
  obtain ⟨i, -, next, result, uses, hrun, hnext, hresult⟩ :=
    exists_iterate_eq_halted (b := b) (s := ⟨pos, .expression, []⟩) access (show pos ≤ _ by omega)
  have hanswer : b.answer access [] ⟨pos, .expression, []⟩ = .ok ([p.value], p.rest) := by
    change (access.expression (b.ahead pos ++ []) >>= fun q =>
      resume access [b.last] [] q.value q.rest) = _
    rw [List.append_nil, h]
    rfl
  obtain ⟨trees, rfl, htrees⟩ := except_map_eq_ok_iff.mp ((hresult []).trans hanswer)
  obtain ⟨rfl, hrest⟩ := Prod.mk.inj htrees
  rw [List.append_nil] at hrest
  refine ⟨next, ?_, hnext, hrest.symm, i, uses, hrun⟩
  rw [← hrest, b.length_ahead] at hlt
  omega

theorem answer_start (b : Buffer) (access : Access ε) (behind : List Token) :
    b.answer access behind .start = (access.expressions (b.tokens ++ behind)).map (·,
      b.last :: behind) := by
  change (access.expressions (b.tokens ++ behind) >>= fun trees => .ok (trees, b.last :: behind)) =
    _
  cases access.expressions (b.tokens ++ behind) with
  | ok trees => rfl
  | error e => rfl

/-- The steps from the start of a text end with what the readers give, whatever stands behind the
end of the text, and if these are expressions, behind all words. -/
theorem exists_iterate_start (b : Buffer) (access : Access ε) :
    ∃ i ≤ 4 * b.words.length + 3, ∃ next uses,
    (b.step access)^[i] .start = ⟨next, .halted (access.expressions b.tokens), uses⟩ ∧
      (∀ trees, access.expressions b.tokens = .ok trees → next = b.words.length) ∧
      ∀ behind, access.expressions (b.tokens ++ behind) = access.expressions b.tokens := by
  obtain ⟨i, hi, next, result, uses, hrun, hnext, hresult⟩ :=
    exists_iterate_eq_halted (b := b) (s := .start) access (Nat.zero_le _)
  have hexpressions : ∀ behind, access.expressions (b.tokens ++ behind) = result ∧
      ∀ trees, result = .ok trees → b.ahead next ++ behind = b.last :: behind := by
    intro behind
    have hanswer := (b.answer_start access behind).symm.trans (hresult behind).symm
    cases result with
    | error e => exact ⟨except_map_eq_error_iff.mp hanswer, fun _ h => by cases h⟩
    | ok trees =>
        obtain ⟨_, hread, hpair⟩ := except_map_eq_ok_iff.mp hanswer
        obtain ⟨rfl, hrest⟩ := Prod.mk.inj hpair
        exact ⟨hread, fun _ _ => hrest.symm⟩
  obtain ⟨halone, hall⟩ := hexpressions []
  rw [List.append_nil] at halone
  refine ⟨i, hi, next, uses, by rw [hrun, halone], fun trees htrees => ?_, fun behind => ?_⟩
  · have hlength := congrArg List.length (hall trees (halone.symm.trans htrees))
    rw [List.append_nil, b.length_ahead, List.length_singleton] at hlength
    omega
  · rw [(hexpressions behind).1, halone]

/-- A reading that halts does so with one result. -/
theorem eq_of_halted {i j next next' : Nat} {result result' : Except ε (List Tree)}
    {uses uses' : List Use} (h : (b.step access)^[i] s = ⟨next, .halted result, uses⟩)
    (h' : (b.step access)^[j] s = ⟨next', .halted result', uses'⟩) : result = result' := by
  have hstays : ∀ n m r us, (b.step access)^[n] ⟨m, .halted r, us⟩ = ⟨m, .halted r, us⟩ :=
    fun n _ _ _ => Function.iterate_fixed rfl n
  have hsum : (b.step access)^[j + i] s = (b.step access)^[i + j] s := by rw [Nat.add_comm]
  rw [Function.iterate_add_apply, Function.iterate_add_apply, h, h', hstays, hstays] at hsum
  cases hsum
  rfl

/-- Where the words have the same texts, the readers give the same. -/
theorem expressions_mapError {ε' : Type} {f : ε → ε'} {access' : Access ε'}
    (htext : ∀ t ∈ b.words, access'.text t = (access.text t).mapError f)
    (hreport : ∀ e, access'.report e = f (access.report e)) :
    access'.expressions b.tokens = (access.expressions b.tokens).mapError f := by
  have hstep : Function.Semiconj (Reading.mapError f) (b.step access) (b.step access') := by
    intro s
    refine (step_mapError (fun ht => htext _ ?_) hreport).symm
    exact b.peek_mem_words ht
  obtain ⟨i, _, next, uses, hrun, _⟩ := b.exists_iterate_start access
  obtain ⟨j, _, next', uses', hrun', _⟩ := b.exists_iterate_start access'
  have hmapped : (b.step access')^[i] .start =
      ⟨next, .halted ((access.expressions b.tokens).mapError f), uses⟩ := by
    rw [show (.start : Reading ε') =
      Reading.mapError f .start from rfl, ← (hstep.iterate_right i).eq, hrun]
    rfl
  exact eq_of_halted hrun' hmapped

end LambdaLift.Token.Buffer
