import LambdaLift.Proofs.TokenBuffers
import LambdaLift.Tree.Parser
import Mathlib.Logic.Function.Iterate

/-!
# Reading trees step by step

The readers of trees call each other, and their open calls hold what is read so far. A `Reading`
holds it in a list instead, beside its place in a buffer of tokens, and goes on in steps, each of
which sees the token at this place and no other. A step that takes no token lowers the load of the
reading, and the end of a text is never taken. So the steps stay in the buffer, and they end.
-/

namespace LambdaLift.Tree

namespace Reading

/-- A loop over expressions: up to a closing bracket, or up to the end of the text. -/
inductive Loop where
  | enclosed (delimiter : Delimiter) (opening : Token)
  | module

/-- What an expression is read for. -/
inductive Use where
  | value (name : Tree)
  | body (opening : Token) (params : List Tree)
  | part (loop : Loop) (before : List Tree)

/-- What is to be done at the place of a reading. -/
inductive Phase (ε : Type) where
  /-- Going round a loop, with the parts that are read so far. -/
  | loop (loop : Loop) (parts : List Tree)
  | expression
  /-- Looking for an equals sign. -/
  | afterName (name : Tree)
  /-- Looking for an arrow. -/
  | afterGroup (opening : Token) (group : Enclosed)
  | complete (tree : Tree)
  | halted (result : Except ε (List Tree))

/-- The share of a phase in the load of a reading. -/
def Phase.weight {ε : Type} : Phase ε → Nat
  | .loop _ _ => 3
  | .expression => 1
  | .afterName _ => 4
  | .afterGroup _ _ => 4
  | .complete _ => 3
  | .halted _ => 0

end Reading

/-- A place in a buffer of tokens, what is to be done there, and what the open expressions are read
for, the innermost first. -/
structure Reading (ε : Type) where
  pos : Nat
  phase : Reading.Phase ε
  uses : List Reading.Use

namespace Reading

variable {ε : Type}

/-- The start of a text. -/
def start : Reading ε := ⟨0, .loop .module [], []⟩

/-- Goes on with another phase at the same place. -/
def stay (s : Reading ε) (phase : Phase ε) : Reading ε := ⟨s.pos, phase, s.uses⟩

/-- Goes on with another phase at the next place. -/
def take (s : Reading ε) (phase : Phase ε) : Reading ε := ⟨s.pos + 1, phase, s.uses⟩

/-- Goes on with an expression that is read for a use. -/
def await (s : Reading ε) (use : Use) : Reading ε := ⟨s.pos, .expression, use :: s.uses⟩

/-- The assignment of a value to a name. -/
def assignment (name value : Tree) : Tree :=
  branch assignKind (name.span.cover value.span) [name, value]

/-- The lambda whose parameter list is opened by a token. -/
def lambda (opening : Token) (params : List Tree) (body : Tree) : Tree :=
  branch lambdaKind (opening.span.cover body.span) (body :: params)

section Step

variable (access : Access ε)

/-- A loop ends at its token, skips a semicolon or reads a part. -/
def stepLoop (s : Reading ε) (t : Token) (loop : Loop) (parts : List Tree) : Reading ε :=
  match loop with
  | .enclosed .paren opening =>
    match t.kind with
    | .rparen => s.take (.afterGroup opening ⟨parts, t⟩)
    | .eof =>
      s.stay (.halted (.error (access.report (.unclosedDelimiter .paren opening.span t.span))))
    | _ => s.await (.part (.enclosed .paren opening) parts)
  | .enclosed .brace opening =>
    match t.kind with
    | .semicolon => s.take (.loop (.enclosed .brace opening) parts)
    | .rbrace => s.take (.complete (branch blockKind (opening.span.cover t.span) parts))
    | .eof =>
      s.stay (.halted (.error (access.report (.unclosedDelimiter .brace opening.span t.span))))
    | _ => s.await (.part (.enclosed .brace opening) parts)
  | .module =>
    match t.kind with
    | .semicolon => s.take (.loop .module parts)
    | .eof => s.stay (.halted (.ok parts))
    | _ => s.await (.part .module parts)

/-- The first token of an expression tells what is read. -/
def stepExpression (s : Reading ε) (t : Token) : Reading ε :=
  match t.kind with
  | .int =>
    match access.text t with
    | .ok text => s.take (.complete (leaf integerKind text t.span))
    | .error e => s.take (.halted (.error e))
  | .ident =>
    match access.text t with
    | .ok text => s.take (.afterName (leaf symbolKind text t.span))
    | .error e => s.take (.halted (.error e))
  | .lparen => s.take (.loop (.enclosed .paren t) [])
  | .lbrace => s.take (.loop (.enclosed .brace t) [])
  | .eof => s.stay (.halted (.error (access.report (.missingExpression t.span))))
  | .rparen | .rbrace | .arrow | .equals | .semicolon =>
    match access.text t with
    | .ok text => s.stay (.halted (.error (access.report (.unexpectedToken text t.span))))
    | .error e => s.stay (.halted (.error e))

/-- A name is assigned a value, or it is a symbol. -/
def stepAfterName (s : Reading ε) (t : Token) (name : Tree) : Reading ε :=
  if t.kind = .equals then (s.take .expression).await (.value name)
  else s.stay (.complete name)

/-- A group is a parameter list, or it is an application. -/
def stepAfterGroup (s : Reading ε) (t opening : Token) (group : Enclosed) : Reading ε :=
  if t.kind = .arrow then
    match checkParams group.parts with
    | .ok () => (s.take .expression).await (.body opening group.parts)
    | .error e => s.take (.halted (.error (access.report e)))
  else
    match ofGroup opening group with
    | .ok tree => s.stay (.complete tree)
    | .error e => s.stay (.halted (.error (access.report e)))

/-- A complete expression goes to its use. -/
def stepComplete (s : Reading ε) (tree : Tree) : Reading ε :=
  match s.uses with
  | [] => s.stay (.halted (.ok [tree]))
  | .value name :: uses => ⟨s.pos, .complete (assignment name tree), uses⟩
  | .body opening params :: uses => ⟨s.pos, .complete (lambda opening params tree), uses⟩
  | .part loop before :: uses => ⟨s.pos, .loop loop (before ++ [tree]), uses⟩

/-- One step at the token `t`. -/
def step (s : Reading ε) (t : Token) : Reading ε :=
  match s.phase with
  | .loop loop parts => s.stepLoop access t loop parts
  | .expression => s.stepExpression access t
  | .afterName name => s.stepAfterName t name
  | .afterGroup opening group => s.stepAfterGroup access t opening group
  | .complete tree => s.stepComplete tree
  | .halted _ => s

end Step

/-- An upper bound on the steps before the next token is taken. -/
def load (s : Reading ε) : Nat := s.uses.length + s.phase.weight

/-- What a step at the token `t` can do: go on at the same place with a smaller load, or take the
token, unless it ends the text, with a load that is greater by less than four. -/
inductive Moves (s : Reading ε) (t : Token) : Reading ε → Prop where
  | stay {phase : Phase ε} {uses : List Use} (hload : uses.length + phase.weight < s.load) :
      Moves s t ⟨s.pos, phase, uses⟩
  | take {phase : Phase ε} {uses : List Use} (ht : t.kind ≠ .eof)
      (hload : uses.length + phase.weight < s.load + 4) : Moves s t ⟨s.pos + 1, phase, uses⟩

section Moves

variable {access : Access ε} {s : Reading ε} {t : Token}

theorem Moves.of_stay {phase : Phase ε} (h : phase.weight < s.phase.weight) :
    s.Moves t (s.stay phase) :=
  .stay (Nat.add_lt_add_left h _)

theorem Moves.of_take {phase : Phase ε} (ht : t.kind ≠ .eof)
    (h : phase.weight < s.phase.weight + 4) :
    s.Moves t (s.take phase) :=
  .take ht (Nat.add_lt_add_left h _)

theorem Moves.of_await {use : Use} (h : 2 < s.phase.weight) : s.Moves t (s.await use) := by
  refine .stay ?_
  change s.uses.length + 1 + 1 < s.uses.length + s.phase.weight
  omega

theorem moves_stepLoop {loop : Loop} {parts : List Tree} (hs : s.phase = .loop loop parts) :
    s.Moves t (s.stepLoop access t loop parts) := by
  have htake : ∀ phase : Phase ε, t.kind ≠ .eof → phase.weight ≤ 4 → s.Moves t (s.take phase) := by
    intro phase ht hphase
    refine .of_take ht ?_
    rw [hs]
    exact Nat.lt_of_le_of_lt hphase (show 4 < 3 + 4 by decide)
  have hhalt : ∀ result, s.Moves t (s.stay (.halted result)) :=
    fun _ => .of_stay (by simp [hs, Phase.weight])
  have hawait : ∀ use, s.Moves t (s.await use) := fun _ => .of_await (by simp [hs, Phase.weight])
  unfold stepLoop
  split
  · split
    · rename_i ht
      exact htake _ (by simp [ht]) (Nat.le_refl 4)
    · exact hhalt _
    · exact hawait _
  · split
    · rename_i ht
      exact htake _ (by simp [ht]) (Nat.le_succ 3)
    · rename_i ht
      exact htake _ (by simp [ht]) (Nat.le_succ 3)
    · exact hhalt _
    · exact hawait _
  · split
    · rename_i ht
      exact htake _ (by simp [ht]) (Nat.le_succ 3)
    · exact hhalt _
    · exact hawait _

theorem moves_stepExpression (hs : s.phase = .expression) :
    s.Moves t (s.stepExpression access t) := by
  have htake : ∀ phase : Phase ε, t.kind ≠ .eof → phase.weight ≤ 4 → s.Moves t (s.take phase) := by
    intro phase ht hphase
    refine .of_take ht ?_
    rw [hs]
    exact Nat.lt_of_le_of_lt hphase (show 4 < 1 + 4 by decide)
  have hhalt : ∀ result, s.Moves t (s.stay (.halted result)) :=
    fun _ => .of_stay (by simp [hs, Phase.weight])
  unfold stepExpression
  split
  case h_1 ht | h_2 ht =>
    split
    all_goals exact htake _ (by simp [ht]) (by simp [Phase.weight])
  case h_3 ht | h_4 ht => exact htake _ (by simp [ht]) (by simp [Phase.weight])
  case h_5 => exact hhalt _
  all_goals
    split
    all_goals exact hhalt _

theorem moves_stepAfterName {name : Tree} (hs : s.phase = .afterName name) :
    s.Moves t (s.stepAfterName t name) := by
  unfold stepAfterName
  split
  · rename_i ht
    exact .take (by simp [ht]) (by simp [load, hs, take, Phase.weight])
  · exact .of_stay (by simp [hs, Phase.weight])

theorem moves_stepAfterGroup {opening : Token} {group : Enclosed}
    (hs : s.phase = .afterGroup opening group) :
    s.Moves t (s.stepAfterGroup access t opening group) := by
  unfold stepAfterGroup
  split
  · rename_i ht
    split
    · exact .take (by simp [ht]) (by simp [load, hs, take, Phase.weight])
    · exact .of_take (by simp [ht]) (by simp [hs, Phase.weight])
  · split
    all_goals exact .of_stay (by simp [hs, Phase.weight])

theorem moves_stepComplete {tree : Tree} (hs : s.phase = .complete tree) :
    s.Moves t (s.stepComplete tree) := by
  unfold stepComplete
  split
  · exact .of_stay (by simp [hs, Phase.weight])
  all_goals
    rename_i huses
    exact .stay (by simp [load, hs, huses, Phase.weight])

/-- Every step of a reading that has not halted moves. -/
theorem moves_step (hs : ∀ result, s.phase ≠ .halted result) (t : Token) :
    s.Moves t (s.step access t) := by
  obtain ⟨pos, phase, uses⟩ := s
  cases phase with
  | loop loop parts => exact moves_stepLoop rfl
  | expression => exact moves_stepExpression rfl
  | afterName name => exact moves_stepAfterName rfl
  | afterGroup opening group => exact moves_stepAfterGroup rfl
  | complete tree => exact moves_stepComplete rfl
  | halted result => exact absurd rfl (hs result)

end Moves

section Agreement

variable {ε' : Type} (f : ε → ε')

/-- The same phase, with another account of an error. -/
def Phase.mapError : Phase ε → Phase ε'
  | .loop inside parts => .loop inside parts
  | .expression => .expression
  | .afterName name => .afterName name
  | .afterGroup opening group => .afterGroup opening group
  | .complete tree => .complete tree
  | .halted result => .halted (result.mapError f)

/-- The same reading, with another account of an error. -/
def mapError (s : Reading ε) : Reading ε' := ⟨s.pos, s.phase.mapError f, s.uses⟩

variable {f} {access : Access ε} {access' : Access ε'} {s : Reading ε} {t : Token}
  (htext : t.kind ≠ .eof → access'.text t = (access.text t).mapError f)
  (hreport : ∀ e, access'.report e = f (access.report e))

include hreport in
theorem stepLoop_mapError (loop : Loop) (parts : List Tree) :
    (s.mapError f).stepLoop access' t loop parts = (s.stepLoop access t loop parts).mapError f := by
  unfold stepLoop
  simp only [hreport]
  split
  all_goals
    split
    all_goals rfl

include htext hreport in
theorem stepExpression_mapError :
    (s.mapError f).stepExpression access' t = (s.stepExpression access t).mapError f := by
  unfold stepExpression
  split
  case h_3 | h_4 => rfl
  case h_5 => simp only [hreport]; rfl
  all_goals
    rename_i ht
    rw [htext (by simp [ht])]
    cases access.text t with
    | ok text => simp only [except_mapError_ok, hreport]; rfl
    | error e => rfl

include hreport in
theorem stepAfterGroup_mapError (opening : Token) (group : Enclosed) :
    (s.mapError f).stepAfterGroup access' t opening group =
      (s.stepAfterGroup access t opening group).mapError f := by
  unfold stepAfterGroup
  simp only [hreport]
  split
  all_goals
    split
    all_goals rfl

theorem stepAfterName_mapError (name : Tree) :
    (s.mapError f).stepAfterName t name = (s.stepAfterName t name).mapError f := by
  unfold stepAfterName
  split
  · rfl
  · rfl

theorem stepComplete_mapError (tree : Tree) :
    (s.mapError f).stepComplete tree = (s.stepComplete tree).mapError f := by
  obtain ⟨pos, phase, uses⟩ := s
  cases uses with
  | nil => rfl
  | cons use uses =>
      cases use with
      | value name => rfl
      | body opening params => rfl
      | part loop before => rfl

include htext hreport in
/-- Where the token has the same text, a step does the same. -/
theorem step_mapError : (s.mapError f).step access' t = (s.step access t).mapError f := by
  obtain ⟨pos, phase, uses⟩ := s
  cases phase with
  | loop loop parts => exact stepLoop_mapError hreport loop parts
  | expression => exact stepExpression_mapError htext hreport
  | afterName name => exact stepAfterName_mapError name
  | afterGroup opening group => exact stepAfterGroup_mapError hreport opening group
  | complete tree => exact stepComplete_mapError tree
  | halted result => rfl

end Agreement

end Reading

end LambdaLift.Tree

namespace LambdaLift.Token.Buffer

open LambdaLift.Tree LambdaLift.Tree.Reading

variable {ε : Type}

/-- One step at the token at the place of a reading. -/
def step (b : Buffer) (access : Access ε) (s : Reading ε) : Reading ε :=
  s.step access (b.peek s.pos)

/-- An upper bound on the steps of a reading. -/
def potential (b : Buffer) (s : Reading ε) : Nat := 4 * (b.words.length - s.pos) + s.load

variable {b : Buffer} {access : Access ε} {s : Reading ε}

theorem pos_step_le (hpos : s.pos ≤ b.words.length) : (b.step access s).pos ≤ b.words.length := by
  by_cases hs : ∃ result, s.phase = .halted result
  · obtain ⟨result, hs⟩ := hs
    rwa [step, Reading.step, hs]
  · have hmoves : s.Moves (b.peek s.pos) (s.step access (b.peek s.pos)) :=
      moves_step (fun result h => hs ⟨result, h⟩) (b.peek s.pos)
    rw [step]
    generalize s.step access (b.peek s.pos) = s' at hmoves ⊢
    cases hmoves with
    | stay _ => exact hpos
    | take ht _ => exact b.lt_of_peek_ne_eof ht

theorem potential_step_lt (hs : ∀ result, s.phase ≠ .halted result) :
    b.potential (b.step access s) < b.potential s := by
  have hmoves : s.Moves (b.peek s.pos) (s.step access (b.peek s.pos)) :=
    moves_step hs (b.peek s.pos)
  rw [step]
  generalize s.step access (b.peek s.pos) = s' at hmoves ⊢
  cases hmoves with
  | stay hload => exact Nat.add_lt_add_left hload _
  | take ht hload =>
      -- The token that is taken pays for the greater load.
      have hpos : s.pos < b.words.length := b.lt_of_peek_ne_eof ht
      simp only [potential, load] at hload ⊢
      omega

theorem pos_iterate_le (hpos : s.pos ≤ b.words.length) (i : Nat) :
    ((b.step access)^[i] s).pos ≤ b.words.length := by
  induction i with
  | zero => exact hpos
  | succ i ih =>
      rw [Function.iterate_succ_apply']
      exact pos_step_le ih

/-- A reading halts after at most as many steps as its potential. -/
theorem exists_halted (b : Buffer) (access : Access ε) (s : Reading ε) :
    ∃ i ≤ b.potential s, ∃ result, ((b.step access)^[i] s).phase = .halted result := by
  generalize hn : b.potential s = n
  induction n using Nat.strongRecOn generalizing s with
  | _ n ih =>
      by_cases hs : ∃ result, s.phase = .halted result
      · exact ⟨0, Nat.zero_le _, hs⟩
      · have hlt : b.potential (b.step access s) < n :=
          hn ▸ potential_step_lt fun result h => hs ⟨result, h⟩
        obtain ⟨i, hi, hhalted⟩ := ih _ hlt (b.step access s) rfl
        exact ⟨i + 1, by omega, by rwa [Function.iterate_succ_apply]⟩

end LambdaLift.Token.Buffer
