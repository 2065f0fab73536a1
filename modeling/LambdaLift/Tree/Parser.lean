import LambdaLift.Parsed
import LambdaLift.Token.Lexer
import LambdaLift.Tree

/-!
# Trees of source texts

The grammar, over tokens:

* a module is a sequence of expressions and semicolons;
* an expression is an integer, an identifier, an assignment `IDENT = expression`, an application
  `( expression … )` with at least one expression, a lambda `( IDENT … ) => expression`, or a block,
  which is a sequence of expressions and semicolons in braces.

All tokens are read before the first expression is, so an error in a token is reported before any
error in their order.
-/

namespace LambdaLift.Tree

/-- The parts of a bracketed sequence and the token that closes it. -/
structure Enclosed where
  parts : List Tree
  close : Token

/-- A parenthesised group that no arrow follows: an application, which needs a callee. -/
def ofGroup (opening : Token) (group : Enclosed) : Except SyntaxError Tree :=
  let span := opening.span.cover group.close.span
  if group.parts.isEmpty then .error (.invalid .application span)
  else .ok (branch applyKind span group.parts)

/-- A parenthesised group before an arrow: a parameter list, which holds symbols only. -/
def checkParams (params : List Tree) : Except SyntaxError Unit :=
  match params.find? (·.kind != symbolKind) with
  | some bad => .error (.invalid .parameterList bad.span)
  | none => .ok ()

/-- What reading trees needs beside the kinds and the spans of the tokens: how the text of a token
is had, and what an error is reported as. -/
structure Access (ε : Type) where
  text : Token → Except ε String
  report : SyntaxError → ε

namespace Access

variable {ε : Type} (access : Access ε)

mutual

/-- Reads one expression. -/
def expression (ts : List Token) : Except ε (Parsed Tree ts) :=
  match ts with
  | [] => .error (access.report (.missingExpression default))
  | t :: us =>
    match t.kind with
    | .int => do return ⟨leaf integerKind (← access.text t) t.span, us, Nat.lt_succ_self _⟩
    | .ident =>
      match us with
      | [] => do return ⟨leaf symbolKind (← access.text t) t.span, [], Nat.lt_succ_self _⟩
      | u :: vs => do
        let name := leaf symbolKind (← access.text t) t.span
        if u.kind = .equals then
          let value ← expression vs
          return ⟨branch assignKind (t.span.cover value.value.span) [name, value.value], value.rest,
            Nat.lt_of_lt_of_le value.rest_lt (Nat.le_add_right _ 2)⟩
        else return ⟨name, u :: vs, Nat.lt_succ_self _⟩
    | .lparen => do
      let group ← elements t us
      match hrest : group.rest with
      | [] =>
        let tree ← (ofGroup t group.value).mapError access.report
        return ⟨tree, [], Nat.zero_lt_succ _⟩
      | a :: vs =>
        have hlt : vs.length < us.length :=
          Nat.lt_of_succ_lt (by simpa [hrest] using group.rest_lt)
        if a.kind = .arrow then
          (checkParams group.value.parts).mapError access.report
          let body ← expression vs
          return ⟨branch lambdaKind (t.span.cover body.value.span)
              (body.value :: group.value.parts), body.rest,
            Nat.lt_succ_of_lt (Nat.lt_trans body.rest_lt hlt)⟩
        else
          let tree ← (ofGroup t group.value).mapError access.report
          return ⟨tree, group.rest, Nat.lt_succ_of_lt group.rest_lt⟩
    | .lbrace => do
      let block ← statements t us
      return ⟨branch blockKind (t.span.cover block.value.close.span) block.value.parts, block.rest,
        Nat.lt_succ_of_lt block.rest_lt⟩
    | .eof => .error (access.report (.missingExpression t.span))
    | .rparen | .rbrace | .arrow | .equals | .semicolon => do
      throw (access.report (.unexpectedToken (← access.text t) t.span))
termination_by 2 * ts.length

/-- Reads expressions up to a closing parenthesis. -/
def elements (opening : Token) (ts : List Token) : Except ε (Parsed Enclosed ts) :=
  match ts with
  | [] => .error (access.report (.unclosedDelimiter .paren opening.span default))
  | t :: us =>
    match t.kind with
    | .rparen => .ok ⟨⟨[], t⟩, us, Nat.lt_succ_self _⟩
    | .eof => .error (access.report (.unclosedDelimiter .paren opening.span t.span))
    | _ => do
      let part ← expression (t :: us)
      have : part.rest.length < us.length + 1 := part.rest_lt
      let others ← elements opening part.rest
      return ⟨⟨part.value :: others.value.parts, others.value.close⟩, others.rest,
        Nat.lt_trans others.rest_lt part.rest_lt⟩
termination_by 2 * ts.length + 1

/-- Reads expressions, skipping semicolons between them, up to a closing brace. -/
def statements (opening : Token) (ts : List Token) : Except ε (Parsed Enclosed ts) :=
  match ts with
  | [] => .error (access.report (.unclosedDelimiter .brace opening.span default))
  | t :: us =>
    match t.kind with
    | .semicolon => do return (← statements opening us).ofSuffix (Nat.le_succ _)
    | .rbrace => .ok ⟨⟨[], t⟩, us, Nat.lt_succ_self _⟩
    | .eof => .error (access.report (.unclosedDelimiter .brace opening.span t.span))
    | _ => do
      let part ← expression (t :: us)
      have : part.rest.length < us.length + 1 := part.rest_lt
      let others ← statements opening part.rest
      return ⟨⟨part.value :: others.value.parts, others.value.close⟩, others.rest,
        Nat.lt_trans others.rest_lt part.rest_lt⟩
termination_by 2 * ts.length + 1

end

/-- Reads expressions, skipping semicolons between them, up to the end of the text. -/
def expressions (ts : List Token) : Except ε (List Tree) :=
  match ts with
  | [] => .ok []
  | t :: us =>
    match t.kind with
    | .semicolon => expressions us
    | .eof => .ok []
    | _ => do
      let part ← access.expression (t :: us)
      have : part.rest.length < us.length + 1 := part.rest_lt
      return part.value :: (← expressions part.rest)
termination_by ts.length

/-- Each token has the text that it was read from. -/
def stored : Access SyntaxError := ⟨fun t => .ok t.text, id⟩

end Access

/-- Reads one expression. -/
def expression (ts : List Token) : Except SyntaxError (Parsed Tree ts) :=
  Access.stored.expression ts

/-- Reads expressions up to a closing parenthesis. -/
def elements (opening : Token) (ts : List Token) : Except SyntaxError (Parsed Enclosed ts) :=
  Access.stored.elements opening ts

/-- Reads expressions, skipping semicolons between them, up to a closing brace. -/
def statements (opening : Token) (ts : List Token) : Except SyntaxError (Parsed Enclosed ts) :=
  Access.stored.statements opening ts

/-- Reads expressions, skipping semicolons between them, up to the end of the text. -/
def expressions (ts : List Token) : Except SyntaxError (List Tree) := Access.stored.expressions ts

/-- The parse tree of a source text: a module that spans the whole text. -/
def ofSource (source : String) : Except SyntaxError Tree := do
  let tokens ← Token.read source
  return branch moduleKind (.ofOffsets 0 (Text.byteLength source.toList)) (← expressions tokens)

/-- What is reported about a source text: its tree, and the errors that prevent one. -/
structure ParseResult where
  tree? : Option Tree
  errors : List SyntaxError

/-- Either there is a tree, or there is one error. -/
def ParseResult.ofExcept : Except SyntaxError Tree → ParseResult
  | .ok tree => ⟨some tree, []⟩
  | .error e => ⟨none, [e]⟩

/-- Reads a source text up to its first error. -/
def parse (source : String) : ParseResult := .ofExcept (ofSource source)

end LambdaLift.Tree
