import LambdaLift.Proofs.ReaderFailures

/-!
# Errors come no later and no earlier than they must

The reader reports a token at the first place where no module can go on. The tokens before an
unexpected one are the start of a module, but with this token they are not, whatever follows. If the
text ends too early, then all of its tokens are the start of a module.
-/

namespace LambdaLift.Tree

/-- What a reader reads. -/
def Reader.phrase : Reader → Phrase
  | expression => .expression
  | enclosed .paren _ => .elements
  | enclosed .brace _ | module => .statements

/-- The tokens are words of the language. -/
def Written (ts : List Token) : Prop := ∀ t ∈ ts, t.kind.Spells t.text

/-- The tokens can be continued to what the reader reads, with at least one expression. -/
def Viable (r : Reader) (ts : List Token) : Prop :=
  ∃ more tree trees, Written more ∧ Derives r.phrase (ts ++ more) (tree :: trees)

/-- Tokens that complete what an error has left open: an integer and both closing brackets. -/
def zero : Token := ⟨.int, default, "0"⟩

def closing : Delimiter → Token
  | .paren => ⟨.rparen, default, ")"⟩
  | .brace => ⟨.rbrace, default, r"}"⟩

theorem written_zero : Written [zero] := by
  intro t ht
  obtain rfl := List.mem_singleton.mp ht
  exact ⟨by decide, List.all_eq_true.mp (by decide)⟩

theorem Written.append_closing {ts : List Token} (h : Written ts) (d : Delimiter) :
    Written (ts ++ [closing d]) := by
  intro t ht
  rcases List.mem_append.mp ht with ht | ht
  · exact h t ht
  · obtain rfl := List.mem_singleton.mp ht
    cases d with
    | paren => rfl
    | brace => rfl

theorem derives_zero : Derives .expression [zero] [leaf integerKind "0" default] := .integer rfl

theorem Derives.eq_singleton {ts : List Token} {trees : List Tree}
    (h : Derives .expression ts trees) :
    ∃ tree, trees = [tree] := by
  cases h with
  | _ => exact ⟨_, rfl⟩

theorem Reader.Enters.ne_expression {r : Reader} {t : Token} (h : r.Enters t) :
    r ≠ .expression := by
  rintro rfl
  exact h

/-- A sequence without parts is one of the sequences that a reader reads. -/
theorem derives_nil {r : Reader} (hr : r ≠ .expression) : Derives r.phrase [] [] := by
  match r, hr with
  | .enclosed .paren _, _ => exact .noElement
  | .enclosed .brace _, _ => exact .noStatement
  | .module, _ => exact .noStatement

/-- A sequence with an expression before it is a sequence. -/
theorem Derives.cons {r : Reader} (hr : r ≠ .expression) {ts us : List Token} {tree : Tree}
    {trees : List Tree} (head : Derives .expression ts [tree]) (rest : Derives r.phrase us trees) :
    Derives r.phrase (ts ++ us) (tree :: trees) := by
  match r, hr with
  | .enclosed .paren _, _ => exact .element head rest
  | .enclosed .brace _, _ => exact .statement head rest
  | .module, _ => exact .statement head rest

/-- Whatever a reader has taken before it fails at a token or at the end of the text can be
completed. -/
theorem Fails.viable {r : Reader} {front rest : List Token} {e : SyntaxError}
    (h : Fails r front rest e) (he : ∀ construct span, e ≠ .invalid construct span) :
    Viable r front := by
  induction h with
  | missing _ => exact ⟨[zero], _, [], written_zero, derives_zero⟩
  | unexpected _ _ => exact ⟨[zero], _, [], written_zero, derives_zero⟩
  | value ht hu _ ih =>
      obtain ⟨more, tree, trees, hmore, hderives⟩ := ih he
      obtain ⟨_, ⟨⟩⟩ := hderives.eq_singleton
      exact ⟨more, _, [], hmore, .assign ht hu hderives⟩
  | @group t front rest e ht _ ih =>
      obtain ⟨more, tree, trees, hmore, hderives⟩ := ih he
      have happly := Derives.apply ht (show (closing .paren).kind = .rparen from rfl) hderives
      rw [List.append_assoc, ← List.cons_append] at happly
      exact ⟨more ++ [closing .paren], _, [], hmore.append_closing .paren, happly⟩
  | callee _ _ _ => exact absurd rfl (he _ _)
  | parameters _ _ _ _ _ => exact absurd rfl (he _ _)
  | @body t params u a front rest e ht hparams hu ha _ ih =>
      obtain ⟨more, tree, trees, hmore, hderives⟩ := ih he
      obtain ⟨_, ⟨⟩⟩ := hderives.eq_singleton
      have hlambda := Derives.lambda ht hparams hu ha hderives
      exact ⟨more, _, [], hmore, by simpa [Reader.phrase] using hlambda⟩
  | @block t front rest e ht _ ih =>
      obtain ⟨more, tree, trees, hmore, hderives⟩ := ih he
      have hblock := Derives.block ht (show (closing .brace).kind = .rbrace from rfl) hderives
      rw [List.append_assoc, ← List.cons_append] at hblock
      exact ⟨more ++ [closing .brace], _, [], hmore.append_closing .brace, hblock⟩
  | @unclosed d opening rest _ =>
      have hr : Reader.enclosed d opening ≠ .expression := by simp
      exact ⟨[zero], _, [], written_zero, derives_zero.cons hr (derives_nil hr)⟩
  | @semicolon r t front rest e hr ht _ ih =>
      obtain ⟨more, tree, trees, hmore, hderives⟩ := ih he
      refine ⟨more, tree, trees, hmore, ?_⟩
      match r, hr with
      | .enclosed .brace _, _ => exact .semicolon ht hderives
      | .module, _ => exact .semicolon ht hderives
  | part _ ht _ ih =>
      obtain ⟨more, tree, trees, hmore, hderives⟩ := ih he
      obtain ⟨_, ⟨⟩⟩ := hderives.eq_singleton
      have hall := hderives.cons ht.ne_expression (derives_nil ht.ne_expression)
      rw [List.append_nil] at hall
      exact ⟨more, _, [], hmore, hall⟩
  | laterPart _ ht head _ ih =>
      obtain ⟨more, tree, trees, hmore, hderives⟩ := ih he
      obtain ⟨p, hp, hrest⟩ := except_map_eq_ok_iff.mp head
      obtain ⟨used, hused, hpart⟩ := derives_of_expression hp
      rw [hrest] at hused
      obtain rfl := List.append_cancel_right hused
      have hall := hpart.cons ht.ne_expression hderives
      rw [← List.append_assoc] at hall
      exact ⟨more, _, _, hmore, hall⟩

/-- What an error tells about the tokens that are left: the first one is unexpected, or the text
ends. -/
def Tells (rest : List Token) : SyntaxError → Prop
  | .unexpectedToken text span => ∃ t after, rest = t :: after ∧ t.text = text ∧ t.span = span
  | .missingExpression _ | .unclosedDelimiter _ _ _ => AtEnd rest
  | .unexpectedCharacter _ _ | .invalid _ _ => True

theorem Fails.tells {r : Reader} {front rest : List Token} {e : SyntaxError}
    (h : Fails r front rest e) :
    Tells rest e := by
  induction h with
  | missing hrest => exact hrest
  | unexpected _ _ => exact ⟨_, _, rfl, rfl, rfl⟩
  | callee _ _ _ => trivial
  | parameters _ _ _ _ _ => trivial
  | unclosed hrest => exact hrest
  | value _ _ _ ih => exact ih
  | group _ _ ih => exact ih
  | body _ _ _ _ _ ih => exact ih
  | block _ _ ih => exact ih
  | semicolon _ _ _ ih => exact ih
  | part _ _ _ ih => exact ih
  | laterPart _ _ _ _ ih => exact ih

/-- The tokens are those of a module: with the end of the text behind them they are read. -/
def FormsModule (ts : List Token) : Prop :=
  ∀ length, ∃ trees, expressions (ts ++ [Token.endAt length]) = .ok trees

/-- What can be completed to expressions can be completed to a module. -/
theorem Viable.exists_formsModule {ts : List Token} (h : Viable .module ts) :
    ∃ more, Written more ∧ FormsModule (ts ++ more) := by
  obtain ⟨more, tree, trees, hmore, hderives⟩ := h
  refine ⟨more, hmore, fun length => ?_⟩
  obtain ⟨parts, hparts, _⟩ := hderives.reads.2 (Token.endAt length) rfl
  exact ⟨parts, hparts⟩

theorem Viable.ne_eof {r : Reader} {ts : List Token} (h : Viable r ts) :
    ∀ t ∈ ts, t.kind ≠ .eof := by
  obtain ⟨more, tree, trees, _, hderives⟩ := h
  exact fun t ht => hderives.ne_eof t (List.mem_append_left more ht)

/-- The tokens before the end of the text are its words. -/
theorem eq_words_of_atEnd {source : String} {tokens front rest : List Token}
    (htokens : Token.read source = .ok tokens) (hsplit : front ++ rest = tokens)
    (hfront : ∀ t ∈ front, t.kind ≠ .eof) (hrest : AtEnd rest) :
    front = Token.words tokens := by
  obtain ⟨last, hwords, hlast⟩ := Token.read_eq_words htokens
  refine (append_inj_of_class (p := fun t => t.kind ≠ .eof) ?_ ?_ ?_ ?_ (hsplit.trans hwords)).1
  · exact fun t ht => by simpa using hfront t ht
  · exact fun t ht => by simpa [Token.words] using (List.mem_filter.mp ht).2
  · exact fun t ht => by simp [hrest t ht]
  · simp [hlast]

/-- The reader fails at the first place where no module can go on. The tokens before an unexpected
one can be continued to a module, but with the unexpected one they are not read, whatever follows.
If an expression or a closing bracket is missing, then all tokens of the text can be continued to a
module. -/
theorem ofSource_error_viable {source : String} {tokens : List Token} {e : SyntaxError}
    (htokens : Token.read source = .ok tokens) (h : ofSource source = .error e) :
    (∀ text span, e = .unexpectedToken text span → ∃ before t after, tokens = before ++ t :: after ∧
      t.text = text ∧ t.span = span ∧ (∃ more, Written more ∧ FormsModule (before ++ more)) ∧
      ∀ more, expressions (before ++ t :: more) = .error e) ∧
    ((∃ span, e = .missingExpression span) ∨
      (∃ d opening close, e = .unclosedDelimiter d opening close) →
      ∃ more, Written more ∧ FormsModule (Token.words tokens ++ more)) := by
  have hread : Reader.module.run tokens = .error e := by
    rw [ofSource_of_read htokens] at h
    exact except_map_eq_error_iff.mpr (except_map_eq_error_iff.mp h)
  obtain ⟨front, rest, hsplit, hfails⟩ := Reader.run_eq_error_iff.mp hread
  constructor
  · rintro text span rfl
    obtain ⟨t, after, rfl, htext, hspan⟩ := hfails.tells
    have hviable := hfails.viable (by simp)
    refine ⟨front, t, after, hsplit.symm, htext, hspan, hviable.exists_formsModule, fun more => ?_⟩
    have hfails' := hfails.relocate .id rfl (show (t :: more).head? = _ from rfl)
    rw [Token.map_relocate_id] at hfails'
    exact except_map_eq_error_iff.mp hfails'.run_eq
  · have hwhole (hrest : AtEnd rest) (hviable : Viable .module front) :
        ∃ more, Written more ∧ FormsModule (Token.words tokens ++ more) := by
      rw [← eq_words_of_atEnd htokens hsplit hviable.ne_eof hrest]
      exact hviable.exists_formsModule
    rintro (⟨span, rfl⟩ | ⟨d, opening, close, rfl⟩)
    · exact hwhole hfails.tells (hfails.viable (by simp))
    · exact hwhole hfails.tells (hfails.viable (by simp))

/-- In `f = (x; y)` the semicolon is unexpected, and in `(x) => { y` the text ends too early. -/
theorem ofSource_error_viable_semicolon :
    (∃ before t after, Token.read "f = (x; y)" = .ok (before ++ t :: after) ∧ t.text = ";" ∧
      (∃ more, Written more ∧ FormsModule (before ++ more)) ∧
      ∀ more, ∃ e, expressions (before ++ t :: more) = .error e) ∧
    ∃ tokens more, Token.read r"(x) => { y" = .ok tokens ∧ Written more ∧
      FormsModule (Token.words tokens ++ more) := by
  constructor
  · obtain ⟨tokens, htokens⟩ :=
      exists_eq_ok_of_isOk (x := Token.read "f = (x; y)") (by decide +kernel)
    have herror : ofSource "f = (x; y)" = .error (.unexpectedToken ";" ⟨6, 7⟩) :=
      eq_error_of_value (by decide +kernel)
    obtain ⟨before, t, after, rfl, htext, _, hmore, hall⟩ :=
      (ofSource_error_viable htokens herror).1 _ _ rfl
    exact ⟨before, t, after, htokens, htext, hmore, fun more => ⟨_, hall more⟩⟩
  · obtain ⟨tokens, htokens⟩ :=
      exists_eq_ok_of_isOk (x := Token.read r"(x) => { y") (by decide +kernel)
    have herror : ofSource r"(x) => { y" = .error (.unclosedDelimiter .brace ⟨7, 8⟩ ⟨10, 10⟩) :=
      eq_error_of_value (by decide +kernel)
    obtain ⟨more, hwritten, hforms⟩ :=
      (ofSource_error_viable htokens herror).2 (.inr ⟨_, _, _, rfl⟩)
    exact ⟨tokens, more, htokens, hwritten, hforms⟩

end LambdaLift.Tree
