import LambdaLift.Proofs.Identifier
import LambdaLift.Target.Function

/-!
# How emitted C is read

A grammar of the emitted texts, stated without the functions that write them: an expression is an
identifier or an integer with argument lists behind it, each of which calls what stands before it,
and a definition is a signature with one returned expression. A text can be read in at most one way,
and the text that is written for a function reads as that function.
-/

namespace LambdaLift.Target

/-- What a piece of C text stands for. -/
inductive Phrase where
  | expr (e : Expr)
  /-- The arguments between two parentheses. -/
  | args (es : List Expr)
  /-- The argument lists that make the expression `e` out of the expression before them. -/
  | calls (callee e : Expr)

/-- The characters `cs` read as the word `e`: an identifier or an integer. -/
inductive Word : Expr → List Char → Prop
  | name {x} (hx : Token.isIdentifier x) : Word (.name x) x.toList
  | literal {value} : Word (.literal value) value.digits.toList

/-- `Spells p cs`: the characters `cs` read as the phrase `p`. -/
inductive Spells : Phrase → List Char → Prop
  | expr {w e cs ds} (head : Word w cs) (tail : Spells (.calls w e) ds) :
      Spells (.expr e) (cs ++ ds)
  | done {e} : Spells (.calls e e) []
  | call {callee es e cs ds} (inside : Spells (.args es) cs)
      (tail : Spells (.calls (.call callee es) e) ds) :
      Spells (.calls callee e) ('(' :: (cs ++ ')' :: ds))
  | noArgs : Spells (.args []) []
  | lastArg {e cs} (inside : Spells (.expr e) cs) : Spells (.args [e]) cs
  | moreArgs {e e' es cs ds} (inside : Spells (.expr e) cs) (tail : Spells (.args (e' :: es)) ds) :
      Spells (.args (e :: e' :: es)) (cs ++ ',' :: ' ' :: ds)

/-- The characters `cs` read as a parameter with the name `p`: a type stands before it. -/
inductive SpellsParam : String → List Char → Prop
  | typed {type p} (ht : Token.isIdentifier type) (hp : Token.isIdentifier p) :
      SpellsParam p (type.toList ++ ' ' :: p.toList)

/-- The characters `cs` read as a list of parameters with the names `ps`. -/
inductive SpellsParams : List String → List Char → Prop
  | noParams : SpellsParams [] []
  | lastParam {p cs} (inside : SpellsParam p cs) : SpellsParams [p] cs
  | moreParams {p q ps cs ds} (inside : SpellsParam p cs) (tail : SpellsParams (q :: ps) ds) :
      SpellsParams (p :: q :: ps) (cs ++ ',' :: ' ' :: ds)

/-- The text of a definition reads as a function with a name, a list of parameters and a body. -/
inductive ReadsAs : String → Function → Prop
  | definition {type name params body ps bs} {text : String} (ht : Token.isIdentifier type)
      (hn : Token.isIdentifier name) (hps : SpellsParams params ps) (hbs : Spells (.expr body) bs)
      (htext : text.toList = type.toList ++ " ".toList ++ name.toList ++ "(".toList ++ ps ++
        r") {".toList ++ "\n\treturn ".toList ++ bs ++ ";\n".toList ++ r"}".toList) :
      ReadsAs text ⟨name, params, body⟩

namespace Word

theorem isIdentContinue {e : Expr} {cs : List Char} (h : Word e cs) {c : Char} (hc : c ∈ cs) :
    Token.isIdentContinue c := by
  cases h with
  | name hx => exact Token.isIdentContinue_of_mem_identifier hx hc
  | @literal value =>
      exact Token.isIdentContinue_of_isDigit (List.all_eq_true.mp value.isDigit_digits c hc)

/-- A word starts with a digit exactly if it is an integer. -/
theorem exists_head {e : Expr} {cs : List Char} (h : Word e cs) :
    ∃ c ds, cs = c :: ds ∧ (c.isDigit ↔ ∃ value, e = .literal value) := by
  cases h with
  | name hx =>
      obtain ⟨c, ds, hcs, hc, _⟩ := Token.isIdentifier_iff.mp hx
      exact ⟨c, ds, hcs, by simp [Token.isDigit_eq_false_of_isIdentStart hc]⟩
  | @literal value =>
      cases hcs : value.digits.toList with
      | nil => exact absurd hcs value.digits_ne_nil
      | cons c ds =>
          have hc : c.isDigit := List.all_eq_true.mp value.isDigit_digits c (by simp [hcs])
          exact ⟨c, ds, rfl, by simp [hc]⟩

theorem unique {e e' : Expr} {cs : List Char} (h : Word e cs) (h' : Word e' cs) : e = e' := by
  obtain ⟨c, ds, hcs, hdigit⟩ := h.exists_head
  obtain ⟨c', ds', hcs', hdigit'⟩ := h'.exists_head
  obtain ⟨rfl, rfl⟩ := List.cons.inj (hcs.symm.trans hcs')
  clear hcs hcs'
  cases h with
  | @name x _ =>
      generalize htext : x.toList = text at h'
      cases h' with
      | name _ => rw [String.toList_inj.mp htext]
      | literal => simp_all
  | @literal value =>
      generalize htext : value.digits.toList = text at h'
      cases h' with
      | name _ => simp_all
      | @literal value' =>
          have hvalue : value = value' := by
            cases value; cases value'
            simpa [String.toList_inj] using htext
          rw [hvalue]

end Word

/-- The characters `cs` do not continue an expression that ends before them. -/
def Stops (cs : List Char) : Prop := ∀ c ∈ cs.head?, Token.isIdentContinue c = false ∧ c ≠ '('

theorem Stops.cons {c : Char} {cs : List Char} (hc : Token.isIdentContinue c = false)
    (hne : c ≠ '(') : Stops (c :: cs) := by
  intro d hd
  cases hd
  exact ⟨hc, hne⟩

/-- Argument lists start with a parenthesis, so no word goes on into them. -/
theorem Spells.stop_calls {callee e : Expr} {cs r : List Char} (h : Spells (.calls callee e) cs)
    (hr : Stops r) : ∀ a ∈ (cs ++ r).head?, Token.isIdentContinue a = false := by
  cases h with
  | done => exact fun a ha => (hr a ha).1
  | call _ _ =>
      intro a ha
      cases ha
      decide

/-- What it means that a phrase is the only one of its kind that its characters read as, and that
one can tell from the characters where it ends. -/
def Phrase.Determined : Phrase → List Char → Prop
  | .expr e, cs => ∀ e' cs' r r', Spells (.expr e') cs' → Stops r → Stops r' →
      cs ++ r = cs' ++ r' → e = e' ∧ r = r'
  | .args es, cs => ∀ es' cs' r r', Spells (.args es') cs' →
      cs ++ ')' :: r = cs' ++ ')' :: r' → es = es' ∧ r = r'
  | .calls callee e, cs => ∀ e' cs' r r', Spells (.calls callee e') cs' → Stops r → Stops r' →
      cs ++ r = cs' ++ r' → e = e' ∧ r = r'

/-- The parenthesis after an argument list does not start an argument. -/
theorem Spells.not_paren_expr {e : Expr} {cs ds r : List Char} (h : Spells (.expr e) cs) :
    ')' :: r ≠ cs ++ ds := by
  cases h with
  | expr head _ =>
      obtain ⟨c, cs', hcs, _⟩ := head.exists_head
      have hc : Token.isIdentContinue c := head.isIdentContinue (by simp [hcs])
      intro heq
      rw [hcs, List.cons_append, List.cons_append] at heq
      obtain ⟨rfl, _⟩ := List.cons.inj heq
      exact absurd hc (by decide)

theorem Spells.determined {p : Phrase} {cs : List Char} (h : Spells p cs) : p.Determined cs := by
  induction h with
  | @expr w e cs ds head tail ih =>
      rintro e' _ r r' ⟨head', tail'⟩ hr hr' heq
      rw [List.append_assoc, List.append_assoc] at heq
      obtain ⟨rfl, hrest⟩ := append_inj_of_class (fun _ => head.isIdentContinue)
        (fun _ => head'.isIdentContinue) (tail.stop_calls hr) (tail'.stop_calls hr') heq
      obtain rfl := head.unique head'
      exact ih e' _ r r' tail' hr hr' hrest
  | done =>
      rintro e' _ r r' h' hr hr' heq
      cases h' with
      | done => exact ⟨rfl, heq⟩
      | call _ _ => exact absurd rfl (hr '(' (by rw [show r = _ from heq]; rfl)).2
  | @call callee es e cs ds inside tail ihargs ihtail =>
      rintro e' _ r r' h' hr hr' heq
      cases h' with
      | done => exact absurd rfl ( hr' '(' (by rw [← show _ = r' from heq]; rfl)).2
      | @call _ es' _ cs' ds' inside' tail' =>
          simp only [List.cons_append, List.append_assoc, List.cons.injEq, true_and] at heq
          obtain ⟨rfl, hrest⟩ := ihargs es' cs' _ _ inside' heq
          exact ihtail e' ds' r r' tail' hr hr' hrest
  | noArgs =>
      rintro es' _ r r' h' heq
      cases h' with
      | noArgs => exact ⟨rfl, (List.cons.inj heq).2⟩
      | lastArg inside' => exact absurd heq inside'.not_paren_expr
      | moreArgs inside' _ =>
          rw [List.append_assoc] at heq
          exact absurd heq inside'.not_paren_expr
  | @lastArg e cs inside ih =>
      rintro es' _ r r' h' heq
      have hstop {t : List Char} : Stops (')' :: t) := .cons (by decide) (by decide)
      cases h' with
      | noArgs => exact absurd heq.symm inside.not_paren_expr
      | lastArg inside' =>
          obtain ⟨rfl, hrest⟩ := ih _ _ _ _ inside' hstop hstop heq
          exact ⟨rfl, (List.cons.inj hrest).2⟩
      | moreArgs inside' _ =>
          rw [List.append_assoc] at heq
          obtain ⟨_, hrest⟩ := ih _ _ _ _ inside' hstop (.cons (by decide) (by decide)) heq
          exact absurd (List.cons.inj hrest).1 (by decide)
  | @moreArgs e e₁ es cs ds inside tail ihhead ihtail =>
      rintro es' _ r r' h' heq
      rw [List.append_assoc] at heq
      have hcomma {t : List Char} : Stops (',' :: t) := .cons (by decide) (by decide)
      cases h' with
      | noArgs => exact absurd heq.symm inside.not_paren_expr
      | lastArg inside' =>
          obtain ⟨_, hrest⟩ := ihhead _ _ _ _ inside' hcomma (.cons (by decide) (by decide)) heq
          exact absurd (List.cons.inj hrest).1 (by decide)
      | moreArgs inside' tail' =>
          rw [List.append_assoc] at heq
          obtain ⟨rfl, hrest⟩ := ihhead _ _ _ _ inside' hcomma hcomma heq
          have htail := (List.cons.inj (List.cons.inj hrest).2).2
          obtain ⟨hes, hr⟩ := ihtail _ _ _ _ tail' htail
          exact ⟨by rw [hes], hr⟩

/-- An identifier ends where a character stands that identifiers do not have. -/
theorem identifier_append_inj {x y : String} {a b : Char} {r s : List Char}
    (hx : Token.isIdentifier x) (hy : Token.isIdentifier y) (ha : Token.isIdentContinue a = false)
    (hb : Token.isIdentContinue b = false) (h : x.toList ++ a :: r = y.toList ++ b :: s) :
    x = y ∧ a = b ∧ r = s := by
  have hhead {c : Char} {t : List Char} (hc : Token.isIdentContinue c = false) :
      ∀ d ∈ (c :: t).head?, Token.isIdentContinue d = false := by
    intro d hd
    cases hd
    exact hc
  obtain ⟨hfront, hrest⟩ := append_inj_of_class
    (fun _ => Token.isIdentContinue_of_mem_identifier hx)
    (fun _ => Token.isIdentContinue_of_mem_identifier hy) (hhead ha) (hhead hb) h
  obtain ⟨hab, hrs⟩ := List.cons.inj hrest
  exact ⟨String.toList_inj.mp hfront, hab, hrs⟩

theorem SpellsParam.determined {p q : String} {cs ds r s : List Char} {a b : Char}
    (h : SpellsParam p cs) (h' : SpellsParam q ds) (ha : Token.isIdentContinue a = false)
    (hb : Token.isIdentContinue b = false) (heq : cs ++ a :: r = ds ++ b :: s) :
    p = q ∧ a = b ∧ r = s := by
  obtain ⟨ht, hp⟩ := h
  obtain ⟨ht', hq⟩ := h'
  rw [List.append_assoc, List.append_assoc] at heq
  obtain ⟨_, _, hrest⟩ := identifier_append_inj ht ht' (by decide) (by decide) heq
  exact identifier_append_inj hp hq ha hb hrest

theorem SpellsParam.not_paren {p : String} {cs ds r : List Char} (h : SpellsParam p cs) :
    ')' :: r ≠ cs ++ ds := by
  obtain ⟨ht, _⟩ := h
  obtain ⟨c, cs, hcs, hc, _⟩ := Token.isIdentifier_iff.mp ht
  intro heq
  rw [hcs, List.cons_append, List.cons_append] at heq
  obtain ⟨rfl, _⟩ := List.cons.inj heq
  exact absurd hc (by decide)

theorem SpellsParams.determined {ps qs : List String} {cs ds r s : List Char}
    (h : SpellsParams ps cs) (h' : SpellsParams qs ds) (heq : cs ++ ')' :: r = ds ++ ')' :: s) :
    ps = qs ∧ r = s := by
  induction h generalizing qs ds with
  | noParams =>
      cases h' with
      | noParams => exact ⟨rfl, (List.cons.inj heq).2⟩
      | lastParam inside' => exact absurd heq inside'.not_paren
      | moreParams inside' _ =>
          rw [List.append_assoc] at heq
          exact absurd heq inside'.not_paren
  | lastParam inside =>
      cases h' with
      | noParams => exact absurd heq.symm inside.not_paren
      | lastParam inside' =>
          obtain ⟨rfl, _, hrest⟩ := inside.determined inside' (by decide) (by decide) heq
          exact ⟨rfl, hrest⟩
      | moreParams inside' _ =>
          rw [List.append_assoc] at heq
          obtain ⟨_, hmark, _⟩ := inside.determined inside' (by decide) (by decide) heq
          exact absurd hmark (by decide)
  | moreParams inside _ ih =>
      rw [List.append_assoc] at heq
      cases h' with
      | noParams => exact absurd heq.symm inside.not_paren
      | lastParam inside' =>
          obtain ⟨_, hmark, _⟩ := inside.determined inside' (by decide) (by decide) heq
          exact absurd hmark (by decide)
      | moreParams inside' tail' =>
          rw [List.append_assoc] at heq
          obtain ⟨rfl, _, hrest⟩ := inside.determined inside' (by decide) (by decide) heq
          obtain ⟨hps, hr⟩ := ih tail' (List.cons.inj hrest).2
          exact ⟨by rw [hps], hr⟩

/-- A definition reads in at most one way. -/
theorem ReadsAs.unique {text : String} {f g : Function} (h : ReadsAs text f) (h' : ReadsAs text g) :
    f = g := by
  obtain ⟨ht, hn, hps, hbs, htext⟩ := h
  obtain ⟨ht', hn', hps', hbs', htext'⟩ := h'
  have heq := htext.symm.trans htext'
  simp only [List.append_assoc] at heq
  obtain ⟨_, _, heq⟩ := identifier_append_inj ht ht' (by decide) (by decide) heq
  obtain ⟨rfl, _, heq⟩ := identifier_append_inj hn hn' (by decide) (by decide) heq
  obtain ⟨rfl, heq⟩ := hps.determined hps' heq
  have hstop : Stops (";\n".toList ++ r"}".toList) := .cons (by decide) (by decide)
  have hbody := List.append_cancel_left (List.append_cancel_left heq)
  obtain ⟨rfl, _⟩ := hbs.determined _ _ _ _ hbs' hstop hstop hbody
  rfl

mutual

/-- The names in an expression. -/
def Expr.names : Expr → List String
  | name identifier => [identifier]
  | literal _ => []
  | call callee args => callee.names ++ namesAll args

/-- The names in a list of expressions. -/
def Expr.namesAll : List Expr → List String
  | [] => []
  | e :: es => e.names ++ namesAll es

end

mutual

/-- The text of an expression reads as the callee of whatever argument lists follow it. -/
theorem Expr.spells_text {e : Expr} {cs : List Char} :
    ∀ g : Expr, (∀ x ∈ g.names, Token.isIdentifier x) → Spells (.calls g e) cs →
      Spells (.expr e) (g.text.toList ++ cs)
  | .name x, hnames, tail => .expr (.name (hnames x (by simp [names]))) tail
  | .literal _, _, tail => .expr .literal tail
  | .call callee args, hnames, tail => by
      have hargs : Spells (.args args) (textArgs args).toList :=
        Expr.spells_textArgs args fun x hx => hnames x (by simp [names, hx])
      have hcallee := Expr.spells_text callee (fun x hx => hnames x (by simp [names, hx]))
        (.call hargs tail)
      simpa [text] using hcallee

/-- The text of an argument list reads as that list. -/
theorem Expr.spells_textArgs :
    ∀ es : List Expr, (∀ x ∈ namesAll es, Token.isIdentifier x) →
      Spells (.args es) (textArgs es).toList
  | [], _ => .noArgs
  | e :: es, hnames => by
      have he : Spells (.expr e) e.text.toList := by
        simpa using Expr.spells_text e (fun x hx => hnames x (by simp [namesAll, hx])) .done
      have hes := Expr.spells_textMoreArgs es (fun x hx => hnames x (by simp [namesAll, hx])) he
      simpa [textArgs] using hes

/-- An expression and the text of the arguments after it read as one argument list. -/
theorem Expr.spells_textMoreArgs {d : Expr} {ds : List Char} :
    ∀ es : List Expr, (∀ x ∈ namesAll es, Token.isIdentifier x) → Spells (.expr d) ds →
      Spells (.args (d :: es)) (ds ++ (textMoreArgs es).toList)
  | [], _, hd => by simpa [textMoreArgs] using Spells.lastArg hd
  | e :: es, hnames, hd => by
      have he : Spells (.expr e) e.text.toList := by
        simpa using Expr.spells_text e (fun x hx => hnames x (by simp [namesAll, hx])) .done
      have hes := Expr.spells_textMoreArgs es (fun x hx => hnames x (by simp [namesAll, hx])) he
      simpa [textMoreArgs] using Spells.moreArgs hd hes

end

/-- A function of which every name is an identifier. -/
structure Function.Nameable (f : Function) : Prop where
  name : Token.isIdentifier f.name
  params : ∀ p ∈ f.params, Token.isIdentifier p
  body : ∀ x ∈ f.body.names, Token.isIdentifier x

theorem spellsParams_intercalate {type : String} (ht : Token.isIdentifier type) (ps : List String)
    (hps : ∀ p ∈ ps, Token.isIdentifier p) :
    SpellsParams ps (", ".intercalate (ps.map fun p => type ++ " " ++ p)).toList := by
  induction ps with
  | nil => exact .noParams
  | cons p ps ih =>
      have hp : SpellsParam p (type ++ " " ++ p).toList := by
        simpa using SpellsParam.typed ht (hps p (by simp))
      cases ps with
      | nil => simpa using SpellsParams.lastParam hp
      | cons q qs =>
          have htail := ih fun p hp => hps p (List.mem_cons_of_mem _ hp)
          rw [List.map_cons, List.map_cons, String.intercalate_cons_cons, String.toList_append,
            String.toList_append, List.append_assoc]
          exact .moreParams hp htail

/-- The text of a definition reads as its function. -/
theorem Function.readsAs_definition {style : Style} (hstyle : Token.isIdentifier style.anyType)
    {f : Function} (hf : f.Nameable) : ReadsAs (f.definition style) f := by
  have hbody : Spells (.expr f.body) f.body.text.toList := by
    simpa using Expr.spells_text f.body hf.body .done
  refine .definition hstyle hf.name (spellsParams_intercalate hstyle f.params hf.params) hbody ?_
  simp [definition, signature]

end LambdaLift.Target
