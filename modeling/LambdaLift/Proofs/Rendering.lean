import LambdaLift.Proofs.FrontEnd
import LambdaLift.Proofs.Strays

/-!
# Terms as texts

The text of a term, with one space between its words and one expression on a line. Every module that
a text can hold is read back from its own text.
-/

namespace LambdaLift

open Text

namespace Term

mutual

/-- The text of a term. -/
def render : Term → String
  | module _ body => "\n".intercalate (renderAll body)
  | symbol name => name
  | integer value => value.digits
  | lambda body params => "(" ++ " ".intercalate (renderAll params) ++ ") => " ++ render body
  | apply callee args => "(" ++ " ".intercalate (render callee :: renderAll args) ++ ")"
  | block body => r"{" ++ " ".intercalate (renderAll body) ++ r"}"
  | assign target value => render target ++ " = " ++ render value

/-- The texts of a list of terms. -/
def renderAll : List Term → List String
  | [] => []
  | t :: ts => render t :: renderAll ts

end

end Term

/-- The text of a module. Its name is not part of it. -/
def Module.render (m : Module) : String := "\n".intercalate (Term.renderAll m.body)

namespace Token

/-- `Cuts F cs P`: wherever the text `cs` stands directly before a text with `F`, it is tiled by
tokens with `P`. -/
def Cuts (F : List Char → Prop) (cs : List Char) (P : List Token → Prop) : Prop :=
  ∀ offset rest, F rest → ∃ ts, Tiles offset cs ts rest ∧ P ts

section

variable {F G : List Char → Prop} {cs ds : List Char} {P Q : List Token → Prop}

theorem Cuts.imp (h : Cuts F cs P) (hPQ : ∀ ts, P ts → Q ts) : Cuts F cs Q := by
  intro offset rest hrest
  obtain ⟨ts, htiles, hts⟩ := h offset rest hrest
  exact ⟨ts, htiles, hPQ ts hts⟩

theorem cuts_nil : Cuts F [] (· = []) := fun _ _ _ => ⟨[], .gap .nil, rfl⟩

/-- Texts are cut one after the other, if the second can follow the first. -/
theorem Cuts.append (h : Cuts F cs P) (h' : Cuts G ds Q)
    (hfollows : ∀ rest, G rest → F (ds ++ rest)) :
    Cuts G (cs ++ ds) fun ts => ∃ us vs, ts = us ++ vs ∧ P us ∧ Q vs := by
  intro offset rest hrest
  obtain ⟨ts, htiles, hts⟩ := h offset (ds ++ rest) (hfollows rest hrest)
  obtain ⟨us, htiles', hus⟩ := h' (offset + byteLength cs) rest hrest
  exact ⟨ts ++ us, htiles.append htiles', ts, us, rfl, hts, hus⟩

theorem Cuts.blank {c : Char} (hc : isBlank c) (h : Cuts F cs P) : Cuts F (c :: cs) P := by
  intro offset rest hrest
  obtain ⟨ts, htiles, hts⟩ := h (offset + byteLength [c]) rest hrest
  have hgap : Tiles offset [c] [] (cs ++ rest) := .gap (.blank hc .nil)
  exact ⟨ts, hgap.append htiles, hts⟩

/-- A text of a kind is one token of that kind, if what is behind it lets it end. -/
theorem Cuts.token (kind : Kind) {text : String} (hkind : kind ≠ .eof) (hspells : kind.Spells text)
    (hends : ∀ rest, F rest → kind.Ends (cs ++ rest)) (h : Cuts F cs P) :
    Cuts F (text.toList ++ cs) fun ts => ∃ t us, ts = t :: us ∧ t.kind = kind ∧ t.text = text ∧
      P us := by
  intro offset rest hrest
  obtain ⟨us, htiles, hus⟩ := h (offset + byteLength text.toList) rest hrest
  have ht : StandsAt ⟨kind, .ofOffsets offset (offset + byteLength text.toList), text⟩ offset
      (cs ++ rest) :=
    ⟨hkind, rfl, hspells, hends rest hrest⟩
  exact ⟨_ :: us, .token .nil ht htiles, _, us, rfl, rfl, rfl, hus⟩

end

end Token

namespace Term

open Token LambdaLift.Tree

theorem isBlank_space : isBlank ' ' := by decide

/-- The text of a term is cut into tokens from which the term's tree derives. -/
def ReadsBack (t : Term) : Prop :=
  Cuts Kind.ident.Ends t.render.toList (Derives .expression · [t.toTree])

/-- Terms are read back one after the other, from texts with a blank between them. -/
theorem cuts_renderAll {p : Phrase} {sep : Char} (hblank : isBlank sep)
    (hsep : isIdentContinue sep = false)
    (hnil : Derives p [] [])
    (hcons : ∀ {ts us tree trees}, Derives .expression ts [tree] → Derives p us trees →
      Derives p (ts ++ us) (tree :: trees))
    {ts : List Term} (h : ∀ t ∈ ts, t.ReadsBack) :
    Cuts Kind.ident.Ends ([sep].intercalate ((renderAll ts).map String.toList))
      (Derives p · (toTrees ts)) := by
  induction ts with
  | nil =>
      intro offset rest _
      exact ⟨[], .gap .nil, hnil⟩
  | cons t ts ih =>
      obtain ⟨ht, hts⟩ := List.forall_mem_cons.mp h
      cases ts with
      | nil =>
          rw [renderAll, renderAll, List.map_cons, List.map_nil, List.intercalate_singleton]
          refine Cuts.imp ht fun us hus => ?_
          have hone := hcons hus hnil
          rwa [List.append_nil] at hone
      | cons u ts =>
          have hrest := ih hts
          rw [renderAll, List.map_cons] at hrest
          rw [toTrees, renderAll, renderAll, List.map_cons, List.map_cons,
            List.intercalate_cons_cons, List.append_assoc, List.singleton_append]
          have hcuts :=
            Cuts.append ht (hrest.blank hblank) fun rest _ c hc => by cases hc; exact hsep
          refine hcuts.imp ?_
          rintro _ ⟨us, vs, rfl, hus, hvs⟩
          exact hcons hus hvs

theorem cuts_elements {ts : List Term} (h : ∀ t ∈ ts, t.ReadsBack) :
    Cuts Kind.ident.Ends (" ".intercalate (renderAll ts)).toList
      (Derives .elements · (toTrees ts)) := by
  rw [String.toList_intercalate]
  exact cuts_renderAll (by decide) (by decide) .noElement .element h

theorem cuts_statements (sep : String) {c : Char} (hc : sep.toList = [c]) (hblank : isBlank c)
    (hsep : isIdentContinue c = false) {ts : List Term} (h : ∀ t ∈ ts, t.ReadsBack) :
    Cuts Kind.ident.Ends (sep.intercalate (renderAll ts)).toList
      (Derives .statements · (toTrees ts)) := by
  rw [String.toList_intercalate, hc]
  exact cuts_renderAll hblank hsep .noStatement .statement h

theorem readsBack_symbol {name : String} (h : Token.isIdentifier name) :
    (symbol name).ReadsBack := by
  have hcuts : Cuts Kind.ident.Ends (name.toList ++ []) _ :=
    cuts_nil.token .ident (by decide) h fun _ h => h
  rw [List.append_nil] at hcuts
  refine hcuts.imp ?_
  rintro _ ⟨t, _, rfl, ht, rfl, rfl⟩
  exact .symbol ht

theorem readsBack_integer (value : Numeral) : (integer value).ReadsBack := by
  have hcuts : Cuts Kind.int.Ends (value.digits.toList ++ []) _ :=
    cuts_nil.token .int (by decide) (textual_integer value) fun _ h => h
  rw [List.append_nil] at hcuts
  refine hcuts.imp ?_
  rintro _ ⟨t, _, rfl, ht, htext, rfl⟩
  rw [toTree, ← htext]
  exact .integer ht

theorem readsBack_assign {name : String} {value : Term} (hname : Token.isIdentifier name)
    (hvalue : value.ReadsBack) : (assign (symbol name) value).ReadsBack := by
  have htext : (assign (symbol name) value).render.toList =
      name.toList ++ ' ' :: ("=".toList ++ ' ' :: value.render.toList) := by simp [render]
  -- The space behind the sign keeps it from being the start of an arrow.
  have hsign :=
    (Cuts.blank isBlank_space hvalue).token .equals (by decide) rfl (by simp [Kind.Ends])
  have hcuts := (hsign.blank isBlank_space).token .ident (by decide) hname fun _ _ =>
    Kind.ends_of_isBlank _ (by rintro c ⟨⟩; exact isBlank_space)
  rw [ReadsBack, htext]
  refine hcuts.imp ?_
  rintro _ ⟨t, _, rfl, ht, rfl, u, us, rfl, hu, _, hus⟩
  exact .assign ht hu hus

theorem readsBack_apply {callee : Term} {args : List Term}
    (hparts : ∀ t ∈ callee :: args, t.ReadsBack) :
    (apply callee args).ReadsBack := by
  have htext : (apply callee args).render.toList =
      "(".toList ++ ((" ".intercalate (renderAll (callee :: args))).toList ++
        (")".toList ++ [])) := by
    simp [render, renderAll]
  have hclose := (cuts_nil (F := Kind.ident.Ends)).token .rparen (by decide) rfl fun _ _ => trivial
  have hbehind := (cuts_elements hparts).append hclose fun _ _ c hc => by cases hc; decide
  rw [ReadsBack, htext]
  refine (hbehind.token .lparen (by decide) rfl fun _ _ => trivial).imp ?_
  rintro _ ⟨t, _, rfl, ht, _, us, _, rfl, hus, u, _, rfl, hu, _, rfl⟩
  exact .apply ht hu hus

theorem readsBack_block {body : List Term} (hbody : ∀ t ∈ body, t.ReadsBack) :
    (block body).ReadsBack := by
  have htext : (block body).render.toList =
      r"{".toList ++ ((" ".intercalate (renderAll body)).toList ++ (r"}".toList ++ [])) := by
    simp [render]
  have hclose := (cuts_nil (F := Kind.ident.Ends)).token .rbrace (by decide) rfl fun _ _ => trivial
  have hbehind := (cuts_statements " " rfl isBlank_space (by decide) hbody).append hclose
    fun _ _ c hc => by cases hc; decide
  rw [ReadsBack, htext]
  refine (hbehind.token .lbrace (by decide) rfl fun _ _ => trivial).imp ?_
  rintro _ ⟨t, _, rfl, ht, _, us, _, rfl, hus, u, _, rfl, hu, _, rfl⟩
  exact .block ht hu hus

theorem readsBack_lambda {body : Term} {names : List String} (hbody : body.ReadsBack)
    (hnames : ∀ name ∈ names, Token.isIdentifier name) :
    (lambda body (names.map symbol)).ReadsBack := by
  have hparams : ∀ t ∈ names.map symbol, t.ReadsBack :=
    List.forall_mem_map.mpr fun name hname => readsBack_symbol (hnames name hname)
  have htext : (lambda body (names.map symbol)).render.toList =
      "(".toList ++ ((" ".intercalate (renderAll (names.map symbol))).toList ++
        (")".toList ++ ' ' :: ("=>".toList ++ ' ' :: body.render.toList))) := by
    simp [render]
  have harrow := (Cuts.blank isBlank_space hbody).token .arrow (by decide) rfl fun _ _ => trivial
  have hclose := (harrow.blank isBlank_space).token .rparen (by decide) rfl fun _ _ => trivial
  have hbehind := (cuts_elements hparams).append hclose fun _ _ c hc => by cases hc; decide
  rw [ReadsBack, htext]
  refine (hbehind.token .lparen (by decide) rfl fun _ _ => trivial).imp ?_
  rintro _ ⟨t, _, rfl, ht, _, us, _, rfl, hus, u, _, rfl, hu, _, a, vs, rfl, ha, _, hvs⟩
  have hkinds : ∀ tree ∈ toTrees (names.map symbol), tree.kind = symbolKind := by
    rw [toTrees_symbols]
    exact List.forall_mem_map.mpr fun _ _ => rfl
  obtain ⟨hidents, htrees⟩ := hus.idents hkinds
  rw [toTree, htrees]
  exact .lambda ht hidents hu ha hvs

/-- One step: a term whose parts are read back is read back, if a text can hold it. -/
theorem readsBack_of_children {t : Term} (ht : t.Textual) (hparts : ∀ u ∈ t.children, u.ReadsBack)
    (htextual : AllTextual t.children) : t.ReadsBack := by
  cases t with
  | module name body => exact ht.elim
  | symbol name => exact readsBack_symbol ht
  | integer value => exact readsBack_integer value
  | lambda body params =>
      obtain ⟨names, rfl⟩ := exists_symbols ht
      have hnames := allTextual_symbols.mp ((allTextual_cons _ _).mp htextual).2.2
      exact readsBack_lambda (hparts body (by simp [children])) hnames
  | apply callee args => exact readsBack_apply hparts
  | block body => exact readsBack_block hparts
  | assign target value =>
      obtain ⟨name, rfl⟩ := ht
      have hname := ((allTextual_cons _ _).mp htextual).2.1
      exact readsBack_assign hname (hparts value (by simp [children]))

/-- Terms that a text can hold are read back. -/
theorem readsBack_of_allTextual (ts : List Term) (h : AllTextual ts) : ∀ t ∈ ts, t.ReadsBack := by
  induction ts using forestInduction with
  | nil => simp
  | cons t ts ihparts ihrest =>
      obtain ⟨hparts, ht, hrest⟩ := (allTextual_cons t ts).mp h
      exact List.forall_mem_cons.mpr
        ⟨readsBack_of_children ht (ihparts hparts) hparts, ihrest hrest⟩

end Term

namespace Module

/-- The tree of a module's text is that of the module's terms. -/
theorem exists_tree_render {m : Module} (h : m.Textual) :
    ∃ tree, Tree.ofSource m.render = .ok tree ∧
      tree.unspanned = .branch Tree.moduleKind default (Term.toTrees m.body) := by
  have hbody := Term.readsBack_of_allTextual m.body h
  obtain ⟨ts, htiles, hts⟩ := Term.cuts_statements "\n" rfl (by decide) (by decide) hbody 0 []
    (by simp [Token.Kind.Ends])
  refine Tree.ofSource_of_derives (Token.read_of_tiles htiles) (.module ?_)
  rwa [htiles.words_append_endAt]

/-- A module that a text can hold is what its own text is read as. -/
theorem ofSource_render {m : Module} (h : m.Textual) (events : List Event) :
    Module.ofSource .text m.name m.render events =
      .ok m (events ++ [.instantiated m.name m.body.length]) := by
  obtain ⟨tree, htree, hterms⟩ := exists_tree_render h
  rw [ofSource_text htree]
  exact load_of_ofTree (ofTree_of_unspanned hterms m.name) events

/-- A module with terms of every kind that a text can hold. -/
def everyKind : Module where
  name := "main"
  body :=
    [.assign (.symbol "f") (.lambda
      (.block [.apply (.symbol "f") [.symbol "x", .integer ⟨"07", by decide, by decide⟩],
        .assign (.symbol "g") (.symbol "x")]) [.symbol "x", .symbol "y"]),
    .apply (.lambda (.integer ⟨"0", by decide, by decide⟩) []) [], .block []]

theorem ofSource_render_everyKind :
    everyKind.render = "f = (x y) => {(f x 07) g = x}\n(() => 0)\n{}" ∧ everyKind.Textual ∧
      Module.ofSource .text "main" everyKind.render [] =
        .ok everyKind [.instantiated "main" 3] := by
  have htextual : everyKind.Textual := by
    simp [Module.Textual, everyKind, Term.children, Term.Textual]
    decide
  exact ⟨by decide +kernel, htextual, ofSource_render htextual []⟩

end Module

end LambdaLift
