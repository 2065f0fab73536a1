import LambdaLift.Compilation
import LambdaLift.Proofs.Subterms
import LambdaLift.Proofs.TermTrees

/-!
# From texts to modules

The terms that a text can hold. What the grammar derives from the words of a text are the trees of
such terms, so every tree of a text becomes a module, and the module has nothing else in it.
-/

namespace LambdaLift

/-- Whether a text can hold a term, whose parts are not looked at: symbols are identifiers, integers
are runs of digits, only symbols are bound, and there is no module inside. -/
def Term.Textual : Term → Prop
  | .module _ _ => False
  | .symbol name => Token.isIdentifier name
  | .integer value => value.digits.toList ≠ [] ∧ ∀ c ∈ value.digits.toList, c.isDigit
  | .lambda _ params => ∀ param ∈ params, ∃ name, param = .symbol name
  | .assign target _ => ∃ name, target = .symbol name
  | .apply _ _ | .block _ => True

namespace Term

/-- A text can hold all terms in a list, their parts included. -/
def AllTextual (ts : List Term) : Prop := ∀ t ∈ postorderAll ts, t.Textual

@[simp] theorem allTextual_nil : AllTextual [] := by simp [AllTextual, postorderAll]

@[simp] theorem allTextual_cons (t : Term) (ts : List Term) :
    AllTextual (t :: ts) ↔ AllTextual t.children ∧ t.Textual ∧ AllTextual ts :=
  forall_mem_postorderAll_cons

theorem allTextual_symbols {names : List String} :
    AllTextual (names.map symbol) ↔ ∀ name ∈ names, Token.isIdentifier name := by
  simp [AllTextual, postorderAll_symbols, Textual]

theorem textual_integer (value : Numeral) : (integer value).Textual :=
  ⟨value.digits_ne_nil, List.all_eq_true.mp value.isDigit_digits⟩

theorem toTrees_symbols (names : List String) :
    toTrees (names.map symbol) = names.map fun name => Tree.leaf Tree.symbolKind name default := by
  induction names with
  | nil => rfl
  | cons name names ih => rw [List.map_cons, toTrees, ih]; rfl

theorem exists_of_cons_eq_toTrees {ts : List Term} {tree : Tree} {trees : List Tree}
    (h : tree :: trees = toTrees ts) :
    ∃ u us, ts = u :: us ∧ tree = toTree u ∧ trees = toTrees us := by
  cases ts with
  | nil => cases h
  | cons u us =>
      cases h
      exact ⟨u, us, rfl, rfl, rfl⟩

theorem exists_of_singleton_eq_toTrees {ts : List Term} {tree : Tree} (h : [tree] = toTrees ts) :
    ∃ u, ts = [u] ∧ tree = toTree u := by
  obtain ⟨u, us, rfl, rfl, hus⟩ := exists_of_cons_eq_toTrees h
  cases us with
  | nil => exact ⟨u, rfl, rfl⟩
  | cons _ _ => cases hus

end Term

/-- A text can hold all terms of the module. -/
def Module.Textual (m : Module) : Prop := Term.AllTextual m.body

namespace Tree

/-- The trees are those of terms that a text can hold. -/
def OfTextual (trees : List Tree) : Prop := ∃ us, trees = Term.toTrees us ∧ Term.AllTextual us

theorem OfTextual.singleton (t : Term) (hparts : Term.AllTextual t.children) (ht : t.Textual) :
    OfTextual [t.toTree] :=
  ⟨[t], rfl, (Term.allTextual_cons _ _).mpr ⟨hparts, ht, Term.allTextual_nil⟩⟩

theorem OfTextual.cons {tree : Tree} {trees : List Tree} (hhead : OfTextual [tree])
    (hrest : OfTextual trees) : OfTextual (tree :: trees) := by
  obtain ⟨us, hus, htextual⟩ := hhead
  obtain ⟨vs, rfl, htextual'⟩ := hrest
  obtain ⟨u, rfl, rfl⟩ := Term.exists_of_singleton_eq_toTrees hus
  obtain ⟨hparts, hu, _⟩ := (Term.allTextual_cons _ _).mp htextual
  exact ⟨u :: vs, rfl, (Term.allTextual_cons _ _).mpr ⟨hparts, hu, htextual'⟩⟩

/-- What the grammar gives to words are trees of terms that a text can hold. -/
theorem Derives.ofTextual {p : Phrase} {ts : List Token} {trees : List Tree}
    (h : Derives p ts trees) (hp : p ≠ .module) (hts : ∀ t ∈ ts, t.kind.Spells t.text) :
    OfTextual trees := by
  induction h with
  | @integer t ht =>
      have hdigits : Token.Kind.int.Spells t.text := ht ▸ hts t (by simp)
      let value : Numeral := ⟨t.text, hdigits.1, List.all_eq_true.mpr hdigits.2⟩
      exact .singleton (.integer value) Term.allTextual_nil (Term.textual_integer value)
  | @symbol t ht =>
      have hident : Token.Kind.ident.Spells t.text := ht ▸ hts t (by simp)
      exact .singleton (.symbol t.text) Term.allTextual_nil hident
  | @assign t u ts tree ht _ _ ih =>
      have hident : Token.Kind.ident.Spells t.text := ht ▸ hts t (by simp)
      obtain ⟨us, htree, hus⟩ := ih (by simp) fun v hv => hts v (by simp [hv])
      obtain ⟨value, rfl, rfl⟩ := Term.exists_of_singleton_eq_toTrees htree
      exact .singleton (.assign (.symbol t.text) value)
        ((Term.allTextual_cons _ _).mpr ⟨Term.allTextual_nil, hident, hus⟩) ⟨t.text, rfl⟩
  | apply _ _ _ ih =>
      obtain ⟨us, htrees, hus⟩ := ih (by simp) fun v hv => hts v (by simp [hv])
      obtain ⟨callee, args, rfl, rfl, rfl⟩ := Term.exists_of_cons_eq_toTrees htrees
      exact .singleton (.apply callee args) hus trivial
  | @lambda t params u a ts tree _ hparams _ _ _ ih =>
      have hidents : ∀ name ∈ params.map Token.text, Token.isIdentifier name := by
        refine List.forall_mem_map.mpr fun p hp => ?_
        have hspells := hts p (by simp [hp])
        rwa [hparams p hp] at hspells
      obtain ⟨us, htree, hus⟩ := ih (by simp) fun v hv => hts v (by simp [hv])
      obtain ⟨body, rfl, rfl⟩ := Term.exists_of_singleton_eq_toTrees htree
      obtain ⟨hparts, hbody, _⟩ := (Term.allTextual_cons _ _).mp hus
      have htextual := OfTextual.singleton (.lambda body ((params.map Token.text).map .symbol))
        ((Term.allTextual_cons _ _).mpr ⟨hparts, hbody, Term.allTextual_symbols.mpr hidents⟩)
        (List.forall_mem_map.mpr fun name _ => ⟨name, rfl⟩)
      rwa [Term.toTree, Term.toTrees_symbols, List.map_map] at htextual
  | block _ _ _ ih =>
      obtain ⟨us, rfl, hus⟩ := ih (by simp) fun v hv => hts v (by simp [hv])
      exact .singleton (.block us) hus trivial
  | noElement => exact ⟨[], rfl, Term.allTextual_nil⟩
  | element _ _ ihhead ihrest =>
      exact .cons (ihhead (by simp) fun v hv => hts v (by simp [hv]))
        (ihrest (by simp) fun v hv => hts v (by simp [hv]))
  | noStatement => exact ⟨[], rfl, Term.allTextual_nil⟩
  | semicolon _ _ ih => exact ih hp fun v hv => hts v (by simp [hv])
  | statement _ _ ihhead ihrest =>
      exact .cons (ihhead (by simp) fun v hv => hts v (by simp [hv]))
        (ihrest (by simp) fun v hv => hts v (by simp [hv]))
  | module _ _ => exact absurd rfl hp

end Tree

namespace Logged

variable {ε ε' α : Type} {s s' : List Event} {a : α}

theorem ofExcept_eq_ok_iff {wrap : ε → ε'} {x : Except ε α} :
    ofExcept wrap x s = .ok a s' ↔ x = .ok a ∧ s = s' := by
  cases x with
  | ok b =>
      change EStateM.Result.ok b s = .ok a s' ↔ _
      simp
  | error e =>
      change EStateM.Result.error (wrap e) s = .ok a s' ↔ _
      simp

theorem mapError_eq_ok_iff {f : ε → ε'} {action : Logged ε α} :
    mapError f action s = .ok a s' ↔ action s = .ok a s' := by
  unfold mapError
  cases action s with
  | ok b s₁ => simp
  | error e s₁ => simp

end Logged

namespace Module

theorem ofSource_text {source : String} {tree : Tree} (h : Tree.ofSource source = .ok tree)
    (name : String) : Module.ofSource .text name source = Module.load name tree := by
  funext s
  change (Logged.ofExcept (.badSource name) (Tree.ofSource source) >>= Module.load name) s = _
  rw [h]
  rfl

theorem ofSource_jsonTree {source : String} {tree : Tree} (h : Tree.ofJson source = .ok tree)
    (name : String) : Module.ofSource .jsonTree name source = Module.load name tree := by
  funext s
  change (Logged.ofExcept .badJson (Tree.ofJson source) >>= Module.load name) s = _
  rw [h]
  rfl

theorem load_of_ofTree {name : String} {tree : Tree} {m : Module}
    (h : Module.ofTree name tree = .ok m) (s : List Event) :
    Module.load name tree s = .ok m (s ++ [.instantiated m.name m.body.length]) := by
  rw [Module.load, h]
  rfl

theorem ofTree_of_load {name : String} {tree : Tree} {m : Module} {s s' : List Event}
    (h : Module.load name tree s = .ok m s') : Module.ofTree name tree = .ok m := by
  obtain ⟨m', s₁, hload, h⟩ := bind_eq_ok_iff.mp h
  obtain ⟨hm, rfl⟩ := Logged.ofExcept_eq_ok_iff.mp hload
  obtain ⟨_, s₂, _, h⟩ := bind_eq_ok_iff.mp h
  obtain ⟨rfl, _⟩ := pure_eq_ok_iff.mp h
  exact hm

/-- A text that holds a module has a tree, of which the module consists. -/
theorem ofSource_text_eq_ok {name source : String} {m : Module} {s s' : List Event}
    (h : Module.ofSource .text name source s = .ok m s') :
    ∃ tree, Tree.ofSource source = .ok tree ∧ Module.ofTree name tree = .ok m := by
  obtain ⟨tree, s₁, hread, hload⟩ := bind_eq_ok_iff.mp h
  obtain ⟨htree, rfl⟩ := Logged.ofExcept_eq_ok_iff.mp hread
  exact ⟨tree, htree, ofTree_of_load hload⟩

/-- The module that a source holds has the name that it is given. -/
theorem name_of_ofSource {format : SourceFormat} {name source : String} {m : Module}
    {s s' : List Event} (h : Module.ofSource format name source s = .ok m s') : m.name = name := by
  obtain ⟨tree, s₁, hload⟩ : ∃ tree s₁, Module.load name tree s₁ = .ok m s' := by
    cases format with
    | text =>
        obtain ⟨tree, s₁, _, hload⟩ := bind_eq_ok_iff.mp h
        exact ⟨tree, s₁, hload⟩
    | jsonTree =>
        obtain ⟨tree, s₁, _, hload⟩ := bind_eq_ok_iff.mp h
        exact ⟨tree, s₁, hload⟩
  have hm := ofTree_of_load hload
  unfold Module.ofTree at hm
  split at hm
  · obtain ⟨body, _, hm⟩ := except_bind_eq_ok_iff.mp hm
    cases hm
    rfl
  · cases hm

theorem ofTree_of_unspanned {tree : Tree} {us : List Term}
    (h : tree.unspanned = .branch Tree.moduleKind default (Term.toTrees us)) (name : String) :
    Module.ofTree name tree = .ok ⟨name, us⟩ := by
  obtain ⟨kind, text, span, children⟩ := tree
  obtain ⟨rfl, _, _, hchildren⟩ := Tree.mk.inj h
  rw [Module.ofTree, if_pos rfl, Term.ofTrees_of_unspanned us hchildren]
  rfl

/-- Every tree of a text is, but for its spans, that of terms that a text can hold. -/
theorem exists_terms_of_ofSource {source : String} {tree : Tree}
    (h : Tree.ofSource source = .ok tree) :
    ∃ us, tree.unspanned = .branch Tree.moduleKind default (Term.toTrees us) ∧
      Term.AllTextual us := by
  have hread := h
  rw [Tree.ofSource] at hread
  obtain ⟨tokens, htokens, _⟩ := except_bind_eq_ok_iff.mp hread
  have hderives := Tree.derives_of_ofSource htokens h
  generalize tree.unspanned = unspanned at hderives ⊢
  cases hderives with
  | module parts =>
      obtain ⟨us, rfl, hus⟩ := parts.ofTextual (by simp) (Token.spells_of_mem_words htokens)
      exact ⟨us, rfl, hus⟩

/-- Every tree of a text becomes a module, of terms that a text can hold. -/
theorem exists_ofTree_of_ofSource {source : String} {tree : Tree}
    (h : Tree.ofSource source = .ok tree) (name : String) :
    ∃ m, Module.ofTree name tree = .ok m ∧ m.Textual := by
  obtain ⟨us, htree, hus⟩ := exists_terms_of_ofSource h
  exact ⟨⟨name, us⟩, ofTree_of_unspanned htree name, hus⟩

/-- The symbols of a module that was read from a text are identifiers. -/
theorem isIdentifier_of_ofSource {name source : String} {m : Module} {s s' : List Event}
    (h : Module.ofSource .text name source s = .ok m s') {x : String}
    (hx : .symbol x ∈ m.postorder) : Token.isIdentifier x := by
  obtain ⟨tree, htree, hm⟩ := ofSource_text_eq_ok h
  obtain ⟨m', hm', htextual⟩ := exists_ofTree_of_ofSource htree name
  cases hm.symm.trans hm'
  exact htextual _ hx

/-- A module that compiles is lowered, and the unit is emitted. -/
theorem compile_eq_ok {m : Module} {options : CompileOptions} {emitted : Target.Emitted}
    {s s' : List Event} (h : m.compile options s = .ok emitted s') :
    ∃ unit s₁ s₂, m.lower options.style s₁ = .ok unit s₂ ∧ emitted = unit.emit options.style := by
  obtain ⟨_, s₁, _, h⟩ := bind_eq_ok_iff.mp h
  obtain ⟨_, s₂, _, h⟩ := bind_eq_ok_iff.mp h
  obtain ⟨unit, s₃, hunit, h⟩ := bind_eq_ok_iff.mp h
  obtain ⟨_, s₄, _, h⟩ := bind_eq_ok_iff.mp h
  obtain ⟨rfl, _⟩ := pure_eq_ok_iff.mp h
  exact ⟨unit, s₂, s₃, Logged.mapError_eq_ok_iff.mp hunit, rfl⟩

end Module

/-- Below `2 ^ 32` bytes a program text compiles as if it were read by the texts of its tokens. -/
theorem compileSlices_eq {source : String} (hlen : Text.byteLength source.toList < UInt32.size)
    (name : String) (options : CompileOptions) (events : List Event) :
    compileSlices name source options events = some (compile .text name source options events) := by
  rw [compileSlices, Tree.ofSlices_eq hlen]
  rfl

/-- A text that compiles holds a module that compiles. -/
theorem compile_eq_ok {format : SourceFormat} {name source : String} {options : CompileOptions}
    {emitted : Target.Emitted} {s s' : List Event}
    (h : compile format name source options s = .ok emitted s') :
    ∃ m s₁, Module.ofSource format name source s = .ok m s₁ ∧
      m.compile options s₁ = .ok emitted s' :=
  bind_eq_ok_iff.mp h

end LambdaLift
