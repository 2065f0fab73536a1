import LambdaLift.Proofs.FrontEnd
import LambdaLift.Proofs.Resolution
import LambdaLift.Proofs.Strays

/-!
# How the compilation of a text can fail

A text holds only terms with symbols where names are bound and no module inside. So compiling it
fails for a syntax error, for a symbol that has no meaning, or for a block or an assignment, which
have no C form, and for no other reason.
-/

namespace LambdaLift

open Target

/-- The errors of lifting that terms of a text can have. -/
def LowerError.OfTextual (e : LowerError) : Prop :=
  (∃ x suggestions, e = .unresolvedSymbol x suggestions) ∨ e = .unsupported .block ∨
    e = .unsupported .assign

namespace Term

theorem Textual.bindsSymbols {t : Term} (h : t.Textual) : t.BindsSymbols := by
  cases t with
  | lambda body params => exact h
  | assign target value => exact h
  | _ => trivial

mutual

theorem ofTextual_of_lower_error {style : Style} {r : Renaming} {s s' : Lifting}
    {error : LowerError} :
    ∀ t : Term, AllTextual t.children → t.Textual → t.lower style r s = .error error s' →
      error.OfTextual
  | symbol x, _, _, h => by
      obtain ⟨_, ⟨suggestions, rfl⟩, _⟩ := lower_symbol_eq_error h
      exact .inl ⟨x, suggestions, rfl⟩
  | integer value, _, _, h => by
      rw [lower] at h
      cases h
  | lambda body params, hparts, hlambda, h => by
      obtain ⟨hchildren, hbody, _⟩ := (allTextual_cons _ _).mp hparts
      rcases lower_lambda_eq_error h with ⟨hparams, _⟩ | ⟨names, inner, _, herror⟩
      -- Symbols can always be bound.
      · obtain ⟨xs, rfl⟩ := exists_symbols hlambda
        rw [Renaming.bindParams_symbols] at hparams
        cases hparams
      · exact ofTextual_of_lower_error body hchildren hbody herror
  | apply callee args, hparts, _, h => by
      obtain ⟨hchildren, hcallee, hargs⟩ := (allTextual_cons _ _).mp hparts
      rcases lower_apply_eq_error h with herror | ⟨f, s₁, _, herror⟩
      · exact ofTextual_of_lower_error callee hchildren hcallee herror
      · exact ofTextual_of_lowerAll_error args hargs herror
  | module name body, _, hmodule, _ => hmodule.elim
  | block body, _, _, h => by
      rw [lower] at h
      cases h
      exact .inr (.inl rfl)
  | assign target value, _, _, h => by
      rw [lower] at h
      cases h
      exact .inr (.inr rfl)

theorem ofTextual_of_lowerAll_error {style : Style} {r : Renaming} {s s' : Lifting}
    {error : LowerError} :
    ∀ ts : List Term, AllTextual ts → lowerAll style r ts s = .error error s' → error.OfTextual
  | [], _, h => by
      rw [lowerAll] at h
      cases h
  | t :: ts, htextual, h => by
      obtain ⟨hparts, ht, hts⟩ := (allTextual_cons _ _).mp htextual
      rcases lowerAll_cons_eq_error h with herror | ⟨e, s₁, _, herror⟩
      · exact ofTextual_of_lower_error t hparts ht herror
      · exact ofTextual_of_lowerAll_error ts hts herror

end

end Term

namespace Logged

variable {ε ε' α : Type} {s s' : List Event}

theorem ofExcept_eq_error_iff {wrap : ε → ε'} {x : Except ε α} {e' : ε'} :
    ofExcept wrap x s = .error e' s' ↔ ∃ e, x = .error e ∧ e' = wrap e ∧ s = s' := by
  cases x with
  | ok a =>
      change EStateM.Result.ok a s = .error e' s' ↔ _
      simp
  | error e =>
      change EStateM.Result.error (wrap e) s = .error e' s' ↔ _
      simp [eq_comm]

theorem mapError_eq_error_iff {f : ε → ε'} {action : Logged ε α} {e' : ε'} :
    mapError f action s = .error e' s' ↔ ∃ e, action s = .error e s' ∧ e' = f e := by
  unfold mapError
  cases action s with
  | ok a s₁ => simp
  | error e s₁ =>
      constructor
      · intro h
        cases h
        exact ⟨e, rfl, rfl⟩
      · rintro ⟨_, h, rfl⟩
        cases h
        rfl

end Logged

namespace Module

variable {m : Module} {events events' : List Event}

theorem Textual.bindsSymbols (h : m.Textual) : m.BindsSymbols :=
  fun _ hnode => (h _ (Term.term_mem_postorderAll hnode)).bindsSymbols

theorem Textual.resolve_error (h : m.Textual) {core : Core} {e : ResolveError}
    (herror : m.resolve core events = .error e events') :
    ∃ x suggestions, e = .unresolved x suggestions := by
  rcases m.resolve_cases core events h.bindsSymbols with ⟨rs, s, hok, _⟩ |
    ⟨site, suggestions, s, _, hresolve⟩
  · cases hok.symm.trans herror
  · cases hresolve.symm.trans herror
    exact ⟨site.symbol.name, suggestions, rfl⟩

theorem Textual.lower_error (h : m.Textual) {style : Style} {e : LowerError}
    (herror : m.lower style events = .error e events') : e.OfTextual := by
  unfold Module.lower at herror
  cases hall : Term.lowerAll style .empty m.body ⟨.empty m.name, events⟩ with
  | ok es s =>
      rw [hall] at herror
      cases herror
  | error e s =>
      rw [hall] at herror
      cases herror
      exact Term.ofTextual_of_lowerAll_error m.body h hall

/-- Compiling a module fails where it is resolved or where it is lifted. -/
theorem compile_eq_error {options : CompileOptions} {e : CompileError}
    (h : m.compile options events = .error e events') :
    (∃ error s s', m.resolve (.ofNames options.core) s = .error error s' ∧ e = .resolve error) ∨
      ∃ error s s', m.lower options.style s = .error error s' ∧ e = .lower error := by
  rcases bind_eq_error_iff.mp h with h | ⟨rs, s₁, _, h⟩
  · obtain ⟨error, herror, rfl⟩ := Logged.mapError_eq_error_iff.mp h
    exact .inl ⟨error, _, _, herror, rfl⟩
  rcases bind_eq_error_iff.mp h with h | ⟨_, s₂, _, h⟩
  · cases h
  rcases bind_eq_error_iff.mp h with h | ⟨unit, s₃, _, h⟩
  · obtain ⟨error, herror, rfl⟩ := Logged.mapError_eq_error_iff.mp h
    exact .inr ⟨error, _, _, herror, rfl⟩
  rcases bind_eq_error_iff.mp h with h | ⟨_, s₄, _, h⟩
  · cases h
  · cases h

theorem load_eq_error {name : String} {tree : Tree} {e : CompileError}
    (h : Module.load name tree events = .error e events') :
    ∃ error, Module.ofTree name tree = .error error ∧ e = .badShape error := by
  rcases bind_eq_error_iff.mp h with h | ⟨_, s₁, _, h⟩
  · obtain ⟨error, herror, rfl, _⟩ := Logged.ofExcept_eq_error_iff.mp h
    exact ⟨error, herror, rfl⟩
  rcases bind_eq_error_iff.mp h with h | ⟨_, s₂, _, h⟩
  · cases h
  · cases h

/-- A text holds no module exactly if it has no tree. -/
theorem ofSource_text_eq_error {name source : String} {e : CompileError}
    (h : Module.ofSource .text name source events = .error e events') :
    ∃ error, Tree.ofSource source = .error error ∧ e = .badSource name error := by
  rcases bind_eq_error_iff.mp h with h | ⟨tree, s₁, hread, h⟩
  · obtain ⟨error, herror, rfl, _⟩ := Logged.ofExcept_eq_error_iff.mp h
    exact ⟨error, herror, rfl⟩
  obtain ⟨htree, rfl⟩ := Logged.ofExcept_eq_ok_iff.mp hread
  obtain ⟨m, hm, _⟩ := exists_ofTree_of_ofSource htree name
  obtain ⟨error, herror, _⟩ := load_eq_error h
  cases herror.symm.trans hm

end Module

/-- Compiling a text fails because it has no tree, because a symbol has no meaning, or because of a
block or an assignment. -/
theorem compile_text_error {name source : String} {options : CompileOptions}
    {events events' : List Event} {e : CompileError}
    (h : compile .text name source options events = .error e events') :
    (∃ error, Tree.ofSource source = .error error ∧ e = .badSource name error) ∨
    (∃ x suggestions, e = .resolve (.unresolved x suggestions)) ∨
    (∃ x suggestions, e = .lower (.unresolvedSymbol x suggestions)) ∨
    e = .lower (.unsupported .block) ∨ e = .lower (.unsupported .assign) := by
  rcases bind_eq_error_iff.mp h with h | ⟨m, s₁, hm, h⟩
  · exact .inl (Module.ofSource_text_eq_error h)
  right
  obtain ⟨tree, htree, hm⟩ := Module.ofSource_text_eq_ok hm
  obtain ⟨m', hm', htextual⟩ := Module.exists_ofTree_of_ofSource htree name
  cases hm.symm.trans hm'
  rcases Module.compile_eq_error h with ⟨error, _, _, herror, rfl⟩ | ⟨error, _, _, herror, rfl⟩
  · obtain ⟨x, suggestions, rfl⟩ := htextual.resolve_error herror
    exact .inl ⟨x, suggestions, rfl⟩
  · right
    rcases htextual.lower_error herror with ⟨x, suggestions, rfl⟩ | rfl | rfl
    · exact .inl ⟨x, suggestions, rfl⟩
    · exact .inr (.inl rfl)
    · exact .inr (.inr rfl)

/-- Every tree of a text becomes a module, and it has only terms that a text can hold. So compiling
a text comes to a result, and fails because the text has no tree, because a symbol has no meaning,
or because of a block or an assignment. -/
theorem compileSlices_error (name : String) {source : String}
    (hlen : Text.byteLength source.toList < UInt32.size) (options : CompileOptions)
    (events : List Event) :
    (∀ tree, Tree.ofSlices source = some (.ok tree) → ∃ m, Module.ofTree name tree = .ok m ∧
      m.Textual) ∧
    ∃ result, compileSlices name source options events = some result ∧
      ∀ e events', result = .error e events' →
        (∃ error, Tree.ofSlices source = some (.error error) ∧ e = .badSource name error) ∨
        (∃ x suggestions, e = .resolve (.unresolved x suggestions)) ∨
        (∃ x suggestions, e = .lower (.unresolvedSymbol x suggestions)) ∨
        e = .lower (.unsupported .block) ∨ e = .lower (.unsupported .assign) := by
  rw [Tree.ofSlices_eq hlen]
  refine ⟨fun tree htree => ?_, _, compileSlices_eq hlen name options events, fun e events' h => ?_⟩
  · exact Module.exists_ofTree_of_ofSource (Option.some.inj htree) name
  · rcases compile_text_error h with ⟨error, herror, he⟩ | hlater
    · exact .inl ⟨error, congrArg some herror, he⟩
    · exact .inr hlater

/-- The text `f = (x) => x` has a tree and is resolved, but it cannot be lifted. -/
theorem compileSlices_error_assign :
    Text.byteLength "f = (x) => x".toList < UInt32.size ∧
    (∃ tree m, Tree.ofSlices "f = (x) => x" = some (.ok tree) ∧ Module.ofTree "m" tree = .ok m ∧
      m.Textual) ∧
    ∃ e events, compileSlices "m" "f = (x) => x" {} [] = some (.error e events) ∧
      ((∃ error, Tree.ofSlices "f = (x) => x" = some (.error error) ∧ e = .badSource "m" error) ∨
        (∃ x suggestions, e = .resolve (.unresolved x suggestions)) ∨
        (∃ x suggestions, e = .lower (.unresolvedSymbol x suggestions)) ∨
        e = .lower (.unsupported .block) ∨ e = .lower (.unsupported .assign)) := by
  have hlen : Text.byteLength "f = (x) => x".toList < UInt32.size := by decide
  obtain ⟨htrees, result, hresult, herrors⟩ := compileSlices_error "m" hlen {} []
  refine ⟨hlen, ?_, ?_⟩
  · obtain ⟨tree, htree⟩ :=
      exists_eq_ok_of_isOk (x := Tree.ofSource "f = (x) => x") (by decide +kernel)
    have hslices : Tree.ofSlices "f = (x) => x" = some (.ok tree) := by
      rw [Tree.ofSlices_eq hlen, htree]
    obtain ⟨m, hm, htextual⟩ := htrees tree hslices
    exact ⟨tree, m, hslices, hm, htextual⟩
  · obtain rfl := Option.some.inj (hresult.symm.trans (compileSlices_eq hlen "m" {} []))
    have hfails : (match compile .text "m" "f = (x) => x" {} [] with
        | .ok _ _ => true
        | .error _ _ => false) = false := by decide +kernel
    cases hcompile : compile .text "m" "f = (x) => x" {} [] with
    | ok emitted events =>
        rw [hcompile] at hfails
        cases hfails
    | error e events =>
        exact ⟨e, events, hresult.trans (congrArg some hcompile), herrors e events hcompile⟩

/-- The integer `1` at the offset `2 ^ 32 + 2` has the span of the letter in the comment `//a`, and
a letter is no integer. -/
theorem compileSlices_malformedInteger :
    (∃ tree, Tree.ofSlices (Text.spaced "//a\n" (UInt32.size - 2) "1") = some (.ok tree) ∧
      Module.ofTree "m" tree = .error (.malformedInteger "a" ⟨2, 3⟩)) ∧
    compileSlices "m" (Text.spaced "//a\n" (UInt32.size - 2) "1") {} [] =
      some (.error (.badShape (.malformedInteger "a" ⟨2, 3⟩)) []) := by
  have hback : Cursor.tokens ⟨4294967298, "1".toList⟩ =
      .ok [⟨.int, ⟨2, 3⟩, "1"⟩, ⟨.eof, ⟨3, 3⟩, ""⟩] := eq_ok_of_value (by decide +kernel)
  have hread : Token.read (Text.spaced "//a\n" (UInt32.size - 2) "1") = _ :=
    Token.read_spaced_gap
      (Token.gap_line (show _ = '/' :: '/' :: (['a'] ++ ['\n']) by decide) (by decide)) hback
  obtain ⟨tree, htree, herror⟩ := Tree.exists_ofSlices_spaced hread (by decide +kernel)
    (p := fun tree => match Module.ofTree "m" tree with
      | .error e => e = .malformedInteger "a" ⟨2, 3⟩
      | .ok _ => false) (by decide +kernel)
  have hshape : Module.ofTree "m" tree = .error (.malformedInteger "a" ⟨2, 3⟩) := by
    cases hm : Module.ofTree "m" tree with
    | ok m =>
        rw [hm] at herror
        cases herror
    | error e =>
        rw [hm] at herror
        rw [of_decide_eq_true herror]
  refine ⟨⟨tree, htree, hshape⟩, ?_⟩
  rw [compileSlices, htree, Option.map_some]
  change some ((Module.load "m" tree >>= fun m => m.compile {}) []) = _
  rw [Module.load, hshape]
  rfl

end LambdaLift
