import LambdaLift.Proofs.Resolution
import LambdaLift.Proofs.Strays

/-!
# Captured names cannot be lifted

Resolution follows a chain of frames, while lifting knows one list of parameters at a time. Where no
modules, blocks and assignments stand, both tell the same symbols apart: what resolution marks as
captured or finds among the built-ins is a stray, which lifting refuses.
-/

namespace LambdaLift

open Target

theorem map_name_paramSymbols (first : Nat) (names : List String) :
    (paramSymbols first (names.map .symbol)).map Symbol.name = names := by
  induction names generalizing first with
  | nil => rfl
  | cons name names ih => rw [List.map_cons, paramSymbols, List.map_cons, ih]

namespace Chain

variable {chain : Chain} {x : String} {symbol : Symbol}

theorem lookup_of_current (h : chain.current.find? x = some symbol) :
    chain.lookup x = some (.symbol symbol chain.currentIndex) := by
  simp only [lookup, lookupFrom, findFrom_currentIndex, frames, findIn, h]
  rfl

/-- A name that the innermost frame does not define means a symbol of a frame around it or a
built-in. -/
theorem lookup_of_not_current {binding : Binding} (hcurrent : chain.current.find? x = none)
    (h : chain.lookup x = some binding) :
    binding = .builtin x ∨ ∃ symbol, ∃ frame < chain.currentIndex,
      binding = .symbol symbol frame := by
  have hframes : findIn x chain.frames = findIn x chain.enclosing := by
    rw [frames, findIn, hcurrent]
  rw [lookup, lookupFrom, findFrom_currentIndex, hframes] at h
  cases hfound : findIn x chain.enclosing with
  | some found =>
      rw [hfound] at h
      cases h
      exact .inr ⟨_, _, findIn_lt hfound, rfl⟩
  | none =>
      rw [hfound] at h
      simp only [Option.ite_none_right_eq_some, Option.some.injEq] at h
      exact .inl h.2.symm

/-- What the innermost frame defines is not captured. -/
theorem isCaptured_current (chain : Chain) (symbol : Symbol) :
    (Binding.symbol symbol chain.currentIndex).isCaptured chain = false := by
  unfold Binding.isCaptured
  cases hlambda : chain.innermost? .lambda with
  | none => rfl
  | some lambda =>
      have hlt : lambda < chain.enclosing.length + 1 := innermostIn_lt hlambda
      exact decide_eq_false (Nat.not_lt_of_le (Nat.le_of_lt_succ hlt))

/-- The chain stands in a lambda with the parameters `params`, or outside of all lambdas if there
are none. -/
structure Inside (chain : Chain) (params : List Term) : Prop where
  current : ∀ x, (chain.current.find? x).isSome ↔ .symbol x ∈ params
  innermost : chain.enclosing ≠ [] → chain.innermost? .lambda = some chain.currentIndex

theorem inside_ofCore (core : Core) : (ofCore core).Inside [] where
  current _ := by simp [ofCore]
  innermost h := absurd rfl h

/-- Entering a lambda leads inside it. -/
theorem inside_lambda (chain : Chain) (first : Nat) (names : List String) :
    ((paramSymbols first (names.map .symbol)).foldl define (chain.push .lambda)).Inside
      (names.map .symbol) := by
  obtain ⟨_, hcurrent, _⟩ :=
    define_foldl (paramSymbols first (names.map .symbol)) (chain.push .lambda)
  constructor
  · intro x
    rw [hcurrent, Frame.find?_foldl_define, push, Frame.find?_empty, Option.or_none,
      List.getLast?_isSome, ne_eq, List.filter_eq_nil_iff]
    have hname := map_name_paramSymbols first names
    conv_rhs => rw [← hname]
    simp
  · intro _
    rw [innermost?, frames, innermostIn, hcurrent]
    exact if_pos (Frame.kind_foldl_define _ _)

end Chain

/-- Whether an occurrence means something else than a parameter of the nearest lambda around it. -/
def Resolution.isStray (r : Resolution) : Bool := r.captured || r.isBuiltin

/-- The names of the strays among resolutions. -/
def strayNames (rs : List Resolution) : List String :=
  (rs.filter Resolution.isStray).map (·.site.name)

theorem strayNames_append (rs rs' : List Resolution) :
    strayNames (rs ++ rs') = strayNames rs ++ strayNames rs' := by
  rw [strayNames, List.filter_append, List.map_append]
  rfl

theorem strayNames_singleton (r : Resolution) :
    strayNames [r] = if r.isStray then [r.site.name] else [] := by
  cases hr : r.isStray <;> simp [strayNames, hr]

namespace Chain.Inside

variable {chain : Chain} {params : List Term} {x : String}

/-- A parameter is resolved, and is no stray. -/
theorem resolve_param (h : chain.Inside params) (hx : .symbol x ∈ params) (site : Nat) :
    ∃ r, Symbol.resolve ⟨x, site⟩ chain = .ok r ∧ r.isStray = false := by
  obtain ⟨symbol, hsymbol⟩ := Option.isSome_iff_exists.mp ((h.current x).mpr hx)
  refine ⟨_, Symbol.resolve_of_lookup_eq_some (lookup_of_current hsymbol), ?_⟩
  rw [Resolution.isStray, isCaptured_current]
  rfl

/-- A symbol that is no parameter is a stray if it means anything. -/
theorem isStray_of_lookup (h : chain.Inside params) (hx : .symbol x ∉ params) {binding : Binding}
    (hlookup : chain.lookup x = some binding) (site : Nat) :
    (Resolution.mk ⟨x, site⟩ binding (binding.isCaptured chain)).isStray = true := by
  have hcurrent : chain.current.find? x = none := by
    simpa using (h.current x).not.mpr hx
  rcases lookup_of_not_current hcurrent hlookup with rfl | ⟨symbol, frame, hframe, rfl⟩
  · exact Bool.or_true _
  · have henclosing : chain.enclosing ≠ [] := List.ne_nil_of_length_pos (Nat.zero_lt_of_lt hframe)
    have hcaptured : (Binding.symbol symbol frame).isCaptured chain = true := by
      unfold Binding.isCaptured
      rw [h.innermost henclosing]
      exact decide_eq_true hframe
    rw [Resolution.isStray, hcaptured, Bool.true_or]

end Chain.Inside

/-- Started with the chain `chain`, a part of a walk meets the strays `xs`: it adds resolutions, of
which the strays are `xs`, and ends with the chain `chain'`. It can fail only if there are
strays. -/
def Meets {α : Type} (chain : Chain) (xs : List String) (chain' : Chain) (x : Walking α) : Prop :=
  Adds (· = chain) (strayNames · = xs) (· = chain') (fun _ => xs ≠ []) x

namespace Meets

variable {α β : Type} {chain chain₁ chain' : Chain} {xs ys : List String}

theorem of_pure (a : α) : Meets chain [] chain (pure a : Walking α) :=
  Adds.of_pure (fun _ h => h) rfl

theorem bind {x : Walking α} {f : α → Walking β} (hx : Meets chain xs chain₁ x)
    (hf : ∀ a, Meets chain₁ ys chain' (f a)) : Meets chain (xs ++ ys) chain' (x >>= f) := by
  refine Adds.bind hx hf ?_ ?_ ?_
  · rintro rs rs' rfl rfl
    exact strayNames_append rs rs'
  · exact fun _ hxs => List.append_ne_nil_of_left_ne_nil hxs ys
  · exact fun _ _ _ hys => List.append_ne_nil_of_right_ne_nil xs hys

theorem bind_nil {x : Walking α} {f : α → Walking β} (hx : Meets chain xs chain₁ x)
    (hf : ∀ a, Meets chain₁ [] chain' (f a)) : Meets chain xs chain' (x >>= f) := by
  rw [← List.append_nil xs]
  exact hx.bind hf

theorem call_symbol {params : List Term} (hchain : chain.Inside params) (site : Nat) (name : String)
    (results : List Unit) :
    Meets chain ((Term.symbol name).strays params) chain
      (resolver.call site (.symbol name) results) := by
  refine Adds.call_symbol ?_
  rintro chain rfl
  by_cases hname : .symbol name ∈ params
  · obtain ⟨r, hr, hstray⟩ := hchain.resolve_param hname site
    rw [hr, Term.strays, if_pos hname]
    refine ⟨rfl, ?_⟩
    rw [strayNames_singleton, hstray]
    rfl
  · rw [Term.strays, if_neg hname]
    cases hlookup : chain.lookup name with
    | none =>
        rw [Symbol.resolve_of_lookup_eq_none hlookup]
        exact List.cons_ne_nil _ _
    | some binding =>
        rw [Symbol.resolve_of_lookup_eq_some hlookup]
        refine ⟨rfl, ?_⟩
        rw [strayNames_singleton, hchain.isStray_of_lookup hname hlookup]
        rfl

theorem call_other {t : Term} (ht : ∀ name, t ≠ .symbol name) (site : Nat) (results : List Unit) :
    Meets chain [] chain (resolver.call site t results) :=
  Adds.call_other ht rfl

theorem walkParts {t : Term} (ht : ∀ name, t ≠ .symbol name) {site : Nat}
    (hparts : Meets chain xs chain (resolver.walkAll (site + 1) t.children)) :
    Meets chain xs chain (resolver.walkParts site t) :=
  hparts.bind_nil fun results => call_other ht site results

/-- A lambda is entered with its parameters, and left again. -/
theorem lambda {names : List String} {first : Nat} {x : Walking α}
    (hx : ∀ inner : Chain, inner.Inside (names.map .symbol) → Meets inner xs inner x) :
    Meets chain xs chain (Visitor.inFrame .lambda do
      resolver.defineParams first (names.map .symbol)
      x) := by
  have hinner := hx _ (chain.inside_lambda first names)
  have hparams : Adds (fun c => ∃ outer, outer = chain ∧ c = outer.push .lambda) (strayNames · = [])
      (· = (paramSymbols first (names.map .symbol)).foldl Chain.define (chain.push .lambda))
      (fun _ => False) (resolver.defineParams first (names.map .symbol)) := by
    refine Adds.defineParams (by simp) ?_ rfl
    rintro _ ⟨_, rfl, rfl⟩
    rfl
  refine Adds.inFrame (hparams.bind (fun _ => hinner.imp ?_) ?_ ?_ ?_)
  · rintro _ rfl
    exact Chain.pop_foldl_define _ chain .lambda
  · rintro rs rs' hrs rfl
    rw [strayNames_append, hrs, List.nil_append]
  · exact fun _ h => h.elim
  · exact fun _ _ _ hxs => hxs

end Meets

/-- Walking a plain term meets its strays if walking its parts meets theirs. -/
theorem walk_meets {t : Term} (ht : t.Plain)
    (hparts : ∀ {site : Nat} {chain : Chain} {params : List Term}, chain.Inside params →
      Meets chain (Term.straysAll params t.children) chain (resolver.walkAll site t.children))
    {chain : Chain} {params : List Term} (hchain : chain.Inside params) (site : Nat) :
    Meets chain (t.strays params) chain (resolver.walk site t) := by
  cases t with
  | symbol name =>
      rw [Visitor.walk_symbol]
      exact .call_symbol hchain site name []
  | integer value =>
      rw [Visitor.walk_integer]
      exact .call_other (by simp) site []
  | lambda body inner =>
      -- The parameters are walked too, behind the body, and none of them is a stray.
      have hinner := (Term.plain_lambda_iff body inner).mp ht
      rw [Visitor.walk_lambda, Term.strays, ← Term.straysAll_lambda body hinner]
      obtain ⟨names, rfl⟩ := Term.exists_symbols hinner
      exact .lambda fun chain' hchain' => .walkParts (by simp) (hparts hchain')
  | apply callee args =>
      rw [Visitor.walk_apply, Term.strays, ← Term.straysAll_cons]
      exact .walkParts (by simp) (hparts hchain)
  | module name body => exact absurd ht (by simp)
  | block body => exact absurd ht (by simp)
  | assign target value => exact absurd ht (by simp)

/-- Walking plain terms meets their strays. -/
theorem walkAll_meets (ts : List Term) : ∀ {site : Nat} {chain : Chain} {params : List Term},
    (∀ t ∈ Term.postorderAll ts, t.Plain) → chain.Inside params →
      Meets chain (Term.straysAll params ts) chain (resolver.walkAll site ts) := by
  induction ts using Term.forestInduction with
  | nil =>
      intro site chain params _ _
      rw [Visitor.walkAll]
      exact .of_pure []
  | cons t ts ihparts ihrest =>
      intro site chain params hplain hchain
      obtain ⟨hparts, ht, hrest⟩ := Term.forall_mem_postorderAll_cons.mp hplain
      rw [Visitor.walkAll, Term.straysAll_cons]
      exact (walk_meets ht (ihparts hparts) hchain site).bind fun _ =>
        (ihrest hrest hchain).bind_nil fun _ => .of_pure _

namespace Module

variable {m : Module} {core : Core} {style : Style} {events events' : List Event}

/-- Resolving a module of plain terms gives its strays, and can fail only if there are any. -/
theorem resolve_meets (core : Core) (events : List Event) (hplain : ∀ t ∈ m.postorder, t.Plain) :
    match m.resolve core events with
    | .ok rs _ => strayNames rs = Term.straysAll [] m.body
    | .error _ _ => Term.straysAll [] m.body ≠ [] := by
  have hmeets :
      Meets (.ofCore core) (Term.straysAll [] m.body) (.ofCore core) (resolver.walkAll 1 m.body) :=
    walkAll_meets m.body hplain (Chain.inside_ofCore core)
  have hwalk := hmeets ⟨.ofCore core, events, []⟩ rfl
  unfold Module.resolve Visitor.walkModule
  cases hresult : resolver.walkAll 1 m.body ⟨.ofCore core, events, []⟩ with
  | error e w =>
      rw [hresult] at hwalk
      exact hwalk
  | ok a w =>
      rw [hresult] at hwalk
      obtain ⟨_, rs, hmemo, hrs⟩ := hwalk
      simp only
      rw [hmemo]
      exact hrs

/-- If lowering a module of plain terms fails, then at its first stray. -/
theorem head?_strays_of_lower_error {e : LowerError} (hplain : ∀ t ∈ m.postorder, t.Plain)
    (h : m.lower style events = .error e events') :
    ∃ x suggestions, (Term.straysAll [] m.body).head? = some x ∧
      e = .unresolvedSymbol x suggestions := by
  unfold Module.lower at h
  cases hall : Term.lowerAll style .empty m.body ⟨.empty m.name, events⟩ with
  | ok es s =>
      rw [hall] at h
      cases h
  | error e s =>
      rw [hall] at h
      cases h
      exact Term.head?_straysAll_of_lowerAll_error Renaming.sees_empty m.body hplain hall

/-- A module of plain terms is lowered exactly if it has no strays. -/
theorem lower_iff_strays (events : List Event) (hplain : ∀ t ∈ m.postorder, t.Plain) :
    (∃ unit events', m.lower style events = .ok unit events') ↔ Term.straysAll [] m.body = [] := by
  constructor
  · rintro ⟨unit, events', hlower⟩
    obtain ⟨es, fs, hlifts, _⟩ := m.lower_lifts hlower
    exact hlifts.straysAll_eq_nil Renaming.sees_empty
  · intro hstrays
    cases hlower : m.lower style events with
    | ok unit events' => exact ⟨unit, events', rfl⟩
    | error e events' =>
        obtain ⟨x, _, hx, _⟩ := head?_strays_of_lower_error hplain hlower
        rw [hstrays] at hx
        cases hx

/-- Of a module that is resolved, lowering accepts exactly what has no modules, blocks and
assignments inside, no captured occurrence and no built-in. If there are no modules, blocks and
assignments, then lowering can fail only at the first occurrence that is captured or a built-in. A
module with a captured occurrence is never lowered. -/
theorem lower_iff_uncaptured {rs : List Resolution} {events₁ : List Event}
    (h : m.resolve core events = .ok rs events') :
    ((∃ unit s, m.lower style events₁ = .ok unit s) ↔
      (∀ t ∈ m.postorder, t.kind ∉ [.module, .block, .assign]) ∧
        ∀ r ∈ rs, r.captured = false ∧ r.isBuiltin = false) ∧
    ((∀ t ∈ m.postorder, t.kind ∉ [.module, .block, .assign]) →
      ∀ e s, m.lower style events₁ = .error e s →
        ∃ r suggestions, rs.find? (fun r => r.captured || r.isBuiltin) = some r ∧
          e = .unresolvedSymbol r.site.name suggestions) ∧
    ((∃ r ∈ rs, r.captured) → ∃ e s, m.lower style events₁ = .error e s) := by
  have hplain (hkinds : ∀ t ∈ m.postorder, t.kind ∉ [.module, .block, .assign]) :
      ∀ t ∈ m.postorder, t.Plain :=
    fun t ht => ⟨hkinds t ht, bindsSymbols_of_resolve h t ht⟩
  have hstrays (hkinds : ∀ t ∈ m.postorder, t.kind ∉ [.module, .block, .assign]) :
      strayNames rs = Term.straysAll [] m.body := by
    have hmeets := resolve_meets core events (hplain hkinds)
    rwa [h] at hmeets
  have hnone : strayNames rs = [] ↔ ∀ r ∈ rs, r.captured = false ∧ r.isBuiltin = false := by
    simp [strayNames, Resolution.isStray]
  have hiff : (∃ unit s, m.lower style events₁ = .ok unit s) ↔
      (∀ t ∈ m.postorder, t.kind ∉ [.module, .block, .assign]) ∧
        ∀ r ∈ rs, r.captured = false ∧ r.isBuiltin = false := by
    constructor
    · rintro ⟨unit, s, hlower⟩
      obtain ⟨es, fs, hlifts, _⟩ := m.lower_lifts hlower
      have hkinds : ∀ t ∈ m.postorder, t.kind ∉ [.module, .block, .assign] :=
        fun t ht => (hlifts.plain t ht).1
      refine ⟨hkinds, hnone.mp ?_⟩
      rw [hstrays hkinds, ← lower_iff_strays events₁ (hplain hkinds)]
      exact ⟨unit, s, hlower⟩
    · rintro ⟨hkinds, huncaptured⟩
      rw [lower_iff_strays events₁ (hplain hkinds), ← hstrays hkinds]
      exact hnone.mpr huncaptured
  refine ⟨hiff, ?_, ?_⟩
  · intro hkinds e s hlower
    obtain ⟨x, suggestions, hx, rfl⟩ := head?_strays_of_lower_error (hplain hkinds) hlower
    rw [← hstrays hkinds, strayNames, List.head?_map, List.head?_filter] at hx
    obtain ⟨r, hr, rfl⟩ := Option.map_eq_some_iff.mp hx
    exact ⟨r, suggestions, hr, rfl⟩
  · rintro ⟨r, hr, hcaptured⟩
    cases hlower : m.lower style events₁ with
    | error e s => exact ⟨e, s, rfl⟩
    | ok unit s =>
        have huncaptured := ((hiff.mp ⟨unit, s, hlower⟩).2 r hr).1
        rw [huncaptured] at hcaptured
        cases hcaptured

/-- In `(x) => (y) => (x y print)` the inner lambda captures `x` and uses a built-in after it. -/
theorem lower_iff_uncaptured_first :
    let m : Module := ⟨"m", [.lambda (.lambda (.apply (.symbol "x") [.symbol "y", .symbol "print"])
      [.symbol "y"]) [.symbol "x"]]⟩
    ∃ rs events, m.resolve (.ofNames ["print"]) [] = .ok rs events ∧
      rs.map (fun r => (r.site.name, r.captured, r.isBuiltin)) =
        [("x", true, false), ("y", false, false), ("print", false, true), ("y", false, false),
          ("x", false, false)] ∧
      ∃ suggestions s, m.lower {} [] = .error (.unresolvedSymbol "x" suggestions) s := by
  intro m
  let rs : List Resolution :=
    [⟨⟨"x", 4⟩, .symbol ⟨"x", 8⟩ 1, true⟩, ⟨⟨"y", 5⟩, .symbol ⟨"y", 7⟩ 2, false⟩,
    ⟨⟨"print", 6⟩, .builtin "print", false⟩, ⟨⟨"y", 7⟩, .symbol ⟨"y", 7⟩ 2, false⟩,
    ⟨⟨"x", 8⟩, .symbol ⟨"x", 8⟩ 1, false⟩]
  obtain ⟨events, hresolve⟩ : ∃ events, m.resolve (.ofNames ["print"]) [] = .ok rs events := by
    apply exists_eq_ok_of_value
    decide +kernel
  obtain ⟨_, hfirst, hcaptured⟩ := lower_iff_uncaptured hresolve
  obtain ⟨e, s, hlower⟩ := hcaptured ⟨_, List.mem_cons_self, rfl⟩
  obtain ⟨r, suggestions, hr, rfl⟩ := hfirst (by decide) e s hlower
  cases hr
  exact ⟨rs, events, hresolve, rfl, suggestions, s, hlower⟩

end Module

end LambdaLift
