import LambdaLift.Proofs.LiftedFunctions
import Mathlib.Data.List.Forall2

/-!
# Lifting keeps the meaning of lambdas

A definition read back from its text is a lambda whose body may name functions. Unfolding those
names gives a term again, and that term is the lambda that the function was lifted from, up to the
names of bound variables: both have the same nameless form.
-/

namespace LambdaLift

open Target

/-- A term in which a variable is the number of parameters between it and the one that binds it. -/
inductive Nameless where
  | var (index : Nat)
  | integer (value : Numeral)
  | lambda (arity : Nat) (body : Nameless)
  | apply (callee : Nameless) (args : List Nameless)

namespace Term

def symbolName? : Term → Option String
  | symbol name => some name
  | _ => none

mutual

/-- The nameless form of a term under the parameters `scope`, the nearest first. Among parameters of
one lambda the last one is the nearest. A term with a free symbol has no nameless form, nor has one
in which something other than symbols, integers, lambdas and applications stands. -/
def nameless? (scope : List String) : Term → Option Nameless
  | symbol name => (scope.idxOf? name).map .var
  | integer value => some (.integer value)
  | lambda body params => do
    let names ← params.mapM symbolName?
    let inner ← body.nameless? (names.reverse ++ scope)
    return .lambda names.length inner
  | apply callee args => do
    let f ← callee.nameless? scope
    let as ← namelessAll? scope args
    return .apply f as
  | module _ _ => none
  | block _ => none
  | assign _ _ => none

/-- The nameless forms of a list of terms. -/
def namelessAll? (scope : List String) : List Term → Option (List Nameless)
  | [] => some []
  | t :: ts => do
    let v ← t.nameless? scope
    let vs ← namelessAll? scope ts
    return v :: vs

end

theorem namelessAll?_cons_eq_some_iff {scope : List String} {t : Term} {ts : List Term}
    {vs : List Nameless} :
    namelessAll? scope (t :: ts) = some vs ↔
      ∃ v vs', t.nameless? scope = some v ∧ namelessAll? scope ts = some vs' ∧ vs = v :: vs' := by
  simp only [namelessAll?, Option.bind_eq_bind, Option.bind_eq_some_iff, Option.pure_def,
    Option.some.injEq]
  constructor
  · rintro ⟨v, hv, vs', hvs, rfl⟩
    exact ⟨v, vs', hv, hvs, rfl⟩
  · rintro ⟨v, vs', hv, hvs, rfl⟩
    exact ⟨v, hv, vs', hvs, rfl⟩

theorem namelessAll?_singleton_eq_some_iff {scope : List String} {t : Term} {vs : List Nameless} :
    namelessAll? scope [t] = some vs ↔ ∃ v, t.nameless? scope = some v ∧ vs = [v] := by
  rw [namelessAll?_cons_eq_some_iff]
  simp [namelessAll?]

theorem nameless?_apply_eq_some_iff {scope : List String} {callee : Term} {args : List Term}
    {v : Nameless} :
    (apply callee args).nameless? scope = some v ↔
      ∃ f as, namelessAll? scope (callee :: args) = some (f :: as) ∧ v = .apply f as := by
  simp only [nameless?, namelessAll?_cons_eq_some_iff, Option.bind_eq_bind, Option.bind_eq_some_iff,
    Option.pure_def, Option.some.injEq]
  constructor
  · rintro ⟨f, hf, as, has, rfl⟩
    exact ⟨f, as, ⟨f, as, hf, has, rfl⟩, rfl⟩
  · rintro ⟨f, as, ⟨_, _, hf, has, ⟨rfl, rfl⟩⟩, rfl⟩
    exact ⟨f, hf, as, has, rfl⟩

theorem nameless?_lambda_eq_some_iff {scope : List String} {body : Term} {params : List Term}
    {v : Nameless} :
    (lambda body params).nameless? scope = some v ↔
      ∃ names inner, params.mapM symbolName? = some names ∧
        body.nameless? (names.reverse ++ scope) = some inner ∧ v = .lambda names.length inner := by
  simp only [nameless?, Option.bind_eq_bind, Option.bind_eq_some_iff, Option.pure_def,
    Option.some.injEq]
  constructor
  · rintro ⟨names, hnames, inner, hinner, rfl⟩
    exact ⟨names, inner, hnames, hinner, rfl⟩
  · rintro ⟨names, inner, hnames, hinner, rfl⟩
    exact ⟨names, hnames, inner, hinner, rfl⟩

theorem mapM_symbolName?_symbols (xs : List String) :
    (xs.map symbol).mapM symbolName? = some xs := by
  induction xs with
  | nil => rfl
  | cons x xs ih => simp [List.mapM_cons, symbolName?, ih]

mutual

/-- A nameless form does not change if parameters are added around all others. -/
theorem nameless?_append {scope : List String} {v : Nameless} (outer : List String) :
    ∀ t : Term, t.nameless? scope = some v → t.nameless? (scope ++ outer) = some v
  | symbol x, h => by
      obtain ⟨i, hi, rfl⟩ := Option.map_eq_some_iff.mp h
      have hi' : (scope ++ outer).idxOf? x = some i := by
        rw [List.idxOf?, List.findIdx?_append]
        exact Option.or_eq_some_iff.mpr (Or.inl hi)
      rw [nameless?, hi', Option.map_some]
  | integer _, h => h
  | lambda body params, h => by
      obtain ⟨names, inner, hnames, hinner, rfl⟩ := nameless?_lambda_eq_some_iff.mp h
      have hbody := nameless?_append outer body hinner
      rw [List.append_assoc] at hbody
      exact nameless?_lambda_eq_some_iff.mpr ⟨names, inner, hnames, hbody, rfl⟩
  | apply callee args, h => by
      obtain ⟨f, as, hall, rfl⟩ := nameless?_apply_eq_some_iff.mp h
      obtain ⟨_, _, hf, has, hcons⟩ := namelessAll?_cons_eq_some_iff.mp hall
      obtain ⟨rfl, rfl⟩ := List.cons.inj hcons
      exact nameless?_apply_eq_some_iff.mpr ⟨f, as, namelessAll?_cons_eq_some_iff.mpr
        ⟨f, as, nameless?_append outer callee hf, namelessAll?_append outer args has, rfl⟩, rfl⟩
  | module _ _, h => by cases h
  | block _, h => by cases h
  | assign _ _, h => by cases h

theorem namelessAll?_append {scope : List String} {vs : List Nameless} (outer : List String) :
    ∀ ts : List Term, namelessAll? scope ts = some vs → namelessAll? (scope ++ outer) ts = some vs
  | [], h => h
  | t :: ts, h => by
      obtain ⟨v, vs', hv, hvs, rfl⟩ := namelessAll?_cons_eq_some_iff.mp h
      exact namelessAll?_cons_eq_some_iff.mpr
        ⟨v, vs', nameless?_append outer t hv, namelessAll?_append outer ts hvs, rfl⟩

end

/-- Two closed terms that differ at most in the names of their parameters. -/
def AlphaEquiv (t u : Term) : Prop := ∃ v, t.nameless? [] = some v ∧ u.nameless? [] = some v

end Term

/-- `Unfolds style fs es ts`: the terms `ts` arise from the C expressions `es` if every name of a
function is replaced by the lambda that the function of this number in `fs` is, unfolded in turn. -/
inductive Unfolds (style : Style) (fs : List Function) : List Expr → List Term → Prop
  | nil : Unfolds style fs [] []
  | param {x es ts} (hx : ∀ i < fs.length, x ≠ style.functionName i) (rest :
    Unfolds style fs es ts) :
      Unfolds style fs (.name x :: es) (.symbol x :: ts)
  | literal {value es ts} (rest : Unfolds style fs es ts) :
      Unfolds style fs (.literal value :: es) (.integer value :: ts)
  | function {i f body es ts} (hf : fs[i]? = some f) (inside : Unfolds style fs [f.body] [body])
      (rest : Unfolds style fs es ts) :
      Unfolds style fs (.name (style.functionName i) :: es)
        (.lambda body (f.params.map Term.symbol) :: ts)
  | call {callee args t us es ts} (inside : Unfolds style fs (callee :: args) (t :: us))
      (rest : Unfolds style fs es ts) :
      Unfolds style fs (.call callee args :: es) (.apply t us :: ts)

/-- Unfolding is deterministic. -/
theorem Unfolds.unique {style : Style} {fs : List Function} {es : List Expr} {ts us : List Term}
    (h : Unfolds style fs es ts) (h' : Unfolds style fs es us) : ts = us := by
  induction h generalizing us with
  | nil => cases h'; rfl
  | @param x es ts hx _ ih =>
      generalize hname : Expr.name x = e at h'
      cases h' with
      | param _ rest' => cases hname; rw [ih rest']
      | literal _ => cases hname
      | @function i _ _ _ _ hf _ _ =>
          obtain ⟨hi, _⟩ := List.getElem?_eq_some_iff.mp hf
          exact absurd (Expr.name.inj hname) (hx i hi)
      | call _ _ => cases hname
  | literal _ ih =>
      cases h' with
      | literal rest' => rw [ih rest']
  | @function i f body es ts hf _ _ ihinside ihrest =>
      generalize hname : Expr.name (style.functionName i) = e at h'
      cases h' with
      | param hx _ =>
          obtain ⟨hi, _⟩ := List.getElem?_eq_some_iff.mp hf
          exact absurd (Expr.name.inj hname).symm (hx i hi)
      | literal _ => cases hname
      | function hf' inside' rest' =>
          obtain rfl := style.functionName_injective (Expr.name.inj hname)
          obtain rfl := Option.some.inj (hf.symm.trans hf')
          rw [List.cons.inj (ihinside inside') |>.1, ihrest rest']
      | call _ _ => cases hname
  | call _ _ ihinside ihrest =>
      cases h' with
      | call inside' rest' =>
          obtain ⟨rfl, rfl⟩ := List.cons.inj (ihinside inside')
          rw [ihrest rest']

theorem Unfolds.exists_cons {style : Style} {fs : List Function} {e : Expr} {es : List Expr}
    {ts : List Term} (h : Unfolds style fs (e :: es) ts) :
    ∃ u us, ts = u :: us ∧ Unfolds style fs es us := by
  cases h with
  | param _ rest => exact ⟨_, _, rfl, rest⟩
  | literal rest => exact ⟨_, _, rfl, rest⟩
  | function _ _ rest => exact ⟨_, _, rfl, rest⟩
  | call _ rest => exact ⟨_, _, rfl, rest⟩

theorem Unfolds.exists_singleton {style : Style} {fs : List Function} {e : Expr} {ts : List Term}
    (h : Unfolds style fs [e] ts) : ∃ u, ts = [u] := by
  obtain ⟨u, us, rfl, hnil⟩ := h.exists_cons
  cases hnil
  exact ⟨u, rfl⟩

/-- None of the names is that of one of the first `count` functions. -/
def Apart (style : Style) (count : Nat) (names : List String) : Prop :=
  ∀ y ∈ names, ∀ i < count, y ≠ style.functionName i

/-- A body that unfolds to the body of a lambda, up to the names emitted for the parameters, unfolds
to that lambda once the parameters stand before it. -/
theorem Unfolds.exists_alphaEquiv {style : Style} {all : List Function} {e : Expr} {us : List Term}
    (hus : Unfolds style all [e] us) {body : Term} {params : List Term} {names : List String}
    {inner : Renaming} (bound : Renaming.empty.bindParams params = .ok (names, inner))
    {vs : List Nameless}
    (hts : Term.namelessAll? (inner.bound.map Renamed.source) [body] = some vs)
    (hvs : Term.namelessAll? inner.emitted us = some vs) :
    ∃ u, Unfolds style all [e] [u] ∧
      (Term.lambda u (names.map Term.symbol)).AlphaEquiv (.lambda body params) := by
  obtain ⟨u, rfl⟩ := hus.exists_singleton
  obtain ⟨v, hbody, rfl⟩ := Term.namelessAll?_singleton_eq_some_iff.mp hts
  obtain ⟨_, hu, hcons⟩ := Term.namelessAll?_singleton_eq_some_iff.mp hvs
  obtain ⟨rfl, _⟩ := List.cons.inj hcons
  obtain ⟨xs, rfl, hlength, hsource, hemitted⟩ := Renaming.bindParams_bound bound
  rw [hsource] at hbody
  rw [hemitted] at hu
  refine ⟨u, hus, .lambda names.length v, ?_, ?_⟩
  · exact Term.nameless?_lambda_eq_some_iff.mpr
      ⟨names, v, Term.mapM_symbolName?_symbols names, hu, rfl⟩
  · exact Term.nameless?_lambda_eq_some_iff.mpr
      ⟨xs, v, Term.mapM_symbolName?_symbols xs, hbody, by rw [hlength]⟩

open Term in
/-- Terms that are lifted become expressions that unfold to the same terms, in which the emitted
names stand for the source names. -/
theorem Lifts.unfolds {style : Style} {r : Renaming} {n : Nat} {ts : List Term} {es : List Expr}
    {fs all : List Function} (h : Lifts style r n ts es fs) (hplaced : Placed n fs all)
    (hnodup : r.emitted.Nodup) (hr : Apart style all.length r.emitted)
    (hfs : ∀ f ∈ fs, Apart style all.length f.params) :
    ∃ us vs, Unfolds style all es us ∧
      namelessAll? (r.bound.map Renamed.source) ts = some vs ∧
      namelessAll? r.emitted us = some vs := by
  induction h with
  | nil => exact ⟨[], [], .nil, rfl, rfl⟩
  | @symbol r n x y ts es fs found _ ih =>
      obtain ⟨us, vs, hus, hts, hvs⟩ := ih hplaced hnodup hr hfs
      obtain ⟨i, hsource, hemitted⟩ := Renaming.idxOf?_emitted_of_find? hnodup found
      refine ⟨.symbol y :: us, .var i :: vs,
        .param (hr y (Renaming.mem_emitted_of_find? found)) hus, ?_, ?_⟩
      · exact namelessAll?_cons_eq_some_iff.mpr ⟨_, _, by rw [nameless?, hsource]; rfl, hts, rfl⟩
      · exact namelessAll?_cons_eq_some_iff.mpr ⟨_, _, by rw [nameless?, hemitted]; rfl, hvs, rfl⟩
  | @integer r n value ts es fs _ ih =>
      obtain ⟨us, vs, hus, hts, hvs⟩ := ih hplaced hnodup hr hfs
      exact ⟨.integer value :: us, .integer value :: vs, .literal hus,
        namelessAll?_cons_eq_some_iff.mpr ⟨_, _, rfl, hts, rfl⟩,
        namelessAll?_cons_eq_some_iff.mpr ⟨_, _, rfl, hvs, rfl⟩⟩
  | @lambda r n body params names inner e fs ts es gs bound _ _ ihinside ihrest =>
      have hinner : Apart style all.length inner.emitted := fun y hy =>
        hfs _ (List.mem_append_right _ List.mem_cons_self) y ((mem_emitted_iff bound).mp hy)
      obtain ⟨us₀, vs₀, hus₀, hts₀, hvs₀⟩ := ihinside hplaced.left
        (Renaming.nodup_emitted_bindParams bound List.nodup_nil) hinner
        (fun f hf => hfs f (List.mem_append_left _ hf))
      obtain ⟨u, hu, w, hlifted, hlambda⟩ := hus₀.exists_alphaEquiv bound hts₀ hvs₀
      obtain ⟨us, vs, hus, hts, hvs⟩ := ihrest hplaced.right.tail hnodup hr
        (fun f hf => hfs f (List.mem_append_right _ (List.mem_cons_of_mem _ hf)))
      -- The lambda is closed, so its nameless form is the same under the names around it.
      refine ⟨.lambda u (names.map Term.symbol) :: us, w :: vs,
        .function (hplaced.right 0 _ rfl) hu hus, ?_, ?_⟩
      · exact namelessAll?_cons_eq_some_iff.mpr ⟨w, vs, nameless?_append _ _ hlambda, hts, rfl⟩
      · exact namelessAll?_cons_eq_some_iff.mpr ⟨w, vs, nameless?_append _ _ hlifted, hvs, rfl⟩
  | @apply r n callee args f as fs ts es gs _ _ ihinside ihrest =>
      obtain ⟨us₀, vs₀, hus₀, hcall, hvs₀⟩ := ihinside hplaced.left hnodup hr
        (fun f hf => hfs f (List.mem_append_left _ hf))
      obtain ⟨u, us', rfl, _⟩ := hus₀.exists_cons
      obtain ⟨v, vs', _, _, rfl⟩ := namelessAll?_cons_eq_some_iff.mp hcall
      obtain ⟨us, vs, hus, hts, hvs⟩ := ihrest hplaced.right hnodup hr
        (fun f hf => hfs f (List.mem_append_right _ hf))
      refine ⟨.apply u us' :: us, .apply v vs' :: vs, .call hus₀ hus, ?_, ?_⟩
      · exact namelessAll?_cons_eq_some_iff.mpr
          ⟨_, _, nameless?_apply_eq_some_iff.mpr ⟨v, vs', hcall, rfl⟩, hts, rfl⟩
      · exact namelessAll?_cons_eq_some_iff.mpr
          ⟨_, _, nameless?_apply_eq_some_iff.mpr ⟨v, vs', hvs₀, rfl⟩, hvs, rfl⟩

/-- The function `f` unfolds to a lambda that is the lambda `l` up to the names of parameters. -/
def Denotes (style : Style) (fs : List Function) (f : Function) (l : Term) : Prop :=
  ∃ body, Unfolds style fs [f.body] [body] ∧
    (Term.lambda body (f.params.map Term.symbol)).AlphaEquiv l

/-- A function lifted from a lambda denotes it if no parameter is named like a function. -/
theorem LiftedFrom.denotes {style : Style} {all : List Function} {f : Function} {l : Term}
    (h : LiftedFrom style all f l) (hall : ∀ g ∈ all, Apart style all.length g.params)
    (hf : f ∈ all) : Denotes style all f l := by
  obtain ⟨body, params, inner, n, gs, rfl, bound, inside, hplaced⟩ := h
  have hinner : Apart style all.length inner.emitted := fun y hy =>
    hall f hf y ((Lifts.mem_emitted_iff bound).mp hy)
  obtain ⟨us, vs, hus, hts, hvs⟩ := inside.unfolds hplaced
    (Renaming.nodup_emitted_bindParams bound List.nodup_nil) hinner
    (fun g hg => hall g (hplaced.mem hg))
  exact hus.exists_alphaEquiv bound hts hvs

/-- The definitions of a unit read as the functions `fs`. -/
def Target.CompilationUnit.ReadsBack (unit : CompilationUnit) (fs : List Function) : Prop :=
  List.Forall₂ ReadsAs unit.definitions fs

/-- Lifted functions with identifiers for all their names can be read back from the unit in one
way. -/
theorem readsBack_iff {style : Style} (htype : Token.isIdentifier style.anyType)
    {unit : CompilationUnit} {fs : List Function}
    (hunit : unit.functions = fs.map (Function.text style)) (hfs : ∀ f ∈ fs, f.Nameable)
    {gs : List Function} : unit.ReadsBack gs ↔ gs = fs := by
  have hdefinitions : unit.definitions = fs.map (Function.definition style) := by
    simp [CompilationUnit.definitions, hunit, Function.text]
  have hself : unit.ReadsBack fs := by
    rw [CompilationUnit.ReadsBack, hdefinitions, List.forall₂_map_left_iff, List.forall₂_same]
    exact fun f hf => Function.readsAs_definition htype (hfs f hf)
  constructor
  · intro hgs
    exact List.right_unique_forall₂' (R := ReadsAs) (fun _ _ _ => ReadsAs.unique) hgs hself
  · rintro rfl
    exact hself

/-- Lifting keeps the meaning of lambdas. The definitions of a lowered module can be read back in
exactly one way. If no parameter has the name of a function of the unit, then the definition with
the number `k` has exactly one unfolding, and this is the lambda with the number `k` of the module
in postorder, up to the names of parameters. -/
theorem Module.lower_preserves_meaning {style : Style} (hstyle : style.WellFormed) {m : Module}
    (hm : ∀ x, .symbol x ∈ m.postorder → Token.isIdentifier x) {events events' : List Event}
    {unit : CompilationUnit} (h : m.lower style events = .ok unit events') :
    ∃ fs, (∀ gs, unit.ReadsBack gs ↔ gs = fs) ∧ fs.length = m.lambdas.length ∧
      ((∀ f ∈ fs, Apart style unit.size f.params) →
        ∀ k f l, fs[k]? = some f → m.lambdas[k]? = some l →
          f.name = style.functionName k ∧
          ∃ body, (∀ b, Unfolds style fs [f.body] [b] ↔ b = body) ∧
            (Term.lambda body (f.params.map Term.symbol)).AlphaEquiv l) := by
  obtain ⟨es, fs, hlifts, hunit⟩ := m.lower_lifts h
  have hfrom : List.Forall₂ (LiftedFrom style fs) fs m.lambdas :=
    hlifts.liftedFrom (fun k f hf => by rwa [Nat.zero_add])
  refine ⟨fs, fun gs => readsBack_iff hstyle.anyType hunit
    (fun f hf => hlifts.nameable hstyle hm hf), hfrom.length_eq, fun hapart k f l hf hl => ?_⟩
  have hsize : unit.size = fs.length := by simp [CompilationUnit.size, hunit]
  rw [hsize] at hapart
  have hkl : LiftedFrom style fs f l := by
    obtain ⟨hk, rfl⟩ := List.getElem?_eq_some_iff.mp hf
    obtain ⟨hk', rfl⟩ := List.getElem?_eq_some_iff.mp hl
    exact hfrom.get hk hk'
  obtain ⟨body, hbody, halpha⟩ := hkl.denotes hapart (List.mem_of_getElem? hf)
  refine ⟨by simpa using (hlifts.selfContained hf).name, body, fun b => ⟨fun hb => ?_, ?_⟩, halpha⟩
  · exact (List.cons.inj (hb.unique hbody)).1
  · rintro rfl
    exact hbody

/-- In `(f a a) => ((y) => y a 07)` the last `a` is meant, a lambda is called and the integer has a
zero in front. -/
theorem Module.lower_preserves_meaning_nested :
    let m : Module := ⟨"m", [.lambda (.apply (.lambda (.symbol "y") [.symbol "y"])
      [.symbol "a", .integer ⟨"07", by decide, by decide⟩]) [.symbol "f", .symbol "a",
        .symbol "a"]]⟩
    ∃ unit events fs f l body, m.lower {} [] = .ok unit events ∧ unit.ReadsBack fs ∧
      (∀ f ∈ fs, Apart {} unit.size f.params) ∧ fs[1]? = some f ∧ m.lambdas[1]? = some l ∧
      f.params = ["f", "a", "a2"] ∧ Unfolds {} fs [f.body] [body] ∧
      (Term.lambda body (f.params.map Term.symbol)).AlphaEquiv l := by
  intro m
  let inner : Function := ⟨"kv_abs0_f", ["y"], .name "y"⟩
  let outer : Function := ⟨"kv_abs1_f", ["f", "a", "a2"], .call (.name "kv_abs0_f")
    [.name "a2", .literal ⟨"07", by decide, by decide⟩]⟩
  let unit : CompilationUnit := ⟨"m", [inner, outer].map (Function.text {})⟩
  obtain ⟨events, hunit⟩ : ∃ events, m.lower {} [] = .ok unit events := by
    apply exists_eq_ok_of_value
    decide +kernel
  have hm : ∀ x, .symbol x ∈ m.postorder → Token.isIdentifier x := by
    intro x hx
    simp only [m, Module.postorder, Term.postorderAll, Term.postorder, List.cons_append,
      List.nil_append, List.mem_cons, List.not_mem_nil, Term.symbol.injEq, reduceCtorEq, or_false,
      false_or] at hx
    rcases hx with rfl | rfl | rfl | rfl | rfl | rfl <;> decide
  obtain ⟨fs, hread, _, hmeaning⟩ :=
    Module.lower_preserves_meaning Style.wellFormed_default hm hunit
  have hnames : ∀ f ∈ [inner, outer], f.Nameable := by
    simp only [List.mem_cons, List.not_mem_nil, or_false, forall_eq_or_imp, forall_eq]
    exact ⟨⟨by decide, by decide, by decide⟩, by decide, by decide, by decide⟩
  have hapart : ∀ f ∈ [inner, outer], Apart {} unit.size f.params := by
    simp only [List.mem_cons, List.not_mem_nil, or_false, forall_eq_or_imp, forall_eq]
    exact ⟨by unfold Apart; decide, by unfold Apart; decide⟩
  have hself : unit.ReadsBack [inner, outer] :=
    (readsBack_iff Style.wellFormed_default.anyType rfl hnames).mpr rfl
  obtain rfl := (hread _).mp hself
  obtain ⟨_, body, hbody, halpha⟩ := hmeaning hapart 1 outer _ rfl rfl
  exact ⟨unit, events, _, outer, _, body, hunit, hself, hapart, rfl, rfl, rfl, (hbody body).mpr rfl,
    halpha⟩

end LambdaLift
