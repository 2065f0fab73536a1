import LambdaLift.Proofs.FrontEnd
import LambdaLift.Proofs.Meaning

/-!
# Parameters named like functions

Parameters and functions get their names from two supplies that do not know each other. They meet
exactly where a lambda has a parameter that is called like one of the lifted functions: a parameter
keeps its name if that is free among the parameters, and a number is put only after a name.
-/

namespace LambdaLift

open Target

namespace Renaming

/-- An emitted parameter has the name of a parameter, or one with a number after it. -/
theorem mem_emitted_bindParams {r inner : Renaming} {params : List Term} {names : List String}
    (h : r.bindParams params = .ok (names, inner)) :
    ∀ y ∈ inner.emitted, .symbol y ∈ params ∨ y ∈ r.emitted ∨ ∃ base n, y = numbered base n := by
  refine bindParams_induct (P := fun s => ∀ y ∈ s.emitted,
    .symbol y ∈ params ∨ y ∈ r.emitted ∨ ∃ base n, y = numbered base n) h
      (fun y hy => .inr (.inl hy)) ?_
  intro s x hx hs y hy
  rcases List.mem_cons.mp hy with rfl | hy
  · rcases s.fresh_eq_or_numbered x with hbase | ⟨n, hn⟩
    · rw [hbase]
      exact .inl hx
    · exact .inr (.inr ⟨x, n, hn⟩)
  · exact hs y hy

/-- A name that is bound is emitted: if it was not free, then it had been emitted before. -/
theorem mem_emitted_bind_self (r : Renaming) (x : String) : x ∈ (r.bind x).emitted := by
  rw [emitted_bind]
  by_cases hbase : x ∈ r.emitted
  · exact List.mem_cons_of_mem _ hbase
  · rw [fresh_of_notMem hbase]
    exact List.mem_cons_self

/-- The name of every parameter is emitted, though perhaps for another parameter. -/
theorem symbol_mem_emitted_bindParams {r inner : Renaming} {params : List Term}
    {names : List String} (h : r.bindParams params = .ok (names, inner)) {x : String}
    (hx : .symbol x ∈ params) : x ∈ inner.emitted := by
  induction params generalizing r names with
  | nil => cases hx
  | cons param params ih =>
      obtain ⟨y, rest, rfl, rfl, hrest⟩ := bindParams_cons_eq_ok h
      rcases List.mem_cons.mp hx with hx | hx
      · cases hx
        exact bindParams_induct (P := fun s => x ∈ s.emitted) hrest (r.mem_emitted_bind_self x)
          fun s z _ hs => List.mem_cons_of_mem _ hs
      · exact ih hrest hx

end Renaming

/-- A function of the default style has a letter at the end of its name, a numbered parameter a
digit. -/
theorem functionName_ne_numbered (base : String) (n i : Nat) :
    ({} : Style).functionName i ≠ Renaming.numbered base n := by
  intro h
  obtain ⟨c, hc⟩ := Option.isSome_iff_exists.mp (List.getLast?_isSome.mpr (repr_toList_ne_nil n))
  have hnumbered : (Renaming.numbered base n).toList.getLast? = some c := by
    rw [Renaming.numbered, String.toList_append, List.getLast?_append, hc]
    rfl
  have hfunction : (({} : Style).functionName i).toList.getLast? = some 'f' := by
    rw [Style.functionName, String.toList_append, List.getLast?_append]
    rfl
  have hdigit : c.isDigit := isDigit_of_mem_repr (List.mem_of_getLast? hc)
  rw [h, hnumbered] at hfunction
  cases hfunction
  cases hdigit

/-- Some parameter of a function has the name of a function. -/
def Clash (fs : List Function) : Prop := ∃ f ∈ fs, ∃ g ∈ fs, g.name ∈ f.params

/-- Whether a term is a lambda with a parameter of a given name. -/
def Term.hasParam (x : String) : Term → Bool
  | lambda _ params => params.any (·.symbolName? == some x)
  | _ => false

theorem Term.hasParam_lambda_iff {x : String} {body : Term} {params : List Term} :
    (lambda body params).hasParam x ↔ symbol x ∈ params := by
  have hsymbol (t : Term) : t.symbolName? = some x ↔ t = symbol x := by
    cases t <;> simp [symbolName?]
  simp [hasParam, hsymbol]

/-- A lambda of a module has a parameter that is called like one of the first functions of the
style, as many as the module has lambdas. -/
def Module.NamesFunction (style : Style) (m : Module) : Prop :=
  ∃ l ∈ m.lambdas, ∃ i < m.lambdas.length, l.hasParam (style.functionName i)

instance (style : Style) (m : Module) : Decidable (m.NamesFunction style) :=
  inferInstanceAs (Decidable (∃ l ∈ m.lambdas, ∃ i < m.lambdas.length,
    l.hasParam (style.functionName i)))

/-- Among the names emitted for the parameters of a lambda, those of functions are the ones that the
parameters have themselves. -/
theorem functionName_mem_params_iff {params : List Term} {names : List String} {inner : Renaming}
    (bound : Renaming.empty.bindParams params = .ok (names, inner)) (i : Nat) :
    ({} : Style).functionName i ∈ names ↔ .symbol (({} : Style).functionName i) ∈ params := by
  rw [← Lifts.mem_emitted_iff bound]
  constructor
  · intro hmem
    rcases Renaming.mem_emitted_bindParams bound _ hmem with hsymbol | hempty | ⟨base, n, hnumbered⟩
    · exact hsymbol
    · cases hempty
    · exact absurd hnumbered (functionName_ne_numbered base n i)
  · exact Renaming.symbol_mem_emitted_bindParams bound

theorem exists_of_mem_of_forall₂ {α β : Type} {R : α → β → Prop} {as : List α} {bs : List β}
    (h : List.Forall₂ R as bs) {a : α} (ha : a ∈ as) : ∃ b ∈ bs, R a b := by
  induction h with
  | nil => cases ha
  | @cons c b _ _ hab _ ih =>
      rcases List.mem_cons.mp ha with rfl | ha
      · exact ⟨b, List.mem_cons_self, hab⟩
      · obtain ⟨d, hd, had⟩ := ih ha
        exact ⟨d, List.mem_cons_of_mem _ hd, had⟩

/-- Lifted functions clash exactly if a lambda has a parameter with the name of one of them. -/
theorem clash_iff {m : Module} {es : List Expr} {fs : List Function}
    (h : Lifts {} .empty 0 m.body es fs) : Clash fs ↔ m.NamesFunction {} := by
  have hfrom : List.Forall₂ (LiftedFrom {} fs) fs m.lambdas :=
    h.liftedFrom (fun k f hf => by rwa [Nat.zero_add])
  have hname {k : Nat} {f : Function} (hf : fs[k]? = some f) :
      f.name = ({} : Style).functionName k := by
    simpa using (h.selfContained hf).name
  constructor
  · rintro ⟨f, hf, g, hg, hclash⟩
    obtain ⟨j, hj⟩ := List.mem_iff_getElem?.mp hg
    obtain ⟨l, hl, body, params, inner, _, _, rfl, bound, _⟩ := exists_of_mem_of_forall₂ hfrom hf
    rw [hname hj, functionName_mem_params_iff bound] at hclash
    refine ⟨_, hl, j, ?_, Term.hasParam_lambda_iff.mpr hclash⟩
    rw [← hfrom.length_eq]
    exact (List.getElem?_eq_some_iff.mp hj).1
  · rintro ⟨l, hl, i, hi, hparam⟩
    obtain ⟨f, hf, body, params, inner, _, _, rfl, bound, _⟩ :=
      exists_of_mem_of_forall₂ hfrom.flip hl
    have hsymbol := (functionName_mem_params_iff bound i).mpr (Term.hasParam_lambda_iff.mp hparam)
    rw [← hfrom.length_eq] at hi
    have hg : fs[i]? = some fs[i] := List.getElem?_eq_getElem hi
    exact ⟨f, hf, fs[i], List.getElem_mem hi, by rwa [hname hg]⟩

/-- A name in the body of a lifted function is that of a parameter or that of a function. -/
theorem Lifts.mem_params_or_name {style : Style} {r : Renaming} {ts : List Term} {es : List Expr}
    {fs : List Function} (h : Lifts style r 0 ts es fs) {f : Function} (hf : f ∈ fs) {x : String}
    (hx : x ∈ f.body.names) : x ∈ f.params ∨ ∃ g ∈ fs, g.name = x := by
  obtain ⟨k, hk⟩ := List.mem_iff_getElem?.mp hf
  rcases (h.selfContained hk).mem_names x hx with hx | ⟨j, hj, rfl⟩
  · exact .inl hx
  · obtain ⟨hlt, _⟩ := List.getElem?_eq_some_iff.mp hk
    have hg : fs[j]? = some fs[j] := List.getElem?_eq_getElem (by omega)
    exact .inr ⟨fs[j], List.getElem_mem _, by simpa using (h.selfContained hg).name⟩

/-- A text that compiles with the default style has a parameter with the name of a function of its
unit exactly if one of its lambdas has a parameter that is called `kv_abs0_f`, `kv_abs1_f` and so
on, with a number below that of lambdas. If there is none, then every name in the body of a function
is that of a parameter or that of a function, and never both. -/
theorem compile_clash_iff {name source : String} {core : List String} {events events' : List Event}
    {emitted : Emitted} (h : compile .text name source ⟨{}, core⟩ events = .ok emitted events') :
    ∃ m unit fs, (∃ s, Module.ofSource .text name source events = .ok m s) ∧
      (∃ s s', m.lower {} s = .ok unit s') ∧ emitted = unit.emit {} ∧
      (∀ gs, unit.ReadsBack gs ↔ gs = fs) ∧ (Clash fs ↔ m.NamesFunction {}) ∧
      (¬ m.NamesFunction {} → ∀ f ∈ fs, ∀ x ∈ f.body.names,
        (x ∈ f.params ∨ ∃ g ∈ fs, g.name = x) ∧ ¬ (x ∈ f.params ∧ ∃ g ∈ fs, g.name = x)) := by
  obtain ⟨m, s, hm, hcompile⟩ := compile_eq_ok h
  obtain ⟨unit, s₁, s₂, hunit, rfl⟩ := Module.compile_eq_ok hcompile
  obtain ⟨es, fs, hlifts, hfunctions⟩ := m.lower_lifts hunit
  have hnameable : ∀ f ∈ fs, f.Nameable := fun f hf =>
    hlifts.nameable Style.wellFormed_default (fun x hx => Module.isIdentifier_of_ofSource hm hx) hf
  refine ⟨m, unit, fs, ⟨s, hm⟩, ⟨s₁, s₂, hunit⟩, rfl,
    fun gs => readsBack_iff Style.wellFormed_default.anyType hfunctions hnameable, clash_iff hlifts,
      ?_⟩
  intro hnames f hf x hx
  refine ⟨hlifts.mem_params_or_name hf hx, ?_⟩
  rintro ⟨hparam, g, hg, rfl⟩
  exact hnames ((clash_iff hlifts).mp ⟨f, hf, g, hg, hparam⟩)

/-- A parameter `kv_abs7_f` is harmless in a text with one lambda. -/
theorem compile_clash_iff_harmless :
    ∃ (emitted : Emitted) (events : List Event) (unit : CompilationUnit) (fs : List Function),
      compile .text "m" "(x kv_abs7_f) => x" {} [] = .ok emitted events ∧
      emitted = unit.emit {} ∧ unit.ReadsBack fs ∧ ¬ Clash fs := by
  obtain ⟨events, hcompile⟩ : ∃ events, compile .text "m" "(x kv_abs7_f) => x" {} [] =
      .ok (CompilationUnit.emit {} ⟨"m", [Function.text {} ⟨"kv_abs0_f", ["x", "kv_abs7_f"],
        .name "x"⟩]⟩) events := by
    apply exists_eq_ok_of_value
    decide +kernel
  obtain ⟨m, unit, fs, ⟨s, hm⟩, _, hemit, hread, hclash, _⟩ := compile_clash_iff hcompile
  have hnames : (match Module.ofSource .text "m" "(x kv_abs7_f) => x" [] with
      | .ok m _ => decide (¬ m.NamesFunction {})
      | .error _ _ => false) = true := by
    decide +kernel
  rw [hm] at hnames
  refine ⟨_, events, unit, fs, hcompile, hemit, (hread fs).mpr rfl, ?_⟩
  rw [hclash]
  exact of_decide_eq_true hnames

/-- In the text `(kv_abs0_f) => ((y) => y kv_abs0_f)` the parameter of the outer lambda and the
function for the inner one have the same name, and the emitted call applies the parameter to
itself. -/
theorem compile_clash_self_application :
    let identity : Function := ⟨"kv_abs0_f", ["y"], .name "y"⟩
    let caller : Function :=
      ⟨"kv_abs1_f", ["kv_abs0_f"], .call (.name "kv_abs0_f") [.name "kv_abs0_f"]⟩
    let unit : CompilationUnit := ⟨"m", [identity.text {}, caller.text {}]⟩
    (∃ events, compile .text "m" "(kv_abs0_f) => ((y) => y kv_abs0_f)" {} [] =
      .ok (unit.emit {}) events) ∧ unit.ReadsBack [identity, caller] ∧
        Clash [identity, caller] := by
  intro identity caller unit
  refine ⟨?_, ?_, ?_⟩
  · apply exists_eq_ok_of_value
    decide +kernel
  · refine (readsBack_iff Style.wellFormed_default.anyType rfl ?_).mpr rfl
    simp only [List.mem_cons, List.not_mem_nil, or_false, forall_eq_or_imp, forall_eq]
    exact ⟨⟨by decide, by decide, by decide⟩, by decide, by decide, by decide⟩
  · exact ⟨caller, by simp, identity, by simp, List.mem_singleton_self _⟩

end LambdaLift
